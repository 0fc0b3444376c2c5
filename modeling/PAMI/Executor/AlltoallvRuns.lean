import PAMI.Executor.Alltoallv

namespace PAMI.Executor

open PAMI.Math PAMI.Util Function Option Nat

namespace AlltoallvExec

variable {w N : ℕ} {σ : Standing} {x : AlltoallvExec w} {v : BitVector w} {r b : Fin N} {i j : ℕ}

def Flags (r : Fin N) (σ : Standing) (v : BitVector w) : Prop :=
  v.size = N ∧ ∀ i : Fin N, v.get i = true ↔ ∃ j, partner r j = some i ∧ σ.came j = true ∧ ¬ σ.Posted j

/-- The executor of a rank, by what the rank sees. -/
structure Placed (r : Fin N) (σ : Standing) (x : AlltoallvExec w) : Prop where
  failed : x.failed = false
  entered_le : σ.entered ≤ nphases N + 1
  dones : x.dones = if σ.entered = nphases N + 1 then 1 else 0
  curphase : x.curphase + 1 = σ.entered
  lphase : 0 < σ.entered → x.lphase = min σ.entered (nphases N)
  first : σ.entered = 0 → x.parindex = getPartnerIndex 0 N r
  parindex : ∀ j, σ.entered = j + 1 → j < nphases N → ∃ b, partner r j = some b ∧ x.parindex = some b.val
  flags : Flags r σ x.rphase
  senddone : x.senddone = σ.sent
  recvdone : ∀ k, x.recvdone k = true ↔ k = x.slot ∧ σ.received = true
  once : ¬ (σ.sent = true ∧ σ.received = true)
  sent : σ.sent = true → σ.posted = true
  posted : σ.posted = true → 0 < σ.entered ∧ σ.entered ≤ nphases N
  received : σ.received = true → 0 < σ.entered ∧ σ.entered ≤ nphases N

def Waits (N : ℕ) (σ : Standing) : Prop :=
  ∀ j, σ.entered = j + 1 → j < nphases N → σ.announced = true → σ.came j = true → σ.granted j = true → σ.posted = true

def Stands (r : Fin N) (σ : Standing) (x : AlltoallvExec w) : Prop := Placed r σ x ∧ Waits N σ

/-- The executor of a rank that enters its next phase. -/
structure Entering (r : Fin N) (σ : Standing) (x : AlltoallvExec w) : Prop where
  failed : x.failed = false
  entered_le : σ.entered ≤ nphases N
  dones : x.dones = 0
  curphase : x.curphase = σ.entered
  lphase : x.lphase = σ.entered
  flags : Flags r σ.enter x.rphase
  senddone : x.senddone = false
  recvdone : ∀ k, x.recvdone k = false

section Flags

theorem Flags.enter (h : Flags r σ v) (hla : ∀ i, i+1 = σ.entered → (partner r i).isSome=true → σ.posted=true) :
    Flags r σ.enter v := by
  refine ⟨h.1,fun i => (h.2 i).trans (exists_congr fun j => and_congr_right fun hj => and_congr_right fun _ => ?_)⟩
  refine not_congr ?_
  simp only [Standing.Posted,Standing.enter,Bool.false_eq_true,and_false,or_false]
  constructor
  · rintro (hlt | ⟨heq,-⟩) <;> omega
  · intro hlt
    obtain hlt | heq := lt_or_eq_of_le (le_of_lt_succ hlt)
    · exact .inl hlt
    · exact .inr ⟨heq,hla j heq (isSome_of_eq_some hj)⟩

theorem Flags.get (h : Flags r σ v) (hb : partner r j = some b) :
    v.get b = true ↔ σ.came j = true ∧ ¬ σ.Posted j := by
  rw [h.2 b]
  constructor
  · rintro ⟨i,hi,hcm⟩
    obtain ⟨hlt,hpair⟩ := partner_eq_some.mp hi
    obtain ⟨hlt',hpair'⟩ := partner_eq_some.mp hb
    rwa [← hpair.unique hpair' r.isLt hlt hlt']
  · exact fun hcm => ⟨j,hb,hcm⟩

theorem Flags.post (hw : 0<w) (h : Flags r σ v) (hrou : σ.entered=j+1) (hb : partner r j = some b) :
    Flags r { σ with posted := true } (v.clear b) := by
  refine ⟨h.1,fun i => ?_⟩
  have hpst : ∀ k, Standing.Posted { σ with posted := true } k ↔ σ.Posted k ∨ k=j := by
    intro k
    simp only [Standing.Posted,and_true]
    omega
  rw [BitVector.get_clear hw (h.1.symm ▸ b.isLt),Bool.and_eq_true,h.2 i,decide_eq_true_iff]
  constructor
  · rintro ⟨⟨k,hk,hcm,hno⟩,hne⟩
    refine ⟨k,hk,hcm,fun hyes => ?_⟩
    rcases (hpst k).mp hyes with hyes | rfl
    · exact hno hyes
    · exact hne (congrArg Fin.val (some.inj (hk.symm.trans hb)))
  · rintro ⟨k,hk,hcm,hno⟩
    have hno := not_or.mp ((hpst k).not.mp hno)
    refine ⟨⟨k,hk,hcm,hno.1⟩,fun heq => hno.2 ?_⟩
    obtain ⟨hlt,hpair⟩ := partner_eq_some.mp hk
    obtain ⟨hlt',hpair'⟩ := partner_eq_some.mp hb
    rw [heq] at hpair
    exact hpair.unique hpair' r.isLt hlt hlt'

theorem Flags.come (hw : 0<w) (h : Flags r σ v) (hb : partner r j = some b) (hno : ¬ σ.Posted j) :
    Flags r { σ with came := update σ.came j true } (v.set b) := by
  refine ⟨h.1,fun i => ?_⟩
  rw [BitVector.get_set hw (h.1.symm ▸ b.isLt),Bool.or_eq_true,h.2 i,decide_eq_true_iff]
  constructor
  · rintro (⟨k,hk,hcm,hno⟩ | heq)
    · refine ⟨k,hk,?_,hno⟩
      simp only [update_apply]
      split
      · rfl
      · exact hcm
    · exact ⟨j,hb.trans (congrArg some (Fin.ext heq.symm)),update_self ..,hno⟩
  · rintro ⟨k,hk,hcm,hno⟩
    by_cases heq : k=j
    · subst heq
      exact .inr (congrArg Fin.val (some.inj (hk.symm.trans hb)))
    · simp only [update_of_ne heq] at hcm
      exact .inl ⟨k,hk,hcm,hno⟩

end Flags

theorem route_avail (hb : partner r j = some b) (x : AlltoallvExec w) :
    route r (x, some (.avail b j)) = (x, some (.avail j)) := by
  cases x
  simp only [route,hb,map_some,ne_eq,not_true_eq_false,decide_false,Bool.or_false]

theorem route_data (hb : partner r j = some b) (x : AlltoallvExec w) :
    route r (x, some (.data b j)) = (x, some (.data j)) := by
  cases x
  simp only [route,hb,map_some,ne_eq,not_true_eq_false,decide_false,Bool.or_false]

section Entering

theorem Entering.announce (h : Entering r σ x) (hrea : σ.Ready (partners N) r) (hlt : σ.entered < nphases N)
    (hb : partner r σ.entered = some b) (hpar : x.parindex = some b.val) :
    Enters (partners N) Stands r σ (route r (sendPhase x)) := by
  have hcur : x.curphase.toNat = σ.entered := by
    rw [h.curphase]
    rfl
  have hcrp := h.curphase
  rw [sendPhase,hpar]
  simp only [h.lphase.trans h.curphase.symm,if_true,hcur]
  rw [route_avail hb]
  have hsou : ((partners N).source r σ.entered).isSome=true := isSome_of_eq_some hb
  refine .avail hrea hlt hsou ⟨⟨h.failed,succ_le_succ hlt.le,?_,?_,fun _ => ?_,nofun,fun j hj _ => ?_,
    h.flags,h.senddone,fun k => ?_,nofun,nofun,nofun,nofun⟩,fun _ _ _ hno => ?_⟩
  · show x.dones = if σ.entered+1=nphases N+1 then 1 else 0
    rw [if_neg (by omega),h.dones]
  · simp only [Standing.enter]
    omega
  · simp only [Standing.enter]
    omega
  · obtain rfl : σ.entered=j := Nat.succ.inj hj
    exact ⟨b,hb,rfl⟩
  · rw [h.recvdone]
    exact iff_of_false Bool.false_ne_true fun hyes => Bool.false_ne_true hyes.2
  · contradiction

theorem Entering.ended (h : Entering r σ x) (hrea : σ.Ready (partners N) r) (hend : σ.entered = nphases N) :
    Enters (partners N) Stands r σ ({ x with dones := x.dones+1 }, none) := by
  have hcrp := h.curphase
  have hlph := h.lphase
  refine .ended hrea hend ⟨⟨h.failed,succ_le_succ hend.le,?_,?_,fun _ => ?_,nofun,fun j hj hlt => ?_,
    h.flags,h.senddone,fun k => ?_,nofun,nofun,nofun,nofun⟩,fun j hj hlt => ?_⟩
  · show x.dones+1 = if σ.entered+1=nphases N+1 then 1 else 0
    rw [if_pos (by omega),h.dones]
  · simp only [Standing.enter]
    omega
  · simp only [Standing.enter]
    omega
  · simp only [Standing.enter] at hj
    omega
  · simp only [h.recvdone]
    exact iff_of_false Bool.false_ne_true fun hyes => Bool.false_ne_true hyes.2
  · simp only [Standing.enter] at hj
    omega

theorem Entering.skip (h : Entering r σ x) (hlt : σ.entered < nphases N) (hnn : partner r σ.entered = none) :
    Entering r σ.enter { x with lphase := x.lphase+1, curphase := x.curphase+1 } := by
  have hcrp := h.curphase
  have hlph := h.lphase
  refine ⟨h.failed,hlt,h.dones,?_,?_,h.flags.enter fun i hi hso => ?_,h.senddone,h.recvdone⟩
  · simp only [Standing.enter]
    omega
  · simp only [Standing.enter]
    omega
  · obtain rfl : i = σ.entered := Nat.succ.inj hi
    rw [hnn] at hso
    contradiction

theorem partner_of_index (hlt : j < nphases N) (hi : getPartnerIndex j N r = some i) :
    ∃ b, partner r j = some b ∧ b.val=i := by
  have hpair := (getPartnerIndex_eq_some r.isLt hlt).mp hi
  exact ⟨⟨i,hpair.lt r.isLt hlt⟩,partner_eq_some.mpr ⟨hlt,hpair⟩,rfl⟩

theorem partner_eq_none (hnn : getPartnerIndex j N r = none) : partner r j = none := by
  rw [partner]
  split
  case isTrue => rw [hnn,bind_none]
  case isFalse => rfl

theorem Entering.sendNext (h : Entering r σ x) (hrea : σ.Ready (partners N) r)
    (hpar : x.parindex = getPartnerIndex σ.entered N r) :
    Enters (partners N) Stands r σ (route r (sendNext N r x)) := by
  have hcrp := h.curphase
  rw [AlltoallvExec.sendNext]
  have hsta : startphase=0 := rfl
  split
  case isTrue hend => exact h.ended hrea (by omega)
  case isFalse hend =>
    have hlt : σ.entered<nphases N := by
      have := h.entered_le
      omega
    cases hi : x.parindex with
    | some i =>
      obtain ⟨b,hb,rfl⟩ := partner_of_index hlt (hpar.symm.trans hi)
      exact h.announce hrea hlt hb hi
    | none =>
      have hinx := hpar.symm.trans hi
      have hnn := partner_eq_none hinx
      have hskip := h.skip hlt hnn
      have hno : (partner r σ.entered).isSome≠true := by
        rw [hnn]
        exact Bool.false_ne_true
      have hrea' : σ.enter.Ready (partners N) r :=
        .inr ⟨σ.entered,hlt,rfl,fun hso => absurd hso hno,fun hso => absurd hso hno⟩
      refine .skip hrea hlt hnn ?_
      simp only
      split
      case isTrue hla =>
        have hla : σ.enter.entered=nphases N := by
          simp only [Standing.enter]
          omega
        have heed := hskip.ended hrea' hla
        simp only [hi] at heed
        exact heed
      case isFalse hla =>
        have hlt' : σ.entered+1<nphases N := by omega
        -- Only one phase has no partner.
        have hso : getPartnerIndex (σ.entered+1) N r≠none := by
          intro hnn'
          have hfir := ((getPartnerIndex_eq_none r.isLt hlt).mp hinx).2
          have hnx := ((getPartnerIndex_eq_none r.isLt hlt').mp hnn').2
          omega
        obtain ⟨i,hi'⟩ := ne_none_iff_exists'.mp hso
        obtain ⟨b,hb,rfl⟩ := partner_of_index hlt' hi'
        refine Entering.announce (σ := σ.enter) ⟨hskip.failed,hskip.entered_le,hskip.dones,hskip.curphase,
          hskip.lphase,hskip.flags,hskip.senddone,hskip.recvdone⟩ hrea' hlt' hb ?_
        have hnx : (x.curphase+1).toNat = σ.entered+1 := by omega
        simp only [hnx]
        exact hi'

end Entering

theorem Placed.advance (h : Placed r σ x) (hrou : σ.entered=j+1) (hj : j < nphases N) (hpst : σ.posted=true)
    {sent received : Bool} (hsn : sent=true) (hrec : received=true) (d : Bool) {f : ℕ → Bool}
    (hf : ∀ k, f k = true → k=x.slot) :
    Outcome (partners N) Stands r { σ with sent := sent, received := received }
      (route r (advance N r { x with senddone := d, recvdone := f })) := by
  have hpha := h.curphase
  have hlph := h.lphase (by omega)
  have hdon := h.dones
  rw [if_neg (by omega)] at hdon
  rw [Nat.min_eq_left (by omega)] at hlph
  refine .enter (by simp only; omega) (Entering.sendNext ⟨h.failed,?_,hdon,hpha,hlph,
    h.flags.enter fun _ _ _ => hpst,rfl,fun k => ?_⟩ (.inr ⟨j,hj,hrou,fun _ => hsn,fun _ => hrec⟩) ?_)
  · simp only
    omega
  · simp only [update_apply]
    split
    case isTrue => rfl
    case isFalse hne => exact Bool.not_eq_true _ ▸ fun hk => hne (hf k hk)
  · have hnx : (x.curphase+1).toNat = σ.entered := by omega
    simp only [hnx]

theorem Stands.start (h : Stands r σ x) (hzr : σ.entered=0) :
    Enters (partners N) Stands r σ (route r (start N r x)) := by
  obtain ⟨h,-⟩ := h
  have hdon := h.dones
  rw [if_neg (by omega)] at hdon
  have hnot : ∀ {b : Bool}, (b=true → 0 < σ.entered ∧ σ.entered≤nphases N) → b=false := fun hb => by
    rw [← Bool.not_eq_true]
    exact fun htrue => (hb htrue).1.ne' hzr
  have hsn := hnot fun hsn => h.posted (h.sent hsn)
  have hrec := hnot h.received
  refine Entering.sendNext ⟨h.failed,hzr ▸ zero_le _,hdon,?_,?_,h.flags.enter fun i hi => by omega,
    h.senddone.trans hsn,fun k => ?_⟩ (.inl hzr) ?_
  · simp only [startphase,hzr,cast_zero]
  · simp only [startphase,hzr,cast_zero]
  · rw [← Bool.not_eq_true]
    intro hk
    rw [((h.recvdone k).mp hk).2] at hrec
    contradiction
  · rw [hzr]
    exact h.first hzr

theorem Stands.sendDone (h : Stands r σ x) (hrou : σ.entered=j+1) (hj : j < nphases N)
    (hpst : σ.posted=true) :
    Outcome (partners N) Stands r { σ with sent := true } (route r (notifySendDone N r x)) := by
  obtain ⟨h,hwai⟩ := h
  rw [notifySendDone]
  simp only
  split
  case isTrue hdn =>
    have hrec := ((h.recvdone _).mp hdn).2
    exact h.advance hrou hj hpst rfl hrec true fun k hk => ((h.recvdone k).mp hk).1
  case isFalse hdn =>
    have hrec : ¬ σ.received=true := fun hyes => hdn ((h.recvdone _).mpr ⟨rfl,hyes⟩)
    exact .stay ⟨⟨h.failed,h.entered_le,h.dones,h.curphase,h.lphase,h.first,h.parindex,h.flags,rfl,h.recvdone,
      fun hbt => hrec hbt.2,fun _ => hpst,h.posted,h.received⟩,hwai⟩

theorem Stands.recvDone (h : Stands r σ x) (hrou : σ.entered=j+1) (hj : j < nphases N) :
    Outcome (partners N) Stands r { σ with received := true } (route r (notifyRecvDone N r x)) := by
  obtain ⟨h,hwai⟩ := h
  have hsl : ∀ k, update x.recvdone x.slot true k=true ↔ k=x.slot := by
    intro k
    rw [update_apply]
    split
    case isTrue heq => exact iff_of_true rfl heq
    case isFalse hne => exact iff_of_false (fun hk => hne ((h.recvdone k).mp hk).1) hne
  rw [notifyRecvDone]
  simp only
  split
  case isTrue hdn =>
    have hsn := h.senddone.symm.trans hdn
    exact h.advance hrou hj (h.sent hsn) hsn rfl _ fun k hk => (hsl k).mp hk
  case isFalse hdn =>
    have hsn : ¬ σ.sent=true := h.senddone ▸ hdn
    exact .stay ⟨⟨h.failed,h.entered_le,h.dones,h.curphase,h.lphase,h.first,h.parindex,h.flags,h.senddone,
      fun k => (hsl k).trans (and_iff_left rfl).symm,fun hbt => hsn hbt.1,h.sent,h.posted,
      fun _ => by simp only; omega⟩,hwai⟩

theorem Placed.goOn (hw : 0<w) (h : Placed r σ x) (hrou : σ.entered=j+1) (hj : j < nphases N) :
    Outcome (partners N) Stands r σ (route r (sendNext N r x)) := by
  have hpha := h.curphase
  have hlph := h.lphase (by omega)
  rw [Nat.min_eq_left (by omega)] at hlph
  obtain ⟨b,hb,hpar⟩ := h.parindex j hrou hj
  have hcur : x.curphase.toNat=j := by omega
  have hsta : startphase=0 := rfl
  have hget := h.flags.get hb
  rw [AlltoallvExec.sendNext,if_neg (by omega)]
  simp only [hpar,sendPhase,if_neg (show ¬ x.lphase=x.curphase by omega),hcur]
  split
  case isTrue hset =>
    obtain ⟨hcm,hno⟩ := hget.mp hset
    have hfre : σ.posted=false := Bool.not_eq_true _ ▸ fun hpst => hno (.inr ⟨hrou.symm,hpst⟩)
    rw [route_data hb]
    refine .post hrou (isSome_of_eq_some hb) hcm hfre ⟨⟨h.failed,h.entered_le,h.dones,h.curphase,h.lphase,
      fun hzr => ?_,fun i hi _ => ⟨b,?_,rfl⟩,h.flags.post hw hrou hb,h.senddone,h.recvdone,h.once,
      fun _ => rfl,fun _ => ?_,h.received⟩,fun _ _ _ _ _ _ => rfl⟩
    · simp only at hzr
      omega
    · simp only at hi
      obtain rfl : i=j := by omega
      exact hb
    · simp only
      omega
  case isFalse hset =>
    refine .stay ⟨h,fun i hi _ _ hcm _ => ?_⟩
    obtain rfl : i=j := by omega
    by_contra hno
    refine hset (hget.mpr ⟨hcm,?_⟩)
    rintro (hlt | ⟨-,hpst⟩)
    · omega
    · exact hno hpst

theorem Placed.availDone (hw : 0<w) (h : Placed r σ x) (hle : σ.entered ≤ nphases N) :
    Outcome (partners N) Stands r σ (route r (notifyAvailDone N r x)) := by
  have hpha := h.curphase
  have hsta : startphase=0 := rfl
  rw [notifyAvailDone]
  split
  case isTrue hgo =>
    obtain ⟨j,hj⟩ := exists_eq_succ_of_ne_zero (show σ.entered≠0 by omega)
    exact h.goOn hw hj (by omega)
  case isFalse hgo => exact .stay ⟨h,fun j hj => by omega⟩

theorem Stands.recvAvail (hw : 0<w) (h : Stands r σ x) (hb : partner r j = some b) (hfre : σ.granted j = false)
    (hno : ¬ σ.Posted j) :
    Stands r { σ with came := update σ.came j true } (notifyRecvAvail N r b (j+1) x) := by
  obtain ⟨h,hwai⟩ := h
  obtain ⟨hlt,hpair⟩ := partner_eq_some.mp hb
  refine ⟨⟨?_,h.entered_le,h.dones,h.curphase,h.lphase,h.first,h.parindex,h.flags.come hw hb hno,h.senddone,
    h.recvdone,h.once,h.sent,h.posted,h.received⟩,fun i hi hi' hann hcm hgra => ?_⟩
  · simp only [notifyRecvAvail,h.failed,Nat.add_sub_cancel,(getPartnerIndex_eq_some r.isLt hlt).mpr hpair,ne_eq,
      not_true_eq_false,decide_false,Bool.or_false]
  · simp only [update_apply] at hcm
    split at hcm
    case isTrue heq =>
      subst heq
      rw [hfre] at hgra
      contradiction
    case isFalse => exact hwai i hi hi' hann hcm hgra

theorem Stands.recvData (h : Stands r σ x) (hrou : σ.entered=j+1) (hb : partner r j = some b) :
    Stands r σ (notifyRecvData b j x) ∧ x.curphase.toNat=j := by
  obtain ⟨h,hwai⟩ := h
  have hpha := h.curphase
  obtain ⟨c,hc,hpar⟩ := h.parindex j hrou (partner_eq_some.mp hb).1
  obtain rfl := some.inj (hb.symm.trans hc)
  have hcur : (j : ℤ)=x.curphase := by omega
  refine ⟨⟨⟨?_,h.entered_le,h.dones,h.curphase,h.lphase,h.first,h.parindex,h.flags,h.senddone,h.recvdone,h.once,
    h.sent,h.posted,h.received⟩,hwai⟩,by omega⟩
  simp only [notifyRecvData,h.failed,hpar,hcur,ne_eq,not_true_eq_false,decide_false,Bool.or_false]

theorem spec (hw : 0<w) : CreditSpec (partners N) (program N w) Stands where
  entered := fun r σ x h => by
    have hpha := h.1.curphase
    simp only [program]
    omega
  start := fun r σ x h hzr => h.start hzr
  resume := fun r σ x o h ho => nomatch ho
  sendDone := fun r σ x j h hrou hj hpst _ => h.sendDone hrou hj hpst
  recvDone := fun r σ x j h hrou hj _ _ => h.recvDone hrou hj
  availRecvDone := fun r σ x j h hds hcm hfre hle =>
    Placed.availDone hw ⟨h.1.failed,h.1.entered_le,h.1.dones,h.1.curphase,h.1.lphase,h.1.first,h.1.parindex,
      h.1.flags,h.1.senddone,h.1.recvdone,h.1.once,h.1.sent,h.1.posted,h.1.received⟩ hle
  availSendDone := fun r σ x b h _ hle _ =>
    Placed.availDone hw ⟨h.1.failed,h.1.entered_le,h.1.dones,h.1.curphase,h.1.lphase,h.1.first,h.1.parindex,
      h.1.flags,h.1.senddone,h.1.recvdone,h.1.once,h.1.sent,h.1.posted,h.1.received⟩ hle
  recvAvail := fun r b σ x j h hds _ hfre hno _ _ => h.recvAvail hw hds hfre hno
  recvData := fun r a σ x j h hrou hsou _ => h.recvData hrou hsou
  waits := fun r σ x j h _ hrou hj hann => by
    obtain ⟨b,hb,-⟩ := h.1.parindex j hrou hj
    have hso : (partner r j).isSome=true := isSome_of_eq_some hb
    refine ⟨fun _ hcm hgra => ?_,fun hbt => ?_⟩
    · exact h.2 j hrou hj (hann rfl hso) hcm hgra
    · exact h.1.once ⟨hbt.1 hso,hbt.2 hso⟩

end AlltoallvExec

namespace AlltoallvCall

variable {V : Type*} {N : ℕ}

/-- No byte of another block is in the place of a block. -/
def Apart (c : AlltoallvCall V) (i : Fin N) : Prop :=
  ∀ j : Fin N, j ≠ i → ∀ q < c.getRecvLength i, ∀ t < c.getRecvLength j, c.cell j t ≠ c.cell i q

def Has (call : Fin N → AlltoallvCall V) (r i : Fin N) (rbuf : ℕ → V) : Prop :=
  ∀ q < (call r).getRecvLength i, rbuf ((call r).cell i q) = (call i).source r q

/-- A rank sends to another one what that one expects. -/
def Matching (call : Fin N → AlltoallvCall V) : Prop :=
  ∀ a b : Fin N, (call a).getSendLength b = (call b).getRecvLength a

def contents (call : Fin N → AlltoallvCall V) (a b : Fin N) : List V :=
  (List.range ((call a).getSendLength b)).map ((call a).source b)

variable {call : Fin N → AlltoallvCall V} {r i : Fin N} {rbuf : ℕ → V}

theorem Matching.write (h : Matching call) {d : Fin N} (hapa : Apart (call r) i) (hi : i=d ∨ Has call r i rbuf) :
    Has call r i (write ((call r).cell d) (contents call d r) rbuf) := by
  intro q hq
  by_cases heq : i=d
  · subst heq
    exact write_range (fun a _ b _ hab => Nat.add_left_cancel hab) (hq.trans_eq (h i r).symm)
  · rw [contents,write_range_of_ne fun t ht => hapa d (Ne.symm heq) q hq t (ht.trans_eq (h d r))]
    exact hi.resolve_left heq q hq

end AlltoallvCall

namespace AlltoallvExec

open AlltoallvCall CreditSystem

variable {V : Type*} {w N : ℕ} {call : Fin N → AlltoallvCall V} {r : Fin N}

/-- The blocks that a rank has when it has entered some phases are right, and so is the one that has come in. -/
def Gathered (call : Fin N → AlltoallvCall V) (r : Fin N) (k : ℕ) (came : Prop) (rbuf : ℕ → V) : Prop :=
  ∀ i : Fin N, Apart (call r) i →
    (0 < k ∧ i = r ∨ ∃ j, partner r j = some i ∧ (j + 1 < k ∨ came ∧ j + 1 = k)) → Has call r i rbuf

def sentBlock (call : Fin N → AlltoallvCall V) (a : Fin N) (j : ℕ) : List V :=
  (partner a j).elim [] fun b => contents call a b

theorem serves (h : Matching call) :
    CreditServes (partners N) (client call) (sentBlock call) (Gathered call) where
  start := by
    intro r x hx i hapa hi
    have hown : i=r := by
      rcases hi with ⟨-,hi⟩ | ⟨j,-,hlt | ⟨hno,-⟩⟩
      · exact hi
      · omega
      · contradiction
    have hlng : (call r).getRecvLength r = (call r).getSendLength r := (h r r).symm
    simp only [client,hlng]
    exact h.write hapa (.inl hown)
  next := by
    intro r j x hj hx i hapa hi
    refine hx i hapa ?_
    rcases hi with ⟨-,hi⟩ | ⟨q,hq,hlt | ⟨hno,-⟩⟩
    · exact .inl ⟨succ_pos j,hi⟩
    · refine .inr ⟨q,hq,?_⟩
      obtain hlt | heq := lt_or_eq_of_le (le_of_lt_succ hlt)
      · exact .inl hlt
      · obtain rfl := Nat.succ.inj heq
        exact .inr ⟨isSome_of_eq_some hq,rfl⟩
    · contradiction
  transmit := fun a b j came x hds _ _ => rfl
  incoming := by
    intro a b j x hsou hx i hapa hi
    have hb : partner b j = some a := hsou
    have ha : partner a j = some b := ((partners N).matched a b j).mpr hsou
    simp only [client,sentBlock,hb,ha,elim_some]
    refine h.write hapa ?_
    rcases hi with hi | ⟨q,hq,hlt | ⟨-,heq⟩⟩
    · exact .inr (hx i hapa (.inl hi))
    · exact .inr (hx i hapa (.inr ⟨q,hq,.inl hlt⟩))
    · obtain rfl := Nat.succ.inj heq
      exact .inl (some.inj (hq.symm.trans hb))

variable {rbuf : Fin N → ℕ → V} {s : CreditSystem (Fin N) (AlltoallvExec w) (ℕ → V) (List V)}

def Exchanges (call : Fin N → AlltoallvCall V) (s : CreditSystem (Fin N) (AlltoallvExec w) (ℕ → V) (List V)) : Prop :=
  Creditable (partners N) (program N w) (sentBlock call) (Gathered call) Stands s

theorem exchanges_run (hw : 0<w) (hmat : Matching call)
    (h : Run (CreditSystem.step (partners N) (program N w) (client call)) (InTime (partners N) (program N w))
      (.new (fun r => .new N w r) rbuf) s) : Exchanges call s := by
  refine creditable_run (spec hw) (serves hmat) (fun _ => rfl) (fun r i _ hi => ?_) (fun r => ⟨?_,?_⟩) h
  · rcases hi with ⟨hpos,-⟩ | ⟨j,-,hlt | ⟨hno,-⟩⟩
    · exact absurd hpos (lt_irrefl 0)
    · exact absurd hlt (Nat.not_lt_zero _)
    · contradiction
  · refine ⟨rfl,zero_le _,(if_neg (succ_ne_zero _).symm).symm,rfl,nofun,fun _ => rfl,nofun,
      ⟨rfl,fun i => ?_⟩,rfl,fun k => ?_,nofun,nofun,nofun,nofun⟩
    · rw [new,BitVector.get_new hw]
      refine iff_of_false Bool.false_ne_true ?_
      rintro ⟨j,-,hcm,-⟩
      exact absurd hcm Bool.false_ne_true
    · exact iff_of_false Bool.false_ne_true fun h => Bool.false_ne_true h.2
  · intro j hj
    exact absurd hj.symm (succ_ne_zero j)

/-- In every run in which no completion of a message that a buffer is available comes after its rank is behind the last
phase, each block goes to the partner of its phase, once, after that partner's permission, and all ranks get done. The
number of ranks is so small that the partners are those that the `int`s of the code give. -/
theorem alltoallv_runs (hw : 0 < w) (hN : 3 * nphases N < 2 ^ 31) (hmat : Matching call)
    (h : Run (CreditSystem.step (partners N) (program N w) (client call)) (InTime (partners N) (program N w))
      (.new (fun r => .new N w r) rbuf) s) :
    (∀ p ≤ nphases N, ∀ r : Fin N, getPartnerIndexInt p N r = some (getPartnerIndex p N r)) ∧
    (∀ r, (s.exec r).failed = false ∧ (s.exec r).dones ≤ 1 ∧ (s.sends r).Nodup ∧
      (∀ p ∈ s.sends r, ∃ b, partner r p = some b ∧ (s.permission b p).incoming = true) ∧
      ((s.exec r).dones = 1 →
        (∀ p b, partner r p = some b → p ∈ s.sends r) ∧ ∀ i, Apart (call r) i → Has call r i (s.data r))) ∧
    (s.Settled (partners N) (program N w) (client call) → ∀ r, (s.exec r).dones = 1) := by
  have hall := exchanges_run hw hmat h
  refine ⟨fun p hp r => getPartnerIndexInt_fits hN hp r.isLt,fun r => ?_,fun hstt r => ?_⟩
  · obtain ⟨hplc,-⟩ := hall.placed r
    obtain ⟨k,hk,hle,hsen⟩ := hall.credited.sends r
    have hdon : (s.exec r).dones = if (s.rounds (program N w)).entered r = nphases N + 1 then 1 else 0 := hplc.dones
    refine ⟨hplc.failed,?_,?_,fun p hp => ?_,fun hone => ?_⟩
    · rw [hdon]
      split <;> omega
    · rw [show s.sends r = _ from hsen]
      exact List.nodup_range.filter _
    · have hpst := (hall.credited.posted r p).mpr hp
      obtain ⟨b,hb⟩ := hall.credited.dest_of_posted hpst
      exact ⟨b,hb,hall.credited.permitted r b p hpst hb⟩
    · have hov : (s.rounds (program N w)).entered r = nphases N + 1 := by
        by_contra hne
        rw [hdon,if_neg hne] at hone
        contradiction
      refine ⟨fun p b hb => ?_,fun i hapa => hall.supplied.party r i hapa ?_⟩
      · rw [show s.sends r = _ from hsen,List.mem_filter,List.mem_range]
        have hlt := (partner_eq_some.mp hb).1
        exact ⟨by omega,isSome_of_eq_some hb⟩
      · by_cases heq : i=r
        · exact .inl ⟨hov ▸ succ_pos _,heq⟩
        · obtain ⟨p,hp,hpair⟩ := exists_partners r.isLt i.isLt fun hri => heq (Fin.ext hri.symm)
          exact .inr ⟨p,partner_eq_some.mpr ⟨hp,hpair⟩,.inl (by omega)⟩
  · have heed : (program N w).entered (s.exec r) = nphases N + 1 := hstt.ended (spec hw) hall r
    rw [(hall.placed r).1.dones,if_pos]
    exact heed

/-- Each of two ranks has one byte for the other and one for itself. -/
def twoCalls (r : Fin 2) : AlltoallvCall ℕ :=
  ⟨fun q => 10 * r + q, 1, fun _ => 1, fun i => i, 1, fun _ => 1, fun i => i⟩

def exchangeEvents {ι : Type} (a b : ι) : List (CreditEvent ι) :=
  [.start a, .start b, .availSent b 0, .availIncoming a 0, .availComplete a 0, .availIncoming b 0, .availComplete b 0,
    .transmit a 0, .transmit b 0, .incoming a 0, .incoming b 0, .sent a 0, .sent b 0, .complete a 0, .complete b 0]

theorem apart_twoCalls (r i : Fin 2) : Apart (twoCalls r) i := by
  intro j hj q hq t ht heq
  simp only [getRecvLength,getRecvDisp,cell,twoCalls,mul_one] at hq ht heq
  exact hj (Fin.ext (by omega))

theorem alltoallv_runs_two : ∃ s : CreditSystem (Fin 2) (AlltoallvExec 64) (ℕ → ℕ) (List ℕ),
    (s.exec 0).dones = 1 ∧ s.data 0 1 = 10 := by
  have heve : (execEvents (fun (s : CreditSystem (Fin 2) (AlltoallvExec 64) (ℕ → ℕ) (List ℕ)) e => if s.InTime (partners 2) (program 2 64) e then
      s.step (partners 2) (program 2 64) (client twoCalls) e else none) (exchangeEvents 0 1)
      (.new (fun r => .new 2 64 r) fun _ _ => 7)).map (fun s => (s.exec 0).dones) = some 1 := by
    decide
  obtain ⟨s,hs,hdon⟩ := map_eq_some_iff.mp heve
  have hruns := alltoallv_runs (by decide) (by decide) (fun _ _ => rfl) (Run.refl.checked _ hs)
  exact ⟨s,hdon,((hruns.2.1 0).2.2.2.2 hdon).2 1 (apart_twoCalls 0 1) 0 (by decide)⟩

/-- The send of a message that a buffer is available completes when its rank is behind the last phase: the done callback comes
again. -/
theorem done_twice : ¬ ∀ s : CreditSystem (Fin 2) (AlltoallvExec 64) (ℕ → ℕ) (List ℕ),
    Run (CreditSystem.step (partners 2) (program 2 64) (client twoCalls)) (fun _ _ => True)
      (.new (fun r => .new 2 64 r) fun _ _ => 7) s → (s.exec 0).dones ≤ 1 := by
  intro hall
  have heve : (execEvents (CreditSystem.step (partners 2) (program 2 64) (client twoCalls))
      (exchangeEvents 0 1 ++ [.availSent 0 0]) (.new (fun r => .new 2 64 r) fun _ _ => 7)).map
        (fun s => (s.exec 0).dones) = some 2 := by
    decide
  obtain ⟨s,hs,hdon⟩ := map_eq_some_iff.mp heve
  have hle := hall s (Run.refl.execEvents _ (fun _ _ _ => trivial) hs)
  rw [hdon] at hle
  exact absurd hle (by decide)

end AlltoallvExec

end PAMI.Executor

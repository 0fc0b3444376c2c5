import PAMI.Executor.Allgatherv

namespace PAMI.Executor

open PAMI.Math PAMI.TspColl Function CreditSystem Option Nat

namespace AllgathervExec

variable {N : ℕ} {σ : Standing} {x : AllgathervExec} {r b : Fin N} {i j : ℕ}

/-- The first messages that buffers are available have come in, no later than they are due: that of a phase after all data
for the phases before is sent. -/
structure Credits (N : ℕ) (σ : Standing) (k : ℕ) : Prop where
  granted : ∀ i, σ.granted i = true ↔ i < k
  came : ∀ i, σ.came i = true → i ≤ k
  granted_came : ∀ i, σ.granted i = true → σ.came i = true
  le : k ≤ N - 1
  posted : ∀ i, σ.Posted i → i < N - 1 → i < k
  after : ∀ i, σ.came i = true → ∀ j < i, σ.Posted j

/-- The calls of `sendNext` that are under way: the innermost one has sent the message that the buffer is available, and will
send the data if it may; or the data waits for the buffer of the right neighbor. -/
def Calls (N : ℕ) (σ : Standing) (k : ℕ) (x : AllgathervExec) : Prop :=
  (∃ fs, x.frames = .avail :: fs ∧ .avail ∉ fs ∧ x.inSendNext = true ∧ σ.posted = false ∧
      0 < σ.entered ∧ σ.entered < N) ∨
    (.avail ∉ x.frames ∧ (σ.posted = false → 0 < σ.entered → σ.entered < N → x.inSendNext = false ∧ k + 1 = σ.entered))

/-- The executor of a rank, by what the rank sees. -/
structure Placed (N : ℕ) (σ : Standing) (x : AllgathervExec) (k : ℕ) : Prop where
  entered_le : σ.entered ≤ N
  failed : x.failed = false
  dones : x.dones = if σ.entered = N then 1 else 0
  curphase : x.curphase + 1 = σ.entered
  lphase : x.lphase = min σ.entered (N - 1)
  rphase : x.rphase = k - if σ.entered = 0 then 1 else 0
  credits : Credits N σ k
  fresh : σ.entered = 0 → x.frames = []
  senddone : x.senddone = σ.sent
  recvdone : x.recvdone = σ.received
  once : ¬ (σ.sent = true ∧ σ.received = true)
  sent : σ.sent = true → σ.posted = true
  posted : σ.posted = true → 0 < σ.entered ∧ σ.entered < N
  received : σ.received = true → 0 < σ.entered ∧ σ.entered < N

section Credits

variable {k : ℕ}

section

variable (h : Credits N σ k)
include h

theorem Credits.le_entered (hpst : σ.posted=false) (hpos : 0 < σ.entered) : k ≤ σ.entered := by
  by_contra hlt
  have hcm := h.granted_came (k-1) ((h.granted _).mpr (by omega))
  rcases h.after _ hcm (k-2) (by omega) with hpas | ⟨-,hnow⟩
  · omega
  · rw [hpst] at hnow
    contradiction

theorem Credits.entered_le (hN : σ.entered≤N) : σ.entered≤k+1 := by
  by_contra hlt
  have := h.posted (σ.entered-2) (.inl (by omega)) (by omega)
  omega

theorem Credits.entered_lt (hpst : σ.posted=true) (hpos : 0 < σ.entered) (hN : σ.entered<N) :
    σ.entered≤k := by
  have := h.posted (σ.entered-1) (.inr ⟨by omega,hpst⟩) (by omega)
  omega

theorem Credits.next (hj : j<N-1) (hfre : σ.granted j = false) (hbef : ∀ i<j, σ.Posted i) :
    k=j := by
  have hle : ¬ j<k := fun hlt => by
    rw [(h.granted j).mpr hlt] at hfre
    contradiction
  refine le_antisymm (not_lt.mp hle) ?_
  by_contra hlt
  have := h.posted (j-1) (hbef _ (by omega)) (by omega)
  omega

theorem Credits.congr {τ : Standing} (hcm : τ.came = σ.came) (hgra : τ.granted = σ.granted)
    (hpst : ∀ i, τ.Posted i ↔ σ.Posted i) : Credits N τ k :=
  ⟨fun i => by rw [hgra]; exact h.granted i,fun i => by rw [hcm]; exact h.came i,
    fun i => by rw [hgra,hcm]; exact h.granted_came i,h.le,fun i hi => h.posted i ((hpst i).mp hi),
    fun i hi j hj => (hpst j).mpr (h.after i (hcm ▸ hi) j hj)⟩

theorem Credits.enter (hla : ∀ i, i+1 = σ.entered → σ.posted=true) : Credits N σ.enter k := by
  refine h.congr rfl rfl fun i => ?_
  simp only [Standing.Posted,Standing.enter,Bool.false_eq_true,and_false,or_false]
  constructor
  · intro hlt
    obtain hlt | heq := lt_or_eq_of_le (le_of_lt_succ hlt)
    · exact .inl hlt
    · exact .inr ⟨heq,hla i heq⟩
  · rintro (hlt | ⟨heq,-⟩) <;> omega

theorem Credits.post (hj : σ.entered=j+1) (hk : j<k) : Credits N { σ with posted := true } k := by
  refine ⟨h.granted,h.came,h.granted_came,h.le,fun i hi hN => ?_,fun i hi q hq => ?_⟩
  · rcases hi with hi | ⟨hi,-⟩
    · exact h.posted i (.inl hi) hN
    · obtain rfl : i=j := by
        simp only at hi
        omega
      exact hk
  · rcases h.after i hi q hq with hlt | ⟨heq,-⟩
    · exact .inl hlt
    · exact .inr ⟨heq,rfl⟩

end

end Credits

def Stands (N : ℕ) (_ : Fin N) (σ : Standing) (x : AllgathervExec) : Prop := ∃ k, Placed N σ x k ∧ Calls N σ k x

theorem dest_isSome : ((neighbors N).dest r j).isSome=true ↔ j<N-1 := by
  simp only [neighbors]
  split
  case isTrue hlt => exact iff_of_true rfl hlt
  case isFalse hle => exact iff_of_false Bool.false_ne_true hle

theorem source_isSome : ((neighbors N).source r j).isSome=true ↔ j<N-1 := by
  simp only [neighbors]
  split
  case isTrue hlt => exact iff_of_true rfl hlt
  case isFalse hle => exact iff_of_false Bool.false_ne_true hle

theorem Placed.enter {k : ℕ} (h : Placed N σ x k) {b c : Bool}
    (hrea : Standing.Ready (neighbors N) r { σ with sent := b, received := c })
    (hla : ∀ i, i+1 = σ.entered → σ.posted=true) (hfra : .avail ∉ x.frames) :
    Enters (neighbors N) (Stands N) r { σ with sent := b, received := c } (sendNext N { x with
      curphase := σ.entered
      rphase := k
      senddone := false
      recvdone := false }) := by
  have hN : 0<N := r.pos
  have hlt : σ.entered<N := by
    rcases hrea with hzr | ⟨j,hj,hrou,-⟩
    · exact hzr.trans_lt hN
    · have hj : j<N-1 := hj
      simp only at hrou
      omega
  have hlph := h.lphase
  have hdon := h.dones
  rw [if_neg hlt.ne] at hdon
  have hcre : Credits N σ.enter k := h.credits.enter hla
  rw [sendNext]
  split
  case isTrue hend =>
    have hend : σ.entered=N-1 := by
      simp only [startphase,nphases] at hend
      omega
    refine .ended hrea hend ⟨k,⟨hlt,h.failed,?_,rfl,?_,?_,hcre,
      fun hzr => absurd hzr (succ_ne_zero _),rfl,rfl,nofun,nofun,nofun,nofun⟩,
      .inr ⟨hfra,fun _ _ hend' => ?_⟩⟩
    · show x.dones+1 = if σ.entered+1=N then 1 else 0
      rw [if_pos (by omega),hdon]
    · simp only [Standing.enter]
      omega
    · simp only [Standing.enter,succ_ne_zero,if_false]
      omega
    · simp only [Standing.enter] at hend'
      omega
  case isFalse hend =>
    have hend : σ.entered<N-1 := by
      simp only [startphase,nphases] at hend
      omega
    have hsm : x.lphase=(σ.entered : ℤ) := by omega
    rw [if_pos hsm]
    refine .avail hrea hend (source_isSome.mpr hend) ⟨k,⟨hlt,h.failed,?_,rfl,?_,?_,hcre,
      fun hzr => absurd hzr (succ_ne_zero _),rfl,rfl,nofun,nofun,nofun,nofun⟩,
      .inl ⟨x.frames,rfl,hfra,rfl,rfl,succ_pos _,?_⟩⟩
    · show x.dones = if σ.entered+1=N then 1 else 0
      rw [if_neg (by omega),hdon]
    · simp only [Standing.enter]
      omega
    · simp only [Standing.enter,succ_ne_zero,if_false]
      omega
    · simp only [Standing.enter]
      omega

theorem Placed.sendData {k : ℕ} (h : Placed N σ x k) (hrou : σ.entered=j+1) (hj : j<N-1)
    (hpst : σ.posted=false) {fs : List AllgathervFrame} (hfs : .avail ∉ fs) :
    Outcome (neighbors N) (Stands N) r σ (sendData { x with frames := fs, inSendNext := true }) := by
  have hpha := h.curphase
  have hrph := h.rphase
  rw [if_neg (by omega)] at hrph
  rw [AllgathervExec.sendData]
  split
  case isTrue hmay =>
    have hk : k=j+1 := by
      simp only at hmay
      omega
    have hcur : x.curphase.toNat=j := by omega
    have hgra := (h.credits.granted j).mpr (by omega)
    simp only [hcur]
    refine .post hrou (dest_isSome.mpr hj) (h.credits.granted_came j hgra) hpst
      ⟨k,⟨h.entered_le,h.failed,h.dones,h.curphase,h.lphase,h.rphase,h.credits.post hrou (by omega),
        fun hzr => ?_,h.senddone,h.recvdone,h.once,fun _ => rfl,fun _ => ?_,h.received⟩,.inr ⟨?_,nofun⟩⟩
    · simp only at hzr
      omega
    · simp only
      omega
    · exact List.not_mem_cons_of_ne_of_not_mem nofun hfs
  case isFalse hmay =>
    have hle := h.credits.le_entered hpst (by omega)
    have hge := h.credits.entered_le h.entered_le
    have hk : k=j := by
      simp only at hmay
      omega
    exact .stay ⟨k,⟨h.entered_le,h.failed,h.dones,h.curphase,h.lphase,h.rphase,h.credits,
      fun hzr => by omega,h.senddone,h.recvdone,h.once,h.sent,h.posted,h.received⟩,
      .inr ⟨hfs,fun _ _ _ => ⟨rfl,by omega⟩⟩⟩

section

variable (h : Stands N r σ x)
include h

theorem Stands.start (hzr : σ.entered=0) : Enters (neighbors N) (Stands N) r σ (start N x) := by
  obtain ⟨k,h,-⟩ := h
  have hnot : ∀ {b : Bool}, (b=true → 0 < σ.entered ∧ σ.entered<N) → b=false := fun hb => by
    rw [← Bool.not_eq_true]
    exact fun htrue => (hb htrue).1.ne' hzr
  have hsn : x.senddone=false := h.senddone.trans (hnot fun hsn => h.posted (h.sent hsn))
  have hrec : x.recvdone=false := h.recvdone.trans (hnot h.received)
  have hrph := h.rphase
  rw [if_pos hzr] at hrph
  have hnx : (if x.rphase = -1 then startphase else x.rphase+1)=k := by
    rw [startphase]
    split <;> omega
  have henr := h.enter (r := r) (b := σ.sent) (c := σ.received) (.inl hzr) (fun i hi => by omega)
    (h.fresh hzr ▸ List.not_mem_nil)
  have hfir : startphase=(σ.entered : ℤ) := by
    rw [hzr]
    rfl
  rw [AllgathervExec.start,hnx,hsn,hrec,hfir]
  exact henr

theorem Stands.resume {o : AllgathervExec × Option Multicast} (ho : resume x = some o) :
    Outcome (neighbors N) (Stands N) r σ o := by
  obtain ⟨k,h,hcal⟩ := h
  rw [AllgathervExec.resume] at ho
  split at ho
  case h_1 => contradiction
  case h_2 fs hfs =>
    obtain rfl := some.inj ho
    rcases hcal with ⟨gs,hgs,hnot,hin,hpst,hpos,hlt⟩ | ⟨hnot,-⟩
    · obtain ⟨-,rfl⟩ := List.cons.inj (hfs.symm.trans hgs)
      obtain ⟨j,hj⟩ := exists_eq_succ_of_ne_zero hpos.ne'
      have hsd := h.sendData (r := r) hj (by omega) hpst hnot
      rwa [← hin] at hsd
    · rw [hfs] at hnot
      exact absurd List.mem_cons_self hnot
  case h_3 fs hfs =>
    obtain rfl := some.inj ho
    rcases hcal with ⟨gs,hgs,-⟩ | ⟨hnot,hwait⟩
    · have hne := (List.cons.inj (hfs.symm.trans hgs)).1
      contradiction
    · rw [hfs] at hnot
      refine .stay ⟨k,⟨h.entered_le,h.failed,h.dones,h.curphase,h.lphase,h.rphase,h.credits,fun hzr => ?_,
        h.senddone,h.recvdone,h.once,h.sent,h.posted,h.received⟩,.inr ⟨?_,fun hpst hpos hlt => ?_⟩⟩
      · have hnil := h.fresh hzr
        rw [hfs] at hnil
        contradiction
      · exact fun hmem => hnot (List.mem_cons_of_mem _ hmem)
      · exact ⟨rfl,(hwait hpst hpos hlt).2⟩

omit h in
theorem Placed.goes {k : ℕ} (h : Placed N σ x k) (hcal : Calls N σ k x) (hrou : σ.entered=j+1)
    (hj : j<N-1) (hpst : σ.posted=true) {b c : Bool} (hb : b=true) (hc : c=true) :
    Outcome (neighbors N) (Stands N) r { σ with sent := b, received := c }
      (sendNext N { x with recvdone := false, senddone := false, curphase := x.curphase+1 }) := by
  have hfra : .avail ∉ x.frames := by
    rcases hcal with ⟨-,-,-,-,hno,-⟩ | ⟨hfra,-⟩
    · rw [hpst] at hno
      contradiction
    · exact hfra
  have hrph := h.rphase
  rw [if_neg (by omega),sub_zero] at hrph
  have henr := h.enter (r := r) (b := b) (c := c) (.inr ⟨j,hj,hrou,fun _ => hb,fun _ => hc⟩)
    (fun _ _ => hpst) hfra
  rw [← h.curphase,← hrph] at henr
  exact .enter (by simp only; omega) henr

theorem Stands.sendDone (hrou : σ.entered=j+1) (hj : j<N-1) (hpst : σ.posted=true) :
    Outcome (neighbors N) (Stands N) r { σ with sent := true } (notifySendDone N x) := by
  obtain ⟨k,h,hcal⟩ := h
  rw [notifySendDone]
  split
  case isTrue hdn => exact h.goes hcal hrou hj hpst rfl (h.recvdone.symm.trans hdn)
  case isFalse hdn =>
    have hrec : ¬ σ.received=true := h.recvdone ▸ hdn
    exact .stay ⟨k,⟨h.entered_le,h.failed,h.dones,h.curphase,h.lphase,h.rphase,
      h.credits.congr rfl rfl fun _ => .rfl,h.fresh,rfl,
      h.recvdone,fun hbt => hrec hbt.2,fun _ => hpst,h.posted,h.received⟩,hcal⟩

theorem Stands.recvDone (hrou : σ.entered=j+1) (hj : j<N-1) :
    Outcome (neighbors N) (Stands N) r { σ with received := true } (notifyRecvDone N x) := by
  obtain ⟨k,h,hcal⟩ := h
  rw [notifyRecvDone]
  split
  case isTrue hdn =>
    have hsn := h.senddone.symm.trans hdn
    exact h.goes hcal hrou hj (h.sent hsn) hsn rfl
  case isFalse hdn =>
    have hsn : ¬ σ.sent=true := h.senddone ▸ hdn
    exact .stay ⟨k,⟨h.entered_le,h.failed,h.dones,h.curphase,h.lphase,h.rphase,
      h.credits.congr rfl rfl fun _ => .rfl,h.fresh,h.senddone,rfl,fun hbt => hsn hbt.1,h.sent,h.posted,fun _ => by simp only; omega⟩,hcal⟩

omit h in
theorem Credits.grant {k : ℕ} (h : Credits N σ k) (hj : j<N-1) (hcm : σ.came j = true)
    (hfre : σ.granted j = false) :
    k=j ∧ Credits N { σ with granted := update σ.granted j true } (k+1) := by
  have hk : k=j := by
    refine le_antisymm (not_lt.mp fun hlt => ?_) (h.came j hcm)
    rw [(h.granted j).mpr hlt] at hfre
    contradiction
  subst hk
  refine ⟨rfl,⟨fun i => ?_,fun i hi => le_succ_of_le (h.came i hi),fun i hi => ?_,hj,
    fun i hi hlt => lt_succ_of_lt (h.posted i hi hlt),h.after⟩⟩
  · simp only [update_apply]
    split
    case isTrue heq => exact iff_of_true rfl (heq ▸ lt_succ_self k)
    case isFalse hne =>
      rw [h.granted]
      omega
  · simp only [update_apply] at hi
    split at hi
    case isTrue heq => exact heq ▸ hcm
    case isFalse => exact h.granted_came i hi

omit h in
theorem Credits.come {k : ℕ} (h : Credits N σ k) (hk : k=j) (hbef : ∀ i<j, σ.Posted i) :
    Credits N { σ with came := update σ.came j true } k := by
  refine ⟨h.granted,fun i hi => ?_,fun i hi => ?_,h.le,h.posted,fun i hi q hq => ?_⟩
  · simp only [update_apply] at hi
    split at hi
    case isTrue heq => exact (heq.trans hk.symm).le
    case isFalse => exact h.came i hi
  · simp only [update_apply]
    split
    · rfl
    · exact h.granted_came i hi
  · simp only [update_apply] at hi
    split at hi
    case isTrue heq => exact hbef q (heq ▸ hq)
    case isFalse => exact h.after i hi q hq

theorem Stands.availRecvDone (hj : j<N-1) (hcm : σ.came j = true) (hfre : σ.granted j = false)
    (hle : σ.entered≤N-1) :
    Outcome (neighbors N) (Stands N) r { σ with granted := update σ.granted j true }
      (notifyAvailRecvDone N x) := by
  obtain ⟨k,h,hcal⟩ := h
  obtain ⟨rfl,hcre⟩ := h.credits.grant hj hcm hfre
  have hrph := h.rphase
  have hpha := h.curphase
  have hlph := h.lphase
  have hnx : Placed N { σ with granted := update σ.granted k true } { x with rphase := x.rphase+1 } (k+1) :=
    ⟨h.entered_le,h.failed,h.dones,h.curphase,h.lphase,by simp only; omega,hcre,h.fresh,h.senddone,
      h.recvdone,h.once,h.sent,h.posted,h.received⟩
  rw [notifyAvailRecvDone]
  split
  case isFalse hno =>
    simp only [startphase] at hno
    refine .stay ⟨k+1,hnx,?_⟩
    rcases hcal with hcal | ⟨hfra,hwait⟩
    · exact .inl hcal
    · refine .inr ⟨hfra,fun hpst (hpos : 0 < σ.entered) hlt => ?_⟩
      have hid := (hwait hpst hpos hlt).1
      exact absurd ⟨by omega,hid⟩ hno
  case isTrue hgo =>
    simp only [startphase] at hgo
    obtain ⟨hgo,hid⟩ := hgo
    have hpos : 0 < σ.entered := by omega
    rw [if_neg hpos.ne'] at hrph
    have hfra : .avail ∉ x.frames ∧ (σ.posted=false → k+1 = σ.entered) := by
      rcases hcal with ⟨-,-,-,hbusy,-⟩ | ⟨hfra,hwait⟩
      · rw [hid] at hbusy
        contradiction
      · exact ⟨hfra,fun hpst => (hwait hpst hpos (by omega)).2⟩
    rw [sendNext,if_neg (by simp only [startphase,nphases]; omega),if_neg (by simp only; omega)]
    by_cases hpst : σ.posted=true
    case pos =>
      have hlt := h.credits.entered_lt hpst hpos (by omega)
      rw [AllgathervExec.sendData,if_neg (by simp only; omega)]
      exact .stay ⟨k+1,⟨hnx.entered_le,hnx.failed,hnx.dones,hnx.curphase,hnx.lphase,hnx.rphase,
        hnx.credits,hnx.fresh,hnx.senddone,hnx.recvdone,hnx.once,hnx.sent,hnx.posted,hnx.received⟩,
        .inr ⟨hfra.1,fun hno => absurd hpst (Bool.not_eq_true _ ▸ hno)⟩⟩
    case neg =>
      have hpst := Bool.not_eq_true _ ▸ hpst
      exact hnx.sendData (hfra.2 hpst).symm hj hpst hfra.1

theorem Stands.recvAvail (hj : j<N-1) (hfre : σ.granted j = false) (hle : σ.entered≤j+1)
    (hbef : ∀ i<j, σ.Posted i) :
    Stands N r { σ with came := update σ.came j true } (notifyRecvAvail r (dst r) (j+1) x) := by
  obtain ⟨k,h,hcal⟩ := h
  have hk := h.credits.next hj hfre hbef
  have hrph := h.rphase
  have hpha := h.curphase
  have hge : j ≤ σ.entered := by
    obtain rfl | hpos := Nat.eq_zero_or_pos j
    · exact zero_le _
    · have hpst := hbef (j-1) (by omega)
      rcases hpst with hlt | ⟨heq,-⟩ <;> omega
  refine ⟨k,⟨h.entered_le,?_,h.dones,h.curphase,h.lphase,h.rphase,h.credits.come hk hbef,h.fresh,h.senddone,
    h.recvdone,h.once,h.sent,h.posted,h.received⟩,hcal⟩
  have hfai := h.failed
  simp only [notifyRecvAvail,hfai,ne_eq,not_true_eq_false,decide_false,Bool.false_or]
  have hsta : startphase=0 := rfl
  by_cases hcur : x.rphase=x.curphase ∧ startphase≤x.curphase
  case pos =>
    rw [if_pos hcur]
    split_ifs at hrph with hzr
    all_goals exact decide_eq_false (not_not_intro (by omega))
  case neg =>
    rw [if_neg hcur]
    split_ifs at hrph with hzr
    · rw [if_pos (.inr (by omega))]
      exact decide_eq_false (not_not_intro (by omega))
    · rw [if_pos (.inl (by omega))]
      exact decide_eq_false (not_not_intro (by omega))

theorem Stands.recvData (hrou : σ.entered=j+1) :
    Stands N r σ (notifyRecvData r (src r) j x) ∧ x.curphase.toNat=j := by
  obtain ⟨k,h,hcal⟩ := h
  have hpha := h.curphase
  refine ⟨⟨k,⟨h.entered_le,?_,h.dones,h.curphase,h.lphase,h.rphase,h.credits,h.fresh,h.senddone,
    h.recvdone,h.once,h.sent,h.posted,h.received⟩,hcal⟩,by omega⟩
  have heq : (j : ℤ)=x.curphase := by omega
  simp [notifyRecvData,h.failed,heq]

theorem Stands.waits (hfra : AllgathervExec.resume x = none) (hrou : σ.entered=j+1) (hj : j<N-1) :
    (σ.granted j = true → σ.posted=true) ∧ ¬ (σ.sent=true ∧ σ.received=true) := by
  obtain ⟨k,h,hcal⟩ := h
  refine ⟨fun hgra => ?_,h.once⟩
  by_contra hno
  have hlt := (h.credits.granted j).mp hgra
  rcases hcal with ⟨fs,hfs,-⟩ | ⟨-,hwait⟩
  · rw [AllgathervExec.resume,hfs] at hfra
    contradiction
  · have hk := (hwait (Bool.not_eq_true _ ▸ hno) (by omega) (by omega)).2
    omega

end

theorem spec : CreditSpec (neighbors N) (program N) (Stands N) where
  entered := fun r σ x ⟨k,h,_⟩ => by
    have hpha := h.curphase
    simp only [program]
    omega
  start := fun r σ x h hzr => h.start hzr
  resume := fun r σ x o h ho => h.resume ho
  sendDone := fun r σ x j h hrou hj hpst _ => h.sendDone hrou hj hpst
  recvDone := fun r σ x j h hrou hj _ _ => h.recvDone hrou hj
  availRecvDone := fun r σ x j h hds hcm hfre hle => h.availRecvDone (dest_isSome.mp hds) hcm hfre hle
  availSendDone := fun r σ x b ⟨k,h,hcal⟩ _ _ _ =>
    .stay ⟨k,⟨h.entered_le,h.failed,h.dones,h.curphase,h.lphase,h.rphase,h.credits.congr rfl rfl fun _ => .rfl,
      h.fresh,h.senddone,h.recvdone,h.once,h.sent,h.posted,h.received⟩,hcal⟩
  recvAvail := fun r b σ x j h hds _ hfre _ hle hbef => by
    have hj := dest_isSome.mp (isSome_of_eq_some hds)
    have hdst : ∀ i<N-1, (neighbors N).dest r i = some (dst r) := fun i hi => if_pos hi
    obtain rfl := some.inj ((hdst j hj).symm.trans hds)
    exact h.recvAvail hj hfre hle fun i hi => hbef i hi (hdst i (hi.trans hj))
  recvData := fun r a σ x j h hrou hsou _ => by
    have hj := source_isSome.mp (isSome_of_eq_some hsou)
    obtain rfl := some.inj ((if_pos hj).symm.trans hsou)
    exact h.recvData hrou
  waits := fun r σ x j h hfra hrou hj _ => (h.waits hfra hrou hj).imp (fun hgo _ _ => hgo)
      fun hno hbt => hno ⟨hbt.1 (dest_isSome.mpr hj),hbt.2 (source_isSome.mpr hj)⟩

end AllgathervExec

variable {V : Type*} {N : ℕ}

namespace AllgathervCall

variable {call : Fin N → AllgathervCall V} {a b r : Fin N} {i j q : ℕ}

def Disjoint (c : AllgathervCall V) (N : ℕ) : Prop :=
  ∀ i < N, ∀ j < N, ∀ q < c.length i, ∀ t < c.length j, c.cell i q = c.cell j t → i = j ∧ q = t

/-- The ranks agree on the lengths of the blocks, and no blocks overlap. -/
structure Matching (call : Fin N → AllgathervCall V) : Prop where
  length : ∀ a b, ∀ i < N, (call a).length i = (call b).length i
  disjoint : ∀ r, (call r).Disjoint N

def sendRank (a : Fin N) (phase : ℕ) : Fin N := ⟨sendIndex a phase, mod_lt _ a.pos⟩

/-- The rank whose block is received in a phase. -/
def recvRank (b : Fin N) (phase : ℕ) : Fin N := ⟨recvIndex b phase, mod_lt _ b.pos⟩

/-- The bytes of a block, as its rank has them. -/
def contents (call : Fin N → AllgathervCall V) (i : Fin N) : List V :=
  (List.range ((call i).length i)).map (call i).source

theorem offset_sendRank (hj : j<N) : offset (sendRank a j) a = j := by
  refine (offset_eq_iff hj).mpr (forward_eq_iff.mpr ?_)
  calc ((a+N-j)%N+j : ℕ) ≡ a+N-j+j [MOD N] := (mod_modEq _ N).add_right j
    _ = a+N := by omega
    _ ≡ a [MOD N] := add_modEq_right

theorem recvRank_eq (b : Fin N) (j : ℕ) : recvRank b j = sendRank b (j+1) := rfl

theorem sendRank_backward (hj : j+1<N) : sendRank (backward 1 b) j = recvRank b j := by
  have hsd : forward j (sendRank (backward 1 b) j) = backward 1 b :=
    (offset_eq_iff (by omega)).mp (offset_sendRank (by omega))
  have hrecv : forward (j+1) (recvRank b j)=b := (offset_eq_iff hj).mp (recvRank_eq b j ▸ offset_sendRank hj)
  have hbt : forward (j+1) (sendRank (backward 1 b) j)=b := by
    rw [add_comm,forward_add,hsd]
    exact forward_iff_backward.mpr rfl
  exact (forward_iff_backward.mp hbt).symm.trans (forward_iff_backward.mp hrecv)

def Has (call : Fin N → AllgathervCall V) (r i : Fin N) (rbuf : ℕ → V) : Prop :=
  ∀ q < (call r).length i, rbuf ((call r).cell i q) = (call i).source q

/-- The blocks that a rank has when it has entered some phases are right, and so is the one that has come in. -/
def Gathered (call : Fin N → AllgathervCall V) (r : Fin N) (k : ℕ) (came : Prop) (rbuf : ℕ → V) : Prop :=
  ∀ i : Fin N, offset i r < k ∨ came ∧ offset i r = k → Has call r i rbuf

theorem Matching.write (h : Matching call) {rbuf : ℕ → V} {d i : Fin N} (hi : i=d ∨ Has call r i rbuf) :
    Has call r i (write ((call r).cell d) (contents call d) rbuf) := by
  intro q hq
  have hlng := h.length d r d d.isLt
  by_cases heq : i=d
  · subst heq
    have hq' : q<(contents call i).length := by
      rw [contents,List.length_map,List.length_range,hlng]
      exact hq
    refine (write_cell ((call r).cell i) (fun u v hu hv hcell => ?_) hq').trans ?_
    · rw [contents,List.length_map,List.length_range,hlng] at hu hv
      exact (h.disjoint r i i.isLt i i.isLt u hu v hv hcell).2
    · simp only [contents,List.getElem_map,List.getElem_range]
  · rw [write_of_ne fun u hu hcell => ?_]
    · exact hi.resolve_left heq q hq
    · rw [contents,List.length_map,List.length_range,hlng] at hu
      exact heq (Fin.ext (h.disjoint r d d.isLt i i.isLt u hu q hq hcell).1.symm)

end AllgathervCall

namespace AllgathervExec

open AllgathervCall CreditSystem

variable {call : Fin N → AllgathervCall V} {r : Fin N}

theorem serves (h : Matching call) :
    CreditServes (neighbors N) (client call) (fun a j => contents call (sendRank a j)) (Gathered call) where
  start := by
    intro r x hx i hi
    have hown : i=r := by
      rcases hi with hlt | ⟨hno,-⟩
      · exact (offset_eq_zero.mp (by omega)).symm
      · contradiction
    exact hown ▸ h.write (.inl rfl)
  next := by
    intro r j x hj hx i hi
    refine hx i ?_
    rcases hi with hlt | ⟨hno,-⟩
    · obtain hlt | heq := lt_or_eq_of_le (le_of_lt_succ hlt)
      · exact .inl hlt
      · exact .inr ⟨source_isSome.mpr hj,heq⟩
    · contradiction
  transmit := by
    intro a b j w x hds _ hx
    have hj := dest_isSome.mp (isSome_of_eq_some hds)
    have hown := hx (sendRank a j) (.inl ((offset_sendRank (by omega)).trans_lt (lt_succ_self j)))
    have hlng := h.length a (sendRank a j) _ (sendRank a j).isLt
    simp only [client,contents,← hlng]
    refine List.map_congr_left fun q hq => ?_
    exact hown q (List.mem_range.mp hq)
  incoming := by
    intro a b j x hsou hx i hi
    have hj := source_isSome.mp (isSome_of_eq_some hsou)
    obtain rfl : src b=a := some.inj ((if_pos hj).symm.trans hsou)
    have hrk : sendRank (src b) j = recvRank b j := sendRank_backward (by omega)
    rw [hrk]
    refine h.write (d := recvRank b j) ?_
    rcases hi with hlt | ⟨-,heq⟩
    · exact .inr (hx i (.inl hlt))
    · refine .inl ?_
      have hlt : j+1<N := by omega
      have hbt : forward (j+1) i = forward (j+1) (recvRank b j) :=
        ((offset_eq_iff hlt).mp heq).trans ((offset_eq_iff hlt).mp (recvRank_eq b j ▸ offset_sendRank hlt)).symm
      exact (forward_iff_backward.mp hbt).symm.trans (forward_iff_backward.mp rfl)

variable {rbuf : Fin N → ℕ → V} {s s' : CreditSystem (Fin N) AllgathervExec (ℕ → V) (List V)}

def Gathers (call : Fin N → AllgathervCall V) (s : CreditSystem (Fin N) AllgathervExec (ℕ → V) (List V)) : Prop :=
  Creditable (neighbors N) (program N) (fun a j => contents call (sendRank a j)) (Gathered call) (Stands N) s

theorem Gathers.inTime (h : Gathers call s) {e : CreditEvent (Fin N)}
    (he : s.step (neighbors N) (program N) (client call) e = some s') : s.InTime (neighbors N) (program N) e := by
  cases e with
  | availSent a p =>
    rw [step,CreditSystem.availSent] at he
    exact absurd (ite_none_right_eq_some.mp he).1.1 Bool.false_ne_true
  | availComplete a p =>
    intro b hb
    obtain ⟨⟨hinc,hfre⟩,-⟩ := ite_none_right_eq_some.mp he
    obtain ⟨k,hplc,-⟩ := h.placed b
    have hds : (neighbors N).dest b p = some a := ((neighbors N).matched b a p).mpr hb
    have hp := dest_isSome.mp (isSome_of_eq_some hds)
    by_contra hla
    have hent : (program N).entered (s.exec b)=N :=
      le_antisymm hplc.entered_le (by have hla : ¬ _ ≤ N-1 := hla; omega)
    have hk := hplc.credits.posted (N-2) (.inl (by simp only [CreditState.standing,CreditSystem.rounds,hent]; omega))
      (by omega)
    have hgra := (hplc.credits.granted p).mpr (by omega)
    simp only [CreditState.standing,hds,any_some] at hgra
    rw [CreditSystem.rounds,hfre] at hgra
    contradiction
  | _ => trivial

theorem gathers_run (hmat : Matching call)
    (h : Run (step (neighbors N) (program N) (client call)) (fun _ _ => True)
      (.new (fun _ => .new) rbuf) s) : Gathers call s := by
  refine h.invariant ?_ fun s e s' hs _ he => hs.step spec (serves hmat) (hs.inTime he) he
  refine creditable_new (fun _ => rfl) (fun r i hi => ?_) fun r => ?_
  · rcases hi with hlt | ⟨hno,-⟩
    · exact absurd hlt (Nat.not_lt_zero _)
    · contradiction
  · refine ⟨0,⟨zero_le N,rfl,(if_neg r.pos.ne).symm,rfl,rfl,rfl,?_,fun _ => rfl,rfl,rfl,nofun,nofun,
      nofun,nofun⟩,.inr ⟨List.not_mem_nil,fun _ hpos => absurd hpos (lt_irrefl 0)⟩⟩
    refine ⟨fun i => iff_of_false Bool.false_ne_true (Nat.not_lt_zero i),nofun,nofun,zero_le _,fun i hi => ?_,
      nofun⟩
    rcases hi with hlt | ⟨heq,-⟩
    · exact absurd hlt (Nat.not_lt_zero _)
    · exact absurd heq (succ_ne_zero i)

theorem filter_dest {k : ℕ} (hk : k≤N) :
    (List.range k).filter (fun j => ((neighbors N).dest r j).isSome) = List.range (min k (N-1)) := by
  obtain hle | hlt := lt_or_ge (N-1) k
  · obtain rfl : k=N-1+1 := by omega
    have hla : ((neighbors N).dest r (N-1)).isSome=false :=
      Bool.not_eq_true _ ▸ fun hso => absurd (dest_isSome.mp hso) (lt_irrefl _)
    rw [List.range_succ,List.filter_append,List.filter_cons_of_neg (by rw [hla]; exact Bool.false_ne_true),
      List.filter_nil,List.append_nil,min_eq_right (le_succ _)]
    exact List.filter_eq_self.mpr fun j hj => dest_isSome.mpr (List.mem_range.mp hj)
  · rw [min_eq_left hlt]
    exact List.filter_eq_self.mpr fun j hj => dest_isSome.mpr ((List.mem_range.mp hj).trans_le hlt)

theorem Gathers.dones (h : Gathers call s) (r : Fin N) :
    (s.exec r).failed=false ∧ (program N).entered (s.exec r) ≤ N ∧
      (s.exec r).dones = if (program N).entered (s.exec r) = N then 1 else 0 := by
  obtain ⟨k,hplc,-⟩ := h.placed r
  exact ⟨hplc.failed,hplc.entered_le,hplc.dones⟩

theorem Gathers.sends (h : Gathers call s) (r : Fin N) :
    ∃ k≤N-1, s.sends r = List.range k ∧ (program N).entered (s.exec r) ≤ k+1 := by
  obtain ⟨k,hle,hge,hsen⟩ := h.credited.sends r
  have hla := (h.dones r).2.1
  have hle : k≤(program N).entered (s.exec r) := hle
  have hge : (program N).entered (s.exec r)≤k+1 := hge
  exact ⟨min k (N-1),min_le_right _ _,hsen.trans (filter_dest (hle.trans hla)),by omega⟩

def gaps : RecvType where
  dataSize := 1
  extent := 2
  disp := id

def twoRanks (r : Fin 2) : AllgathervCall ℕ := ⟨fun q => 10 * r + q, id, gaps, fun i => 3 * i, fun i => i + 1⟩

/-- The message that a buffer of rank 1 is available is received before rank 0 starts, and the data of rank 0 is sent before
the multicast of the data returns. -/
def gatherEvents {ι : Type} (a b : ι) : List (CreditEvent ι) :=
  [.start b, .availIncoming b 0, .availComplete b 0, .start a, .resume a, .transmit a 0, .sent a 0, .resume a, .resume b,
    .incoming a 0, .complete a 0, .availIncoming a 0, .availComplete a 0, .transmit b 0, .incoming b 0, .complete b 0,
    .sent b 0, .resume b]

end AllgathervExec

end PAMI.Executor

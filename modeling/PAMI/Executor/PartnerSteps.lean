import PAMI.Executor.PartnerRefinement

namespace PAMI.Executor

open PAMI.Math PhasedState Function PartnerExec Option

/-- Other counters of the phase that an executor is in. -/
def PartnerExec.recounted {ι V R : Type*} (x : PartnerExec ι V R) (c d : ℤ) : PartnerExec ι V R :=
  { x with
    donecount := d
    mrecvstr := update x.mrecvstr x.curphase { x.mrecvstr x.curphase with donecount := c } }

namespace PartnerSystem

variable {ι V R : Type*} [DecidableEq ι] {P : ι → PartnerProgram ι V R} {sbuf : ι → V} {q : ι → ℕ → Partner ι}
  {T : PhaseTables ι} {member : ι → Prop} {data : ι → Working V R} {s s' : PartnerSystem ι V R} {r a b : ι}
  {p i : ℕ} {m : Transfer V} {x : PartnerExec ι V R}

/-- Between the events all ranks that are started are done, or wait. -/
structure Exchanging (P : ι → PartnerProgram ι V R) (sbuf : ι → V) (q : ι → ℕ → Partner ι) (T : PhaseTables ι)
    (member : ι → Prop) (data : ι → Working V R) (s : PartnerSystem ι V R) : Prop
    extends Refines P sbuf q T member data s where
  settled : ∀ r, Settled P T s r (s.rank r)
  others : ∀ a p i, i ≠ 0 → (s.message a p i).data = none ∧ (s.message a p i).incoming = false
  length : ∀ a p, ∀ x ∈ (s.message a p 0).data, x.length = (q a p).length

theorem exchanging_new : Exchanging P sbuf q T member data (new data) :=
  ⟨refines_new data,fun _ => ⟨fun h => by contradiction,fun h => by contradiction⟩,fun _ _ _ _ => ⟨rfl,rfl⟩,
    fun _ _ _ h => by contradiction⟩

theorem apply_setMessage {β : Type*} (f : Transfer V → β) (hm : f m = f (s.message a p i)) (a' : ι)
    (p' i' : ℕ) : f ((s.setMessage a p i m).message a' p' i') = f (s.message a' p' i') := by
  simp only [setMessage]
  split
  case isTrue heq =>
    obtain ⟨rfl,rfl,rfl⟩ := heq
    exact hm
  case isFalse => rfl

theorem sentOut_setMessage (hm : m.sent=(s.message a p i).sent) :
    (s.setMessage a p i m).sentOut T = s.sentOut T := by
  funext r p'
  simp only [sentOut,apply_setMessage Transfer.sent hm]

theorem cameIn_setMessage (hm : m.incoming=(s.message a p i).incoming) :
    (s.setMessage a p i m).cameIn T = s.cameIn T := by
  funext r p'
  simp only [cameIn,apply_setMessage Transfer.incoming hm]

theorem counted_setMessage (hm : m.complete=(s.message a p i).complete) :
    (s.setMessage a p i m).counted T = s.counted T := by
  funext r p'
  simp only [counted,apply_setMessage Transfer.complete hm]

theorem received_setMessage (hm : m.complete=(s.message a p i).complete) :
    (s.setMessage a p i m).received T = s.received T := by
  funext r p'
  simp only [received,apply_setMessage Transfer.complete hm]

theorem phased_setMessage (s : PartnerSystem ι V R) (a : ι) (p : ℕ) (m : Transfer V) :
    (s.setMessage a p 0 m).phased P T = (s.phased P T).setMessage a 1 p
      { (s.phased P T).message a 1 p with
        data := m.data
        sent := m.sent
        incoming := m.incoming
        complete := m.complete } := by
  ext1
  case message =>
    funext a' n p'
    simp only [phased,setMessage,PhasedState.setMessage,if_true,and_true]
    by_cases heq : a'=a ∧ n=1 ∧ p'=p
    · obtain ⟨rfl,rfl,rfl⟩ := heq
      simp only [and_self,if_true]
    · rw [if_neg heq]
      split
      case isTrue hn => rw [if_neg fun h => heq ⟨h.1,hn,h.2⟩]
      case isFalse => rfl
  all_goals rfl

theorem Refines.at_phase (h : Refines P sbuf q T member data s)
    (hpst : (s.rank a).posted p = true) (hds : (T.dest a 1 p).isSome=true)
    (hsn : (s.message a p 0).sent=false) :
    p=(s.rank a).curphase ∧ (s.rank a).started=true ∧ (s.rank a).curphase<(P a).nphases := by
  have ha := h.counts a
  have hstr : (s.rank a).started=true := by
    by_contra hno
    have hid := (ha.idle (Bool.not_eq_true _ ▸ hno)).2.2 p
    exact Bool.false_ne_true (hid.symm.trans hpst)
  have hlt : p<(P a).nphases := by
    by_contra hge
    have hno := ha.behind p (.inr (not_lt.mp hge))
    exact Bool.false_ne_true (hno.symm.trans hpst)
  have hle : p≤(s.rank a).curphase := by
    by_contra hgt
    have hno := ha.behind p (.inl (not_le.mp hgt))
    exact Bool.false_ne_true (hno.symm.trans hpst)
  obtain hpas | rfl := Nat.lt_or_eq_of_le hle
  · obtain ⟨hex,hpha⟩ := phase_of_started (P := P) (T := T) s hstr
    have hdn := h.orderly.sent a 1 p ⟨Nat.one_pos,.inr ⟨hex.symm,hpha.symm ▸ hpas⟩⟩ hds
    simp only [phased,if_true,hsn] at hdn
    contradiction
  · exact ⟨rfl,hstr,hlt⟩

omit [DecidableEq ι] in
theorem dest_eq (hP : Paired P T member q) (hmem : member a) (hlt : p<(P a).nphases) :
    dest P a p i = if i=0 then T.dest a 1 p else none := by
  rw [dest,hP.partners a p hmem hlt]
  cases i with
  | zero => exact hP.dest a p hmem hlt
  | succ i => rfl

theorem Refines.of_posted (h : Refines P sbuf q T member data s) (hpst : (s.rank a).posted p = true) :
    member a ∧ p<(P a).nphases := by
  have ha := h.counts a
  refine ⟨ha.member ?_,?_⟩
  · by_contra hno
    exact Bool.false_ne_true (((ha.idle (Bool.not_eq_true _ ▸ hno)).2.2 p).symm.trans hpst)
  · by_contra hge
    exact Bool.false_ne_true ((ha.behind p (.inr (not_lt.mp hge))).symm.trans hpst)

section

variable (h : Exchanging P sbuf q T member data s)
include h

theorem Exchanging.view_eq (r : ι) : (s.phased P T).data r = (s.rank r).data := by
  refine if_neg ?_
  rintro ⟨hs,hend,hdon⟩
  exact Nat.zero_ne_one (hdon.symm.trans ((h.settled r).done hs hend))

omit h in
theorem Exchanging.start (hP : Paired P T member q) (h : Exchanging P sbuf q T member data s) (hr : member r)
    (hs : s.start P sbuf r = some s') : Exchanging P sbuf q T member data s' := by
  obtain ⟨hid,hs⟩ := ite_none_left_eq_some.mp hs
  obtain rfl := some.inj hs
  have hx := h.counts r
  obtain ⟨hcur,hdon,hpst⟩ := hx.idle (Bool.not_eq_true _ ▸ hid)
  have hres : Refines P sbuf q T member data (s.setRank r { s.rank r with
      started := true
      curphase := 0
      donecount := 0
      data := { (s.rank r).data with tmpbuf := update (s.rank r).data.tmpbuf 0 (sbuf r) } }) := by
    refine h.setRank (e := .reset r) ?_ trivial ?_
    · refine ⟨hx.failed,fun _ => hr,fun hno => by contradiction,Nat.zero_le _,
        fun p hp => absurd hp (Nat.not_lt_zero p),fun p _ => hpst p,fun p _ => hx.exec p (by omega),hx.recvstr,
        fun p _ hno => hx.later p (by omega) hno,fun hno => ?_,fun _ => rfl,hx.dones_le,fun hone => ?_⟩
      · exact absurd ((hpst 0).symm.trans hno) Bool.false_ne_true
      · exact absurd (hdon.symm.trans hone) Nat.zero_ne_one
    · have hpha : (s.phased P T).phase r = T.numphases r := if_neg hid
      have hex : (s.phased P T).exec r=0 := if_neg hid
      refine (if_pos hpha.ge).trans (congrArg some ?_)
      rw [phased_setRank,hex]
      ext1
      · rfl
      · rfl
      · exact congrArg (update _ r) (hpst 0).symm
      · refine congrArg (update _ r) ?_
        rw [h.view_eq r,view]
        simp only [client,PartnerProgram.settle,hdon,true_and,and_true]
      · funext a n p
        exact (phased_message_posted s (by rfl) a n p).symm
  have hnx := (ends_sendNext hP r (fuel (P r)) : Ends P sbuf q T member data r _) _ hres (by rw [rank_setRank])
    (by rw [rank_setRank]; exact hpst 0) (by rw [rank_setRank]; exact hdon)
    (by rw [rank_setRank,fuel]; omega)
  rw [rank_setRank,setRank_setRank] at hnx
  have hsta : (s.rank r).start (P r) (sbuf r) = sendNext (P r) (fuel (P r)) _ := if_neg (by rw [hP.nothing r]; decide)
  rw [hsta]
  refine ⟨hnx.1,fun b => ?_,h.others,h.length⟩
  by_cases heq : b=r
  · subst heq
    rw [rank_setRank]
    exact ⟨hnx.2.done,hnx.2.waits⟩
  · rw [rank_setRank_of_ne s _ heq]
    exact ⟨(h.settled b).done,(h.settled b).waits⟩

omit [DecidableEq ι] h in
theorem Counts.congr (h : Counts P q T member s r x) (hcm : s'.cameIn T r = s.cameIn T r)
    (hctd : s'.counted T r = s.counted T r) (hsn : s'.sentOut T r = s.sentOut T r)
    (hrec : s'.received T r = s.received T r) : Counts P q T member s' r x := by
  refine ⟨h.failed,h.member,h.idle,h.curphase_le,h.before,h.behind,?_,h.recvstr,?_,?_,h.between,
    h.dones_le,h.done⟩
  · rw [hcm]
    exact h.exec
  · rw [hctd]
    exact h.later
  · rw [hsn,hrec]
    exact h.current

omit [DecidableEq ι] h in
theorem Settled.congr (h : Settled P T s r x) (hsn : s'.sentOut T r = s.sentOut T r)
    (hrec : s'.received T r = s.received T r) : Settled P T s' r x := by
  refine ⟨h.done,?_⟩
  rw [hsn,hrec]
  exact h.waits

omit h in
theorem message_setMessage (s : PartnerSystem ι V R) (a : ι) (p i : ℕ) (m : Transfer V) (a' : ι) (p' i' : ℕ) :
    (s.setMessage a p i m).message a' p' i' = if a'=a ∧ p'=p ∧ i'=i then m else s.message a' p' i' := rfl

theorem Exchanging.others_setMessage (m : Transfer V) (a' : ι) (p' i' : ℕ) (hi : i'≠0) :
    ((s.setMessage a p 0 m).message a' p' i').data=none ∧
      ((s.setMessage a p 0 m).message a' p' i').incoming=false := by
  rw [message_setMessage,if_neg fun heq => hi heq.2.2]
  exact h.others a' p' i' hi

theorem Exchanging.length_setMessage (hm : m.data=(s.message a p 0).data) (a' : ι) (p' : ℕ) :
    ∀ x ∈ ((s.setMessage a p 0 m).message a' p' 0).data, x.length=(q a' p').length := by
  rw [apply_setMessage Transfer.data hm]
  exact h.length a' p'

omit h in
theorem Exchanging.transmit (hP : Paired P T member q) (h : Exchanging P sbuf q T member data s)
    (hs : s.transmit P a p i = some s') : Exchanging P sbuf q T member data s' := by
  obtain ⟨⟨hpst,hnn,hds⟩,hs⟩ := ite_none_right_eq_some.mp hs
  obtain ⟨hmem,hlt⟩ := h.of_posted hpst
  have hnn := isNone_iff_eq_none.mp hnn
  rw [dest_eq hP hmem hlt] at hds
  split at hds
  case isFalse => contradiction
  case isTrue hi =>
    subst hi
    rw [hP.partners a p hmem hlt,List.getElem?_cons_zero,map_some] at hs
    obtain rfl := some.inj hs
    have hsn : (s.message a p 0).sent=false := by
      rw [← Bool.not_eq_true]
      intro hsn
      have hda := (h.orderly.ordered a 1 p).sent (by simp only [phased,if_true]; exact hsn)
      simp only [phased,if_true,hnn] at hda
      contradiction
    obtain ⟨rfl,-,-⟩ := h.at_phase hpst hds hsn
    refine ⟨⟨fun r => ?_,h.run.step (e := .transmit a 1 (s.rank a).curphase) trivial ?_⟩,fun r => ?_,
      h.others_setMessage _,fun a' p' x hx => ?_⟩
    · exact (h.counts r).congr (congrFun (cameIn_setMessage (by rfl)) r) (congrFun (counted_setMessage (by rfl)) r)
        (congrFun (sentOut_setMessage (by rfl)) r) (congrFun (received_setMessage (by rfl)) r)
    · have hgua : ((s.phased P T).message a 1 (s.rank a).curphase).posted=true ∧
          ((s.phased P T).message a 1 (s.rank a).curphase).data.isNone := by
        simp only [phased,if_true,hpst,hds,Bool.and_self,hnn,isNone_none,and_self]
      refine (if_pos hgua).trans (congrArg some ?_)
      rw [phased_setMessage,h.view_eq a]
      rfl
    · exact (h.settled r).congr (congrFun (sentOut_setMessage (by rfl)) r) (congrFun (received_setMessage (by rfl)) r)
    · rw [message_setMessage] at hx
      split at hx
      case isTrue heq =>
        obtain ⟨rfl,rfl,-⟩ := heq
        obtain rfl := some.inj hx
        rw [List.length_map,List.length_range]
      case isFalse => exact h.length a' p' x hx

theorem Exchanging.eq_zero (hda : (s.message a p i).data.isSome=true) : i=0 := by
  by_contra hne
  rw [(h.others a p i hne).1] at hda
  contradiction

end

omit [DecidableEq ι] in
theorem Counts.recount (h : Counts P q T member s r x) {s' : PartnerSystem ι V R}
    (hcm : s'.cameIn T r = s.cameIn T r)
    (hctd : ∀ p, p≠x.curphase → s'.counted T r p = s.counted T r p)
    (hpst : x.posted x.curphase = true) {c d : ℤ} (hd : d=1-(s'.sentOut T r x.curphase).toNat)
    (hc : c=(s'.received T r x.curphase).toNat-(s'.sentOut T r x.curphase).toNat) :
    Counts P q T member s' r (x.recounted c d) := by
  refine ⟨h.failed,h.member,h.idle,h.curphase_le,h.before,h.behind,fun p hp => ?_,fun p he ha => ?_,
    fun p hp hno => ?_,fun _ => ?_,fun hno => ?_,h.dones_le,h.done⟩
  · refine Eq.trans ?_ (hcm ▸ h.exec p hp)
    simp only [recounted,update_apply]
    split
    case isTrue heq => rw [heq]
    case isFalse => rfl
  · simp only [recounted,update_apply] at he ⊢
    split at he
    case isTrue heq =>
      rw [if_pos heq]
      exact heq ▸ h.recvstr p (heq ▸ he) ha
    case isFalse hne =>
      rw [if_neg hne]
      exact h.recvstr p he ha
  · have hne : p≠x.curphase := by
      rintro rfl
      exact Bool.false_ne_true (hno.symm.trans hpst)
    simp only [recounted,update_of_ne hne,hctd p hne]
    exact h.later p hp hno
  · simp only [recounted,update_self]
    exact ⟨hd,hc,(h.current hpst).2.2⟩
  · exact absurd (hno.symm.trans hpst) Bool.false_ne_true

theorem phased_recount
    (hx : x.started=(s.rank r).started ∧
    x.curphase=(s.rank r).curphase ∧ x.posted=(s.rank r).posted ∧ x.data=(s.rank r).data ∧
      x.dones=(s.rank r).dones) : (s.setRank r x).phased P T = s.phased P T := by
  obtain ⟨hstr,hcrp,hpst,hda,hdon⟩ := hx
  rw [phased_setRank,hstr,hcrp,hpst]
  ext1
  · exact update_eq_self r _
  · exact update_eq_self r _
  · exact update_eq_self r _
  · refine update_eq_self_iff.mpr ?_
    rw [view,hstr,hcrp,hda,hdon]
    rfl
  · funext a n p
    exact phased_message_posted s (by rfl) a n p

theorem sentOut_of_ne (hne : r≠a) : (s.setMessage a p i m).sentOut T r = s.sentOut T r := by
  funext p'
  simp only [sentOut,message_setMessage]
  rw [if_neg fun heq => hne heq.1]

theorem Exchanging.sent (hP : Paired P T member q) (h : Exchanging P sbuf q T member data s)
    (hs : s.sent P a p i = some s') : Exchanging P sbuf q T member data s' := by
  obtain ⟨⟨hda,hfal⟩,rfl⟩ := ite_some_none_eq_some.mp hs
  obtain rfl := h.eq_zero hda
  obtain ⟨hpst,hds⟩ := h.posted_of_data hda
  obtain ⟨rfl,hstr,hlt⟩ := h.at_phase hpst hds hfal
  obtain ⟨b,hb⟩ := isSome_iff_exists.mp hds
  have ha := h.counts a
  obtain ⟨hdnc,hcou,hpar⟩ := ha.current hpst
  have hbef : s.sentOut T a (s.rank a).curphase=false := by
    rw [sentOut,hb,all_some]
    exact hfal
  rw [hbef] at hdnc hcou
  generalize ht : s.setMessage a (s.rank a).curphase 0
    { s.message a (s.rank a).curphase 0 with sent := true } = t
  have haft : t.sentOut T a (s.rank a).curphase=true := by
    subst ht
    rw [sentOut,hb,all_some,message_setMessage,if_pos ⟨rfl,rfl,rfl⟩]
  have hcm : t.cameIn T = s.cameIn T := ht ▸ cameIn_setMessage rfl
  have hctd : t.counted T = s.counted T := ht ▸ counted_setMessage rfl
  have hrec : t.received T = s.received T := ht ▸ received_setMessage rfl
  have hsm : ∀ r, r≠a → t.sentOut T r = s.sentOut T r := fun r hr => ht ▸ sentOut_of_ne hr
  have hrk : t.rank=s.rank := ht ▸ rfl
  have hsn : Refines P sbuf q T member data (t.setRank a ((s.rank a).recounted
      (((s.rank a).mrecvstr (s.rank a).curphase).donecount -
        ((s.rank a).mrecvstr (s.rank a).curphase).partnercnt) 0)) := by
    refine ⟨fun r => ?_,h.run.step (e := .sent a 1 (s.rank a).curphase) trivial ?_⟩
    · by_cases hr : r=a
      · subst hr
        rw [rank_setRank]
        have hrcn := ha.recount (congrFun hcm r) (fun p _ => congrFun (congrFun hctd r) p) hpst
          (c := ((s.rank r).mrecvstr (s.rank r).curphase).donecount -
            ((s.rank r).mrecvstr (s.rank r).curphase).partnercnt) (d := 0) (by rw [haft]; rfl)
          (by rw [haft,hrec,hcou,hpar]; simp)
        exact hrcn.congr rfl rfl rfl rfl
      · rw [rank_setRank_of_ne t _ hr,hrk]
        exact (h.counts r).congr (congrFun hcm r) (congrFun hctd r) (hsm r hr) (congrFun hrec r)
    · have hgua : ((s.phased P T).message a 1 (s.rank a).curphase).data.isSome ∧
          ((s.phased P T).message a 1 (s.rank a).curphase).sent=false := by
        simp only [phased,if_true,hfal,and_true]
        exact hda
      refine (if_pos hgua).trans (congrArg some ?_)
      rw [phased_recount (by rw [hrk]; exact ⟨rfl,rfl,rfl,rfl,rfl⟩),← ht,phased_setMessage]
      rfl
  have hdn := Refines.sendsDone hP (ends_sendNext hP a (fuel (P a)) : Ends P sbuf q T member data a _)
    (x := { s.rank a with donecount := 0 }) hsn hstr hlt (by rw [fuel]; omega) hpst haft
    (by rw [hrec]; simp only [hcou,hpar]; simp)
  have hnot : (s.rank a).notifySendDone (P a) = sendsDone (P a) (sendNext (P a) (fuel (P a)))
        { s.rank a with donecount := 0 } := by
    simp only [notifySendDone,hdnc]
    rfl
  rw [hnot]
  refine ⟨hdn.1,fun r => ?_,ht ▸ h.others_setMessage _,ht ▸ h.length_setMessage (by rfl)⟩
  by_cases hr : r=a
  · subst hr
    rw [rank_setRank]
    exact hdn.2.congr rfl rfl
  · rw [rank_setRank_of_ne t _ hr,hrk]
    exact (h.settled r).congr (hsm r hr) (congrFun hrec r)

end PartnerSystem

end PAMI.Executor

import PAMI.Executor.PartnerSteps

namespace PAMI.Executor

open PAMI.Math PhasedState Function PartnerExec Option

namespace PartnerSystem

variable {ι V R : Type*} [DecidableEq ι] {P : ι → PartnerProgram ι V R} {sbuf : ι → V} {q : ι → ℕ → Partner ι}
  {T : PhaseTables ι} {member : ι → Prop} {data : ι → Working V R} {s s' : PartnerSystem ι V R} {r a b : ι}
  {p i : ℕ}

theorem Refines.not_passed (h : Refines P sbuf q T member data s) (hds : T.dest a 1 p = some b)
    (hfre : (s.message a p 0).complete=false) : (s.rank b).curphase≤p := by
  by_contra hlt
  have hb := h.counts b
  have hstr : (s.rank b).started=true := by
    by_contra hno
    have hid := (hb.idle (Bool.not_eq_true _ ▸ hno)).1
    omega
  obtain ⟨hex,hpha⟩ := phase_of_started (P := P) (T := T) s hstr
  have hcom := h.orderly.complete a b 1 p ⟨Nat.one_pos,.inr ⟨hex.symm,hpha.symm ▸ not_le.mp hlt⟩⟩
    ((T.matched a b 1 p).mp hds)
  simp only [phased,if_true,hfre] at hcom
  contradiction

theorem Refines.notifyRecv (hP : Paired P T member q) (h : Refines P sbuf q T member data s)
    (hds : T.dest a 1 p = some b) (hfre : (s.message a p 0).incoming=false)
    (hle : (s.rank b).curphase≤p) :
    ∃ m w, (q b p).window = some w ∧ (s.rank b).notifyRecv (P b) a p =
        ((s.rank b).setMrecvstr p m, some w) ∧ m.exec=true ∧ (∃ k, m.recvstr = [some ⟨k,w⟩]) ∧
      m.donecount=((s.rank b).mrecvstr p).donecount ∧
      (((s.rank b).mrecvstr p).exec=true → m.partnercnt=((s.rank b).mrecvstr p).partnercnt) ∧
      (((s.rank b).mrecvstr p).exec=false → m.partnercnt=1) := by
  have hb := h.counts b
  have hsou := (T.matched a b 1 p).mp hds
  have hcm : s.cameIn T b p=false := by rw [cameIn,hsou,any_some,hfre]
  cases hex : ((s.rank b).mrecvstr p).exec with
  | true =>
    obtain ⟨k,w,hli,hw⟩ := hb.recvstr p hex (isSome_of_eq_some hsou)
    refine ⟨(s.rank b).mrecvstr p,w,hw,?_,hex,⟨k,hli⟩,rfl,fun _ => rfl,fun hno => by contradiction⟩
    have hinx : PartnerExec.firstIndex ((s.rank b).mrecvstr p) a=0 := by
      rw [PartnerExec.firstIndex,hli]
      cases ((s.rank b).mrecvstr p).partnercnt.toNat with
      | zero => rfl
      | succ n =>
        rw [List.take_succ_cons,List.take_nil,List.findIdx?_cons]
        split <;> rfl
    rw [PartnerExec.notifyRecv]
    simp only [hex,if_true,hinx,hli]
    rw [PartnerExec.setMrecvstr,update_eq_self]
    rfl
  | false =>
    have hpst : (s.rank b).posted p=false := by
      have hor := hb.exec p hle
      rw [hex,hcm,Bool.or_false] at hor
      exact hor.symm
    have hcou : ((s.rank b).mrecvstr p).donecount=0 := by
      rw [(hb.later p hle hpst).1]
      have hnn : s.counted T b p=false := by
        rw [← Bool.not_eq_true]
        intro hctd
        exact Bool.false_ne_true (hcm.symm.trans (h.cameIn_of_counted hctd))
      rw [hnn]
      rfl
    obtain ⟨e,he,hew⟩ := hP.early a b p (s.rank b).curphase hsou
    obtain ⟨-,-,hmem⟩ := hP.once a b 1 p hds
    have hlt : p<(P b).nphases := by
      rw [← hP.numphases]
      exact (T.bounded a b 1 p hds).2
    have hwin := hP.window b p hmem hlt
    rw [hsou] at hwin
    obtain ⟨w,hw⟩ := isSome_iff_exists.mp hwin
    refine ⟨⟨((s.rank b).mrecvstr p).donecount,(P b).earlycnt,true,PartnerExec.recvstrs [e]⟩,w,hw,?_,rfl,
      ⟨e.source,by simp [PartnerExec.recvstrs,hew,hw]⟩,rfl,fun hno => by contradiction,
      fun _ => hP.earlycnt b⟩
    have hinx : PartnerExec.lastIndex [e] a=0 := by simp [PartnerExec.lastIndex]
    rw [PartnerExec.notifyRecv]
    simp only [hex,he,hinx,hcou,hP.admits a b p hsou,hb.failed]
    simp [PartnerExec.setMrecvstr,PartnerExec.recvstrs,hew,hw,hb.failed]

omit [DecidableEq ι] in
theorem Counts.arrive {x y : PartnerExec ι V R} (h : Counts P q T member s r x) (hle : x.curphase≤p)
    (hcm : ∀ p', s'.cameIn T r p' = (s.cameIn T r p' || decide (p'=p)))
    (hctd : s'.counted T r = s.counted T r) (hsn : s'.sentOut T r = s.sentOut T r)
    (hrec : s'.received T r = s.received T r) {m : PhaseRecvStr ι} (hex : m.exec=true)
    (hrer : ∃ k w, m.recvstr = [some ⟨k,w⟩] ∧ (q r p).window = some w)
    (hcou : m.donecount=(x.mrecvstr p).donecount)
    (hpar : ((x.mrecvstr p).exec=true → m.partnercnt=(x.mrecvstr p).partnercnt) ∧
      ((x.mrecvstr p).exec=false → m.partnercnt=1))
    (hy : y = { x with mrecvstr := update x.mrecvstr p m, data := y.data }) :
    Counts P q T member s' r y := by
  have hone : (x.mrecvstr p).exec=true → (x.mrecvstr p).partnercnt=1 → m.partnercnt=1 :=
    fun he hone => (hpar.1 he).trans hone
  rw [hy]
  refine ⟨h.failed,h.member,h.idle,h.curphase_le,h.before,h.behind,fun p' hp => ?_,fun p' he ha => ?_,
    fun p' hp hno => ?_,fun hnow => ?_,h.between,h.dones_le,h.done⟩
  · rw [hcm]
    by_cases heq : p'=p
    · subst heq
      simp only [update_self,hex,decide_true,Bool.or_true]
    · simp only [update_of_ne heq,heq,decide_false,Bool.or_false]
      exact h.exec p' hp
  · by_cases heq : p'=p
    · subst heq
      simp only [update_self]
      exact hrer
    · simp only [update_of_ne heq] at he ⊢
      exact h.recvstr p' he ha
  · rw [hctd]
    obtain ⟨hlat,hcnt⟩ := h.later p' hp hno
    by_cases heq : p'=p
    · subst heq
      simp only [update_self]
      refine ⟨hcou.trans hlat,fun _ => ?_⟩
      cases he : (x.mrecvstr p').exec with
      | true => exact hone he (hcnt he)
      | false => exact hpar.2 he
    · simp only [update_of_ne heq]
      exact ⟨hlat,hcnt⟩
  · rw [hsn,hrec]
    obtain ⟨hdn,hcur,hcnt⟩ := h.current hnow
    by_cases heq : x.curphase=p
    · subst heq
      simp only [update_self]
      have he : (x.mrecvstr x.curphase).exec=true := by rw [h.exec _ le_rfl,hnow,Bool.true_or]
      exact ⟨hdn,hcou.trans hcur,hone he hcnt⟩
    · simp only [update_of_ne heq]
      exact ⟨hdn,hcur,hcnt⟩

theorem any_of_ne (f : Transfer V → Bool) (hds : T.dest a 1 p = some b) (hne : r≠b) (m : Transfer V) (p' : ℕ) :
    ((T.source r 1 p').any fun a' => f ((s.setMessage a p 0 m).message a' p' 0)) =
      (T.source r 1 p').any fun a' => f (s.message a' p' 0) := by
  cases hsou : T.source r 1 p' with
  | none => rfl
  | some a' =>
    rw [any_some,any_some,message_setMessage,if_neg]
    rintro ⟨rfl,rfl,-⟩
    exact hne (some.inj (((T.matched a' r 1 p').mpr hsou).symm.trans hds))

section

variable (hP : Paired P T member q) (h : Exchanging P sbuf q T member data s)
include hP h

theorem Exchanging.incoming (hs : s.incoming P a p i = some s') : Exchanging P sbuf q T member data s' := by
  obtain ⟨hfre,hs⟩ := ite_none_left_eq_some.mp hs
  obtain ⟨b,hb,hs⟩ := bind_eq_some_iff.mp hs
  obtain ⟨x,hx,rfl⟩ := map_eq_some_iff.mp hs
  have hfre := Bool.not_eq_true _ ▸ hfre
  obtain rfl := h.eq_zero (isSome_of_eq_some hx)
  obtain ⟨hpst,-⟩ := h.posted_of_data (isSome_of_eq_some hx)
  obtain ⟨hmem,hlt⟩ := h.of_posted hpst
  rw [dest_eq hP hmem hlt,if_pos rfl] at hb
  have hsou := (T.matched a b 1 p).mp hb
  have hine : (s.message a p 0).complete=false := by
    rw [← Bool.not_eq_true]
    intro hcom
    have hcm := h.orderly.received a 1 p (by simp only [phased,if_true]; exact hcom) trivial
    simp only [phased,if_true,hfre] at hcm
    contradiction
  have hle := h.not_passed hb hine
  obtain ⟨m,w,hw,hnot,hex,⟨k,hli⟩,hcou,hpar⟩ := h.notifyRecv hP hb hfre hle
  have hft : w.length=x.length := by
    rw [h.length a p x hx]
    exact hP.length a b p hb w hw
  have hrcv : (s.rank b).receive (P b) a p x =
      { s.rank b with
        mrecvstr := update (s.rank b).mrecvstr p m
        data := (s.rank b).data.write w.offset x } := by
    rw [PartnerExec.receive,hnot]
    simp only [setMrecvstr,hft,ne_eq,not_true_eq_false,decide_false,Bool.or_false]
  rw [hrcv]
  generalize ht : s.setMessage a p 0 { s.message a p 0 with incoming := true } = t
  have hcm : ∀ p', t.cameIn T b p'=(s.cameIn T b p' || decide (p'=p)) := by
    intro p'
    subst ht
    by_cases heq : p'=p
    · subst heq
      rw [cameIn,hsou,any_some,message_setMessage,if_pos ⟨rfl,rfl,rfl⟩,decide_eq_true rfl,Bool.or_true]
    · simp only [cameIn,message_setMessage,heq,false_and,and_false,if_false,decide_false,Bool.or_false]
  have hctd : t.counted T = s.counted T := ht ▸ counted_setMessage (by rfl)
  have hsn : t.sentOut T = s.sentOut T := ht ▸ sentOut_setMessage (by rfl)
  have hrec : t.received T = s.received T := ht ▸ received_setMessage (by rfl)
  have hrk : t.rank=s.rank := ht ▸ rfl
  refine ⟨⟨fun r => ?_,h.run.step (e := .incoming a 1 p) trivial ?_⟩,fun r => ?_,
    ht ▸ h.others_setMessage _,ht ▸ h.length_setMessage (by rfl)⟩
  · by_cases hr : r=b
    · subst hr
      rw [rank_setRank]
      have hare : Counts P q T member t r _ := (h.counts r).arrive hle hcm (congrFun hctd r) (congrFun hsn r)
        (congrFun hrec r) hex ⟨k,w,hli,hw⟩ hcou hpar
        (y := { s.rank r with
          mrecvstr := update (s.rank r).mrecvstr p m
          data := (s.rank r).data.write w.offset x }) rfl
      exact hare.congr rfl rfl rfl rfl
    · rw [rank_setRank_of_ne t _ hr,hrk]
      refine (h.counts r).congr (funext fun p' => ?_) (congrFun hctd r) (congrFun hsn r) (congrFun hrec r)
      subst ht
      exact any_of_ne Transfer.incoming hb hr _ p'
  · have hsp : (s.phased P T).incoming T (client P sbuf q) a 1 p=some
        (((s.phased P T).setMessage a 1 p { (s.phased P T).message a 1 p with incoming := true }).setData b
          ((client P sbuf q).deliver b 1 p x ((s.phased P T).data b))) := by
      have hno : ¬ ((s.phased P T).message a 1 p).incoming=true := by
        simp only [phased,if_true,hfre,Bool.false_eq_true,not_false_eq_true]
      refine (if_neg hno).trans ?_
      rw [hb,bind_some]
      simp only [phased,if_true,hx,map_some]
    refine hsp.trans (congrArg some ?_)
    have hmes := phased_message_posted (P := P) (T := T) (r := b) t (x := { s.rank b with
      mrecvstr := update (s.rank b).mrecvstr p m
      data := (s.rank b).data.write w.offset x }) (by rw [hrk])
    have hview : view P b { s.rank b with
        mrecvstr := update (s.rank b).mrecvstr p m
        data := (s.rank b).data.write w.offset x } = (s.rank b).data.write w.offset x :=
      if_neg fun hend => Nat.zero_ne_one (hend.2.2.symm.trans ((h.settled b).done hend.1 hend.2.1))
    have hdel : (client P sbuf q).deliver b 1 p x ((s.phased P T).data b) = (s.rank b).data.write w.offset x := by
      rw [h.view_eq b]
      simp only [client,hw,elim_some]
    rw [phased_setRank,hdel,hview]
    have hphs := phased_setMessage (P := P) (T := T) s a p { s.message a p 0 with incoming := true }
    rw [ht] at hphs
    ext1
    · refine Eq.trans ?_ (update_eq_self_iff.mpr ?_).symm
      · rw [hphs]
        rfl
      · rw [hphs]
        rfl
    · refine Eq.trans ?_ (update_eq_self_iff.mpr ?_).symm
      · rw [hphs]
        rfl
      · rw [hphs]
        rfl
    · refine Eq.trans ?_ (update_eq_self_iff.mpr ?_).symm
      · rw [hphs]
        rfl
      · rw [hphs]
        rfl
    · rw [hphs]
      rfl
    · funext a' n p'
      refine Eq.trans ?_ (hmes a' n p').symm
      rw [hphs]
      simp only [phased,if_true]
      rfl
  · by_cases hr : r=b
    · subst hr
      rw [rank_setRank]
      exact ⟨(h.settled r).done,fun hs hlt => by
        rw [show (t.setRank r _).sentOut T r = t.sentOut T r from rfl,
          show (t.setRank r _).received T r = t.received T r from rfl,hsn,hrec]
        exact (h.settled r).waits hs hlt⟩
    · rw [rank_setRank_of_ne t _ hr,hrk]
      exact (h.settled r).congr (congrFun hsn r) (congrFun hrec r)

omit [DecidableEq ι] hP h in
theorem Counts.receiveEarly {x : PartnerExec ι V R} (h : Counts P q T member s r x) (hle : x.curphase≤p)
    (hpst : x.posted p = false) (hcm : s'.cameIn T r = s.cameIn T r)
    (hsn : s'.sentOut T r = s.sentOut T r)
    (hsm : ∀ p', p'≠p → s'.counted T r p' = s.counted T r p' ∧ s'.received T r p' = s.received T r p')
    (hbef : s.counted T r p = false) (haft : s'.counted T r p = true) : Counts P q T member s' r
      (x.setMrecvstr p { x.mrecvstr p with donecount := (x.mrecvstr p).donecount+1 }) := by
  refine ⟨h.failed,h.member,h.idle,h.curphase_le,h.before,h.behind,fun p' hp => ?_,fun p' he ha => ?_,
    fun p' hp hno => ?_,fun hnow => ?_,h.between,h.dones_le,h.done⟩
  · rw [hcm]
    refine Eq.trans ?_ (h.exec p' hp)
    simp only [setMrecvstr,update_apply]
    split
    case isTrue heq => rw [heq]
    case isFalse => rfl
  · simp only [setMrecvstr,update_apply] at he ⊢
    split at he
    case isTrue heq =>
      rw [if_pos heq]
      exact heq ▸ h.recvstr p' (heq ▸ he) ha
    case isFalse hne =>
      rw [if_neg hne]
      exact h.recvstr p' he ha
  · by_cases heq : p'=p
    · subst heq
      obtain ⟨hlat,hcnt⟩ := h.later p' hp hno
      simp only [setMrecvstr,update_self,hlat,hbef,haft]
      exact ⟨rfl,hcnt⟩
    · simp only [setMrecvstr,update_of_ne heq,(hsm p' heq).1]
      exact h.later p' hp hno
  · have hne : x.curphase≠p := by
      rintro rfl
      exact Bool.false_ne_true (hpst.symm.trans hnow)
    simp only [setMrecvstr,update_of_ne hne,hsn,(hsm _ hne).2]
    exact h.current hnow

theorem Exchanging.complete (hs : s.complete P a p i = some s') : Exchanging P sbuf q T member data s' := by
  obtain ⟨⟨hinc,hfre⟩,hs⟩ := ite_none_right_eq_some.mp hs
  obtain ⟨b,hb,rfl⟩ := map_eq_some_iff.mp hs
  obtain rfl : i=0 := by
    by_contra hne
    exact Bool.false_ne_true ((h.others a p i hne).2.symm.trans hinc)
  have hda : (s.message a p 0).data.isSome=true := by
    have hda := (h.orderly.ordered a 1 p).incoming (by simp only [phased,if_true]; exact hinc)
    simp only [phased,if_true] at hda
    exact hda
  obtain ⟨hmem,hlt⟩ := h.of_posted (h.posted_of_data hda).1
  rw [dest_eq hP hmem hlt,if_pos rfl] at hb
  have hsou := (T.matched a b 1 p).mp hb
  have hle := h.not_passed hb hfre
  have hx := h.counts b
  generalize ht : s.setMessage a p 0 { s.message a p 0 with complete := true } = t
  have hcm : t.cameIn T = s.cameIn T := ht ▸ cameIn_setMessage (by rfl)
  have hsn : t.sentOut T = s.sentOut T := ht ▸ sentOut_setMessage (by rfl)
  have hrk : t.rank=s.rank := ht ▸ rfl
  have hbef : s.counted T b p=false := by rw [counted,hsou,any_some,hfre]
  have haft : t.counted T b p=true := by
    subst ht
    rw [counted,hsou,any_some,message_setMessage,if_pos ⟨rfl,rfl,rfl⟩]
  have hso : (T.source b 1 p).isSome=true := isSome_of_eq_some hsou
  have hsm : ∀ p', p'≠p → t.counted T b p' = s.counted T b p' ∧ t.received T b p' = s.received T b p' := by
    intro p' hne
    subst ht
    simp only [counted,received,message_setMessage,hne,false_and,and_false,if_false,and_self]
  have hoth : ∀ r, r≠b → t.counted T r = s.counted T r ∧ t.received T r = s.received T r := by
    intro r hr
    subst ht
    refine ⟨funext fun p' => any_of_ne Transfer.complete hb hr _ p',funext fun p' => ?_⟩
    cases hsou' : T.source r 1 p' with
    | none => rw [received_of_none hsou',received_of_none hsou']
    | some a' =>
      rw [received_of_some (isSome_of_eq_some hsou'),received_of_some (isSome_of_eq_some hsou')]
      exact any_of_ne Transfer.complete hb hr _ p'
  have hrun : ∀ x : PartnerExec ι V R, (x.started=(s.rank b).started ∧ x.curphase=(s.rank b).curphase ∧
      x.posted=(s.rank b).posted ∧ x.data=(s.rank b).data ∧ x.dones=(s.rank b).dones) →
      Run (PhasedState.step T (client P sbuf q)) (network (V := V) (R := R)).Allows (init T data)
        ((t.setRank b x).phased P T) := by
    intro x hx
    refine h.run.step (e := .complete a 1 p) (fun _ => by simp only [phased,if_true]; exact hinc) ?_
    have hgua : ((s.phased P T).message a 1 p).data.isSome ∧ ((s.phased P T).message a 1 p).complete=false := by
      simp only [phased,if_true,hfre,and_true]
      exact hda
    refine (if_pos hgua).trans (congrArg some ?_)
    rw [phased_recount (by rw [hrk]; exact hx),← ht,phased_setMessage]
    rfl
  have hrs : ∀ r, r≠b → Counts P q T member t r (s.rank r) := fun r hr =>
    (h.counts r).congr (congrFun hcm r) (hoth r hr).1 (congrFun hsn r) (hoth r hr).2
  have href : ∀ y : PartnerExec ι V R, (y.started=(s.rank b).started ∧ y.curphase=(s.rank b).curphase ∧
      y.posted=(s.rank b).posted ∧ y.data=(s.rank b).data ∧ y.dones=(s.rank b).dones) →
      Counts P q T member t b y → Refines P sbuf q T member data (t.setRank b y) := by
    intro y hy hcos
    refine ⟨fun r => ?_,hrun y hy⟩
    by_cases hr : r=b
    · subst hr
      rw [rank_setRank]
      exact hcos.congr rfl rfl rfl rfl
    · rw [rank_setRank_of_ne t _ hr,hrk]
      exact (hrs r hr).congr rfl rfl rfl rfl
  have hexc : ∀ y : PartnerExec ι V R, Refines P sbuf q T member data (t.setRank b y) →
      Settled P T t b y → Exchanging P sbuf q T member data (t.setRank b y) := by
    intro y hy hstt
    refine ⟨hy,fun r => ?_,ht ▸ h.others_setMessage _,ht ▸ h.length_setMessage (by rfl)⟩
    by_cases hr : r=b
    · subst hr
      rw [rank_setRank]
      exact hstt.congr rfl rfl
    · rw [rank_setRank_of_ne t _ hr,hrk]
      exact (h.settled r).congr (congrFun hsn r) (hoth r hr).2
  rw [notifyRecvDone]
  cases hpst : (s.rank b).posted p with
  | false =>
    have hcou : ((s.rank b).mrecvstr p).donecount=0 := by
      rw [(hx.later p hle hpst).1,hbef]
      rfl
    simp only [hcou]
    rw [if_neg (by decide)]
    have hear : Counts P q T member t b _ := hx.receiveEarly hle hpst (congrFun hcm b) (congrFun hsn b) hsm hbef haft
    rw [hcou] at hear
    refine hexc _ (href _ ⟨rfl,rfl,rfl,rfl,rfl⟩ hear) ⟨(h.settled b).done,fun hs hlt => ?_⟩
    obtain ⟨hnow,hwai⟩ := (h.settled b).waits hs hlt
    have hne : (s.rank b).curphase≠p := by
      rintro heq
      rw [heq,hpst] at hnow
      contradiction
    refine ⟨hnow,?_⟩
    rw [hsn]
    simp only [setMrecvstr,(hsm _ hne).2]
    exact hwai
  | true =>
    obtain rfl : p=(s.rank b).curphase := by
      refine le_antisymm ?_ hle
      by_contra hgt
      exact Bool.false_ne_true ((hx.behind p (.inl (not_le.mp hgt))).symm.trans hpst)
    obtain ⟨hdnc,hcou,-⟩ := hx.current hpst
    have hlow : s.received T b (s.rank b).curphase=false := by rw [received_of_some hso,hbef]
    have hhg : t.received T b (s.rank b).curphase=true := by rw [received_of_some hso,haft]
    have hplt : (s.rank b).curphase<(P b).nphases := (h.of_posted hpst).2
    have hstr : (s.rank b).started=true := by
      by_contra hno
      exact Bool.false_ne_true (((hx.idle (Bool.not_eq_true _ ▸ hno)).2.2 _).symm.trans hpst)
    rw [hlow] at hcou
    have hrcn : Counts P q T member t b _ := hx.recount (congrFun hcm b) (fun p' hne => (hsm p' hne).1) hpst
      (c := ((s.rank b).mrecvstr (s.rank b).curphase).donecount+1) (d := (s.rank b).donecount)
      (by rw [hsn,hdnc]) (by rw [hsn,hhg,hcou]; simp; omega)
    have hnow := href ((s.rank b).recounted
      (((s.rank b).mrecvstr (s.rank b).curphase).donecount+1) (s.rank b).donecount)
      ⟨rfl,rfl,rfl,rfl,rfl⟩ hrcn
    simp only [hcou]
    cases hout : s.sentOut T b (s.rank b).curphase with
    | false =>
      rw [hout] at hcou
      rw [if_neg (by decide)]
      rw [hcou] at hnow
      refine hexc _ hnow ⟨(h.settled b).done,fun _ _ => ⟨hpst,fun hbt => ?_⟩⟩
      rw [hsn] at hbt
      exact Bool.false_ne_true (hout.symm.trans hbt.1)
    | true =>
      rw [hout] at hcou
      rw [if_pos (by decide)]
      have hout' : t.sentOut T b (s.rank b).curphase=true := by rw [hsn,hout]
      have hgoes := hnow.goOn hP (ends_sendNext hP b (fuel (P b)) : Ends P sbuf q T member data b _) hstr hplt
        (by simp only [fuel,recounted]; omega) hpst hout' hhg
        (m := { (s.rank b).mrecvstr (s.rank b).curphase with
          donecount := ((s.rank b).mrecvstr (s.rank b).curphase).donecount+1 })
        (by simp only [recounted,update_self,and_self])
      have hsm' : ((s.rank b).recounted (((s.rank b).mrecvstr (s.rank b).curphase).donecount+1)
          (s.rank b).donecount).setMrecvstr (s.rank b).curphase
            { (s.rank b).mrecvstr (s.rank b).curphase with
              donecount := ((s.rank b).mrecvstr (s.rank b).curphase).donecount+1 } =
          (s.rank b).setMrecvstr (s.rank b).curphase
            { (s.rank b).mrecvstr (s.rank b).curphase with
              donecount := ((s.rank b).mrecvstr (s.rank b).curphase).donecount+1 } := by
        simp only [recounted,setMrecvstr,update_idem]
      rw [show ((s.rank b).recounted (((s.rank b).mrecvstr (s.rank b).curphase).donecount+1)
        (s.rank b).donecount).curphase=(s.rank b).curphase from rfl,hsm',hcou] at hgoes
      exact hexc _ hgoes.1 hgoes.2

theorem Exchanging.step {e : PartnerEvent ι} (hok : Starts member s e) (hs : s.step P sbuf e = some s') :
    Exchanging P sbuf q T member data s' := by
  cases e with
  | start r => exact h.start hP hok hs
  | transmit a p i => exact h.transmit hP hs
  | sent a p i => exact h.sent hP hs
  | incoming a p i => exact h.incoming hP hs
  | complete a p i => exact h.complete hP hs

end

theorem exchanging_run (hP : Paired P T member q)
    (h : Run (step P sbuf) (Starts member) (new data) s) : Exchanging P sbuf q T member data s :=
  h.invariant exchanging_new fun _ _ _ h hok hs => h.step hP hok hs

def Quiet (P : ι → PartnerProgram ι V R) (sbuf : ι → V) (member : ι → Prop) (s : PartnerSystem ι V R) : Prop :=
  ∀ e, Starts member s e → s.step P sbuf e = none

theorem Quiet.started (h : Quiet P sbuf member s) (hr : member r) : (s.rank r).started=true := by
  by_contra hno
  have hsta : s.start P sbuf r=none := h (.start r) hr
  rw [PartnerSystem.start,if_neg hno] at hsta
  contradiction

section

variable (hP : Paired P T member q) (h : Exchanging P sbuf q T member data s)
include hP h

theorem Quiet.over (hqui : Quiet P sbuf member s) (hpst : (s.rank a).posted p = true)
    (hds : T.dest a 1 p = some b) : (s.message a p 0).sent=true ∧ (s.message a p 0).complete=true := by
  obtain ⟨hmem,hlt⟩ := h.of_posted hpst
  have hper : dest P a p 0 = some b := by rw [dest_eq hP hmem hlt,if_pos rfl,hds]
  have hda : ∃ x, (s.message a p 0).data=some x := by
    by_contra hnn
    have hnn : (s.message a p 0).data=none := eq_none_iff_forall_ne_some.mpr (not_exists.mp hnn)
    have htra : s.transmit P a p 0=none := hqui (.transmit a p 0) trivial
    rw [PartnerSystem.transmit,if_pos ⟨hpst,by rw [hnn]; rfl,by rw [hper]; rfl⟩,hP.partners a p hmem hlt] at htra
    contradiction
  obtain ⟨x,hx⟩ := hda
  have hinc : (s.message a p 0).incoming=true := by
    by_contra hno
    have hnn : s.incoming P a p 0=none := hqui (.incoming a p 0) trivial
    rw [PartnerSystem.incoming,if_neg hno,hper,hx] at hnn
    contradiction
  constructor
  · by_contra hno
    have hnn : s.sent P a p 0=none := hqui (.sent a p 0) trivial
    rw [PartnerSystem.sent,if_pos ⟨by rw [hx]; rfl,Bool.not_eq_true _ ▸ hno⟩] at hnn
    contradiction
  · by_contra hno
    have hnn : s.complete P a p 0=none := hqui (.complete a p 0) trivial
    rw [PartnerSystem.complete,if_pos ⟨hinc,Bool.not_eq_true _ ▸ hno⟩,hper] at hnn
    contradiction

omit hP h in
theorem Exchanging.posted_of_le (h : Exchanging P sbuf q T member data s) (hs : (s.rank r).started=true)
    (hle : p≤(s.rank r).curphase) (hlt : p<(P r).nphases) : (s.rank r).posted p = true := by
  obtain hbef | rfl := Nat.lt_or_eq_of_le hle
  · exact (h.counts r).before p hbef
  · exact ((h.settled r).waits hs hlt).1

theorem Quiet.done (hqui : Quiet P sbuf member s) (hr : member r) :
    (s.rank r).curphase=(P r).nphases ∧ (s.rank r).dones=1 := by
  have hpha : ∀ p r, member r → min p (P r).nphases≤(s.rank r).curphase := by
    intro p
    induction p with
    | zero => exact fun r _ => (Nat.zero_min _).trans_le (Nat.zero_le _)
    | succ p ih =>
      intro r hr
      by_contra hgt
      have hlow := ih r hr
      have hcur : (s.rank r).curphase=p := by omega
      have hlt : p<(P r).nphases := by omega
      obtain ⟨hpst,hwai⟩ := (h.settled r).waits (hqui.started hr) (hcur.trans_lt hlt)
      rw [hcur] at hpst hwai
      refine hwai ⟨?_,?_⟩
      · rw [sentOut]
        cases hds : T.dest r 1 p with
        | none => rfl
        | some b => exact (hqui.over hP h hpst hds).1
      · rw [received]
        cases hsou : T.source r 1 p with
        | none => rfl
        | some a =>
          have hds := (T.matched a r 1 p).mpr hsou
          obtain ⟨-,ha,-⟩ := hP.once a r 1 p hds
          have hlta : p<(P a).nphases := by
            rw [← hP.numphases]
            exact (T.bounded a r 1 p hds).1
          have hlea := ih a ha
          exact (hqui.over hP h (h.posted_of_le (hqui.started ha) (by omega) hlta) hds).2
  have hend : (s.rank r).curphase=(P r).nphases :=
    le_antisymm (h.counts r).curphase_le (by simpa using hpha (P r).nphases r hr)
  exact ⟨hend,(h.settled r).done (hqui.started hr) hend⟩

theorem Exchanging.fits {m : List V} (hda : (s.message a p i).data = some m) (hds : dest P a p i = some b) :
    T.source b 1 p = some a ∧ ((P b).partners p)[i]? = some (q b p) ∧
      ∃ w, (q b p).window = some w ∧ w.length=m.length := by
  obtain rfl : i=0 := by
    by_contra hne
    rw [(h.others a p i hne).1] at hda
    contradiction
  obtain ⟨hpst,-⟩ := h.posted_of_data (isSome_of_eq_some hda)
  obtain ⟨hmem,hlt⟩ := h.of_posted hpst
  rw [dest_eq hP hmem hlt,if_pos rfl] at hds
  obtain ⟨-,-,hb⟩ := hP.once a b 1 p hds
  have hltb : p<(P b).nphases := by
    rw [← hP.numphases]
    exact (T.bounded a b 1 p hds).2
  have hsou := (T.matched a b 1 p).mp hds
  obtain ⟨w,hw⟩ := isSome_iff_exists.mp ((hP.window b p hb hltb).trans (by rw [hsou]; rfl))
  refine ⟨hsou,by rw [hP.partners b p hb hltb]; rfl,w,hw,?_⟩
  rw [hP.length a b p hds w hw,h.length a p m hda]

end

/-- Executors that have nothing to do. -/
structure Idle (s : PartnerSystem ι V R) : Prop where
  failed : ∀ r, (s.rank r).failed = false
  posted : ∀ r p, (s.rank r).posted p = false
  dones : ∀ r, (s.rank r).dones = (s.rank r).started.toNat
  message : ∀ a p i, (s.message a p i).data = none ∧ (s.message a p i).incoming = false

theorem idle_run (hP : ∀ r, (P r).nothing=true) (h : Run (step P sbuf) (Starts member) (new data) s) :
    Idle s := by
  apply h.invariant (P := Idle) ⟨fun _ => rfl,fun _ _ => rfl,fun _ => rfl,fun _ _ _ => ⟨rfl,rfl⟩⟩
  intro s e s' h _ hs
  cases e with
  | start r =>
    obtain ⟨hno,hs⟩ := ite_none_left_eq_some.mp hs
    obtain rfl := some.inj hs
    rw [PartnerExec.start,if_pos (hP r)]
    refine ⟨fun b => ?_,fun b p => ?_,fun b => ?_,h.message⟩ <;> by_cases hb : b=r
    · rw [hb,rank_setRank]
      exact h.failed r
    · rw [rank_setRank_of_ne _ _ hb]
      exact h.failed b
    · rw [hb,rank_setRank]
      exact h.posted r p
    · rw [rank_setRank_of_ne _ _ hb]
      exact h.posted b p
    · rw [hb,rank_setRank]
      simp only [h.dones r,Bool.not_eq_true _ ▸ hno]
      rfl
    · rw [rank_setRank_of_ne _ _ hb]
      exact h.dones b
  | transmit a p i =>
    obtain ⟨⟨hpst,-⟩,-⟩ := ite_none_right_eq_some.mp hs
    exact absurd hpst (by rw [h.posted]; exact Bool.false_ne_true)
  | sent a p i =>
    obtain ⟨⟨hda,-⟩,-⟩ := ite_none_right_eq_some.mp hs
    exact absurd hda (by rw [(h.message a p i).1]; exact Bool.false_ne_true)
  | incoming a p i =>
    obtain ⟨-,hs⟩ := ite_none_left_eq_some.mp hs
    obtain ⟨b,-,hs⟩ := bind_eq_some_iff.mp hs
    rw [(h.message a p i).1] at hs
    contradiction
  | complete a p i =>
    obtain ⟨⟨hinc,-⟩,-⟩ := ite_none_right_eq_some.mp hs
    exact absurd hinc (by rw [(h.message a p i).2]; exact Bool.false_ne_true)

end PartnerSystem

end PAMI.Executor

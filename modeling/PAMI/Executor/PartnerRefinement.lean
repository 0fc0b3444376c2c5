import PAMI.Executor.PartnerExec
import PAMI.Math.PhasedData

namespace PAMI.Executor

open PAMI.Math PhasedState Function PartnerExec List Option Nat

/-- What is done at the end of the last phase, besides `localReduce`. -/
def PartnerProgram.settle {ι V R : Type*} (P : PartnerProgram ι V R) (p : ℕ) (x : Working V R) : Working V R :=
  if p = P.nphases then P.finish x else x

/-- Programs whose phases have one partner each, as the tables say, and agree on where messages go and on their
length. -/
structure Paired {ι V R : Type*} (P : ι → PartnerProgram ι V R) (T : PhaseTables ι) (member : ι → Prop)
    (q : ι → ℕ → Partner ι) : Prop where
  nothing : ∀ r, (P r).nothing = false
  numphases : ∀ r, T.numphases r = (P r).nphases
  partners : ∀ r p, member r → p < (P r).nphases → (P r).partners p = [q r p]
  dest : ∀ r p, member r → p < (P r).nphases → (q r p).dest = T.dest r 1 p
  window : ∀ r p, member r → p < (P r).nphases → (q r p).window.isSome = (T.source r 1 p).isSome
  once : ∀ a b n p, T.dest a n p = some b → n = 1 ∧ member a ∧ member b
  early : ∀ a b p k, T.source b 1 p = some a → ∃ e, (P b).early k p = [e] ∧ e.window = (q b p).window
  earlycnt : ∀ r, (P r).earlycnt = 1
  admits : ∀ a b p, T.source b 1 p = some a → (P b).admits p = true
  length : ∀ a b p, T.dest a 1 p = some b → ∀ w ∈ (q b p).window, w.length = (q a p).length

/-- An executor that is in its phase, with given counters. -/
def PartnerExec.within {ι V R : Type*} (x : PartnerExec ι V R) (m : PhaseRecvStr ι) (donecount : ℤ) :
    PartnerExec ι V R :=
  { x with
    mrecvstr := update x.mrecvstr x.curphase m
    donecount := donecount
    posted := update x.posted x.curphase true }

namespace PartnerSystem

variable {ι V R : Type*} (P : ι → PartnerProgram ι V R) (sbuf : ι → V) (q : ι → ℕ → Partner ι)

def client : PhaseClient ι (Working V R) (List V) where
  start := fun r _ x => (P r).settle 0 { x with tmpbuf := update x.tmpbuf 0 (sbuf r) }
  payload := fun a _ p x => (List.range (q a p).length).map x.tmpbuf
  deliver := fun b _ p m x => (q b p).window.elim x fun w => x.write w.offset m
  postrcv := fun r _ p x => (P r).settle (p + 1) ((P r).localReduce (p + 1) x)

/-- The buffers of a rank, as if the end that follows the last phase was part of it. -/
def view (r : ι) (x : PartnerExec ι V R) : Working V R :=
  if x.started = true ∧ x.curphase = (P r).nphases ∧ x.dones = 0 then (P r).finish x.data else x.data

variable (T : PhaseTables ι)

def phased (s : PartnerSystem ι V R) : PhasedState ι (Working V R) (List V) where
  exec := fun r => if (s.rank r).started then 1 else 0
  phase := fun r => if (s.rank r).started then (s.rank r).curphase else T.numphases r
  begun := fun r => (s.rank r).posted (s.rank r).curphase
  data := fun r => view P r (s.rank r)
  message := fun a n p =>
    if n = 1 then
      let m := s.message a p 0
      ⟨(s.rank a).posted p && (T.dest a 1 p).isSome, m.data, m.sent, m.incoming, m.complete⟩
    else .none

/-- A message of a phase comes in to a rank; it is received; the send of a rank is over, and its receive. -/
def cameIn (s : PartnerSystem ι V R) (r : ι) (p : ℕ) : Bool := (T.source r 1 p).any fun a => (s.message a p 0).incoming

def counted (s : PartnerSystem ι V R) (r : ι) (p : ℕ) : Bool :=
  (T.source r 1 p).any fun a => (s.message a p 0).complete

def sentOut (s : PartnerSystem ι V R) (r : ι) (p : ℕ) : Bool := (T.dest r 1 p).all fun _ => (s.message r p 0).sent

def received (s : PartnerSystem ι V R) (r : ι) (p : ℕ) : Bool :=
  (T.source r 1 p).all fun a => (s.message a p 0).complete

/-- What holds of the counters of a rank. -/
structure Counts (member : ι → Prop) (s : PartnerSystem ι V R) (r : ι) (x : PartnerExec ι V R) : Prop where
  failed : x.failed = false
  member : x.started = true → member r
  idle : x.started = false → x.curphase = 0 ∧ x.dones = 0 ∧ ∀ p, x.posted p = false
  curphase_le : x.curphase ≤ (P r).nphases
  before : ∀ p < x.curphase, x.posted p = true
  behind : ∀ p, x.curphase < p ∨ (P r).nphases ≤ p → x.posted p = false
  exec : ∀ p, x.curphase ≤ p → (x.mrecvstr p).exec = (x.posted p || s.cameIn T r p)
  recvstr : ∀ p, (x.mrecvstr p).exec = true → (T.source r 1 p).isSome = true →
    ∃ k w, (x.mrecvstr p).recvstr = [some ⟨k, w⟩] ∧ (q r p).window = some w
  later : ∀ p, x.curphase ≤ p → x.posted p = false → (x.mrecvstr p).donecount = (s.counted T r p).toNat ∧
      ((x.mrecvstr p).exec = true → (x.mrecvstr p).partnercnt = 1)
  current : x.posted x.curphase = true → x.donecount = 1 - (s.sentOut T r x.curphase).toNat ∧
      (x.mrecvstr x.curphase).donecount = (s.received T r x.curphase).toNat - (s.sentOut T r x.curphase).toNat ∧
      (x.mrecvstr x.curphase).partnercnt = 1
  between : x.posted x.curphase = false → x.donecount = 0
  dones_le : x.dones ≤ 1
  done : x.dones = 1 → x.curphase = (P r).nphases

/-- The counters of a rank in the phase that it is in. -/
structure Within (s : PartnerSystem ι V R) (r : ι) (p : ℕ) (m : PhaseRecvStr ι) : Prop where
  exec : m.exec = true
  partnercnt : m.partnercnt = 1
  donecount : m.donecount = (s.received T r p).toNat - (s.sentOut T r p).toNat
  recvstr : (T.source r 1 p).isSome = true → ∃ k w, m.recvstr = [some ⟨k, w⟩] ∧ (q r p).window = some w

/-- Between the events a rank that is started is done, or waits. -/
structure Settled (s : PartnerSystem ι V R) (r : ι) (x : PartnerExec ι V R) : Prop where
  done : x.started = true → x.curphase = (P r).nphases → x.dones = 1
  waits : x.started = true → x.curphase < (P r).nphases → x.posted x.curphase = true ∧
    ¬ (s.sentOut T r x.curphase = true ∧ s.received T r x.curphase = true)

variable [DecidableEq ι]

/-- All messages may come in; those that are received have come in. -/
def network : Network ι (Working V R) (List V) := arriving (fun _ _ _ _ => True) fun _ => True

/-- The ranks count what a run of phases says. -/
structure Refines (member : ι → Prop) (data : ι → Working V R) (s : PartnerSystem ι V R) : Prop where
  counts : ∀ r, Counts P q T member s r (s.rank r)
  run : Run (PhasedState.step T (client P sbuf q)) (network (V := V) (R := R)).Allows (init T data)
    (s.phased P T)

variable {P : ι → PartnerProgram ι V R} {sbuf : ι → V} {q : ι → ℕ → Partner ι} {T : PhaseTables ι}
  {member : ι → Prop} {data : ι → Working V R} {s : PartnerSystem ι V R} {r a b : ι} {p : ℕ}
  {m : PhaseRecvStr ι}

theorem Refines.orderly (h : Refines P sbuf q T member data s) :
    Orderly T (fun _ => True) (s.phased P T) := by
  refine h.run.invariant (P := Orderly T fun _ => True) ⟨timely_init data,fun _ _ _ h => by contradiction⟩
    fun t e t' ht hok hsp => ht.step (d := fun _ _ _ _ => True) ?_ hsp
  cases e <;> exact hok

theorem refines_new (data : ι → Working V R) :
    Refines P sbuf q T member data (new data) := by
  refine ⟨fun r => ?_,?_⟩
  · have hnn : (new data : PartnerSystem ι V R).cameIn T r = fun _ => false := by
      funext p
      simp [cameIn,new]
    have hcou : (new data : PartnerSystem ι V R).counted T r = fun _ => false := by
      funext p
      simp [counted,new]
    refine ⟨rfl,fun h => by contradiction,fun _ => ⟨rfl,rfl,fun _ => rfl⟩,zero_le _,
      fun p hp => absurd hp (Nat.not_lt_zero p),fun _ _ => rfl,fun p _ => ?_,fun p h => by contradiction,
      fun p _ _ => ⟨?_,fun h => by contradiction⟩,fun h => by contradiction,fun _ => rfl,
      zero_le _,fun h => by contradiction⟩
    · rw [hnn]
      rfl
    · rw [hcou]
      rfl
  · have hsm : (new data : PartnerSystem ι V R).phased P T = init T data := by
      ext1
      case message =>
        funext a n p
        simp only [phased,init,ite_eq_right_iff]
        intro _
        rfl
      all_goals rfl
    rw [hsm]
    exact .refl

theorem rank_setRank (s : PartnerSystem ι V R) (r : ι) (x : PartnerExec ι V R) :
    (s.setRank r x).rank r = x := by
  simp only [setRank,update_self]

theorem rank_setRank_of_ne (s : PartnerSystem ι V R) (x : PartnerExec ι V R) (hne : b≠r) :
    (s.setRank r x).rank b = s.rank b := by
  simp only [setRank,update_of_ne hne]

theorem phased_setRank (s : PartnerSystem ι V R) (r : ι) (x : PartnerExec ι V R) :
    (s.setRank r x).phased P T =
      { exec := update (s.phased P T).exec r (if x.started then 1 else 0)
        phase := update (s.phased P T).phase r (if x.started then x.curphase else T.numphases r)
        begun := update (s.phased P T).begun r (x.posted x.curphase)
        data := update (s.phased P T).data r (view P r x)
        message := fun a n p =>
          if a=r ∧ n=1 then
            { (s.phased P T).message a n p with posted := x.posted p && (T.dest a 1 p).isSome }
          else (s.phased P T).message a n p } := by
  ext1
  case message =>
    funext a n p
    simp only [phased,setRank,update_apply]
    by_cases hn : n=1
    · by_cases ha : a=r
      · subst ha
        simp only [hn,if_true,and_self]
      · simp only [ha,false_and,if_false]
    · simp only [hn,and_false,if_false]
  all_goals
    funext a
    simp only [phased,setRank,update_apply]
    split
    case isTrue heq => subst heq; rfl
    case isFalse => rfl

theorem phased_message_posted (s : PartnerSystem ι V R) {x : PartnerExec ι V R}
    (hx : x.posted=(s.rank r).posted) (a : ι) (n p : ℕ) :
    (if a=r ∧ n=1 then
        { (s.phased P T).message a n p with posted := x.posted p && (T.dest a 1 p).isSome }
      else (s.phased P T).message a n p) = (s.phased P T).message a n p := by
  split
  case isTrue heq =>
    obtain ⟨rfl,rfl⟩ := heq
    simp only [phased,if_true,hx]
  case isFalse => rfl

theorem counts_setRank (h : ∀ a, Counts P q T member s a (s.rank a)) {x : PartnerExec ι V R}
    (hx : Counts P q T member s r x) (a : ι) :
    Counts P q T member (s.setRank r x) a ((s.setRank r x).rank a) := by
  by_cases heq : a=r
  · subst heq
    rw [rank_setRank]
    exact ⟨hx.failed,hx.member,hx.idle,hx.curphase_le,hx.before,hx.behind,hx.exec,hx.recvstr,hx.later,
      hx.current,hx.between,hx.dones_le,hx.done⟩
  · have ha := h a
    rw [rank_setRank_of_ne s x heq]
    exact ⟨ha.failed,ha.member,ha.idle,ha.curphase_le,ha.before,ha.behind,ha.exec,ha.recvstr,ha.later,
      ha.current,ha.between,ha.dones_le,ha.done⟩

section

variable (h : Refines P sbuf q T member data s) {x : PartnerExec ι V R}
include h

theorem Refines.setRank (hx : Counts P q T member s r x) {e : PhasedEvent ι}
    (hok : (network (V := V) (R := R)).Allows (s.phased P T) e)
    (he : (s.phased P T).step T (client P sbuf q) e = some ((s.setRank r x).phased P T)) :
    Refines P sbuf q T member data (s.setRank r x) :=
  ⟨counts_setRank h.counts hx,h.run.step hok he⟩

omit [DecidableEq ι] h in
theorem phase_of_started (s : PartnerSystem ι V R) (hs : (s.rank r).started=true) :
    (s.phased P T).exec r = 1 ∧ (s.phased P T).phase r = (s.rank r).curphase := by
  simp only [phased,hs,if_true,and_self]

omit [DecidableEq ι] h in
theorem view_of_lt (h : x.curphase<(P r).nphases) : view P r x = x.data := if_neg fun hend => h.ne hend.2.1

theorem Refines.posted_of_data (hda : (s.message a p 0).data.isSome=true) :
    (s.rank a).posted p = true ∧ (T.dest a 1 p).isSome=true := by
  have hpst := (h.orderly.ordered a 1 p).data (by simp only [phased,if_true]; exact hda)
  simp only [phased,if_true,Bool.and_eq_true] at hpst
  exact hpst

theorem Refines.fresh (hpst : (s.rank r).posted p = false) : (s.message r p 0).sent=false := by
  rw [← Bool.not_eq_true]
  intro hsn
  have hda := (h.orderly.ordered r 1 p).sent (by simp only [phased,if_true]; exact hsn)
  simp only [phased,if_true] at hda
  exact absurd (h.posted_of_data hda).1 (hpst ▸ Bool.false_ne_true)

theorem Refines.cameIn_of_counted (hctd : s.counted T r p = true) : s.cameIn T r p = true := by
  rw [counted,Option.any_eq_true] at hctd
  rw [cameIn,Option.any_eq_true]
  obtain ⟨a,ha,hcom⟩ := hctd
  have hcm := h.orderly.received a 1 p (by simp only [phased,if_true]; exact hcom) trivial
  simp only [phased,if_true] at hcm
  exact ⟨a,ha,hcm⟩

end

omit [DecidableEq ι] in
theorem received_of_none (hnn : T.source r 1 p = none) : s.received T r p = true := by
  rw [received,hnn,all_none]

omit [DecidableEq ι] in
theorem received_of_some (hso : (T.source r 1 p).isSome=true) : s.received T r p = s.counted T r p := by
  obtain ⟨a,ha⟩ := isSome_iff_exists.mp hso
  rw [received,counted,ha,all_some,any_some]

section

variable {x : PartnerExec ι V R} (h : Counts P q T member s r x)
include h

omit [DecidableEq ι] in
theorem Counts.within (hs : x.started=true) (hlt : x.curphase<(P r).nphases)
    (hm : Within q T s r x.curphase m) :
    Counts P q T member s r (x.within m (1-(s.sentOut T r x.curphase).toNat)) := by
  refine ⟨h.failed,h.member,fun hid => ?_,h.curphase_le,fun p hp => ?_,fun p hp => ?_,fun p hp => ?_,
    fun p he ha => ?_,fun p hp hpst => ?_,fun _ => ?_,fun hno => ?_,h.dones_le,h.done⟩
  · exact absurd (hs.symm.trans hid) (by decide)
  · simp only [PartnerExec.within] at hp ⊢
    rw [update_of_ne hp.ne]
    exact h.before p hp
  · simp only [PartnerExec.within] at hp ⊢
    rw [update_of_ne (by omega)]
    exact h.behind p hp
  · simp only [PartnerExec.within] at hp ⊢
    by_cases heq : p=x.curphase
    · subst heq
      rw [update_self,update_self,Bool.true_or]
      exact hm.exec
    · rw [update_of_ne heq,update_of_ne heq]
      exact h.exec p hp
  · simp only [PartnerExec.within] at he ⊢
    by_cases heq : p=x.curphase
    · subst heq
      rw [update_self]
      exact hm.recvstr ha
    · rw [update_of_ne heq] at he ⊢
      exact h.recvstr p he ha
  · simp only [PartnerExec.within] at hp hpst ⊢
    have hne : p≠x.curphase := by
      rintro rfl
      rw [update_self] at hpst
      contradiction
    rw [update_of_ne hne] at hpst ⊢
    exact h.later p hp hpst
  · simp only [PartnerExec.within,update_self]
    exact ⟨trivial,hm.donecount,hm.partnercnt⟩
  · simp only [PartnerExec.within,update_self] at hno
    contradiction

omit h in
theorem Refines.begin (hP : Paired P T member q) (h : Refines P sbuf q T member data s)
    (hs : (s.rank r).started=true) (hlt : (s.rank r).curphase<(P r).nphases)
    (hbet : (s.rank r).posted (s.rank r).curphase = false) (hm : Within q T s r (s.rank r).curphase m) :
    Refines P sbuf q T member data (s.setRank r
      ((s.rank r).within m (1-(s.sentOut T r (s.rank r).curphase).toNat))) := by
  obtain ⟨hex,hpha⟩ := phase_of_started (P := P) (T := T) s hs
  refine h.setRank (e := .begin r) ((h.counts r).within hs hlt hm) trivial ?_
  have hgua : (s.phased P T).phase r < T.numphases r ∧ (s.phased P T).begun r=false := by
    rw [hpha,hP.numphases]
    exact ⟨hlt,hbet⟩
  refine (if_pos hgua).trans (congrArg some ?_)
  rw [phased_setRank,hex,hpha]
  have hphs : update (s.phased P T).phase r (s.rank r).curphase=(s.phased P T).phase :=
    update_eq_self_iff.mpr hpha.symm
  have hexe : update (s.phased P T).exec r 1=(s.phased P T).exec := update_eq_self_iff.mpr hex.symm
  have hda : update (s.phased P T).data r
      (view P r ((s.rank r).within m (1-(s.sentOut T r (s.rank r).curphase).toNat))) =
        (s.phased P T).data := update_eq_self r _
  rw [hda]
  simp only [within,hs,if_true,hphs,hexe,update_self]
  have hpst : ∀ a n p, (if a=r ∧ n=1 then
        { (s.phased P T).message a n p with
          posted := update (s.rank r).posted (s.rank r).curphase true p && (T.dest a 1 p).isSome }
      else (s.phased P T).message a n p) =
      if a=r ∧ n=1 ∧ p=(s.rank r).curphase ∧ (T.dest r 1 p).isSome=true then
        { (s.phased P T).message a n p with posted := true }
      else (s.phased P T).message a n p := by
    intro a n p
    by_cases heq : a=r ∧ n=1
    · obtain ⟨rfl,rfl⟩ := heq
      by_cases hp : p=(s.rank a).curphase
      · subst hp
        cases hds : (T.dest a 1 (s.rank a).curphase).isSome with
        | true => simp
        | false => simp [phased,hds]
      · simp [phased,hp]
    · rw [if_neg heq,if_neg fun h => heq ⟨h.1,h.2.1⟩]
  split
  case isTrue hds =>
    ext1
    case message =>
      funext a n p
      refine Eq.trans ?_ (hpst a n p).symm
      simp only [PhasedState.setMessage]
      by_cases heq : a=r ∧ n=1 ∧ p=(s.rank r).curphase
      · obtain ⟨rfl,rfl,rfl⟩ := heq
        simp [hds]
      · rw [if_neg heq,if_neg fun h => heq ⟨h.1,h.2.1,h.2.2.1⟩]
    all_goals rfl
  case isFalse hds =>
    ext1
    case message =>
      funext a n p
      refine Eq.trans ?_ (hpst a n p).symm
      rw [if_neg]
      rintro ⟨rfl,rfl,rfl,hso⟩
      exact hds hso
    all_goals rfl

omit [DecidableEq ι] in
theorem Counts.not_done (hlt : x.curphase<(P r).nphases) : x.dones=0 := by
  by_contra hne
  have hle := h.dones_le
  exact hlt.ne (h.done (by omega))

omit [DecidableEq ι] in
theorem Counts.advance (hs : x.started=true) (hlt : x.curphase<(P r).nphases)
    (hpst : x.posted x.curphase = true)
    (hm : m.exec=(x.mrecvstr x.curphase).exec ∧ m.recvstr=(x.mrecvstr x.curphase).recvstr) :
    Counts P q T member s r ((x.setMrecvstr x.curphase m).advance (P r)) := by
  have hbeh := h.behind (x.curphase+1) (.inl (lt_succ_self _))
  refine ⟨h.failed,h.member,fun hid => ?_,hlt,fun p hp => ?_,fun p hp => ?_,fun p hp => ?_,
    fun p he ha => ?_,fun p hp hno => ?_,fun hnow => ?_,fun _ => rfl,h.dones_le,fun hdn => ?_⟩
  · exact absurd (hs.symm.trans hid) (by decide)
  · obtain hp | rfl := Nat.lt_succ_iff_lt_or_eq.mp hp
    · exact h.before p hp
    · exact hpst
  · exact h.behind p (hp.imp_left fun hp => (lt_succ_self _).trans hp)
  · simp only [PartnerExec.advance,PartnerExec.setMrecvstr] at hp ⊢
    rw [update_of_ne (by omega)]
    exact h.exec p (by omega)
  · simp only [PartnerExec.advance,PartnerExec.setMrecvstr] at he ⊢
    by_cases heq : p=x.curphase
    · subst heq
      rw [update_self,hm.1] at he
      rw [update_self,hm.2]
      exact h.recvstr _ he ha
    · rw [update_of_ne heq] at he ⊢
      exact h.recvstr p he ha
  · simp only [PartnerExec.advance,PartnerExec.setMrecvstr] at hp hno ⊢
    rw [update_of_ne (by omega)]
    exact h.later p (by omega) hno
  · exact absurd (hnow.symm.trans hbeh) (by decide)
  · exact absurd ((h.not_done hlt).symm.trans hdn) (by decide)

end

theorem Refines.pass (hP : Paired P T member q) (h : Refines P sbuf q T member data s)
    (hs : (s.rank r).started=true) (hlt : (s.rank r).curphase<(P r).nphases)
    (hpst : (s.rank r).posted (s.rank r).curphase = true)
    (hsn : s.sentOut T r (s.rank r).curphase = true) (hrec : s.received T r (s.rank r).curphase = true)
    (hm : m.exec=((s.rank r).mrecvstr (s.rank r).curphase).exec ∧
      m.recvstr=((s.rank r).mrecvstr (s.rank r).curphase).recvstr) : Refines P sbuf q T member data
      (s.setRank r (((s.rank r).setMrecvstr (s.rank r).curphase m).advance (P r))) := by
  have hr := h.counts r
  obtain ⟨hex,hpha⟩ := phase_of_started (P := P) (T := T) s hs
  refine h.setRank (e := .pass r) (hr.advance hs hlt hpst hm) trivial ?_
  have hgua : (s.phased P T).phase r < T.numphases r ∧ (s.phased P T).begun r=true ∧
      ((T.dest r ((s.phased P T).exec r) ((s.phased P T).phase r)).isSome →
        ((s.phased P T).message r ((s.phased P T).exec r) ((s.phased P T).phase r)).sent=true) ∧
      ∀ a ∈ T.source r ((s.phased P T).exec r) ((s.phased P T).phase r),
        ((s.phased P T).message a ((s.phased P T).exec r) ((s.phased P T).phase r)).complete=true := by
    rw [hex,hpha,hP.numphases]
    refine ⟨hlt,hpst,fun hds => ?_,fun a ha => ?_⟩
    · obtain ⟨b,hb⟩ := isSome_iff_exists.mp hds
      rw [sentOut,hb,all_some] at hsn
      simp only [phased,if_true]
      exact hsn
    · rw [received,mem_def.mp ha,all_some] at hrec
      simp only [phased,if_true]
      exact hrec
  refine (if_pos hgua).trans (congrArg some ?_)
  have hbeh := hr.behind ((s.rank r).curphase+1) (.inl (lt_succ_self _))
  have hview : (s.phased P T).data r=(s.rank r).data := view_of_lt hlt
  have hnx : view P r (((s.rank r).setMrecvstr (s.rank r).curphase m).advance (P r)) =
      (P r).settle ((s.rank r).curphase+1)
        ((P r).localReduce ((s.rank r).curphase+1) (s.rank r).data) := by
    rw [view,PartnerProgram.settle]
    refine if_congr ?_ rfl rfl
    simp only [advance,setMrecvstr,hs,hr.not_done hlt,true_and,and_true]
  rw [phased_setRank,hnx]
  ext1
  · refine Eq.trans ?_ (update_eq_self_iff.mpr ?_).symm
    · rfl
    · simp only [advance,setMrecvstr,hs,if_true,hex]
  · simp only [advance,setMrecvstr,hs,if_true,hpha]
  · refine congrArg (update _ r) ?_
    exact hbeh.symm
  · simp only [PhasedState.setData,client,hview,hpha]
  · funext a n p
    exact (phased_message_posted s (by rfl) a n p).symm

theorem setRank_setRank (s : PartnerSystem ι V R) (r : ι) (x y : PartnerExec ι V R) :
    (s.setRank r x).setRank r y = s.setRank r y := by
  simp only [setRank,update_idem]

/-- What `sendNext` counts at the begin of a phase, before its sends. -/
structure Opened (s : PartnerSystem ι V R) (r : ι) (p : ℕ) (m : PhaseRecvStr ι) : Prop where
  exec : m.exec = true
  partnercnt : m.partnercnt = 1
  donecount : m.donecount = (s.received T r p).toNat
  recvstr : (T.source r 1 p).isSome = true → ∃ k w, m.recvstr = [some ⟨k, w⟩] ∧ (q r p).window = some w

theorem Refines.beginPhase (hP : Paired P T member q) (h : Refines P sbuf q T member data s)
    (hs : (s.rank r).started=true) (hlt : (s.rank r).curphase<(P r).nphases)
    (hbet : (s.rank r).posted (s.rank r).curphase = false) :
    ∃ m, Opened (q := q) (T := T) s r (s.rank r).curphase m ∧ (s.rank r).beginPhase (P r) =
      (s.rank r).within m (1-(s.sentOut T r (s.rank r).curphase).toNat) := by
  have hr := h.counts r
  have hmem := hr.member hs
  have hprt := hP.partners r _ hmem hlt
  have hds := hP.dest r _ hmem hlt
  have hwin := hP.window r _ hmem hlt
  have hex := hr.exec _ le_rfl
  rw [hbet,Bool.false_or] at hex
  obtain ⟨hcou,hpar⟩ := hr.later _ le_rfl hbet
  have hsn : ((1 : ℕ) : ℤ)-([q r (s.rank r).curphase].countP (·.dest.isNone) : ℕ) =
      1-(s.sentOut T r (s.rank r).curphase).toNat := by
    rw [countP_singleton,hds,sentOut]
    cases T.dest r 1 (s.rank r).curphase with
    | none => rfl
    | some b => simp [h.fresh hbet]
  cases hear : ((s.rank r).mrecvstr (s.rank r).curphase).exec with
  | true =>
    refine ⟨(s.rank r).mrecvstr (s.rank r).curphase,⟨hear,hpar hear,?_,hr.recvstr _ hear⟩,?_⟩
    · rw [hcou]
      rw [hear,cameIn,eq_comm,Option.any_eq_true] at hex
      obtain ⟨a,ha,-⟩ := hex
      rw [received_of_some (isSome_of_eq_some ha)]
    · simp only [PartnerExec.beginPhase,PartnerExec.within,PartnerExec.setMrecvstr,hprt,hear,if_true,
        length_singleton,hsn,Bool.not_true,Bool.false_and,Bool.or_false]
  | false =>
    have hnn : s.counted T r (s.rank r).curphase=false := by
      rw [← Bool.not_eq_true]
      intro hctd
      rw [hex,h.cameIn_of_counted hctd] at hear
      contradiction
    rw [hnn] at hcou
    refine ⟨⟨((s.rank r).mrecvstr (s.rank r).curphase).donecount +
        ([q r (s.rank r).curphase].countP (·.window.isNone) : ℕ),(1 : ℕ),true,
      PartnerExec.recvstrs [q r (s.rank r).curphase]⟩,⟨rfl,rfl,?_,fun hso => ?_⟩,?_⟩
    · simp only [hcou,countP_singleton]
      cases hsou : T.source r 1 (s.rank r).curphase with
      | none =>
        rw [hsou] at hwin
        simp [received_of_none hsou,isSome_eq_false_iff.mp hwin]
      | some a =>
        rw [hsou] at hwin
        rw [received_of_some (by rw [hsou]; rfl),hnn]
        simp [isNone_eq_false_iff.mpr hwin]
    · rw [← hwin] at hso
      obtain ⟨w,hw⟩ := isSome_iff_exists.mp hso
      exact ⟨(q r (s.rank r).curphase).source,w,by simp [PartnerExec.recvstrs,hw],hw⟩
    · simp only [PartnerExec.beginPhase,PartnerExec.within,PartnerExec.setMrecvstr,hprt,hear,
        length_singleton,hsn,Bool.not_false,Bool.true_and,hcou]
      simp

/-- What a call of `sendNext` does: all is counted, and the rank waits or is done. -/
def Ends (P : ι → PartnerProgram ι V R) (sbuf : ι → V) (q : ι → ℕ → Partner ι) (T : PhaseTables ι)
    (member : ι → Prop) (data : ι → Working V R) (r : ι) (fuel : ℕ) : Prop :=
  ∀ s : PartnerSystem ι V R, Refines P sbuf q T member data s → (s.rank r).started = true →
    (s.rank r).posted (s.rank r).curphase = false → (s.rank r).dones = 0 →
    (P r).nphases < (s.rank r).curphase + fuel →
    Refines P sbuf q T member data (s.setRank r ((s.rank r).sendNext (P r) fuel)) ∧
      Settled P T s r ((s.rank r).sendNext (P r) fuel)

section

variable {fuel : ℕ} (hP : Paired P T member q) (hnx : Ends P sbuf q T member data r fuel)
  {x : PartnerExec ι V R}
include hP hnx

theorem Refines.goOn (h : Refines P sbuf q T member data (s.setRank r x)) (hs : x.started=true)
    (hlt : x.curphase<(P r).nphases) (hfuel : (P r).nphases<x.curphase+1+fuel)
    (hpst : x.posted x.curphase = true) (hsn : s.sentOut T r x.curphase = true)
    (hrec : s.received T r x.curphase = true)
    (hm : m.exec=(x.mrecvstr x.curphase).exec ∧ m.recvstr=(x.mrecvstr x.curphase).recvstr) :
    Refines P sbuf q T member data
        (s.setRank r (sendNext (P r) fuel ((x.setMrecvstr x.curphase m).advance (P r)))) ∧
      Settled P T s r (sendNext (P r) fuel ((x.setMrecvstr x.curphase m).advance (P r))) := by
  have hx := rank_setRank s r x
  have hpass := h.pass (r := r) hP (by rw [hx]; exact hs) (by rw [hx]; exact hlt) (by rw [hx]; exact hpst)
    (by rw [hx]; exact hsn) (by rw [hx]; exact hrec) (by rw [hx]; exact hm)
  rw [hx,setRank_setRank] at hpass
  have hr := h.counts r
  rw [hx] at hr
  have hend := hnx _ hpass (by rw [rank_setRank]; exact hs)
    (by rw [rank_setRank]; exact hr.behind _ (.inl (lt_succ_self _)))
    (by rw [rank_setRank]; exact hr.not_done hlt) (by rw [rank_setRank]; exact hfuel)
  rw [rank_setRank,setRank_setRank] at hend
  exact ⟨hend.1,hend.2.done,hend.2.waits⟩

theorem Refines.sendsDone
    (h : Refines P sbuf q T member data (s.setRank r (x.setMrecvstr x.curphase
      { x.mrecvstr x.curphase with
        donecount := (x.mrecvstr x.curphase).donecount-(x.mrecvstr x.curphase).partnercnt })))
    (hs : x.started=true) (hlt : x.curphase<(P r).nphases) (hfuel : (P r).nphases<x.curphase+1+fuel)
    (hpst : x.posted x.curphase = true) (hsn : s.sentOut T r x.curphase = true)
    (hcou : (x.mrecvstr x.curphase).donecount-(x.mrecvstr x.curphase).partnercnt =
      (s.received T r x.curphase).toNat-1) :
    Refines P sbuf q T member data (s.setRank r (x.sendsDone (P r) (PartnerExec.sendNext (P r) fuel))) ∧
      Settled P T s r (x.sendsDone (P r) (PartnerExec.sendNext (P r) fuel)) := by
  rw [PartnerExec.sendsDone]
  cases hrec : s.received T r x.curphase with
  | false =>
    rw [hrec] at hcou
    simp only [hcou]
    rw [if_neg (by decide)]
    rw [hcou] at h
    refine ⟨h,fun _ hend => absurd hend hlt.ne,fun _ _ => ⟨hpst,fun hbt => ?_⟩⟩
    exact absurd (hrec.symm.trans hbt.2) (by decide)
  | true =>
    rw [hrec] at hcou
    simp only [hcou]
    rw [if_pos (by decide)]
    have hgoes := h.goOn hP hnx hs hlt hfuel hpst hsn hrec
      (m := { x.mrecvstr x.curphase with donecount := 0, partnercnt := 0 })
      (by simp only [PartnerExec.setMrecvstr,update_self,and_self])
    have hsm : ∀ m m' : PhaseRecvStr ι,
        (x.setMrecvstr x.curphase m).setMrecvstr x.curphase m' = x.setMrecvstr x.curphase m' := by
      intro m m'
      simp only [PartnerExec.setMrecvstr,update_idem]
    rw [show (x.setMrecvstr x.curphase _).curphase=x.curphase from rfl,hsm] at hgoes
    exact hgoes

end

theorem ends_sendNext (hP : Paired P T member q) (r : ι) (fuel : ℕ) : Ends P sbuf q T member data r fuel := by
  induction fuel with
  | zero =>
    intro s h hs _ _ hfuel
    exact absurd (h.counts r).curphase_le (by omega)
  | succ fuel ih =>
    intro s h hs hbet hdon hfuel
    have hr := h.counts r
    rw [sendNext,if_neg (not_not.mpr (hr.between hbet))]
    split
    case isFalse hge =>
      have hend : (s.rank r).curphase=(P r).nphases := le_antisymm hr.curphase_le (not_lt.mp hge)
      refine ⟨⟨counts_setRank h.counts ⟨hr.failed,hr.member,?_,hr.curphase_le,hr.before,hr.behind,hr.exec,
        hr.recvstr,hr.later,hr.current,hr.between,?_,fun _ => hend⟩,?_⟩,fun _ _ => ?_,fun _ hlt => ?_⟩
      · exact fun hid => absurd (hs.symm.trans hid) (by decide)
      · simp only [hdon,zero_add,le_refl]
      · have hsm : (s.setRank r { s.rank r with
            data := (P r).finish (s.rank r).data, dones := (s.rank r).dones+1 }).phased P T = s.phased P T := by
          rw [phased_setRank]
          ext1
          · exact update_eq_self r _
          · exact update_eq_self r _
          · exact update_eq_self r _
          · refine update_eq_self_iff.mpr ?_
            simp [view,phased,hs,hend,hdon]
          · funext a n p
            exact phased_message_posted s (by rfl) a n p
        rw [hsm]
        exact h.run
      · simp only [hdon]
      · exact absurd hlt hge
    case isTrue hlt =>
      obtain ⟨m,hm,hbeg⟩ := h.beginPhase hP hs hlt hbet
      have hany : ((P r).partners (s.rank r).curphase).any (·.dest.isNone) = s.sentOut T r (s.rank r).curphase := by
        rw [hP.partners r _ (hr.member hs) hlt,any_cons,any_nil,Bool.or_false,
          hP.dest r _ (hr.member hs) hlt,sentOut]
        cases T.dest r 1 (s.rank r).curphase with
        | none => rfl
        | some b => simp [h.fresh hbet]
      simp only [hbeg,hany]
      have hpst : ((s.rank r).within m (1-(s.sentOut T r (s.rank r).curphase).toNat)).posted
          (s.rank r).curphase=true := update_self _ _ _
      cases hsn : s.sentOut T r (s.rank r).curphase with
      | false =>
        rw [hsn] at hpst
        rw [if_neg (fun hno => Bool.false_ne_true hno.2)]
        have hwit : Within q T s r (s.rank r).curphase m :=
          ⟨hm.exec,hm.partnercnt,by rw [hm.donecount,hsn]; simp,hm.recvstr⟩
        have hsd := h.begin hP hs hlt hbet hwit
        rw [hsn] at hsd
        refine ⟨hsd,fun _ hend => absurd hend hlt.ne,fun _ _ => ⟨hpst,fun hbt => ?_⟩⟩
        exact absurd (hsn.symm.trans hbt.1) (by decide)
      | true =>
        rw [hsn] at hpst
        rw [if_pos ⟨rfl,rfl⟩]
        have hwit : Within q T s r (s.rank r).curphase { m with donecount := m.donecount-m.partnercnt } :=
          ⟨hm.exec,hm.partnercnt,by rw [hm.donecount,hm.partnercnt,hsn]; rfl,hm.recvstr⟩
        have hsd := h.begin hP hs hlt hbet hwit
        rw [hsn] at hsd
        have hm' : ((s.rank r).within m (1-(true.toNat : ℤ))).mrecvstr (s.rank r).curphase=m := update_self _ _ _
        refine Refines.sendsDone hP ih (x := (s.rank r).within m (1-(true.toNat : ℤ))) ?_ hs hlt (by
          simp only [within]
          omega) hpst hsn ?_
        · rw [show ((s.rank r).within m (1-(true.toNat : ℤ))).curphase=(s.rank r).curphase from rfl,hm']
          simp only [within,setMrecvstr,update_idem] at hsd ⊢
          exact hsd
        · rw [show ((s.rank r).within m (1-(true.toNat : ℤ))).curphase=(s.rank r).curphase from rfl,hm',
            hm.donecount,hm.partnercnt]

end PartnerSystem

end PAMI.Executor

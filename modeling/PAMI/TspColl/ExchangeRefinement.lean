import PAMI.Math.PhasedData
import PAMI.TspColl.CollExchange

namespace PAMI.TspColl

open PAMI.Math PhasedState Function Option Nat

namespace Exchanges

variable {ι α μ : Type*} [DecidableEq ι]

/-- The receiver of a message has counted to its execution. -/
def counted (T : PhaseTables ι) (s : Exchanges ι α μ) (a : ι) (n p : ℕ) : Bool :=
  (T.dest a n p).any fun b => decide (0 < n ∧ n ≤ (s.rank b).recvcomplete p)

/-- The executions and phases of the ranks. A message is received when it is counted. -/
def phased (T : PhaseTables ι) (s : Exchanges ι α μ) : PhasedState ι α μ where
  exec := fun r => (s.rank r).counter
  phase := fun r => min (s.rank r).phase (T.numphases r)
  begun := fun r => decide ((s.rank r).phase < T.numphases r ∧ (s.rank r).phase < (s.rank r).sendstarted)
  data := fun r => (s.rank r).data
  message := fun a n p => { s.message a n p with complete := s.counted T a n p }

/-- The post-receive functions that ran before a phase of an execution. -/
def postLog (numphases : ℕ) : ℕ → ℕ → List (ℕ × ℕ)
  | 0, _ => []
  | n + 1, p => postLog numphases n numphases ++ (List.range p).map fun p => (n + 1, p)

theorem postLog_succ {numphases n : ℕ} (hn : 0<n) (p : ℕ) :
    postLog numphases n (p+1) = postLog numphases n p ++ [(n, p)] := by
  obtain ⟨k,rfl⟩ := exists_eq_succ_of_ne_zero hn.ne'
  simp [postLog,List.range_succ]

/-- What holds of the counters of a rank. -/
structure Counts (T : PhaseTables ι) (s : Exchanges ι α μ) (r : ι) (x : CollExchange α) : Prop where
  failed : x.failed = false
  phase_le : x.phase ≤ T.numphases r + 1
  first : x.counter = 0 → x.phase = T.numphases r
  ended : T.numphases r ≤ x.phase → x.sendcomplete = T.numphases r
  sends : x.phase < T.numphases r → (x.sendstarted = x.phase ∧ x.sendcomplete = x.phase) ∨
    (x.sendstarted = x.phase + 1 ∧ x.sendcomplete = x.phase +
      if (T.dest r x.counter x.phase).isSome then (s.message r x.counter x.phase).sent.toNat else 1)
  unsourced : ∀ n p, 0 < n → p < T.numphases r → T.source r n p = none →
    (n ≤ x.recvcomplete p ↔ n < x.counter ∨ n = x.counter ∧ p < x.phase)
  postrcvs : x.postrcvs = postLog (T.numphases r) x.counter (min x.phase (T.numphases r))
  completions : x.completions = List.range' 1 (if x.phase = T.numphases r + 1 then x.counter else x.counter - 1)

/-- The ranks count what a run of phases says. -/
structure Refines (T : PhaseTables ι) (C : PhaseClient ι α μ)
    (c : Network ι α μ) (data : ι → α) (s : Exchanges ι α μ) : Prop where
  counts : ∀ r, Counts T s r (s.rank r)
  run : Run (PhasedState.step T C) c.Allows (init T data) (s.phased T)

variable {T : PhaseTables ι} {C : PhaseClient ι α μ} {c : Network ι α μ}
  {data : ι → α} {s s' : Exchanges ι α μ} {r a b : ι} {n p : ℕ} {x : CollExchange α}

theorem Refines.timely (h : Refines T C c data s) : Timely T (s.phased T) := timely_run h.run

omit [DecidableEq ι] in
theorem counted_new (a : ι) (n p : ℕ) : (new T data : Exchanges ι α μ).counted T a n p = false := by
  rw [counted,any_eq_false]
  intro b _
  have hzr : ¬ (0<n ∧ n≤0) := by omega
  simpa [new,CollExchange.new] using hzr

theorem refines_new : Refines T C c data (new T data) := by
  refine ⟨fun r => ?_,?_⟩
  · refine ⟨rfl,le_succ _,fun _ => rfl,fun _ => rfl,fun h => absurd h (lt_irrefl _),
      fun n p hn hp _ => ?_,rfl,?_⟩
    · simp only [new,CollExchange.new]
      omega
    · simp [new,CollExchange.new]
  · have hsm : (new T data : Exchanges ι α μ).phased T = init T data := by
      ext1
      case exec => rfl
      case phase => exact funext fun r => min_self _
      case begun => exact funext fun r => by simp [phased,new,CollExchange.new,init]
      case data => rfl
      case message =>
        funext a n p
        exact congrArg (fun b => { (PhaseMessage.none : PhaseMessage μ) with complete := b })
          (counted_new a n p)
    rw [hsm]
    exact .refl

omit [DecidableEq ι] in
theorem counted_congr (h : ∀ b, (s'.rank b).recvcomplete=(s.rank b).recvcomplete) (a : ι) (n p : ℕ) :
    s'.counted T a n p = s.counted T a n p :=
  congrArg (fun f => (T.dest a n p).any f) (funext fun b => by rw [h b])

omit [DecidableEq ι] in
theorem counted_iff (hds : T.dest a n p = some b) :
    s.counted T a n p = true ↔ 0<n ∧ n ≤ (s.rank b).recvcomplete p := by
  rw [counted,hds,any_some,decide_eq_true_iff]

theorem counted_setRank (hx : x.recvcomplete=(s.rank r).recvcomplete) (a : ι) (n p : ℕ) :
    (s.setRank r x).counted T a n p = s.counted T a n p := by
  refine counted_congr (fun b => ?_) a n p
  simp only [Exchanges.setRank,update_apply]
  split
  case isTrue heq => rw [hx,heq]
  case isFalse => rfl

theorem phased_setRank (hx : ∀ a n p, (s.setRank r x).counted T a n p = s.counted T a n p) :
    (s.setRank r x).phased T =
      { s.phased T with
        exec := update (s.phased T).exec r x.counter
        phase := update (s.phased T).phase r (min x.phase (T.numphases r))
        begun := update (s.phased T).begun r
          (decide (x.phase < T.numphases r ∧ x.phase<x.sendstarted))
        data := update (s.phased T).data r x.data } := by
  ext1
  case message =>
    funext a n p
    exact congrArg (fun b => { s.message a n p with complete := b }) (hx a n p)
  all_goals
    funext a
    simp only [phased,Exchanges.setRank,update_apply]
    split
    case isTrue heq => subst heq; rfl
    case isFalse => rfl

theorem phased_setMessage (s : Exchanges ι α μ) (a : ι) (n p : ℕ) (m : PhaseMessage μ) :
    (s.setMessage a n p m).phased T = (s.phased T).setMessage a n p { m with complete := s.counted T a n p } := by
  ext1
  case message =>
    funext a' n' p'
    simp only [phased,Exchanges.setMessage,PhasedState.setMessage]
    split
    case isTrue heq =>
      obtain ⟨rfl,rfl,rfl⟩ := heq
      rfl
    case isFalse => rfl
  all_goals rfl

theorem update_counter (s : Exchanges ι α μ) (r : ι) :
    update (s.phased T).exec r (s.rank r).counter = (s.phased T).exec :=
  update_eq_self r _

theorem update_phase (s : Exchanges ι α μ) (r : ι) :
    update (s.phased T).phase r (min (s.rank r).phase (T.numphases r)) = (s.phased T).phase :=
  update_eq_self r _

theorem update_data (s : Exchanges ι α μ) (r : ι) :
    update (s.phased T).data r (s.rank r).data = (s.phased T).data :=
  update_eq_self r _

theorem counts_setRank (h : ∀ a, Counts T s a (s.rank a)) (hx : Counts T s r x) (a : ι) :
    Counts T (s.setRank r x) a ((s.setRank r x).rank a) := by
  simp only [Exchanges.setRank,update_apply]
  split
  case isTrue heq =>
    subst heq
    exact ⟨hx.failed,hx.phase_le,hx.first,hx.ended,hx.sends,hx.unsourced,hx.postrcvs,hx.completions⟩
  case isFalse =>
    have ha := h a
    exact ⟨ha.failed,ha.phase_le,ha.first,ha.ended,ha.sends,ha.unsourced,ha.postrcvs,ha.completions⟩

theorem Refines.setRank (h : Refines T C c data s) (hx : Counts T s r x) {e : PhasedEvent ι}
    (hok : c.Allows (s.phased T) e) (he : (s.phased T).step T C e = some ((s.setRank r x).phased T)) :
    Refines T C c data (s.setRank r x) :=
  ⟨counts_setRank h.counts hx,h.run.step hok he⟩

omit [DecidableEq ι] in
theorem begin_guard (hlt : (s.rank r).phase < T.numphases r)
    (hle : (s.rank r).sendstarted≤(s.rank r).phase) :
    (s.phased T).phase r < T.numphases r ∧ (s.phased T).begun r = false := by
  simp only [phased,decide_eq_false_iff_not,not_and,not_lt]
  exact ⟨(min_le_left _ _).trans_lt hlt,fun _ => hle⟩

section

variable (h : Refines T C c data s) (hlt : (s.rank r).phase < T.numphases r)
include h hlt

theorem Refines.skip (hle : (s.rank r).sendstarted≤(s.rank r).phase)
    (hds : T.dest r (s.rank r).counter (s.rank r).phase = none) :
    Refines T C c data (s.setRank r { s.rank r with
      sendstarted := (s.rank r).sendstarted+1
      sendcomplete := (s.rank r).sendcomplete+1 }) := by
  have hr := h.counts r
  obtain ⟨hstr,hcom⟩ | ⟨hstr,-⟩ := hr.sends hlt
  case inr => omega
  refine h.setRank (e := .begin r) ⟨hr.failed,hr.phase_le,hr.first,fun hend => ?_,fun _ => ?_,
    hr.unsourced,hr.postrcvs,hr.completions⟩ trivial ?_
  · exact absurd hlt (not_lt.mpr hend)
  · refine .inr ⟨congrArg Nat.succ hstr,?_⟩
    simp [hds,hcom]
  · have hpha : (s.phased T).phase r=(s.rank r).phase := min_eq_left hlt.le
    have hnn : ¬ (T.dest r ((s.phased T).exec r) ((s.phased T).phase r)).isSome=true := by
      rw [hpha]
      simp [phased,hds]
    have hbeg : decide ((s.rank r).phase<T.numphases r ∧ (s.rank r).phase<(s.rank r).sendstarted+1)=true := by
      rw [decide_eq_true_iff]
      omega
    refine (if_pos (begin_guard hlt hle)).trans (congrArg some ((if_neg hnn).trans ?_))
    rw [phased_setRank fun a n p => counted_setRank (by rfl) a n p]
    simp only [hbeg,update_counter,update_phase,update_data]

omit h hlt in
theorem Counts.setMessage (h : Counts T s r x) {m : PhaseMessage μ} (hm : m.sent=(s.message a n p).sent) :
    Counts T (s.setMessage a n p m) r x := by
  refine ⟨h.failed,h.phase_le,h.first,h.ended,?_,h.unsourced,h.postrcvs,h.completions⟩
  have hsn : ((s.setMessage a n p m).message r x.counter x.phase).sent=(s.message r x.counter x.phase).sent := by
    simp only [Exchanges.setMessage]
    split
    case isTrue heq =>
      obtain ⟨rfl,rfl,rfl⟩ := heq
      exact hm
    case isFalse => rfl
  rw [hsn]
  exact h.sends

omit h hlt in
theorem Refines.fresh (h : Refines T C c data s) (hle : (s.rank r).sendstarted≤(s.rank r).phase) :
    (s.message r (s.rank r).counter (s.rank r).phase).posted=false ∧
      (s.message r (s.rank r).counter (s.rank r).phase).sent=false := by
  have htim := h.timely
  have hord := htim.ordered r (s.rank r).counter (s.rank r).phase
  have hpst : (s.message r (s.rank r).counter (s.rank r).phase).posted=false := by
    rw [← Bool.not_eq_true]
    intro hpst
    obtain ⟨-,hbeg⟩ := (htim.posted r (s.rank r).counter (s.rank r).phase).mp hpst
    obtain ⟨-,hn | ⟨-,hp⟩⟩ | ⟨-,-,-,hbeg⟩ := hbeg
    · exact lt_irrefl _ hn
    · exact absurd (hp.trans_le (min_le_left _ _)) (lt_irrefl _)
    · simp only [phased,decide_eq_true_iff] at hbeg
      omega
  refine ⟨hpst,?_⟩
  rw [← Bool.not_eq_true]
  intro hsn
  have := hord.data (hord.sent hsn)
  exact absurd (hpst.symm.trans this) (by decide)

theorem Refines.send (hle : (s.rank r).sendstarted≤(s.rank r).phase)
    (hds : (T.dest r (s.rank r).counter (s.rank r).phase).isSome=true) :
    Refines T C c data ((s.setRank r { s.rank r with
      sendstarted := (s.rank r).sendstarted+1 }).setMessage r (s.rank r).counter (s.rank r).phase
        { s.message r (s.rank r).counter (s.rank r).phase with posted := true }) := by
  have hr := h.counts r
  obtain ⟨-,hsn⟩ := h.fresh hle
  obtain ⟨hstr,hcom⟩ | ⟨hstr,-⟩ := hr.sends hlt
  case inr => omega
  have hx : Counts T s r { s.rank r with sendstarted := (s.rank r).sendstarted+1 } := by
    refine ⟨hr.failed,hr.phase_le,hr.first,hr.ended,fun _ => .inr ⟨congrArg Nat.succ hstr,?_⟩,
      hr.unsourced,hr.postrcvs,hr.completions⟩
    simp [hds,hcom,hsn]
  refine ⟨fun a => ?_,h.run.step (e := .begin r) trivial ?_⟩
  · exact (counts_setRank h.counts hx a).setMessage rfl
  · have hpha : (s.phased T).phase r=(s.rank r).phase := min_eq_left hlt.le
    have hso : (T.dest r ((s.phased T).exec r) ((s.phased T).phase r)).isSome=true := by
      rw [hpha]
      exact hds
    have hbeg : decide ((s.rank r).phase<T.numphases r ∧ (s.rank r).phase<(s.rank r).sendstarted+1)=true := by
      rw [decide_eq_true_iff]
      omega
    refine (if_pos (begin_guard hlt hle)).trans (congrArg some ((if_pos hso).trans ?_))
    rw [phased_setMessage,phased_setRank fun a n p => counted_setRank (by rfl) a n p,counted_setRank (by rfl),hpha]
    simp only [hbeg,update_counter,update_phase,update_data]
    rfl

omit h hlt in
theorem Refines.counted_of_passed (h : Refines T C c data s) (hp : p < T.numphases r)
    (hpas : (s.phased T).Passed r n p) : n ≤ (s.rank r).recvcomplete p := by
  cases hsou : T.source r n p with
  | none =>
    refine ((h.counts r).unsourced n p hpas.1 hp hsou).mpr ?_
    refine hpas.2.imp_right fun hnow => ⟨hnow.1,hnow.2.trans_le (min_le_left _ _)⟩
  | some a => exact ((counted_iff ((T.matched a r n p).mpr hsou)).mp (h.timely.complete a r n p hpas hsou)).2

theorem Refines.counter_pos : 0<(s.rank r).counter := by
  apply Nat.pos_of_ne_zero
  intro hzr
  exact absurd ((h.counts r).first hzr) hlt.ne

theorem Refines.uncounted (hsou : T.source r (s.rank r).counter (s.rank r).phase = none) :
    (s.rank r).recvcomplete (s.rank r).phase+1 = (s.rank r).counter := by
  have hpos := h.counter_pos hlt
  have hnot := ((h.counts r).unsourced _ _ hpos hlt hsou).not.mpr (by omega)
  obtain hone | hmn := Nat.eq_or_lt_of_le (succ_le_iff.mpr hpos)
  · omega
  · have hpas : (s.phased T).Passed r ((s.rank r).counter-1) (s.rank r).phase :=
      ⟨by omega,.inl (sub_lt hpos Nat.one_pos)⟩
    have := h.counted_of_passed hlt hpas
    omega

theorem Refines.sends (hcom : (s.rank r).phase<(s.rank r).sendcomplete) :
    (s.rank r).sendstarted=(s.rank r).phase+1 ∧ (s.rank r).sendcomplete=(s.rank r).phase+1 ∧
      ((T.dest r (s.rank r).counter (s.rank r).phase).isSome=true →
        (s.message r (s.rank r).counter (s.rank r).phase).sent=true) := by
  obtain ⟨-,hsm⟩ | ⟨hstr,hsum⟩ := (h.counts r).sends hlt
  · omega
  · by_cases hds : (T.dest r (s.rank r).counter (s.rank r).phase).isSome=true
    · rw [if_pos hds] at hsum
      cases hsn : (s.message r (s.rank r).counter (s.rank r).phase).sent with
      | false =>
        rw [hsn,Bool.toNat_false] at hsum
        omega
      | true =>
        rw [hsn,Bool.toNat_true] at hsum
        exact ⟨hstr,hsum,fun _ => rfl⟩
    · rw [if_neg hds] at hsum
      exact ⟨hstr,hsum,fun h => absurd h hds⟩

theorem Refines.advance (hcom : (s.rank r).phase<(s.rank r).sendcomplete) {f : ℕ → ℕ}
    (hsou : ∀ a, T.source r (s.rank r).counter (s.rank r).phase = some a →
      (s.rank r).counter ≤ (s.rank r).recvcomplete (s.rank r).phase)
    (hctd : ∀ a n p, (s.setRank r { s.rank r with recvcomplete := f }).counted T a n p = s.counted T a n p)
    (huns : ∀ n p, 0<n → p < T.numphases r → T.source r n p = none →
      (n ≤ f p ↔ n<(s.rank r).counter ∨ n=(s.rank r).counter ∧ p<(s.rank r).phase+1)) :
    Refines T C c data (s.setRank r { s.rank r with
      recvcomplete := f
      data := C.postrcv r (s.rank r).counter (s.rank r).phase (s.rank r).data
      postrcvs := (s.rank r).postrcvs ++ [((s.rank r).counter, (s.rank r).phase)]
      phase := (s.rank r).phase+1 }) := by
  have hr := h.counts r
  have hpos := h.counter_pos hlt
  obtain ⟨hstr,hsum,hsn⟩ := h.sends hlt hcom
  refine h.setRank (e := .pass r) ⟨hr.failed,by simp only; omega,fun hzr => absurd hzr hpos.ne',
    fun hend => ?_,fun hnx => .inl ⟨hstr,hsum⟩,huns,?_,?_⟩ trivial ?_
  · simp only at hend ⊢
    omega
  · simp only [hr.postrcvs,min_eq_left hlt.le,min_eq_left (succ_le_of_lt hlt)]
    exact (postLog_succ hpos _).symm
  · have hcmp := hr.completions
    rw [if_neg (by omega)] at hcmp
    simpa [hlt.ne] using hcmp
  · have hpha : (s.phased T).phase r=(s.rank r).phase := min_eq_left hlt.le
    have hgua : (s.phased T).phase r < T.numphases r ∧ (s.phased T).begun r=true ∧
        ((T.dest r ((s.phased T).exec r) ((s.phased T).phase r)).isSome →
          ((s.phased T).message r ((s.phased T).exec r) ((s.phased T).phase r)).sent=true) ∧
        ∀ a ∈ T.source r ((s.phased T).exec r) ((s.phased T).phase r),
          ((s.phased T).message a ((s.phased T).exec r) ((s.phased T).phase r)).complete=true := by
      rw [hpha]
      refine ⟨hlt,?_,hsn,fun a ha => ?_⟩
      · simp only [phased,decide_eq_true_iff]
        omega
      · exact (counted_iff ((T.matched a r _ _).mpr ha)).mpr ⟨hpos,hsou a ha⟩
    refine (if_pos hgua).trans (congrArg some ?_)
    have hsm : ∀ a n p, (s.setRank r { s.rank r with
        recvcomplete := f
        data := C.postrcv r (s.rank r).counter (s.rank r).phase (s.rank r).data
        postrcvs := (s.rank r).postrcvs ++ [((s.rank r).counter, (s.rank r).phase)]
        phase := (s.rank r).phase+1 }).counted T a n p = s.counted T a n p := by
      intro a n p
      rw [← hctd a n p]
      refine counted_congr (fun b => ?_) a n p
      simp only [Exchanges.setRank,update_apply]
      split <;> rfl
    rw [phased_setRank hsm]
    have hbeg : decide ((s.rank r).phase+1<T.numphases r ∧
        (s.rank r).phase+1<(s.rank r).sendstarted)=false := by
      rw [decide_eq_false_iff_not]
      omega
    simp only [hbeg,hpha,update_counter,min_eq_left (succ_le_of_lt hlt)]
    rfl

end

theorem setRank_rank (s : Exchanges ι α μ) (r : ι) : s.setRank r (s.rank r) = s := by
  rw [Exchanges.setRank,update_eq_self]

theorem setRank_setRank (s : Exchanges ι α μ) (r : ι) (x y : CollExchange α) :
    (s.setRank r x).setRank r y = s.setRank r y := by
  simp only [Exchanges.setRank,update_idem]

theorem rank_setRank (s : Exchanges ι α μ) (r : ι) (x : CollExchange α) : (s.setRank r x).rank r = x := by
  simp only [Exchanges.setRank,update_self]

structure Follows (T : PhaseTables ι) (C : PhaseClient ι α μ)
    (c : Network ι α μ) (data : ι → α) (s s' : Exchanges ι α μ) : Prop where
  refines : Refines T C c data s'
  counted : ∀ a n p, s'.counted T a n p = s.counted T a n p

/-- The state after a part of `kick`. -/
def after (s : Exchanges ι α μ) (r : ι) (k : CollExchange α × Bool) : Exchanges ι α μ :=
  if k.2 then
    (s.setRank r k.1).setMessage r k.1.counter k.1.phase
      { s.message r k.1.counter k.1.phase with posted := true }
  else s.setRank r k.1

/-- A rank that is not done waits for its send or for its message. -/
structure Settled (T : PhaseTables ι) (r : ι) (x : CollExchange α) : Prop where
  ended : x.phase = T.numphases r → x.counter = 0
  started : x.phase < T.numphases r → x.phase < x.sendstarted
  waits : x.phase < T.numphases r → x.sendcomplete ≤ x.phase ∨
    (T.source r x.counter x.phase).isSome = true ∧ x.recvcomplete x.phase < x.counter

def Goes (T : PhaseTables ι) (C : PhaseClient ι α μ) (c : Network ι α μ)
    (data : ι → α) (s : Exchanges ι α μ) (r : ι) : Round α → Prop
  | .send x => Follows T C c data s (s.after r (x, true)) ∧ Settled T r x
  | .stop x => Follows T C c data s (s.setRank r x) ∧ Settled T r x
  | .next x => Follows T C c data s (s.setRank r x) ∧ x.counter = (s.rank r).counter ∧
      x.phase = (s.rank r).phase + 1

theorem Refines.follows (h : Refines T C c data s) : Follows T C c data s s := ⟨h,fun _ _ _ => rfl⟩

theorem Follows.trans {s1 s2 : Exchanges ι α μ} (h1 : Follows T C c data s s1)
    (h2 : Follows T C c data s1 s2) : Follows T C c data s s2 :=
  ⟨h2.refines,fun a n p => (h2.counted a n p).trans (h1.counted a n p)⟩

section

variable (h : Refines T C c data s) (hlt : (s.rank r).phase < T.numphases r)
include h hlt

theorem Refines.advance_sourced (hcom : (s.rank r).phase<(s.rank r).sendcomplete)
    (hsou : T.source r (s.rank r).counter (s.rank r).phase = some a) :
    Goes T C c data s r ((s.rank r).advance (table T C r (s.rank r).counter)) := by
  rw [CollExchange.advance]
  split
  case isTrue hcou =>
    rw [Goes,setRank_rank]
    refine ⟨h.follows,fun hend => absurd hend hlt.ne,fun _ => ?_,fun _ => .inr ⟨isSome_of_eq_some hsou,hcou⟩⟩
    exact (lt_succ_self _).trans_eq (h.sends hlt hcom).1.symm
  case isFalse hcou =>
    refine ⟨⟨h.advance hlt hcom (f := (s.rank r).recvcomplete) (fun _ _ => not_lt.mp hcou)
      (counted_setRank rfl) fun n p hn hp hnn => ?_,counted_setRank rfl⟩,rfl,rfl⟩
    rw [(h.counts r).unsourced n p hn hp hnn]
    have hne : ¬ (n=(s.rank r).counter ∧ p=(s.rank r).phase) := by
      rintro ⟨rfl,rfl⟩
      rw [hsou] at hnn
      contradiction
    omega

theorem Refines.advance_unsourced (hcom : (s.rank r).phase<(s.rank r).sendcomplete)
    (hsou : T.source r (s.rank r).counter (s.rank r).phase = none) : Goes T C c data s r
      (((s.rank r).incRecvcomplete (s.rank r).phase).advance (table T C r (s.rank r).counter)) := by
  have hcou := h.uncounted hlt hsou
  have hctd : ∀ a n p, (s.setRank r ((s.rank r).incRecvcomplete (s.rank r).phase)).counted T a n p =
      s.counted T a n p := by
    intro a n p
    cases hds : T.dest a n p with
    | none => simp only [counted,hds,any_none]
    | some b =>
      rw [Bool.eq_iff_iff,counted_iff hds,counted_iff hds]
      refine and_congr_right fun hn => ?_
      simp only [Exchanges.setRank,update_apply]
      split
      case isFalse => rfl
      case isTrue heq =>
        subst heq
        by_cases hp : p=(s.rank b).phase
        · subst hp
          simp only [CollExchange.incRecvcomplete,update_self,hcou]
          have hne : n≠(s.rank b).counter := by
            rintro rfl
            rw [(T.matched a b _ _).mp hds] at hsou
            contradiction
          omega
        · simp only [CollExchange.incRecvcomplete,update_of_ne hp]
  have hnot : ¬ ((s.rank r).incRecvcomplete (s.rank r).phase).recvcomplete (s.rank r).phase<(s.rank r).counter := by
    simp only [CollExchange.incRecvcomplete,update_self]
    omega
  have hnx : ((s.rank r).incRecvcomplete (s.rank r).phase).advance (table T C r (s.rank r).counter) =
      .next _ := if_neg hnot
  rw [hnx]
  refine ⟨⟨h.advance hlt hcom (f := update (s.rank r).recvcomplete (s.rank r).phase
    ((s.rank r).recvcomplete (s.rank r).phase+1)) (fun a ha => ?_) hctd
    fun n p hn hp hnn => ?_,fun a n p => ?_⟩,rfl,rfl⟩
  · rw [hsou] at ha
    contradiction
  · by_cases heq : p=(s.rank r).phase
    · subst heq
      simp only [update_self]
      omega
    · simp only [update_of_ne heq]
      rw [(h.counts r).unsourced n p hn hp hnn]
      omega
  · rw [← hctd a n p]
    refine counted_congr (fun b => ?_) a n p
    simp only [Exchanges.setRank,update_apply]
    split <;> rfl

theorem Refines.receive (hstr : (s.rank r).phase<(s.rank r).sendstarted) :
    Goes T C c data s r ((s.rank r).receive (table T C r (s.rank r).counter)) := by
  rw [CollExchange.receive]
  split
  case isTrue hle =>
    rw [Goes,setRank_rank]
    exact ⟨h.follows,fun hend => absurd hend hlt.ne,fun _ => hstr,fun _ => .inl hle⟩
  case isFalse hcom =>
    have hcom := not_le.mp hcom
    cases hsou : T.source r (s.rank r).counter (s.rank r).phase with
    | some a =>
      have hrbuf : (table T C r (s.rank r).counter).rbuf (s.rank r).phase=true := by
        simp only [table,matching,hsou,isSome_some]
      rw [if_pos hrbuf]
      exact h.advance_sourced hlt hcom hsou
    | none =>
      have hrbuf : ¬ (table T C r (s.rank r).counter).rbuf (s.rank r).phase=true := by
        simp only [table,matching,hsou,isSome_none,Bool.false_eq_true,not_false_eq_true]
      have hass : ((s.rank r).incRecvcomplete (s.rank r).phase).recvcomplete (s.rank r).phase ≤
          (s.rank r).counter := by
        simp only [CollExchange.incRecvcomplete,update_self]
        exact (h.uncounted hlt hsou).le
      rw [if_neg hrbuf,if_pos hass]
      exact h.advance_unsourced hlt hcom hsou

omit h hlt in
theorem Follows.goes (h : Follows T C c data s (s.setRank r x)) (hpha : x.phase=(s.rank r).phase)
    (hcnt : x.counter=(s.rank r).counter) {y : Round α} (hy : Goes T C c data (s.setRank r x) r y) :
    Goes T C c data s r y := by
  cases y with
  | send y =>
    rw [Goes,after,setRank_setRank] at hy
    exact ⟨h.trans hy.1,hy.2⟩
  | stop y =>
    rw [Goes,setRank_setRank] at hy
    exact ⟨h.trans hy.1,hy.2⟩
  | next y =>
    rw [Goes,setRank_setRank,rank_setRank] at hy
    exact ⟨h.trans hy.1,hy.2.1.trans hcnt,hy.2.2.trans (congrArg Nat.succ hpha)⟩

theorem Refines.round : Goes T C c data s r ((s.rank r).round (table T C r (s.rank r).counter)) := by
  rw [CollExchange.round]
  split
  case isFalse hstr => exact h.receive hlt (not_le.mp hstr)
  case isTrue hle =>
    have hwai : (s.rank r).sendstarted=(s.rank r).phase ∧ (s.rank r).sendcomplete=(s.rank r).phase := by
      obtain hfre | ⟨hstr,-⟩ := (h.counts r).sends hlt
      · exact hfre
      · omega
    split
    case isTrue hsbuf =>
      refine ⟨⟨h.send hlt hle hsbuf,fun a n p => counted_setRank (by rfl) a n p⟩,?_⟩
      refine ⟨fun hend => absurd hend hlt.ne,fun _ => ?_,fun _ => .inl hwai.2.le⟩
      exact lt_succ_of_le hwai.1.ge
    case isFalse hsbuf =>
      have hskip := h.skip hlt hle (not_isSome_iff_eq_none.mp hsbuf)
      refine Follows.goes ⟨hskip,counted_setRank rfl⟩ rfl rfl ?_
      have hrcv := hskip.receive (r := r)
      rw [rank_setRank] at hrcv
      exact hrcv hlt (lt_succ_of_le hwai.1.ge)

end

theorem Refines.finish (h : Refines T C c data s) (hpos : 0<(s.rank r).counter) :
    Refines T C c data (s.setRank r ((s.rank r).finish (table T C r (s.rank r).counter))) := by
  rw [CollExchange.finish]
  split
  case isFalse =>
    rw [setRank_rank]
    exact h
  case isTrue hend =>
    have hend : (s.rank r).phase=T.numphases r := hend
    have hr := h.counts r
    refine ⟨counts_setRank h.counts ⟨hr.failed,?_,fun hzr => absurd hzr hpos.ne',fun _ => ?_,
      fun hlt => ?_,fun n p hn hp hnn => ?_,?_,?_⟩,?_⟩
    · exact succ_le_succ hend.le
    · exact hr.ended hend.ge
    · exact absurd hlt (by simp only; omega)
    · rw [hr.unsourced n p hn hp hnn]
      simp only
      omega
    · rw [hr.postrcvs]
      simp only [hend,min_self,min_eq_right (le_succ _)]
    · have hcmp := hr.completions
      rw [if_neg (by omega)] at hcmp
      simp only [hend,if_pos,hcmp]
      obtain ⟨k,hk⟩ := exists_eq_succ_of_ne_zero hpos.ne'
      rw [hk,succ_sub_one,List.range'_1_concat,add_comm 1 k]
    · have hsm : (s.setRank r { s.rank r with
          phase := (s.rank r).phase+1
          completions := (s.rank r).completions ++ [(s.rank r).counter] }).phased T = s.phased T := by
        rw [phased_setRank fun a n p => counted_setRank (by rfl) a n p]
        ext1
        · exact update_counter s r
        · rw [hend,min_eq_right (le_succ _),update_eq_self_iff]
          simp only [phased,hend,min_self]
        · rw [update_eq_self_iff]
          simp only [phased,hend,lt_self_iff_false,false_and,decide_false,decide_eq_false_iff_not,
            not_and,not_lt]
          omega
        · exact update_data s r
        · rfl
      rw [hsm]
      exact h.run

theorem Follows.finish (h : Refines T C c data s) (hpos : 0<(s.rank r).counter) :
    Follows T C c data s (s.setRank r ((s.rank r).finish (table T C r (s.rank r).counter))) := by
  refine ⟨h.finish hpos,counted_setRank ?_⟩
  rw [CollExchange.finish]
  split <;> rfl

omit [DecidableEq ι] in
theorem settled_finish {t : PhaseTable α} (ht : t.numphases = T.numphases r) (hle : t.numphases≤x.phase) :
    Settled T r (x.finish t) := by
  have hlt : T.numphases r<(x.finish t).phase := by
    rw [← ht]
    rw [CollExchange.finish]
    split
    case isTrue heq => exact lt_succ_of_le hle
    case isFalse hne => exact hle.lt_of_ne' hne
  exact ⟨fun h => absurd h hlt.ne',fun h => absurd h hlt.not_gt,fun h => absurd h hlt.not_gt⟩

theorem Refines.kickLoop (k : ℕ) : ∀ {s : Exchanges ι α μ}, Refines T C c data s → 0<(s.rank r).counter →
    (s.rank r).phase+k = T.numphases r ∨ k=0 ∧ T.numphases r ≤ (s.rank r).phase →
    Follows T C c data s (s.after r ((s.rank r).kickLoop (table T C r (s.rank r).counter) k)) ∧
      Settled T r ((s.rank r).kickLoop (table T C r (s.rank r).counter) k).1 := by
  induction k with
  | zero =>
    intro s h hpos hpha
    exact ⟨Follows.finish h hpos,
      settled_finish (t := table T C r (s.rank r).counter) rfl (by simp only [table,matching]; omega)⟩
  | succ k ih =>
    intro s h hpos hpha
    have hlt : (s.rank r).phase<T.numphases r := by omega
    have hgoes := h.round hlt
    rw [CollExchange.kickLoop]
    cases hrou : (s.rank r).round (table T C r (s.rank r).counter) with
    | send x | stop x =>
      rw [hrou] at hgoes
      exact hgoes
    | next x =>
      rw [hrou] at hgoes
      obtain ⟨hfol,hcnt,hnx⟩ := hgoes
      have hrs := ih hfol.refines (by rw [rank_setRank,hcnt]; exact hpos)
        (.inl (by rw [rank_setRank,hnx]; omega))
      rw [rank_setRank,hcnt,after] at hrs
      simp only [setRank_setRank] at hrs
      exact ⟨hfol.trans hrs.1,hrs.2⟩

theorem rank_after (s : Exchanges ι α μ) (r : ι) (k : CollExchange α × Bool) :
    (s.after r k).rank = update s.rank r k.1 := by
  rw [after]
  split <;> rfl

theorem Refines.kick (h : Refines T C c data s) (hpos : 0<(s.rank r).counter) :
    Follows T C c data s (s.kick T C r) ∧ Settled T r ((s.kick T C r).rank r) := by
  have hloop := h.kickLoop (r := r) (T.numphases r-(s.rank r).phase) hpos (by omega)
  refine ⟨hloop.1,?_⟩
  have hrk : (s.kick T C r).rank r = _ := congrFun (rank_after s r _) r
  rw [hrk,update_self]
  exact hloop.2

end Exchanges

end PAMI.TspColl

import PAMI.Datatype.Refinement

namespace PAMI.Datatype

open Stack TypeCode List Option

/-- How a call ends on the buffer and on the plain stack the buffer refines: in failure on both,
in states that still refine each other, or in one last push on such states. -/
inductive Outcome (fresh : ℕ → Memory) (t : TypeCode) : Option TypeCode → Option Stack → Prop
  | failed : Outcome fresh t none none
  | kept {u : TypeCode} {st : Stack} (h : Refines u st) (hb : t.SameBuffer u) :
      Outcome fresh t (some u) (some st)
  | pushed {u : TypeCode} {st : Stack} (i : Instr) (h : Refines u st) (hb : t.SameBuffer u) :
      Outcome fresh t (some (u.push fresh i.opcode i.operands)) (some (i :: st))

namespace Outcome

variable {fresh : ℕ → Memory} {t u : TypeCode}

theorem of_sameBuffer (hb : t.SameBuffer u) {a : Option TypeCode} {b : Option Stack}
    (h : Outcome fresh u a b) : Outcome fresh t a b := by
  cases h with
  | failed => exact .failed
  | kept h hu => exact .kept h (hb.trans hu)
  | pushed i h hu => exact .pushed i h (hb.trans hu)

theorem pop_bind {i : Instr} {st : Stack} (h : Refines t (i :: st))
    {f : TypeCode → Option TypeCode} {g : Stack → Option Stack}
    (hfg : ∀ u, Refines u st → Outcome fresh u (f u) (g st)) :
    Outcome fresh t (((ops fresh).pop t).bind f)
      ((Stack.ops.pop (i :: st)).bind g) := by
  obtain ⟨u,hp,hu,hb⟩ := h.pop
  have hops : (ops fresh).pop t = some u := hp
  rw [hops]
  exact (hfg u hu).of_sameBuffer hb

theorem refines_iff {v : TypeCode} {st : Stack} (h : Outcome fresh t (some v) (some st)) :
    Refines v st ↔ LinkKept fresh t st := by
  cases h with
  | kept h hb =>
    refine ⟨fun _ => ?_,fun _ => h⟩
    have hrm := h.room
    rw [hb.bufSize] at hrm
    cases st with
    | nil => trivial
    | cons i st => exact fun hg => by omega
  | pushed i h hb => rw [h.push_iff,LinkKept,LinkKept,hb.bufSize,hb.allocs]

end Outcome

section Simulation

variable (fresh : ℕ → Memory)

theorem addShift_addSimpleInternal_outcome (fuel : ℕ) :
    (∀ t st, Refines t st → ∀ s, Outcome fresh t (addShift (ops fresh) fuel t s) (addShift Stack.ops fuel st s)) ∧
    (∀ t st, Refines t st → ∀ bytes stride reps,
      Outcome fresh t (addSimpleInternal (ops fresh) fuel t bytes stride reps)
        (addSimpleInternal Stack.ops fuel st bytes stride reps)) := by
  induction fuel with
  | zero => exact ⟨fun _ _ _ _ => .failed,fun _ _ _ _ _ _ => .failed⟩
  | succ fuel ih =>
    obtain ⟨ihShift,ihSimple⟩ := ih
    constructor
    · intro t st h s
      have hpush : Outcome fresh t (some ((ops fresh).push t (.shift s)))
          (some (.shift s :: st)) := .pushed (.shift s) h (.refl t)
      rw [addShift,addShift,h.topShift,h.topCopy]
      by_cases hs : s=0
      · rw [if_pos hs,if_pos hs]
        exact .kept h (.refl t)
      rw [if_neg hs,if_neg hs]
      rcases st with _ | ⟨c | c | prev,st⟩
      · exact hpush
      · show Outcome fresh t (if c.reps=1 then _ else _) (if c.reps=1 then _ else _)
        by_cases hr : c.reps=1
        · rw [if_pos hr,if_pos hr]
          exact .pop_bind h (fun u hu => ihSimple u st hu _ _ _)
        · rw [if_neg hr,if_neg hr]
          exact hpush
      · exact hpush
      · exact .pop_bind h (fun u hu => ihShift u st hu _)
    · intro t st h bytes stride reps
      have hpush : Outcome fresh t (some ((ops fresh).push t (.copy ⟨bytes,stride,reps⟩)))
          (some (.copy ⟨bytes,stride,reps⟩ :: st)) := .pushed (.copy _) h (.refl t)
      rw [addSimpleInternal,addSimpleInternal,h.topCopy]
      by_cases hr : reps=0
      · rw [if_pos hr,if_pos hr]
        exact .kept h (.refl t)
      rw [if_neg hr,if_neg hr]
      by_cases hz : bytes=0
      · rw [if_pos hz,if_pos hz]
        exact ihShift t st h _
      rw [if_neg hz,if_neg hz]
      by_cases hd : bytes=stride ∧ 1 < reps
      · rw [if_pos hd,if_pos hd]
        exact ihSimple t st h _ _ _
      rw [if_neg hd,if_neg hd]
      rcases st with _ | ⟨c | c | prev,st⟩
      · exact hpush
      · show Outcome fresh t (if c.bytes=c.stride ∧ reps=1 then _ else _)
          (if c.bytes=c.stride ∧ reps=1 then _ else _)
        by_cases hm : c.bytes=c.stride ∧ reps=1
        · rw [if_pos hm,if_pos hm]
          exact .pop_bind h (fun u hu => ihSimple u st hu _ _ _)
        rw [if_neg hm,if_neg hm]
        by_cases hm' : c.bytes=bytes ∧ c.stride=stride
        · rw [if_pos hm',if_pos hm']
          exact .pop_bind h (fun u hu => ihSimple u st hu _ _ _)
        · rw [if_neg hm',if_neg hm']
          exact hpush
      · exact hpush
      · exact hpush

theorem addTypedInternal_outcome (heap : Word → TypeCode) (fuel : ℕ) (t : TypeCode) (st : Stack)
    (h : Refines t st) (sub stride reps : Word) :
    Outcome fresh t (addTypedInternal (ops fresh) heap fuel t sub stride reps)
      (addTypedInternal Stack.ops heap fuel st sub stride reps) := by
  induction fuel generalizing t st reps with
  | zero => exact .failed
  | succ fuel ih =>
    have hsim := (addShift_addSimpleInternal_outcome fresh fuel).2 t st h
    have hpush : Outcome fresh t (some ((ops fresh).push t (.call ⟨sub,stride,reps⟩)))
        (some (.call ⟨sub,stride,reps⟩ :: st)) := .pushed (.call _) h (.refl t)
    simp only [addTypedInternal]
    rw [h.topCall]
    split_ifs
    · exact .kept h (.refl t)
    · exact hsim _ _ _
    · exact .failed
    · exact hsim _ _ _
    · exact hsim _ _ _
    · rcases st with _ | ⟨c | c | prev,st⟩
      · exact hpush
      · exact hpush
      · show Outcome fresh t (if c.subType=sub ∧ c.stride=stride then _ else _)
          (if c.subType=sub ∧ c.stride=stride then _ else _)
        by_cases hm : c.subType=sub ∧ c.stride=stride
        · rw [if_pos hm,if_pos hm]
          exact .pop_bind h (fun u hu => ih u st hu _)
        · rw [if_neg hm,if_neg hm]
          exact hpush
      · exact hpush

theorem exec_outcome (heap : Word → TypeCode) {t : TypeCode} {st : Stack} (h : Refines t st)
    (c : AddCall) :
    Outcome fresh t (c.exec (ops fresh) heap t) (c.exec Stack.ops heap st) := by
  have hfuel : (ops fresh).fuel t = Stack.ops.fuel st := h.cursor
  cases c with
  | shift s =>
    rw [AddCall.exec,AddCall.exec,hfuel]
    exact (addShift_addSimpleInternal_outcome fresh _).1 t st h s
  | simple bytes stride reps =>
    rw [AddCall.exec,AddCall.exec,hfuel]
    exact (addShift_addSimpleInternal_outcome fresh _).2 t st h bytes stride reps
  | typed sub stride reps =>
    rw [AddCall.exec,AddCall.exec,hfuel]
    exact addTypedInternal_outcome fresh heap _ t st h sub stride reps

end Simulation

section Run

variable (fresh : ℕ → Memory) (heap : Word → TypeCode)

theorem add_refines_iff {t v : TypeCode} {st : Stack} (h : Refines t st) {c : AddCall}
    (hv : t.add fresh heap c = some v) :
    ∃ st', c.exec Stack.ops heap st = some st' ∧ (Refines v st' ↔ LinkKept fresh t st') := by
  have hex (u : TypeCode) (hu : Refines u st) (hb : t.SameBuffer u) (w : TypeCode)
      (hw : c.exec (ops fresh) heap u = some w) :
      ∃ st', c.exec Stack.ops heap st = some st' ∧ (Refines w st' ↔ LinkKept fresh t st') := by
    have ho := (exec_outcome fresh heap hu c).of_sameBuffer hb
    rw [hw] at ho
    cases hst : c.exec Stack.ops heap st with
    | none => rw [hst] at ho; cases ho
    | some st' =>
      rw [hst] at ho
      exact ⟨st',rfl,ho.refines_iff⟩
  have hprim (p : BitVec 6) : Refines (t.setPrimitive p) st ∧ t.SameBuffer (t.setPrimitive p) :=
    ⟨(Refines.setPrimitive_iff p).mpr h,rfl,rfl⟩
  simp only [add,h.incomplete,Bool.false_eq_true,if_false] at hv
  cases c with
  | shift s => exact hex t h (.refl t) v hv
  | simple bytes stride reps =>
    simp only at hv
    by_cases hz : bytes=0
    · rw [if_pos hz] at hv
      exact hex t h (.refl t) v hv
    · rw [if_neg hz] at hv
      exact hex _ (hprim _).1 (hprim _).2 v hv
  | typed sub stride reps =>
    simp only at hv
    split at hv
    · obtain ⟨w,hw,rfl⟩ := map_eq_some_iff.mp hv
      obtain ⟨st',hst,hiff⟩ : ∃ st', AddCall.exec Stack.ops heap st (.typed sub stride reps) =
          some st' ∧ (Refines w st' ↔ LinkKept fresh t st') := by
        split at hw
        · exact hex _ (hprim _).1 (hprim _).2 w hw
        · exact hex t h (.refl t) w hw
      refine ⟨st',hst,?_⟩
      split
      · exact hiff
      · rw [Refines.setPrimitive_iff,hiff]
    · cases hv

/-- In every call of the run, the link of the slot survives the growth of the buffer. -/
def LinksSurvive (calls : List AddCall) : Prop :=
  ∀ pre c, pre ++ [c] <+: calls → ∀ t v st, build fresh heap pre = some t →
    build fresh heap (pre ++ [c]) = some v → Stack.run heap (pre ++ [c]) = some st →
    LinkKept fresh t st

theorem build_concat (pre : List AddCall) (c : AddCall) :
    build fresh heap (pre ++ [c]) = (build fresh heap pre).bind (fun t => t.add fresh heap c) := by
  simp only [build,foldlM_append,foldlM_cons,foldlM_nil]
  exact Option.bind_congr (fun t _ => by simp)

theorem run_concat (pre : List AddCall) (c : AddCall) :
    Stack.run heap (pre ++ [c]) = (Stack.run heap pre).bind (fun st => c.exec Stack.ops heap st) := by
  simp only [Stack.run,foldlM_append,foldlM_cons,foldlM_nil]
  exact Option.bind_congr (fun t _ => by simp)

theorem refines_of_linksSurvive {calls pre : List AddCall} (h : LinksSurvive fresh heap calls)
    (hpre : pre <+: calls) {t : TypeCode} (ht : build fresh heap pre = some t) :
    ∃ st, Stack.run heap pre = some st ∧ Refines t st := by
  induction pre using List.reverseRecOn generalizing t with
  | nil =>
    refine ⟨[],rfl,?_⟩
    have hi : init fresh=t := by simpa [build] using ht
    exact hi ▸ Refines.init fresh
  | append_singleton pre c ih =>
    have hb := ht
    rw [build_concat] at hb
    obtain ⟨u,hu,hadd⟩ := bind_eq_some_iff.mp hb
    obtain ⟨st,hst,hr⟩ := ih ((prefix_append pre [c]).trans hpre) hu
    obtain ⟨st',hex,hiff⟩ := add_refines_iff fresh heap hr hadd
    have hrun : Stack.run heap (pre ++ [c]) = some st' := by
      rw [run_concat,hst]
      exact hex
    exact ⟨st',hrun,hiff.mpr (h pre c hpre u t st' hu ht hrun)⟩

/-- The link invariant holds at every state of a run of the builder, and the code buffer refines
the plain stack there, if and only if every buffer the run had to grow into happened to hold the
link that growing does not copy. -/
theorem link_invariant_iff (calls : List AddCall) :
    (∀ pre, pre <+: calls → ∀ t, build fresh heap pre = some t →
      ∃ st, Stack.run heap pre = some st ∧ Refines t st) ↔ LinksSurvive fresh heap calls := by
  constructor
  · intro h pre c hpre t v st' ht hv hst'
    obtain ⟨st,hst,hr⟩ := h pre ((prefix_append pre [c]).trans hpre) t ht
    obtain ⟨st'',hst'',hrv⟩ := h _ hpre v hv
    rw [build_concat,ht] at hv
    obtain ⟨st3,hex,hiff⟩ := add_refines_iff fresh heap hr hv
    rw [run_concat,hst,bind_some,hex] at hst' hst''
    obtain rfl := some.inj hst'
    obtain rfl := some.inj hst''
    exact hiff.mp hrv
  · intro h pre hpre t ht
    exact refines_of_linksSurvive fresh heap h hpre ht

end Run

def fourCopies : List AddCall := [.simple 1 2 2, .simple 1 3 2, .simple 1 4 2, .simple 1 5 2]

/-- An allocator that returns cleared storage, and no sub-type. -/
def clearedStorage : ℕ → Memory := fun _ _ => 0
def noSubTypes : Word → TypeCode := fun _ => init clearedStorage

/-- The fourth copy grows the buffer, and its `prev_opcode` says `BEGIN` behind a `COPY`. -/
theorem link_lost_growing : ¬ ∀ pre, pre <+: fourCopies → ∀ t, build clearedStorage noSubTypes pre = some t →
      ∃ st, Stack.run noSubTypes pre = some st ∧ Refines t st := by
  intro h
  have hwor : (build clearedStorage noSubTypes fourCopies).map
      (fun t => (opcodeOf (t.code 128), opcodeOf (t.code 160), prevOf (t.code 160))) =
        some (Opcode.COPY.code, Opcode.COPY.code, Opcode.BEGIN.code) := by decide
  obtain ⟨t,ht,hw⟩ := map_eq_some_iff.mp hwor
  obtain ⟨st,hst,hr⟩ := h fourCopies (prefix_refl _) t ht
  have hsta : Stack.run noSubTypes fourCopies = some [.copy ⟨1,5,2⟩,.copy ⟨1,4,2⟩,
      .copy ⟨1,3,2⟩,.copy ⟨1,2,2⟩] := by decide
  rw [hsta] at hst
  obtain rfl := some.inj hst
  have hprev := hr.slots.2.1
  simp only [Prod.mk.injEq] at hw
  rw [show codeSize [.copy ⟨1,4,2⟩,.copy ⟨1,3,2⟩,.copy ⟨1,2,2⟩]=160 by decide,hw.2.2] at hprev
  exact absurd hprev (by decide)

end PAMI.Datatype

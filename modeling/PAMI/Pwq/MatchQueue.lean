import Mathlib.Algebra.Order.BigOperators.Group.List
import Mathlib.Algebra.Order.Group.Nat
import Mathlib.Algebra.Ring.Nat
import Mathlib.Data.List.FinRange

namespace PAMI.Pwq

open Function List

abbrev numQs : ℕ := 16

/-- A `MatchQueueElem`: its key, and which message it is part of. -/
structure MatchQueueElem where
  key : BitVec 64
  msg : ℕ
  deriving DecidableEq, Repr

def qid (key : BitVec 64) : Fin numQs := ⟨key.toNat % numQs, Nat.mod_lt _ (by decide)⟩

/-- A `MatchQueue`, whose elements are in the queues of their keys. -/
structure MatchQueue where
  localQ : Fin numQs → List MatchQueueElem
  hashed : ∀ i, ∀ e ∈ localQ i, qid e.key = i

namespace MatchQueue

def empty : MatchQueue := ⟨fun _ => [], by simp⟩

def pushTail (q : MatchQueue) (e : MatchQueueElem) : MatchQueue where
  localQ := update q.localQ (qid e.key) (q.localQ (qid e.key) ++ [e])
  hashed := by
    intro i e' he'
    by_cases hi : i = qid e.key
    · subst hi
      rw [update_self] at he'
      obtain he' | he' := mem_append.mp he'
      · exact q.hashed _ e' he'
      · rw [mem_singleton.mp he']
    · rw [update_of_ne hi] at he'
      exact q.hashed i e' he'

def deleteElem (q : MatchQueue) (e : MatchQueueElem) : MatchQueue where
  localQ := update q.localQ (qid e.key) ((q.localQ (qid e.key)).erase e)
  hashed := by
    intro i e' he'
    by_cases hi : i = qid e.key
    · subst hi
      rw [update_self] at he'
      exact q.hashed _ e' (mem_of_mem_erase he')
    · rw [update_of_ne hi] at he'
      exact q.hashed i e' he'

def find (q : MatchQueue) (key : BitVec 64) : Option MatchQueueElem := (q.localQ (qid key)).find? fun e => e.key = key

def size (q : MatchQueue) : ℕ := ((List.finRange numQs).map fun i => (q.localQ i).length).sum

instance : Membership MatchQueueElem MatchQueue := ⟨fun q e => e ∈ q.localQ (qid e.key)⟩

instance (q : MatchQueue) (e : MatchQueueElem) : Decidable (e ∈ q) :=
  inferInstanceAs (Decidable (e ∈ q.localQ (qid e.key)))

def Unique (q : MatchQueue) : Prop := ∀ i, ((q.localQ i).map MatchQueueElem.key).Nodup

variable {q : MatchQueue} {e e' : MatchQueueElem} {key : BitVec 64}

theorem mem_localQ {i : Fin numQs} (h : e ∈ q.localQ i) : e ∈ q := by
  have hi := q.hashed i e h
  subst hi
  exact h

theorem notMem_empty : e ∉ empty := not_mem_nil

theorem unique_empty : empty.Unique := fun _ => nodup_nil

theorem Unique.eq (h : q.Unique) (he : e ∈ q) (he' : e' ∈ q) (hkey : e.key=e'.key) : e=e' := by
  change e ∈ q.localQ (qid e.key) at he
  change e' ∈ q.localQ (qid e'.key) at he'
  rw [← hkey] at he'
  exact inj_on_of_nodup_map (h _) he he' hkey

theorem find_some (h : q.find key = some e) : e ∈ q ∧ e.key=key := by
  have hkey : e.key=key := by simpa using List.find?_some h
  exact ⟨mem_localQ (List.mem_of_find?_eq_some h),hkey⟩

theorem find_none (h : q.find key = none) (he : e ∈ q) : e.key≠key := by
  intro hkey
  subst hkey
  have := List.find?_eq_none.mp h e he
  simp at this

theorem Unique.find (h : q.Unique) (he : e ∈ q) : q.find e.key = some e := by
  cases hfind : q.find e.key with
  | none => exact absurd rfl (find_none hfind he)
  | some e' =>
    obtain ⟨he',hkey⟩ := find_some hfind
    rw [h.eq he' he hkey]

theorem mem_pushTail : e' ∈ q.pushTail e ↔ e' ∈ q ∨ e'=e := by
  change e' ∈ update q.localQ (qid e.key) _ (qid e'.key) ↔ e' ∈ q.localQ (qid e'.key) ∨ _
  by_cases hi : qid e'.key = qid e.key
  · rw [hi,update_self,mem_append,mem_singleton]
  · rw [update_of_ne hi]
    constructor
    · exact .inl
    · intro h
      refine h.resolve_right fun heq => ?_
      rw [heq] at hi
      exact hi rfl

theorem Unique.pushTail (h : q.Unique) (hnew : ∀ e' ∈ q, e'.key≠e.key) : (q.pushTail e).Unique := by
  intro i
  by_cases hi : i=qid e.key
  · subst hi
    simp only [MatchQueue.pushTail,update_self,map_append,map_cons,map_nil]
    apply (h _).append (nodup_singleton _)
    simp only [disjoint_singleton,mem_map,not_exists,not_and]
    exact fun e' he' => hnew e' (mem_localQ he')
  · simp only [MatchQueue.pushTail,update_of_ne hi]
    exact h i

theorem mem_deleteElem (h : q.Unique) : e' ∈ q.deleteElem e ↔ e' ∈ q ∧ e'≠e := by
  change e' ∈ update q.localQ (qid e.key) _ (qid e'.key) ↔ e' ∈ q.localQ (qid e'.key) ∧ _
  by_cases hi : qid e'.key = qid e.key
  · rw [hi,update_self,(h _).of_map.mem_erase_iff,and_comm]
  · rw [update_of_ne hi]
    constructor
    · intro hmem
      refine ⟨hmem,fun heq => ?_⟩
      rw [heq] at hi
      exact hi rfl
    · exact And.left

theorem Unique.deleteElem (h : q.Unique) : (q.deleteElem e).Unique := by
  intro i
  by_cases hi : i=qid e.key
  · subst hi
    simp only [MatchQueue.deleteElem,update_self]
    exact (h _).sublist (erase_sublist.map _)
  · simp only [MatchQueue.deleteElem,update_of_ne hi]
    exact h i

theorem size_eq_zero : q.size=0 ↔ ∀ e, e ∉ q := by
  simp only [size,sum_eq_zero_iff,mem_map,mem_finRange,true_and,
    forall_exists_index,forall_apply_eq_imp_iff,length_eq_zero_iff]
  constructor
  · intro h e he
    change e ∈ q.localQ (qid e.key) at he
    rw [h] at he
    exact not_mem_nil he
  · intro h i
    apply eq_nil_iff_forall_not_mem.mpr
    exact fun e he => h e (mem_localQ he)

end MatchQueue

end PAMI.Pwq

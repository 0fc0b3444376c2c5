import Mathlib.Data.List.Perm.Basic
import PAMI.Math.Links

namespace PAMI.Memory

open PAMI.Math Function List

/-- An object is named by the segment it lies in and its place there. -/
abbrev MemoryObject := ℕ × ℕ

structure MemoryAllocator where
  held : Bool
  head : Option MemoryObject
  next : MemoryObject → Option MemoryObject
  segments : ℕ

inductive PoolCall
  | allocateObject
  | returnObject (i : ℕ)
  deriving DecidableEq

namespace MemoryAllocator

def new : MemoryAllocator := ⟨false, none, fun _ => none, 0⟩

/-- `none` stands for a mutex that the caller holds already. -/
def lock (a : MemoryAllocator) : Option MemoryAllocator := if a.held then none else some { a with held := true }

def unlock (a : MemoryAllocator) : MemoryAllocator := { a with held := false }

def returnObject (a : MemoryAllocator) (object : MemoryObject) : Option MemoryAllocator :=
  a.lock.map fun a => unlock { a with next := update a.next object a.head, head := some object }

def internalAllocate (prealloc : ℕ) (a : MemoryAllocator) : Option (MemoryObject × MemoryAllocator) :=
  ((List.range' 1 (prealloc - 1)).foldlM (fun a i => returnObject a (a.segments, i)) a).map fun a =>
    ((a.segments, 0), { a with segments := a.segments + 1 })

def allocateObject (prealloc : ℕ) (a : MemoryAllocator) : Option (MemoryObject × MemoryAllocator) :=
  a.lock.bind fun a =>
    match a.head with
    | some object => some (object, unlock { a with head := a.next object })
    | none => (a.internalAllocate prealloc).map fun r => (r.1, unlock r.2)

/-- No call waits for its own mutex, an object handed out is none of those that are `out`, and a new segment
means that all objects of the others are. The call `returnObject i` returns the `i`th of those. -/
def Sound (prealloc : ℕ) : MemoryAllocator → List MemoryObject → List PoolCall → Prop
  | _, _, [] => True
  | a, out, .allocateObject :: calls => ∃ o a', a.allocateObject prealloc = some (o, a') ∧ o ∉ out ∧
      (a'.segments ≠ a.segments → ∀ s < a.segments, ∀ i < prealloc, (s, i) ∈ out) ∧ Sound prealloc a' (o :: out) calls
  | a, out, .returnObject i :: calls =>
    match out[i]? with
    | none => Sound prealloc a out calls
    | some o => ∃ a', a.returnObject o = some a' ∧ Sound prealloc a' (out.eraseIdx i) calls

variable {prealloc : ℕ} {a : MemoryAllocator} {out : List MemoryObject} {calls : List PoolCall}

/-- With segments of one object: each of them is free or handed out. -/
structure Inv (a : MemoryAllocator) (out free : List MemoryObject) : Prop where
  unlocked : a.held = false
  path : Path a.next a.head free
  objects : (free ++ out).Perm ((List.range a.segments).map (·, 0))

theorem Inv.nodup {free : List MemoryObject} (h : Inv a out free) : (free ++ out).Nodup :=
  h.objects.nodup_iff.mpr (nodup_range.map fun _ _ heq => (Prod.mk.inj heq).1)

theorem Inv.sound {l : List MemoryObject} (h : Inv a out l) : Sound 1 a out calls := by
  induction calls generalizing a out l with
  | nil => trivial
  | cons call calls ih =>
    obtain ⟨held,head,next,segments⟩ := a
    obtain ⟨rfl : held=false,hpath : Path next head l,hobj⟩ := id h
    cases call with
    | allocateObject =>
      cases l with
      | cons o l =>
        obtain ⟨rfl,hrs⟩ := hpath
        have hnod := h.nodup
        refine ⟨o,⟨false,next o,next,segments⟩,rfl,fun hout => ?_,fun hne => absurd rfl hne,?_⟩
        · exact (nodup_cons.mp hnod).1 (mem_append_right l hout)
        · exact ih ⟨rfl,hrs,perm_middle.trans hobj⟩
      | nil =>
        obtain rfl : head=none := hpath
        have hout : out.Perm ((List.range segments).map (·, 0)) := hobj
        refine ⟨(segments, 0),⟨false,none,next,segments+1⟩,rfl,?_,?_,?_⟩
        · simp [hout.mem_iff]
        · intro _ s hs i hi
          obtain rfl : i=0 := by omega
          simpa [hout.mem_iff] using hs
        · apply ih (l := [])
          refine ⟨rfl,rfl,?_⟩
          rw [nil_append,range_succ,map_append]
          exact (hout.cons _).trans (perm_append_singleton _ _).symm
    | returnObject i =>
      rw [Sound]
      split
      case h_1 => exact ih h
      case h_2 o ho =>
        obtain ⟨hi,rfl⟩ := List.getElem?_eq_some_iff.mp ho
        have hfr : out[i] ∉ l := fun hmem => (nodup_append.mp h.nodup).2.2 _ hmem _ (getElem_mem hi) rfl
        refine ⟨_,rfl,ih (l := out[i] :: l) ⟨rfl,hpath.push hfr,?_⟩⟩
        exact (perm_middle.symm.trans ((getElem_cons_eraseIdx_perm hi).append_left l)).trans hobj

theorem internalAllocate_eq_none (hpre : 1<prealloc) (hhl : a.held=true) :
    a.internalAllocate prealloc = none := by
  obtain ⟨n,rfl⟩ := Nat.exists_eq_add_of_lt hpre
  have hlng : 1+n+1-1=n+1 := by omega
  simp [internalAllocate,hlng,range'_succ,returnObject,lock,hhl]

theorem sound_iff (hpre : 1 ≤ prealloc) :
    Sound prealloc new [] calls ↔ prealloc = 1 ∨ PoolCall.allocateObject ∉ calls := by
  by_cases hone : prealloc=1
  · subst hone
    have hinv : Inv new [] [] := ⟨rfl,rfl,.nil⟩
    simp [hinv.sound]
  · -- Before the first allocation there is nothing to return.
    induction calls with
    | nil => simp [Sound]
    | cons call calls ih =>
      cases call with
      | allocateObject =>
        have hnn : new.allocateObject prealloc=none := by
          simp [allocateObject,lock,new,internalAllocate_eq_none (show 1<prealloc by omega)]
        simp [Sound,hnn,hone]
      | returnObject i => simpa [Sound] using ih

/-- The third call returns the object that the next one hands out again; the last one needs a third segment. -/
theorem sound_reused : 1 ≤ 1 ∧
    Sound 1 new [] [.allocateObject, .allocateObject, .returnObject 0, .allocateObject, .allocateObject] :=
  ⟨Nat.le_refl 1,(sound_iff (Nat.le_refl 1)).mpr (.inl rfl)⟩

theorem not_sound : ¬ Sound 2 new [] [.allocateObject] := by
  rintro ⟨o,a',h,-⟩
  contradiction

end MemoryAllocator

end PAMI.Memory

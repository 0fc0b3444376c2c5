import Mathlib.Data.Set.Function
import Mathlib.Order.Interval.Set.Defs
import Mathlib.Order.Nat

namespace PAMI.Math

open Function List Nat

variable {κ β : Type*} [DecidableEq κ] {cell : ℕ → κ} {src : ℕ → β} {mem : κ → β} {count i : ℕ} {k : κ}

/-- A memory after the first elements of a source are written to their cells. -/
@[grind =] def place (cell : ℕ → κ) (src : ℕ → β) (mem : κ → β) : ℕ → κ → β
  | 0 => mem
  | count + 1 => update (place cell src mem count) (cell count) (src count)

theorem place_cell (hcell : Set.InjOn cell (Set.Iio count)) (hi : i < count) : place cell src mem count (cell i) = src i := by
  induction count with
  | zero => exact absurd hi (Nat.not_lt_zero i)
  | succ count ih =>
    rw [place]
    obtain hlt | rfl := Nat.lt_succ_iff_lt_or_eq.mp hi
    · rw [update_of_ne fun heq => hlt.ne (hcell hi (lt_succ_self count) heq)]
      exact ih (hcell.mono fun _ hj => lt_succ_of_lt hj) hlt
    · exact update_self ..

theorem place_of_ne (hk : ∀ i < count, cell i ≠ k) : place cell src mem count k = mem k := by
  induction count with
  | zero => rfl
  | succ count ih =>
    rw [place,update_of_ne (hk count (lt_succ_self _)).symm]
    exact ih fun i hi => hk i (hi.trans (lt_succ_self _))

/-- A memory after a list of values is written to the cells. -/
@[grind =] def write (cell : ℕ → κ) : List β → (κ → β) → κ → β
  | [], mem => mem
  | v :: values, mem => write (fun i => cell (i + 1)) values (update mem (cell 0) v)

variable {values : List β}

theorem write_of_ne (hk : ∀ i<values.length, cell i ≠ k) : write cell values mem k = mem k := by
  induction values generalizing cell mem with
  | nil => rfl
  | cons v values ih =>
    rw [write,ih fun i hi => hk (i+1) (succ_lt_succ hi)]
    exact update_of_ne (hk 0 (succ_pos _)).symm _ _

theorem write_cell (cell : ℕ → κ) (hcell : ∀ i j, i<values.length → j<values.length → cell i = cell j → i=j)
    (hi : i<values.length) : write cell values mem (cell i) = values[i] := by
  induction values generalizing cell mem i with
  | nil => exact absurd hi (Nat.not_lt_zero i)
  | cons v values ih =>
    rw [write]
    cases i with
    | zero =>
      rw [write_of_ne fun j hj heq => succ_ne_zero j (hcell (j+1) 0 (succ_lt_succ hj) (succ_pos _) heq)]
      exact update_self ..
    | succ i =>
      refine ih (fun i => cell (i+1)) (fun i j hi hj heq => ?_) (lt_of_succ_lt_succ hi)
      exact succ_injective (hcell (i+1) (j+1) (succ_lt_succ hi) (succ_lt_succ hj) heq)

variable {f : ℕ → β}

theorem write_range (hcell : Set.InjOn cell (Set.Iio count)) (hi : i < count) :
    write cell ((List.range count).map f) mem (cell i) = f i := by
  refine (write_cell cell (fun i j hi hj => ?_) (by rwa [length_map,length_range])).trans ?_
  · rw [length_map,length_range] at hi hj
    exact hcell hi hj
  · rw [getElem_map,getElem_range]

theorem write_range_of_ne (hk : ∀ i < count, cell i ≠ k) :
    write cell ((List.range count).map f) mem k = mem k := by
  refine write_of_ne fun i hi => hk i ?_
  rwa [length_map,length_range] at hi

end PAMI.Math

import Mathlib.Data.List.Basic
import Mathlib.Tactic.Linarith

namespace PAMI.Math

open List Nat

variable {β : Type*}

/-- An operation on blocks, for each of the first blocks of two lists. -/
def blockwise (size : ℕ) (op : List β → List β → List β) : ℕ → List β → List β → List β
  | 0, _, _ => []
  | n + 1, x, y => op (x.take size) (y.take size) ++ blockwise size op n (x.drop size) (y.drop size)

variable {size : ℕ} {op : List β → List β → List β} {a b n m : ℕ} {x y : List β}

def KeepsBlocks (size : ℕ) (op : List β → List β → List β) : Prop :=
  ∀ x y, x.length = size → y.length = size → (op x y).length = size

theorem length_blockwise (hop : KeepsBlocks size op) (hx : n*size≤x.length) (hy : n*size≤y.length) :
    (blockwise size op n x y).length=n*size := by
  induction n generalizing x y with
  | zero => exact (zero_mul size).symm
  | succ n ih =>
    rw [succ_mul] at hx hy ⊢
    rw [blockwise,length_append,hop,ih,add_comm]
    · rw [length_drop]
      omega
    · rw [length_drop]
      omega
    · rw [length_take]
      omega
    · rw [length_take]
      omega

theorem blockwise_add : blockwise size op (a+n) x y =
    blockwise size op a x y ++ blockwise size op n (x.drop (a*size)) (y.drop (a*size)) := by
  induction a generalizing x y with
  | zero =>
    rw [zero_add,zero_mul]
    rfl
  | succ a ih => rw [succ_add,blockwise,ih,blockwise,append_assoc,drop_drop,drop_drop,succ_mul,add_comm size]

theorem blockwise_take (h : n*size ≤ m) : blockwise size op n (x.take m) (y.take m) = blockwise size op n x y := by
  induction n generalizing x y m with
  | zero => rfl
  | succ n ih =>
    rw [succ_mul] at h
    have hmin : min size m=size := min_eq_left (by omega)
    rw [blockwise,blockwise,take_take,take_take,hmin,drop_take,drop_take,ih (by omega)]

theorem blockwise_part (hop : KeepsBlocks size op) (hx : x.length=n*size) (hy : y.length=n*size) (h : a+b≤n) :
    blockwise size op b ((x.drop (a*size)).take (b*size)) ((y.drop (a*size)).take (b*size)) =
      ((blockwise size op n x y).drop (a*size)).take (b*size) := by
  obtain ⟨c,rfl⟩ := Nat.exists_eq_add_of_le h
  have hwid : (a+b+c)*size=a*size+b*size+c*size := by rw [add_mul,add_mul]
  rw [hwid] at hx hy
  have hfir : (blockwise size op a x y).length=a*size := length_blockwise hop (by omega) (by omega)
  have hpart : (blockwise size op b (x.drop (a*size)) (y.drop (a*size))).length=b*size := by
    apply length_blockwise hop
    · rw [length_drop]
      omega
    · rw [length_drop]
      omega
  rw [blockwise_take (le_refl _),add_assoc,blockwise_add,drop_left' hfir,blockwise_add,take_left' hpart]

end PAMI.Math

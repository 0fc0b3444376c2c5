import Mathlib.Data.Fintype.Card

namespace PAMI.Math

open Finset

variable {α : Type*} [Fintype α] {f g : α → Bool} {a : α}

def tally (f : α → Bool) : ℕ := (Finset.univ.filter fun a => f a = true).card

theorem tally_eq_zero (h : ∀ a, f a = false) : tally f = 0 := by
  rw [tally,card_eq_zero,filter_eq_empty_iff]
  intro a _
  rw [h]
  exact Bool.false_ne_true

theorem tally_lt_card (ha : f a = false) : tally f < Fintype.card α := by
  apply card_lt_card
  refine ⟨subset_univ _,fun h => ?_⟩
  rw [(mem_filter_univ a).mp (h (mem_univ a))] at ha
  contradiction

variable [DecidableEq α]

theorem tally_set (ha : f a = false) (hg : ∀ b, g b = (f b || decide (b=a))) : tally g = tally f+1 := by
  have hset : Finset.univ.filter (fun b => g b=true) = insert a (Finset.univ.filter fun b => f b=true) := by
    ext b
    rw [mem_filter_univ,mem_insert,mem_filter_univ,hg,Bool.or_eq_true,decide_eq_true_iff,or_comm]
  rw [tally,hset,card_insert_of_notMem fun hmem => ?_,tally]
  rw [(mem_filter_univ a).mp hmem] at ha
  contradiction

theorem tally_add_one_eq_card (ha : f a = false) : tally f+1 = Fintype.card α ↔ ∀ b, b≠a → f b = true := by
  have hset := tally_set ha (g := fun b => f b || decide (b=a)) fun _ => rfl
  rw [← hset,tally,← card_univ,card_filter_eq_iff]
  refine ⟨fun h b hb => ?_,fun h b _ => ?_⟩
  · have hor := h b (mem_univ b)
    rwa [Bool.or_eq_true,decide_eq_true_iff,or_iff_left hb] at hor
  · rw [Bool.or_eq_true,decide_eq_true_iff]
    exact or_iff_not_imp_right.mpr (h b)

end PAMI.Math

import Mathlib.Data.Nat.ModEq
import Mathlib.Data.Nat.Prime.Basic
import Mathlib.Tactic.Ring

namespace PAMI.Math

open Nat

/-! The circle method: of an odd number of players, two play in the round that is half their sum, and in each round one
player is left over. -/

variable {T p q a b : ℕ}

/-- The opponent of a player in a round; the player that is left over has itself. -/
def opponent (T p a : ℕ) : ℕ := (T + 2 * p - a) % T

theorem opponent_eq_iff (ha : a<T) (hb : b<T) : opponent T p a = b ↔ a+b ≡ 2*p [MOD T] := by
  have hsum : a+(T+2*p-a) ≡ 2*p [MOD T] := by
    rw [add_sub_of_le (by omega)]
    exact add_modEq_left
  constructor
  · rintro rfl
    exact ((mod_modEq _ T).add_left a).trans hsum
  · intro h
    have hmod : T+2*p-a ≡ b [MOD T] := Nat.ModEq.add_left_cancel' a (hsum.trans h.symm)
    exact mod_eq_of_modEq hmod hb

theorem opponent_lt (ha : a<T) : opponent T p a < T := mod_lt _ (zero_lt_of_lt ha)

theorem opponent_comm (ha : a<T) (hb : b<T) : opponent T p a = b ↔ opponent T p b = a := by
  rw [opponent_eq_iff ha hb,opponent_eq_iff hb ha,Nat.add_comm]

section Odd

variable (hT : Odd T)
include hT

theorem double_modEq_iff : 2*a ≡ 2*b [MOD T] ↔ a ≡ b [MOD T] :=
  ⟨Nat.ModEq.cancel_left_of_coprime (coprime_two_right.mpr hT),fun h => h.mul_left 2⟩

theorem opponent_self_iff (ha : a<T) (hp : p<T) : opponent T p a = a ↔ a=p := by
  rw [opponent_eq_iff ha ha,← Nat.two_mul,double_modEq_iff hT]
  exact ⟨fun h => h.eq_of_lt_of_lt ha hp,fun h => h ▸ rfl⟩

theorem round_unique (ha : a<T) (hb : b<T) (hp : p<T) (hq : q<T) (h : opponent T p a = b)
    (h' : opponent T q a = b) : p=q := by
  have hbt := ((opponent_eq_iff ha hb).mp h).symm.trans ((opponent_eq_iff ha hb).mp h')
  exact ((double_modEq_iff hT).mp hbt).eq_of_lt_of_lt hp hq

theorem exists_round (ha : a<T) (hb : b<T) : ∃ p<T, opponent T p a = b := by
  obtain ⟨k,hk⟩ := hT
  refine ⟨(a+b)*(k+1)%T,mod_lt _ (zero_lt_of_lt ha),(opponent_eq_iff ha hb).mpr ?_⟩
  calc a+b ≡ (a+b)+(a+b)*T [MOD T] := (add_mul_modulus_modEq_iff.mpr rfl).symm
    _ = 2*((a+b)*(k+1)) := by rw [hk]; ring
    _ ≡ 2*((a+b)*(k+1)%T) [MOD T] := ((mod_modEq _ T).mul_left 2).symm

end Odd

end PAMI.Math

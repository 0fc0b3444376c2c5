import Mathlib.Algebra.BigOperators.Group.Finset.Piecewise
import Mathlib.Algebra.BigOperators.Group.Finset.Sigma
import Mathlib.Data.Nat.Bitwise
import Mathlib.Tactic.Ring

namespace PAMI.Math

open Finset Nat

section Digits

theorem xor_shiftLeft_div (b r s : ℕ) : (b ^^^ (r <<< s))/2^s = b/2^s ^^^ r := by
  rw [xor_div_two_pow,shiftLeft_eq,Nat.mul_div_cancel _ (Nat.two_pow_pos s)]

theorem xor_shiftLeft_mod (b r s : ℕ) : (b ^^^ (r <<< s))%2^s=b%2^s := by
  rw [xor_mod_two_pow,shiftLeft_eq,mul_mod_left,xor_zero]

theorem xor_eq_iff {a b m : ℕ} : b = a ^^^ m ↔ a = b ^^^ m := by
  constructor
  · rintro rfl
    rw [xor_xor_cancel_right]
  · rintro rfl
    rw [xor_xor_cancel_right]

theorem xor_ne_self {a m : ℕ} (hm : m≠0) : a ^^^ m ≠ a := by
  intro h
  apply hm
  rw [← Nat.zero_xor m,← Nat.xor_self a,Nat.xor_assoc,h,Nat.xor_self]

theorem xor_lt_iff (x y l : ℕ) : x ^^^ y < 2^l ↔ x/2^l=y/2^l := by
  rw [← div_eq_zero_iff_lt (Nat.two_pow_pos l),xor_div_two_pow]
  constructor
  · intro h
    by_contra hne
    exact hne (by rw [← xor_xor_cancel_right (x/2^l) (y/2^l),h,Nat.zero_xor])
  · intro h
    rw [h,Nat.xor_self]

theorem digit_lt {r l p k : ℕ} (hr : r<2^l) (hp : p<k) : r <<< (p*l) < 2^(k*l) := by
  have hpow : 2^(p*l+l)≤2^(k*l) := by
    apply Nat.pow_le_pow_right (by decide)
    calc p*l+l=(p+1)*l := by ring
      _ ≤ k*l := Nat.mul_le_mul_right l hp
  rw [shiftLeft_eq]
  calc r*2^(p*l)<2^l*2^(p*l) := Nat.mul_lt_mul_of_pos_right hr (Nat.two_pow_pos _)
    _ = 2^(p*l+l) := by rw [pow_add,mul_comm]
    _ ≤ 2^(k*l) := hpow

theorem xor_bit_of_even {b s : ℕ} (h : b/2^s%2=0) : b ^^^ (1 <<< s) = b+2^s := by
  have heven : b/2^s ^^^ 1=b/2^s+1 := xor_one_of_even (even_iff.mpr h)
  calc b ^^^ (1 <<< s)
      = 2^s*((b ^^^ (1 <<< s))/2^s)+(b ^^^ (1 <<< s))%2^s := (div_add_mod _ _).symm
    _ = 2^s*(b/2^s+1)+b%2^s := by rw [xor_shiftLeft_div,xor_shiftLeft_mod,heven]
    _ = 2^s*(b/2^s)+b%2^s+2^s := by ring
    _ = b+2^s := by rw [div_add_mod]

theorem xor_bit_of_odd {b s : ℕ} (h : b/2^s%2=1) : b ^^^ (1 <<< s) = b-2^s := by
  have hle : 2^s≤b := by
    by_contra hlt
    rw [div_eq_of_lt (not_le.mp hlt)] at h
    cases h
  have heven : (b-2^s)/2^s%2=0 := by
    have hdiv := sub_mul_div b (2^s) 1
    rw [mul_one] at hdiv
    rw [hdiv]
    omega
  have hset := xor_bit_of_even heven
  rw [Nat.sub_add_cancel hle] at hset
  exact (xor_eq_iff.mp hset.symm).symm

end Digits

section Blocks

variable {M : Type*} [AddCommMonoid M]

/-- The sum over the numbers below `n` that agree with `a` from bit `s` on. -/
def blockSum (v : ℕ → M) (n s a : ℕ) : M := ∑ b ∈ range n with b / 2^s = a / 2^s, v b

theorem blockSum_zero (v : ℕ → M) {n a : ℕ} (h : a<n) : blockSum v n 0 a = v a := by
  have hfil : {b ∈ range n | b/2^0=a/2^0} = {a} := by
    ext b
    simp only [mem_filter,mem_range,pow_zero,Nat.div_one,mem_singleton]
    constructor
    · exact fun hb => hb.2
    · rintro rfl
      exact ⟨h,rfl⟩
  rw [blockSum,hfil,sum_singleton]

theorem blockSum_all (v : ℕ → M) {n s a : ℕ} (hn : n≤2^s) (h : a<n) :
    blockSum v n s a = ∑ b ∈ range n, v b := by
  rw [blockSum,filter_true_of_mem]
  intro b hb
  have hlt := mem_range.mp hb
  rw [div_eq_of_lt (lt_of_lt_of_le hlt hn),div_eq_of_lt (lt_of_lt_of_le h hn)]

theorem blockSum_digit (v : ℕ → M) (n s l a : ℕ) :
    blockSum v n (s+l) a = ∑ r ∈ range (2^l), blockSum v n s (a ^^^ (r <<< s)) := by
  have hdig (b r : ℕ) : b/2^s=a/2^s ^^^ r ↔ r=a/2^s ^^^ b/2^s := by
    rw [Nat.xor_comm (a/2^s) r,Nat.xor_comm (a/2^s)]
    exact xor_eq_iff
  have hcond (b : ℕ) : b/2^(s+l)=a/2^(s+l) ↔ a/2^s ^^^ b/2^s<2^l := by
    rw [xor_lt_iff,Nat.div_div_eq_div_mul,Nat.div_div_eq_div_mul,← pow_add]
    exact eq_comm
  simp only [blockSum,xor_shiftLeft_div,hdig,hcond,sum_filter]
  rw [sum_comm]
  apply sum_congr rfl
  intro b _
  rw [sum_ite_eq']
  simp only [mem_range]

end Blocks

end PAMI.Math

import Mathlib.Data.Nat.Periodic

namespace PAMI.Math

open Nat Finset

/-- The walk over the pairs below `m` and `k` which advances both parts at once, the first of them
from an offset. -/
def diagonal (m k offset n : ℕ) : ℕ × ℕ := ((n + offset) % m, n % k)

section Diagonal

variable {m k offset : ℕ}

theorem diagonal_eq_iff {n n' : ℕ} :
    diagonal m k offset n = diagonal m k offset n' ↔ n ≡ n' [MOD m] ∧ n ≡ n' [MOD k] := by
  rw [diagonal,diagonal,Prod.mk.injEq]
  constructor
  · intro ⟨h1,h2⟩
    exact ⟨Nat.ModEq.add_right_cancel' offset h1,h2⟩
  · intro ⟨h1,h2⟩
    exact ⟨h1.add_right offset,h2⟩

theorem diagonal_injective (hmk : Nat.Coprime m k) {n n' : ℕ} (hn : n < m*k) (hn' : n' < m*k)
    (h : diagonal m k offset n = diagonal m k offset n') : n=n' := by
  obtain ⟨h1,h2⟩ := diagonal_eq_iff.mp h
  have hmod : n ≡ n' [MOD m*k] := (modEq_and_modEq_iff_modEq_mul hmk).mp ⟨h1,h2⟩
  exact Nat.ModEq.eq_of_lt_of_lt hmod hn hn'

theorem diagonal_surjective (offset : ℕ) (hmk : Nat.Coprime m k) {a b : ℕ} (ha : a < m) (hb : b<k) :
    ∃ n < m*k, diagonal m k offset n = (a, b) := by
  let start := a+(m-offset%m)
  have hm : m≠0 := by omega
  have hk : k≠0 := by omega
  obtain ⟨h1,h2⟩ := (Nat.chineseRemainder hmk start b).2
  refine ⟨Nat.chineseRemainder hmk start b,chineseRemainder_lt_mul hmk start b hm hk,?_⟩
  have hoft : offset%m < m := mod_lt _ (by omega)
  have hfir : start+offset ≡ a [MOD m] := by
    calc start+offset
      _ ≡ start+offset%m [MOD m] := (mod_modEq offset m).symm.add_left start
      _ = a+m := by simp only [start]; omega
      _ ≡ a [MOD m] := by simp [Nat.ModEq]
  rw [diagonal,Prod.mk.injEq]
  constructor
  · calc (_+offset)%m
      _ = a%m := (h1.add_right offset).trans hfir
      _ = a := mod_eq_of_lt ha
  · calc _%k
      _ = b%k := h2
      _ = b := mod_eq_of_lt hb

theorem diagonal_repeats (offset : ℕ) (hm : 0 < m) (hk : 0<k) (hmk : ¬ Nat.Coprime m k) :
    0 < Nat.lcm m k ∧ Nat.lcm m k < m*k ∧ diagonal m k offset (Nat.lcm m k) = diagonal m k offset 0 := by
  have hgcd : 0<Nat.gcd m k := gcd_pos_of_pos_left k hm
  have hlcm : 0<Nat.lcm m k := lcm_pos hm hk
  have hmul : Nat.gcd m k*Nat.lcm m k=m*k := gcd_mul_lcm m k
  refine ⟨hlcm,?_,?_⟩
  · have hgcd' : 1<Nat.gcd m k := by
      have : Nat.gcd m k≠1 := hmk
      omega
    calc Nat.lcm m k
      _ < Nat.gcd m k*Nat.lcm m k := lt_mul_of_one_lt_left hlcm hgcd'
      _ = m*k := hmul
  · apply diagonal_eq_iff.mpr
    constructor
    · exact (modEq_zero_iff_dvd).mpr (Nat.dvd_lcm_left m k)
    · exact (modEq_zero_iff_dvd).mpr (Nat.dvd_lcm_right m k)

theorem diagonal_add_round (n : ℕ) :
    diagonal m k offset (n+m*k) = diagonal m k offset n := by
  apply diagonal_eq_iff.mpr
  constructor
  · simp [Nat.ModEq]
  · simp [Nat.ModEq]

end Diagonal

section Periodic

variable {p : ℕ → Prop} [DecidablePred p] {m : ℕ}

theorem count_mod_round (offset c : ℕ) :
    Nat.count (fun n => p ((n+offset)%m)) (m*c) = c*Nat.count p m := by
  induction c with
  | zero => simp
  | succ c ih =>
    have hrou : Nat.count (fun j => p ((m*c+j+offset)%m)) m = Nat.count p m := by
      have hper : Function.Periodic (fun n => p (n%m)) m := by
        intro n
        simp
      have hshi := filter_Ico_card_eq_of_periodic offset m _ hper
      calc Nat.count (fun j => p ((m*c+j+offset)%m)) m
        _ = Nat.count (fun j => p ((offset+j)%m)) m := by
          have hj (j : ℕ) : (m*c+j+offset)%m=(offset+j)%m := by
            rw [show m*c+j+offset=offset+j+m*c by omega,add_mul_mod_self_left]
          simp only [hj]
        _ = Nat.count (fun n => p (n%m)) m := by
          rw [← hshi,count_eq_card_filter_range]
          symm
          apply card_bij (fun n _ => n-offset)
          · intro n hn
            simp only [mem_filter,mem_Ico,mem_range] at hn ⊢
            rw [show offset+(n-offset)=n by omega]
            exact ⟨by omega,hn.2⟩
          · intro n hn n' hn' h
            simp only [mem_filter,mem_Ico] at hn hn'
            omega
          · intro j hj
            simp only [mem_filter,mem_range] at hj
            refine ⟨offset+j,?_,by omega⟩
            simp only [mem_filter,mem_Ico]
            exact ⟨by omega,hj.2⟩
        _ = Nat.count p m := by
          rw [count_eq_card_filter_range,count_eq_card_filter_range]
          congr 1
          apply filter_congr
          intro n hn
          rw [mod_eq_of_lt (mem_range.mp hn)]
    rw [mul_succ,count_add,ih,hrou,succ_mul]

end Periodic

end PAMI.Math

import Mathlib.Algebra.Order.Group.Nat
import Mathlib.Data.Nat.ModEq

namespace PAMI.Math

open Nat

def Receives (L i k : ℕ) : Prop := k % 2 ^ (L - i) = 2 ^ (L - 1 - i)

variable {L i j k : ℕ}

theorem two_pow_level (hi : i<L) : 2^(L-i)=2*2^(L-1-i) := by
  have hlev : L-i=L-1-i+1 := by omega
  rw [hlev,Nat.pow_succ']

theorem Receives.dvd (hi : i<L) (h : Receives L i k) : 2^(L-1-i) ∣ k := by
  have hdvd : 2^(L-1-i) ∣ 2^(L-i) := ⟨2,by rw [two_pow_level hi,mul_comm]⟩
  exact (dvd_mod_iff hdvd).mp (h.symm ▸ dvd_refl _)

theorem exists_receives (hk : 0<k) (hlt : k<2^L) (hi : i≤L) (hdvd : 2^(L-i) ∣ k) :
    ∃ j < i, Receives L j k := by
  induction i with
  | zero => exact absurd (le_of_dvd hk hdvd) (not_le.mpr hlt)
  | succ i ih =>
    have hlev : L-(i+1)=L-1-i := by omega
    rw [hlev] at hdvd
    have hpow := two_pow_level (L := L) (i := i) hi
    obtain ⟨m,hm⟩ := hdvd
    obtain heven | hodd := mod_two_eq_zero_or_one m
    · have hdvd : 2^(L-i) ∣ k := by
        rw [hpow,mul_comm,hm]
        exact Nat.mul_dvd_mul_left _ (dvd_of_mod_eq_zero heven)
      obtain ⟨j,hj,h⟩ := ih (le_of_succ_le hi) hdvd
      exact ⟨j,hj.trans (lt_succ_self i),h⟩
    · refine ⟨i,lt_succ_self i,?_⟩
      rw [Receives,hpow,hm,mul_comm 2,mul_mod_mul_left,hodd,mul_one]

theorem Receives.not_before (hi : i<L) (h : Receives L i k) (h' : Receives L j k) : ¬ i<j := by
  intro hlt
  have hdvd : 2^(L-j) ∣ k := (Nat.pow_dvd_pow 2 (by omega)).trans (h.dvd hi)
  rw [Receives,mod_eq_zero_of_dvd hdvd] at h'
  exact (Nat.two_pow_pos _).ne h'

theorem Receives.unique (hi : i<L) (hj : j<L) (h : Receives L i k) (h' : Receives L j k) : i=j :=
  le_antisymm (not_lt.mp (h'.not_before hj h)) (not_lt.mp (h.not_before hi h'))

theorem receives_iff (hi : i<L) : Receives L i k ↔ 2^(L-1-i)≤k ∧ 2^(L-i) ∣ k-2^(L-1-i) := by
  have hpos : 0<2^(L-1-i) := Nat.two_pow_pos _
  have hpow := two_pow_level hi
  constructor
  · intro h
    have hle : 2^(L-1-i)≤k := h.symm.le.trans (mod_le _ _)
    refine ⟨hle,(modEq_iff_dvd' hle).mp ?_⟩
    exact (mod_eq_of_lt (by omega)).trans h.symm
  · rintro ⟨hle,hdvd⟩
    have hmod : 2^(L-1-i) ≡ k [MOD 2^(L-i)] := (modEq_iff_dvd' hle).mpr hdvd
    exact Eq.trans hmod.symm (mod_eq_of_lt (by omega))

end PAMI.Math

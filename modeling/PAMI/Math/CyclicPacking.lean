import Mathlib.Algebra.Order.BigOperators.Group.Finset
import Mathlib.Data.Nat.ModEq

namespace PAMI.Math

open Finset Nat

/-- The sum of some counts from an index on, around a ring. -/
def cyclicSum (N : ℕ) (c : ℕ → ℕ) (a w : ℕ) : ℕ := ∑ d ∈ range w, c ((a + d) % N)

structure CyclicallyPacked (N : ℕ) (c D : ℕ → ℕ) : Prop where
  pos : 0 < ∑ k ∈ range N, c k
  fits : ∀ b < N, D b + c b ≤ ∑ k ∈ range N, c k
  next : ∀ b < N, (D b + c b) % (∑ k ∈ range N, c k) = D ((b + 1) % N) % ∑ k ∈ range N, c k

variable {N a b w d e j : ℕ} {c D : ℕ → ℕ}

theorem cyclicSum_succ : cyclicSum N c a (w+1) = cyclicSum N c a w+c ((a+w)%N) := sum_range_succ _ _

theorem cyclicSum_all (ha : a<N) : cyclicSum N c a N = ∑ k ∈ range N, c k := by
  have hspl : N=N-a+a := (Nat.sub_add_cancel ha.le).symm
  have hlow : ∑ d ∈ range (N-a), c ((a+d)%N) = ∑ d ∈ range (N-a), c (a+d) := by
    apply sum_congr rfl
    intro d hd
    have := mem_range.mp hd
    rw [mod_eq_of_lt (by omega)]
  have hhg : ∑ d ∈ range a, c ((a+(N-a+d))%N) = ∑ d ∈ range a, c d := by
    apply sum_congr rfl
    intro d hd
    have hd := mem_range.mp hd
    have hturn : a+(N-a+d)=d+N := by omega
    rw [hturn,add_mod_right,mod_eq_of_lt (hd.trans ha)]
  calc cyclicSum N c a N
      = ∑ d ∈ range (N-a+a), c ((a+d)%N) := by rw [cyclicSum,← hspl]
    _ = ∑ d ∈ range (N-a), c (a+d) + ∑ d ∈ range a, c d := by rw [sum_range_add,hlow,hhg]
    _ = ∑ k ∈ range (a+(N-a)), c k := by rw [sum_range_add,add_comm]
    _ = ∑ k ∈ range N, c k := by rw [Nat.add_sub_cancel' ha.le]

theorem cyclicSum_mono {v : ℕ} (h : w≤v) : cyclicSum N c a w ≤ cyclicSum N c a v :=
  sum_le_sum_of_subset (range_subset_range.mpr h)

namespace CyclicallyPacked

theorem index_lt (h : CyclicallyPacked N c D) : 0<N := by
  apply pos_of_ne_zero
  rintro rfl
  exact absurd h.pos (lt_irrefl 0)

section

variable (h : CyclicallyPacked N c D) (ha : a < N)
include h ha

theorem end_mod (w : ℕ) :
    (D a+cyclicSum N c a w)%(∑ k ∈ range N, c k) = D ((a+w)%N) % ∑ k ∈ range N, c k := by
  induction w with
  | zero => rw [cyclicSum,range_zero,sum_empty,add_zero,add_zero,mod_eq_of_lt ha]
  | succ w ih =>
    have hb : (a+w)%N<N := mod_lt _ h.index_lt
    have hinx : ((a+w)%N+1)%N=(a+(w+1))%N := by rw [mod_add_mod,add_assoc]
    rw [cyclicSum_succ,← add_assoc,add_mod,ih,← add_mod,h.next _ hb,hinx]

theorem mem_interval_iff (w e : ℕ) :
    (∃ x, D a ≤ x ∧ x < D a+cyclicSum N c a w ∧ x%(∑ k ∈ range N, c k)=e) ↔
      ∃ d<w, D ((a+d)%N) ≤ e ∧ e < D ((a+d)%N)+c ((a+d)%N) := by
  induction w with
  | zero =>
    rw [cyclicSum,range_zero,sum_empty,add_zero]
    refine iff_of_false ?_ ?_
    · rintro ⟨x,hle,hlt,-⟩
      omega
    · rintro ⟨d,hd,-⟩
      exact absurd hd (Nat.not_lt_zero d)
  | succ w ih =>
    have hft := h.fits ((a+w)%N) (mod_lt _ h.index_lt)
    have hend := h.end_mod ha w
    -- The places of the last block.
    have hpla : ∀ j < c ((a+w)%N),
        (D a+cyclicSum N c a w+j)%(∑ k ∈ range N, c k)=D ((a+w)%N)+j := by
      intro j hj
      rw [add_mod,hend,← add_mod,mod_eq_of_lt (by omega)]
    rw [cyclicSum_succ]
    constructor
    · rintro ⟨x,hle,hlt,hx⟩
      obtain hin | hout := lt_or_ge x (D a+cyclicSum N c a w)
      · obtain ⟨d,hd,he⟩ := ih.mp ⟨x,hle,hin,hx⟩
        exact ⟨d,hd.trans (lt_succ_self w),he⟩
      · have hj := hpla (x-(D a+cyclicSum N c a w)) (by omega)
        rw [Nat.add_sub_cancel' hout,hx] at hj
        exact ⟨w,lt_succ_self w,by omega,by omega⟩
    · rintro ⟨d,hd,hle,hlt⟩
      obtain hin | rfl := Nat.lt_succ_iff_lt_or_eq.mp hd
      · obtain ⟨x,hx,hxlt,he⟩ := ih.mpr ⟨d,hin,hle,hlt⟩
        exact ⟨x,hx,by omega,he⟩
      · have hj := hpla (e-D ((a+d)%N)) (by omega)
        rw [Nat.add_sub_cancel' hle] at hj
        exact ⟨_,by omega,by omega,hj⟩

theorem mem_parts_iff (hw : w≤N) (e : ℕ) : (if ∑ k ∈ range N, c k ≤ D a+cyclicSum N c a w then
        (D a ≤ e ∧ e < ∑ k ∈ range N, c k) ∨ e < D a+cyclicSum N c a w - ∑ k ∈ range N, c k
      else D a ≤ e ∧ e < D a+cyclicSum N c a w) ↔
      ∃ d<w, D ((a+d)%N) ≤ e ∧ e < D ((a+d)%N)+c ((a+d)%N) := by
  have hpos := h.pos
  have hsta : D a ≤ ∑ k ∈ range N, c k := (Nat.le_add_right _ _).trans (h.fits a ha)
  have hsum : cyclicSum N c a w ≤ ∑ k ∈ range N, c k := (cyclicSum_mono hw).trans_eq (cyclicSum_all ha)
  rw [← h.mem_interval_iff ha]
  generalize ∑ k ∈ range N, c k=T at hpos hsta hsum ⊢
  split
  case isTrue hturn =>
    constructor
    · rintro (⟨hle,hlt⟩ | hlt)
      · exact ⟨e,hle,by omega,mod_eq_of_lt hlt⟩
      · exact ⟨e+T,by omega,by omega,by rw [add_mod_right,mod_eq_of_lt (by omega)]⟩
    · rintro ⟨x,hle,hlt,rfl⟩
      obtain hin | hout := lt_or_ge x T
      · rw [mod_eq_of_lt hin]
        omega
      · rw [mod_eq_sub_mod hout,mod_eq_of_lt (by omega)]
        omega
  case isFalse hturn =>
    constructor
    · rintro ⟨hle,hlt⟩
      exact ⟨e,hle,hlt,mod_eq_of_lt (by omega)⟩
    · rintro ⟨x,hle,hlt,rfl⟩
      rw [mod_eq_of_lt (by omega)]
      exact ⟨hle,hlt⟩

theorem disjoint (hb : b<N) (hae : D a ≤ e ∧ e < D a+c a) (hbe : D b ≤ e ∧ e < D b+c b) : a=b := by
  by_contra hne
  have hdis : (a+(b+N-a)%N)%N=b := by
    rw [add_mod_mod,Nat.add_sub_cancel' (by omega),add_mod_right,mod_eq_of_lt hb]
  have hpos : 0<(b+N-a)%N := by
    apply Nat.pos_of_ne_zero
    intro hzr
    rw [hzr,Nat.add_zero,mod_eq_of_lt ha] at hdis
    exact hne hdis
  have hlt : (b+N-a)%N<N := mod_lt _ h.index_lt
  generalize (b+N-a)%N=d at hdis hpos hlt
  have hft := h.fits b hb
  have hend := h.end_mod ha d
  rw [hdis] at hend
  have hpla : (D a+cyclicSum N c a d+(e-D b))%(∑ k ∈ range N, c k)=e := by
    rw [add_mod,hend,← add_mod,Nat.add_sub_cancel' hbe.1,mod_eq_of_lt (by omega)]
  have hfir : c a ≤ cyclicSum N c a d := by
    have hone : cyclicSum N c a 1 = c a := by rw [cyclicSum,sum_range_one,Nat.add_zero,mod_eq_of_lt ha]
    exact hone ▸ cyclicSum_mono hpos
  have hla : cyclicSum N c a d+c b ≤ ∑ k ∈ range N, c k := by
    have hsc := cyclicSum_succ (N := N) (c := c) (a := a) (w := d)
    rw [hdis] at hsc
    rw [← hsc,← cyclicSum_all ha]
    exact cyclicSum_mono hlt
  have hpos := h.pos
  generalize ∑ k ∈ range N, c k=T at hpla hla hpos
  have hdiv := div_add_mod (D a+cyclicSum N c a d+(e-D b)) T
  rw [hpla] at hdiv
  obtain hzr | hmore := Nat.eq_zero_or_pos ((D a+cyclicSum N c a d+(e-D b))/T)
  · rw [hzr,Nat.mul_zero,Nat.zero_add] at hdiv
    omega
  · have hle : T≤T*((D a+cyclicSum N c a d+(e-D b))/T) := Nat.le_mul_of_pos_right T hmore
    omega

end

end CyclicallyPacked

end PAMI.Math

import Mathlib.Algebra.Group.Opposite
import Mathlib.Algebra.Ring.Nat
import Mathlib.Order.Nat

namespace PAMI.Math

variable {M : Type*}

/-- The values from a place on, up to one that is some places further. -/
@[grind =] def total [Add M] (w : ℕ → M) (a : ℕ) : ℕ → M
  | 0 => w a
  | k + 1 => total w a k + w (a + (k + 1))

theorem total_append [AddSemigroup M] (w : ℕ → M) (a k l : ℕ) :
    total w a (k+l+1) = total w a k+total w (a+k+1) l := by
  induction l with
  | zero => rfl
  | succ l ih =>
    have hnx : a+(k+(l+1)+1)=a+k+1+(l+1) := by omega
    calc total w a (k+(l+1)+1)
        = total w a (k+l+1)+w (a+(k+(l+1)+1)) := rfl
      _ = total w a k+(total w (a+k+1) l+w (a+k+1+(l+1))) := by rw [ih,hnx,add_assoc]
      _ = total w a k+total w (a+k+1) (l+1) := rfl

/-- The values of a place and of those before it, as many in all as `2 ^ j`. -/
def trailing [Add M] (w : ℕ → M) (j r : ℕ) : M := total w (r + 1 - 2 ^ j) (r - (r + 1 - 2 ^ j))

def preceding [Add M] (w : ℕ → M) (j r : ℕ) : M := total w (r + 1 - 2 ^ j) (r - 1 - (r + 1 - 2 ^ j))

section Add

variable [Add M] {w : ℕ → M} {j r : ℕ}

theorem trailing_zero : trailing w 0 r = w r := by
  rw [trailing,pow_zero,Nat.add_sub_cancel,Nat.sub_self,total]

theorem trailing_all (h : r<2^j) : trailing w j r = total w 0 r := by
  have hsta : r+1-2^j=0 := Nat.sub_eq_zero_of_le h
  rw [trailing,hsta,Nat.sub_zero]

theorem trailing_keep (h : r<2^j) : trailing w (j+1) r = trailing w j r := by
  have hpow : 2^j≤2^(j+1) := Nat.pow_le_pow_right Nat.two_pos (Nat.le_succ j)
  rw [trailing_all h,trailing_all (h.trans_le hpow)]

theorem preceding_one : preceding w 1 r = w (r-1) := by
  have hsta : r+1-2^1=r-1 := by omega
  rw [preceding,hsta,Nat.sub_self,total]

theorem preceding_all (h : r<2^j) : preceding w j r = total w 0 (r-1) := by
  have hsta : r+1-2^j=0 := Nat.sub_eq_zero_of_le h
  rw [preceding,hsta,Nat.sub_zero]

theorem preceding_keep (h : r<2^j) : preceding w (j+1) r = preceding w j r := by
  have hpow : 2^j≤2^(j+1) := Nat.pow_le_pow_right Nat.two_pos (Nat.le_succ j)
  rw [preceding_all h,preceding_all (h.trans_le hpow)]

end Add

variable {w : ℕ → M} {j a b : ℕ}

theorem trailing_append [AddSemigroup M] (h : a+2^j=b) :
    trailing w (j+1) b = trailing w j a+trailing w j b := by
  have hpos := Nat.two_pow_pos j
  have hpow : 2^(j+1)=2^j+2^j := by rw [pow_succ,mul_two]
  have hsta : b+1-2^(j+1)=a+1-2^j := by omega
  have hlat : b+1-2^j=a+1 := by omega
  have hlng : b-(a+1-2^j)=(a-(a+1-2^j))+(b-(a+1))+1 := by omega
  have hmid : a+1-2^j+(a-(a+1-2^j))+1=a+1 := by omega
  rw [trailing,hsta,hlng,total_append,hmid]
  simp only [trailing,hlat]

theorem preceding_append [AddSemigroup M] (hj : 0<j) (h : a+2^j=b) :
    preceding w (j+1) b = trailing w j a+preceding w j b := by
  have hpow : 2^(j+1)=2^j+2^j := by rw [pow_succ,mul_two]
  have htwo : 2≤2^j := Nat.le_self_pow hj.ne' 2
  have hsta : b+1-2^(j+1)=a+1-2^j := by omega
  have hlat : b+1-2^j=a+1 := by omega
  have hlng : b-1-(a+1-2^j)=(a-(a+1-2^j))+(b-1-(a+1))+1 := by omega
  have hmid : a+1-2^j+(a-(a+1-2^j))+1=a+1 := by omega
  rw [preceding,hsta,hlng,total_append,hmid]
  simp only [preceding,trailing,hlat]

theorem trailing_succ [AddCommSemigroup M] (h : a+2^j=b) :
    trailing w (j+1) b = trailing w j b+trailing w j a := by
  rw [trailing_append h,add_comm]

theorem preceding_succ [AddCommSemigroup M] (hj : 0<j) (h : a+2^j=b) :
    preceding w (j+1) b = preceding w j b+trailing w j a := by
  rw [preceding_append hj h,add_comm]

section Descending

open AddOpposite

/-- The values up to a place, the last one first. -/
def descending [Add M] (w : ℕ → M) : ℕ → M
  | 0 => w 0
  | r + 1 => w (r + 1) + descending w r

theorem unop_total [Add M] (w : ℕ → M) (r : ℕ) : unop (total (fun i => op (w i)) 0 r) = descending w r := by
  induction r with
  | zero => rfl
  | succ r ih => rw [total,unop_add,ih,unop_op,zero_add,descending]

theorem descending_eq_total [AddSemigroup M] (hcomm : ∀ x y : M, x+y=y+x) (w : ℕ → M) (r : ℕ) :
    descending w r = total w 0 r := by
  induction r with
  | zero => rfl
  | succ r ih => rw [descending,ih,hcomm,total,zero_add]

end Descending

end PAMI.Math

import Mathlib.Data.List.Basic
import Mathlib.Tactic.Linarith

namespace PAMI.Math

open List

/-- How to split an interval of `n` places: the first `big n` of them stay with its head, the rest
goes to at most `ports` blocks of `small n` places, the last of which may be shorter. -/
structure Splitting where
  ports : ℕ
  big : ℕ → ℕ
  small : ℕ → ℕ
  big_pos : ∀ n, 1 < n → 0 < big n
  big_lt : ∀ n, 1 < n → big n < n
  small_pos : ∀ n, 1 < n → 0 < small n
  covers : ∀ n, 1 < n → n ≤ big n + small n * ports

namespace Splitting

variable (S : Splitting)

def blockStart (n c : ℕ) : ℕ :=
  if c < S.big n then 0 else S.big n + (c - S.big n) / S.small n * S.small n

def blockSize (n c : ℕ) : ℕ :=
  if c < S.big n then S.big n
  else if n < S.blockStart n c + S.small n then n - S.blockStart n c
  else S.small n

def starts (n : ℕ) : List ℕ := ((List.range S.ports).map fun i => S.big n + S.small n * i).filter (· < n)

section Blocks

variable {S} {n c d : ℕ}

theorem blockStart_bounds (h : 1<n) (hc : S.big n ≤ c) :
    S.big n ≤ S.blockStart n c ∧ S.blockStart n c ≤ c ∧ c < S.blockStart n c+S.small n := by
  have hle := Nat.div_mul_le_self (c-S.big n) (S.small n)
  have hlt := Nat.lt_div_mul_add (a := c-S.big n) (S.small_pos n h)
  rw [blockStart,if_neg (not_lt.mpr hc)]
  omega

theorem blockStart_le (h : 1<n) : S.blockStart n c ≤ c := by
  by_cases hc : c<S.big n
  · rw [blockStart,if_pos hc]
    exact Nat.zero_le c
  · exact (blockStart_bounds h (not_lt.mp hc)).2.1

theorem lt_block (h : 1<n) (hc : c<n) : c < S.blockStart n c+S.blockSize n c := by
  by_cases hbig : c<S.big n
  · rw [blockSize,if_pos hbig]
    omega
  · have hbnd := blockStart_bounds h (not_lt.mp hbig)
    rw [blockSize,if_neg hbig]
    split_ifs <;> omega

theorem block_le (h : 1<n) (hc : c<n) : S.blockStart n c+S.blockSize n c ≤ n := by
  by_cases hbig : c<S.big n
  · have hlt := S.big_lt n h
    rw [blockSize,if_pos hbig,blockStart,if_pos hbig]
    omega
  · have hbnd := blockStart_bounds h (not_lt.mp hbig)
    rw [blockSize,if_neg hbig]
    split_ifs <;> omega

theorem blockSize_lt (h : 1<n) (hc : c<n) : S.blockSize n c < n := by
  have hle := block_le (S := S) h hc
  have hpos := S.big_pos n h
  by_cases hbig : c<S.big n
  · rw [blockSize,if_pos hbig]
    exact S.big_lt n h
  · have hbnd := blockStart_bounds h (not_lt.mp hbig)
    omega

theorem block_eq (h : 1<n) (hlo : S.blockStart n c ≤ d)
    (hhi : d < S.blockStart n c+S.blockSize n c) :
    S.blockStart n d = S.blockStart n c ∧ S.blockSize n d = S.blockSize n c := by
  suffices hsta : S.blockStart n d = S.blockStart n c ∧ (d<S.big n ↔ c<S.big n) by
    rw [blockSize,blockSize,hsta.1]
    simp only [hsta.2,true_and]
  by_cases hbig : c<S.big n
  · rw [blockSize,if_pos hbig,blockStart,if_pos hbig,zero_add] at hhi
    rw [blockStart,blockStart,if_pos hhi,if_pos hbig]
    exact ⟨rfl,iff_of_true hhi hbig⟩
  · have hbnd := blockStart_bounds h (not_lt.mp hbig)
    have hsi : S.blockSize n c ≤ S.small n := by
      rw [blockSize,if_neg hbig]
      split_ifs <;> omega
    have hd : ¬ d<S.big n := by omega
    have hdiv : (d-S.big n)/S.small n = (c-S.big n)/S.small n := by
      rw [blockStart,if_neg hbig] at hlo hhi
      apply Nat.div_eq_of_lt_le
      · omega
      · rw [Nat.succ_mul]
        omega
    rw [blockStart,blockStart,if_neg hbig,if_neg hd,hdiv]
    exact ⟨rfl,iff_of_false hd hbig⟩

theorem mem_starts (h : 1<n) : d ∈ S.starts n ↔ d<n ∧ 0<d ∧ S.blockStart n d = d := by
  have hpos := S.big_pos n h
  have hsma := S.small_pos n h
  rw [starts,mem_filter,mem_map,decide_eq_true_iff]
  constructor
  · rintro ⟨⟨i,-,rfl⟩,hlt⟩
    refine ⟨hlt,by omega,?_⟩
    rw [blockStart,if_neg (by omega),Nat.add_sub_cancel_left,Nat.mul_div_cancel_left _ hsma,mul_comm]
  · rintro ⟨hlt,hd,heq⟩
    have hbig : ¬ d<S.big n := by
      intro hbig
      rw [blockStart,if_pos hbig] at heq
      omega
    refine ⟨⟨(d-S.big n)/S.small n,mem_range.mpr ?_,?_⟩,hlt⟩
    · have hcov := S.covers n h
      rw [Nat.div_lt_iff_lt_mul hsma,mul_comm]
      omega
    · rw [blockStart,if_neg hbig] at heq
      rw [mul_comm,heq]

end Blocks

def children (S : Splitting) (n : ℕ) : List ℕ :=
  if h : 1 < n then S.starts n ++ S.children (S.big n) else []
termination_by n
decreasing_by exact S.big_lt n h

/-- The length of the interval whose head a place becomes. -/
def size (S : Splitting) (n c : ℕ) : ℕ :=
  if h : 1 < n ∧ c < n ∧ 0 < c then S.size (S.blockSize n c) (c - S.blockStart n c) else n
termination_by n
decreasing_by exact blockSize_lt h.1 h.2.1

def parent (S : Splitting) (n c : ℕ) : ℕ :=
  if h : 1 < n ∧ c < n ∧ 0 < c then
    if S.blockStart n c = c then c else S.parent (S.blockSize n c) (c - S.blockStart n c)
  else 0
termination_by n
decreasing_by exact blockSize_lt h.1 h.2.1

/-- The number of splits until the head of an interval is alone. -/
def splits (S : Splitting) (n : ℕ) : ℕ := if h : 1 < n then S.splits (S.big n) + 1 else 0
termination_by n
decreasing_by exact S.big_lt n h

/-- The number of splits until a place is the head of an interval. -/
def arrival (S : Splitting) (n c : ℕ) : ℕ :=
  if h : 1 < n ∧ c < n ∧ 0 < c then
    S.arrival (S.blockSize n c) (c - S.blockStart n c) + 1
  else 0
termination_by n
decreasing_by exact blockSize_lt h.1 h.2.1

section Tree

variable {S} {n c d : ℕ}

theorem children_of_lt (h : 1<n) : S.children n = S.starts n ++ S.children (S.big n) := by
  rw [children,dif_pos h]

theorem children_ne_nil (h : 1<n) : S.children n ≠ [] := by
  have hmem : S.big n ∈ S.starts n := by
    refine (mem_starts h).mpr ⟨S.big_lt n h,S.big_pos n h,?_⟩
    rw [blockStart,if_neg (lt_irrefl _),Nat.sub_self,Nat.zero_div,zero_mul,add_zero]
  rw [children_of_lt h]
  exact ne_nil_of_mem (mem_append_left _ hmem)

theorem children_of_le (h : n≤1) : S.children n = [] := by
  rw [children,dif_neg (not_lt.mpr h)]

theorem size_zero : S.size n 0 = n := by
  rw [size,dif_neg fun h => absurd h.2.2 (lt_irrefl 0)]

theorem size_of_pos (hc : c<n) (h0 : 0 < c) :
    S.size n c = S.size (S.blockSize n c) (c-S.blockStart n c) := by
  rw [size,dif_pos ⟨by omega,hc,h0⟩]

theorem arrival_zero : S.arrival n 0 = 0 := by
  rw [arrival,dif_neg fun h => absurd h.2.2 (lt_irrefl 0)]

theorem arrival_of_pos (hc : c<n) (h0 : 0 < c) :
    S.arrival n c = S.arrival (S.blockSize n c) (c-S.blockStart n c)+1 := by
  rw [arrival,dif_pos ⟨by omega,hc,h0⟩]

theorem splits_of_lt (h : 1<n) : S.splits n = S.splits (S.big n)+1 := by
  rw [splits,dif_pos h]

theorem splits_of_le (h : n≤1) : S.splits n = 0 := by
  rw [splits,dif_neg (not_lt.mpr h)]

theorem parent_of_pos (hc : c<n) (h0 : 0 < c) :
    S.parent n c = if S.blockStart n c = c then c
      else S.parent (S.blockSize n c) (c-S.blockStart n c) := by
  rw [parent,dif_pos ⟨by omega,hc,h0⟩]

theorem add_size_le (hc : c<n) : c+S.size n c ≤ n := by
  induction n using Nat.strong_induction_on generalizing c with
  | _ n ih =>
    rcases eq_zero_or_pos c with rfl | h0
    · rw [size_zero]
      omega
    · have h : 1<n := by omega
      have hle := blockStart_le (S := S) (c := c) h
      have hlt := lt_block (S := S) h hc
      have hblo := block_le (S := S) h hc
      have hin := ih _ (blockSize_lt (S := S) h hc) (c := c-S.blockStart n c) (by omega)
      rw [size_of_pos hc h0]
      omega

theorem size_pos (hc : c<n) : 0 < S.size n c := by
  induction n using Nat.strong_induction_on generalizing c with
  | _ n ih =>
    rcases eq_zero_or_pos c with rfl | h0
    · rw [size_zero]
      exact hc
    · have h : 1<n := by omega
      have hle := blockStart_le (S := S) (c := c) h
      have hlt := lt_block (S := S) h hc
      rw [size_of_pos hc h0]
      exact ih _ (blockSize_lt (S := S) h hc) (by omega)

theorem mem_children_bounds (hd : d ∈ S.children n) : 0<d ∧ d<n := by
  induction n using Nat.strong_induction_on with
  | _ n ih =>
    by_cases h : 1<n
    · rw [children_of_lt h,mem_append] at hd
      rcases hd with hd | hd
      · obtain ⟨hlt,hpos,-⟩ := (mem_starts h).mp hd
        exact ⟨hpos,hlt⟩
      · obtain ⟨hpos,hlt⟩ := ih _ (S.big_lt n h) hd
        exact ⟨hpos,hlt.trans (S.big_lt n h)⟩
    · rw [children_of_le (not_lt.mp h)] at hd
      cases hd

theorem parent_bounds (hc : c<n) (h0 : 0 < c) : 0 < S.parent n c ∧ S.parent n c ≤ c := by
  induction n using Nat.strong_induction_on generalizing c with
  | _ n ih =>
    have h : 1<n := by omega
    have hle := blockStart_le (S := S) (c := c) h
    have hlt := lt_block (S := S) h hc
    rw [parent_of_pos hc h0]
    split_ifs with heq
    · exact ⟨h0,le_refl c⟩
    · obtain ⟨hpos,hle'⟩ := ih _ (blockSize_lt (S := S) h hc) (c := c-S.blockStart n c) (by omega)
        (by omega)
      exact ⟨hpos,by omega⟩

theorem mem_children_iff (hc : c<n) (hd : d<n) :
    (∃ o ∈ S.children (S.size n c), c+o=d) ↔ 0<d ∧ c+S.parent n d = d := by
  induction n using Nat.strong_induction_on generalizing c d with
  | _ n ih =>
    rcases eq_zero_or_pos d with rfl | hd0
    · refine iff_of_false ?_ fun h => absurd h.1 (lt_irrefl 0)
      rintro ⟨o,ho,heq⟩
      have hpos := (mem_children_bounds ho).1
      omega
    have h : 1<n := by omega
    have hsta := blockStart_le (S := S) (c := d) h
    have hlt := lt_block (S := S) h hd
    have hbig := S.big_lt n h
    rcases eq_zero_or_pos c with rfl | hc0
    · -- the children of the root: the starts of the blocks, and those in its own block
      have hmem : (∃ o ∈ S.children (S.size n 0), 0+o=d) ↔ d ∈ S.children n := by simp [size_zero]
      rw [hmem,children_of_lt h,mem_append,mem_starts h,parent_of_pos hd hd0]
      by_cases heq : S.blockStart n d=d
      · rw [if_pos heq]
        exact iff_of_true (.inl ⟨hd,hd0,heq⟩) ⟨hd0,zero_add d⟩
      rw [if_neg heq]
      by_cases hin : d<S.big n
      · have hblo : S.blockStart n d=0 := if_pos hin
        have hsi : S.blockSize n d = S.big n := if_pos hin
        have hrec := ih _ hbig (c := 0) (d := d) (by omega) hin
        simp only [size_zero,zero_add,exists_eq_right] at hrec
        rw [hsi,hblo,Nat.sub_zero,zero_add,hrec]
        exact ⟨fun h => h.resolve_left fun h => hd0.ne h.2.2,.inr⟩
      · have hbnd := blockStart_bounds h (not_lt.mp hin)
        have hpos := S.big_pos n h
        have hpar := parent_bounds (S := S) (n := S.blockSize n d) (c := d-S.blockStart n d)
          (by omega) (by omega)
        refine iff_of_false ?_ (by omega)
        rintro (⟨-,-,hwro⟩ | hwro)
        · exact heq hwro
        · exact hin (mem_children_bounds hwro).2
    · -- the children of another place are in its block
      have hcst := blockStart_le (S := S) (c := c) h
      have hclt := lt_block (S := S) h hc
      have hrec := ih _ (blockSize_lt (S := S) h hc) (c := c-S.blockStart n c)
        (d := d-S.blockStart n c) (by omega)
      rw [size_of_pos hc hc0]
      by_cases hin : S.blockStart n c≤d ∧ d<S.blockStart n c+S.blockSize n c
      · obtain ⟨hs,hl⟩ := block_eq h hin.1 hin.2
        have hrec := hrec (by omega)
        have hshi : (∃ o ∈ S.children (S.size (S.blockSize n c) (c-S.blockStart n c)),
            c+o=d) ↔ ∃ o ∈ S.children (S.size (S.blockSize n c) (c-S.blockStart n c)),
              c-S.blockStart n c+o = d-S.blockStart n c := by
          refine exists_congr fun o => and_congr_right fun _ => ?_
          omega
        rw [hshi,hrec,parent_of_pos hd hd0,hs,hl]
        split_ifs with heq
        · omega
        · omega
      · have hblo := block_le (S := S) h hd
        refine iff_of_false ?_ ?_
        · rintro ⟨o,ho,rfl⟩
          have hbou := (mem_children_bounds ho).2
          have hsi := add_size_le (S := S) (n := S.blockSize n c) (c := c-S.blockStart n c)
            (by omega)
          omega
        · rintro ⟨-,hpar⟩
          rw [parent_of_pos hd hd0] at hpar
          split_ifs at hpar with heq
          · omega
          · have hp := parent_bounds (S := S) (n := S.blockSize n d) (c := d-S.blockStart n d)
              (by omega) (by omega)
            obtain ⟨hs,hl⟩ := block_eq (S := S) (c := d) (d := c) h (by omega) (by omega)
            omega

end Tree

end Splitting

end PAMI.Math

import PAMI.Math.XorDigits

namespace PAMI.TspColl

open PAMI.Math Finset Nat

/-- `for (logMaxBF = 0; (1<<(logMaxBF+1)) <= size; logMaxBF++)` -/
def logMaxBF (size : ℕ) : ℕ := Nat.log2 size

def maxBF (size : ℕ) : ℕ := 2 ^ logMaxBF size

def nonBF (size : ℕ) : ℕ := size - maxBF size

/-- Whether there are rounds before and after the butterfly. -/
def folds (size : ℕ) : ℕ := if 0 < nonBF size then 1 else 0

def combineRounds (size : ℕ) : ℕ := folds size + logMaxBF size

def rounds (size : ℕ) : ℕ := combineRounds size + folds size

variable {size : ℕ}

theorem maxBF_le (h : 0 < size) : maxBF size ≤ size := log2_self_le h.ne'

theorem size_lt_two_mul_maxBF (size : ℕ) : size < 2*maxBF size := by
  rw [maxBF,← Nat.pow_succ']
  exact lt_log2_self

theorem folds_le (size : ℕ) : folds size ≤ 1 := by
  rw [folds]
  split <;> decide

variable {j : ℕ}

theorem nonBF_of_folds (h : j < folds size) : j=0 ∧ 0 < nonBF size := by
  rw [folds] at h
  split at h
  · exact ⟨lt_one_iff.mp h,‹_›⟩
  · exact absurd h (Nat.not_lt_zero j)

variable {N : ℕ} {b : Fin N} {x : ℕ}

def rankOf (N x : ℕ) : Option (Fin N) := if h : x < N then some ⟨x, h⟩ else none

theorem rankOf_eq_some : rankOf N x = some b ↔ x=b := by
  rw [rankOf]
  split
  case isTrue => rw [Option.some_inj,Fin.ext_iff]
  case isFalse h => exact iff_of_false (by simp) fun heq => h (heq ▸ b.isLt)

theorem rankOf_isSome (h : x<N) : rankOf N x = some ⟨x,h⟩ := dif_pos h

/-- To whom a rank sends in a round: a rank that is not in the butterfly to one that is; in the butterfly; and
back. -/
def roundDest (a : Fin N) (j : ℕ) : Option (Fin N) :=
  if j < folds N then if maxBF N ≤ a then rankOf N (a - maxBF N) else none
  else if j < combineRounds N then
    if (a : ℕ) < maxBF N then rankOf N (a ^^^ (1 <<< (j - folds N))) else none
  else if j < rounds N then if (a : ℕ) < nonBF N then rankOf N (a + maxBF N) else none
  else none

def roundSource (b : Fin N) (j : ℕ) : Option (Fin N) :=
  if j < folds N then if (b : ℕ) < nonBF N then rankOf N (b + maxBF N) else none
  else if j < combineRounds N then
    if (b : ℕ) < maxBF N then rankOf N (b ^^^ (1 <<< (j - folds N))) else none
  else if j < rounds N then if maxBF N ≤ b then rankOf N (b - maxBF N) else none
  else none

theorem rankOf_ite_eq_some {c : Prop} [Decidable c] :
    (if c then rankOf N x else none) = some b ↔ c ∧ x=b := by
  rw [Option.ite_none_right_eq_some,rankOf_eq_some]

theorem xor_lt_maxBF {a i : ℕ} (ha : a < maxBF N) (hi : i < logMaxBF N) : a ^^^ (1 <<< i) < maxBF N := by
  refine xor_lt_two_pow ha ?_
  rw [shiftLeft_eq,one_mul]
  exact Nat.pow_lt_pow_right (by decide) hi

theorem roundDest_iff {a : Fin N} : roundDest a j = some b ↔ roundSource b j = some a := by
  have hle := maxBF_le a.pos
  have ha := a.isLt
  have hb := b.isLt
  rw [roundDest,roundSource]
  split
  case isTrue =>
    rw [rankOf_ite_eq_some,rankOf_ite_eq_some,nonBF]
    omega
  case isFalse =>
    split
    case isTrue hbut =>
      rw [rankOf_ite_eq_some,rankOf_ite_eq_some]
      have hi : j-folds N < logMaxBF N := by
        rw [combineRounds] at hbut
        omega
      constructor
      · rintro ⟨hlt,heq⟩
        exact ⟨heq ▸ xor_lt_maxBF hlt hi,xor_eq_iff.mp heq.symm |>.symm⟩
      · rintro ⟨hlt,heq⟩
        exact ⟨heq ▸ xor_lt_maxBF hlt hi,xor_eq_iff.mp heq.symm |>.symm⟩
    case isFalse =>
      split
      case isTrue =>
        rw [rankOf_ite_eq_some,rankOf_ite_eq_some,nonBF]
        omega
      case isFalse => exact iff_of_false nofun nofun

theorem lt_rounds_of_roundDest {a : Fin N} (h : roundDest a j = some b) : j < rounds N := by
  rw [roundDest] at h
  split at h
  case isTrue => rw [rounds,combineRounds]; omega
  case isFalse =>
    split at h
    case isTrue => rw [rounds]; omega
    case isFalse =>
      split at h
      case isTrue hlt => exact hlt
      case isFalse => contradiction

theorem exists_roundSource {a : Fin N} (h : roundDest a j = some b) : ∃ i, roundSource a i = some b := by
  have hle := maxBF_le a.pos
  have ha := a.isLt
  have hb := b.isLt
  have hrnd := lt_rounds_of_roundDest h
  rw [roundDest] at h
  split at h
  case isTrue hfold =>
    obtain ⟨-,hnon⟩ := nonBF_of_folds hfold
    have hfol : folds N=1 := if_pos hnon
    rw [rankOf_ite_eq_some] at h
    refine ⟨combineRounds N,?_⟩
    rw [roundSource,if_neg (by rw [combineRounds]; omega),if_neg (lt_irrefl _),
      if_pos (by rw [rounds]; omega),rankOf_ite_eq_some]
    exact h
  case isFalse hfold =>
    split at h
    case isTrue hbut =>
      refine ⟨j,?_⟩
      rw [roundSource,if_neg hfold,if_pos hbut]
      exact h
    case isFalse hla =>
      rw [rankOf_ite_eq_some] at h
      refine ⟨0,?_⟩
      have hfol : 0<folds N := by
        rw [rounds] at hrnd
        omega
      rw [roundSource,if_pos hfol,rankOf_ite_eq_some]
      exact h

section

variable {r a : Fin N} {q : ℕ} (hq : combineRounds N ≤ q) (h : roundSource r q = some a)
include hq h

theorem rebroadcast_round : q = combineRounds N ∧ maxBF N ≤ r := by
  have hfol := folds_le N
  have hrnd := lt_rounds_of_roundDest (roundDest_iff.mpr h)
  have hla := hq
  rw [combineRounds] at hla
  rw [roundSource,if_neg (by omega),if_neg (not_lt.mpr hq),if_pos hrnd,rankOf_ite_eq_some] at h
  rw [rounds] at hrnd
  exact ⟨by omega,h.1⟩

theorem sent_of_rebroadcast : 0<q ∧ roundSource a 0 = some r ∧ ∀ j b, roundDest r j = some b → j=0 := by
  have hr := r.isLt
  have hsi := size_lt_two_mul_maxBF N
  have hrnd := lt_rounds_of_roundDest (roundDest_iff.mpr h)
  have hfol : 0<folds N := by
    rw [rounds] at hrnd
    omega
  rw [combineRounds] at hq
  rw [roundSource,if_neg (by omega),if_neg (by rw [combineRounds]; omega),if_pos hrnd,rankOf_ite_eq_some] at h
  refine ⟨by omega,?_,fun j b hb => ?_⟩
  · rw [roundSource,if_pos hfol,rankOf_ite_eq_some,nonBF]
    omega
  · rw [roundDest] at hb
    split at hb
    case isTrue hfold => exact (nonBF_of_folds hfold).1
    case isFalse =>
      split at hb
      case isTrue =>
        obtain ⟨hlt,-⟩ := rankOf_ite_eq_some.mp hb
        omega
      case isFalse =>
        split at hb
        case isTrue =>
          obtain ⟨hlt,-⟩ := rankOf_ite_eq_some.mp hb
          rw [nonBF] at hlt
          omega
        case isFalse => contradiction

end

def combines (r : Fin N) (phase : ℕ) : Prop := phase < folds N ∧ (r : ℕ) < nonBF N ∨
    folds N ≤ phase ∧ phase < combineRounds N ∧ (r : ℕ) < maxBF N

instance (r : Fin N) (phase : ℕ) : Decidable (combines r phase) := inferInstanceAs (Decidable (_ ∨ _))

theorem combines_iff {r : Fin N} {p : ℕ} :
    combines r p ↔ p < combineRounds N ∧ (roundSource r p).isSome=true := by
  have hle := maxBF_le r.pos
  rw [combines,roundSource]
  split
  case isTrue hfold =>
    have hcom : p < combineRounds N := by
      rw [combineRounds]
      omega
    split
    case isTrue hin =>
      rw [rankOf_isSome (by rw [nonBF] at hin; omega)]
      exact iff_of_true (.inl ⟨hfold,hin⟩) ⟨hcom,rfl⟩
    case isFalse hout => exact iff_of_false (by omega) (by simp)
  case isFalse hfold =>
    split
    case isTrue hbut =>
      split
      case isTrue hin =>
        have hi : p-folds N < logMaxBF N := by
          rw [combineRounds] at hbut
          omega
        rw [rankOf_isSome ((xor_lt_maxBF hin hi).trans_le hle)]
        exact iff_of_true (.inr ⟨not_lt.mp hfold,hbut,hin⟩) ⟨hbut,rfl⟩
      case isFalse hout => exact iff_of_false (by omega) (by simp)
    case isFalse hla => exact iff_of_false (by omega) (by omega)

theorem lt_maxBF_of_combines {r : Fin N} {p : ℕ} (h : combines r p) : (r : ℕ) < maxBF N := by
  obtain ⟨-,hr⟩ | ⟨-,-,hr⟩ := h
  · have hsi := size_lt_two_mul_maxBF N
    rw [nonBF] at hr
    omega
  · exact hr

section Sums

variable {M : Type*} [AddCommMonoid M] (w : ℕ → M) {a : Fin N}

/-- The value of a rank of the butterfly and of the rank that it takes part for. -/
def folded (size : ℕ) (w : ℕ → M) (r : ℕ) : M := w r + if r < nonBF size then w (r + maxBF size) else 0

theorem sum_folded (h : 0 < size) : ∑ r ∈ range (maxBF size), folded size w r = ∑ r ∈ range size, w r := by
  have hle := maxBF_le h
  have hlt := size_lt_two_mul_maxBF size
  have hots : ∑ r ∈ range (maxBF size), (if r<nonBF size then w (r+maxBF size) else 0) =
      ∑ r ∈ range (nonBF size), w (maxBF size+r) := by
    rw [← sum_filter]
    have hfil : {r ∈ range (maxBF size) | r<nonBF size} = range (nonBF size) := by
      ext r
      rw [mem_filter,mem_range,mem_range,nonBF]
      omega
    rw [hfil]
    apply sum_congr rfl
    intro r _
    rw [add_comm]
  simp only [folded]
  rw [sum_add_distrib,hots,← sum_range_add,nonBF,Nat.add_sub_cancel' hle]

theorem blockSum_butterfly {a : ℕ} (ha : a < maxBF size) (h : 0 < size) :
    blockSum (folded size w) (maxBF size) (logMaxBF size) a = ∑ r ∈ range size, w r := by
  rw [← sum_folded w h]
  exact blockSum_all _ le_rfl ha

def held (size : ℕ) (w : ℕ → M) (a j : ℕ) : M :=
  if a < maxBF size then
    if j < folds size then w a
    else blockSum (folded size w) (maxBF size) (min (j - folds size) (logMaxBF size)) a
  else if j ≤ combineRounds size then w a
  else ∑ r ∈ range size, w r

theorem held_zero (a : Fin N) : held N w a 0 = w a := by
  rw [held]
  split
  case isTrue hlt =>
    split
    case isTrue => rfl
    case isFalse hno =>
      have hnon : ¬ 0<nonBF N := fun hpos => hno (by rw [folds,if_pos hpos]; decide)
      rw [Nat.zero_sub,Nat.zero_min,blockSum_zero _ hlt,folded,if_neg (by omega),add_zero]
  case isFalse => rw [if_pos (zero_le _)]

theorem held_combine (hj : j < combineRounds N) (h : roundSource a j = some b) :
    held N w a (j+1) = held N w a j+held N w b j := by
  rw [roundSource] at h
  split at h
  case isTrue hfold =>
    obtain ⟨rfl,hnon⟩ := nonBF_of_folds hfold
    obtain ⟨ha,hb⟩ := rankOf_ite_eq_some.mp h
    have hfol : folds N=1 := if_pos hnon
    have hlt : (a : ℕ) < maxBF N := by
      have := size_lt_two_mul_maxBF N
      rw [nonBF] at ha
      omega
    have hge : ¬ (b : ℕ) < maxBF N := by omega
    rw [held,held,held,if_pos hlt,if_pos hlt,if_neg hge,if_neg (by omega),if_pos hfold,
      if_pos (zero_le _),hfol,zero_add,Nat.sub_self,Nat.zero_min,blockSum_zero _ hlt,
      folded,if_pos ha,hb]
  case isFalse hfold =>
    obtain ⟨ha,hb⟩ := rankOf_ite_eq_some.mp h
    have hi : j-folds N < logMaxBF N := by
      rw [combineRounds] at hj
      omega
    have hlt : (b : ℕ) < maxBF N := hb ▸ xor_lt_maxBF ha hi
    rw [held,held,held,if_pos ha,if_pos ha,if_pos hlt,if_neg (by omega),if_neg hfold,
      if_neg hfold,succ_sub (not_lt.mp hfold),min_eq_left hi,min_eq_left hi.le,← hb,
      blockSum_digit _ _ _ 1 _]
    simp [sum_range_succ]

theorem held_rebroadcast (hj : combineRounds N ≤ j) (h : roundSource a j = some b) :
    held N w a (j+1) = held N w b j := by
  have hrnd := lt_rounds_of_roundDest (roundDest_iff.mpr h)
  rw [roundSource,if_neg (by rw [combineRounds] at hj; omega),if_neg (not_lt.mpr hj),if_pos hrnd] at h
  obtain ⟨ha,hb⟩ := rankOf_ite_eq_some.mp h
  have hlt : (b : ℕ) < maxBF N := by
    have := size_lt_two_mul_maxBF N
    omega
  rw [held,held,if_neg (not_lt.mpr ha),if_neg (by omega),if_pos hlt,if_neg (by rw [combineRounds] at hj; omega),
    min_eq_right (by rw [combineRounds] at hj; omega),blockSum_butterfly w hlt a.pos]

theorem held_keep (hj : j < rounds N) (h : roundSource a j = none) : held N w a (j+1) = held N w a j := by
  have ha := a.isLt
  have hsi := size_lt_two_mul_maxBF N
  rw [roundSource] at h
  by_cases hlt : (a : ℕ) < maxBF N
  · rw [held,held,if_pos hlt,if_pos hlt]
    split at h
    case isTrue hfold =>
      obtain ⟨rfl,hnon⟩ := nonBF_of_folds hfold
      have hfol : folds N=1 := if_pos hnon
      have hout : ¬ (a : ℕ)<nonBF N := fun hin => by
        rw [if_pos hin,rankOf_isSome (by rw [nonBF] at hin; omega)] at h
        contradiction
      rw [if_neg (by omega),if_pos hfold,hfol,zero_add,Nat.sub_self,Nat.zero_min,
        blockSum_zero _ hlt,folded,if_neg hout,add_zero]
    case isFalse hfold =>
      have hend : combineRounds N≤j := by
        by_contra hbut
        have hi : j-folds N < logMaxBF N := by
          rw [combineRounds] at hbut
          omega
        rw [if_pos (not_le.mp hbut),rankOf_isSome ((xor_lt_maxBF hlt hi).trans_le (maxBF_le a.pos))] at h
        contradiction
      rw [combineRounds] at hend
      rw [if_neg (by omega),if_neg hfold,min_eq_right (by omega),min_eq_right (by omega)]
  · have hear : j < combineRounds N := by
      by_contra hend
      rw [if_neg (by rw [combineRounds] at hend; omega),if_neg hend,if_pos hj,if_pos (not_lt.mp hlt),
        rankOf_isSome (by omega)] at h
      contradiction
    rw [held,held,if_neg hlt,if_neg hlt,if_pos (succ_le_of_lt hear),if_pos hear.le]

theorem held_rounds (a : Fin N) : held N w a (rounds N) = ∑ r ∈ range N, w r := by
  rw [held]
  split
  case isTrue hlt =>
    rw [if_neg (by rw [rounds,combineRounds]; omega),
      min_eq_right (by rw [rounds,combineRounds]; omega),blockSum_butterfly w hlt a.pos]
  case isFalse hge =>
    have hnon : 0<nonBF N := by
      have := a.isLt
      rw [nonBF]
      omega
    have hfol : folds N=1 := if_pos hnon
    rw [if_neg (by rw [rounds,hfol]; omega)]

end Sums

end PAMI.TspColl

import Mathlib.Algebra.BigOperators.Intervals
import Mathlib.Algebra.Order.BigOperators.Group.Finset
import PAMI.Common.Indexing

namespace PAMI.Common

open Function List Nat Finset

variable {T : ℕ → ℕ} {L U C c : Coord}

theorem ring_sub {k a b : ℕ} (ha : a<k) (hb : b<k) :
    (k+a-b)%k = if b≤a then a-b else k+a-b := by
  split
  · rename_i h
    rw [show k+a-b=k+(a-b) by omega,add_mod_left,mod_eq_of_lt (by omega)]
  · exact mod_eq_of_lt (by omega)

theorem wordSub_of_le {w a b : ℕ} (h : b≤a) (ha : a<2^w) : wordSub w a b = a-b := by
  rw [wordSub,Nat.add_sub_assoc h,add_mod_left,mod_eq_of_lt (by omega)]

theorem wordSub_of_lt {w a b : ℕ} (h : a<b) (hb : b≤2^w) : wordSub w a b = 2^w+a-b := mod_eq_of_lt (by omega)

theorem size_le_of_injOn {N : ℕ} {f : ℕ → ℕ} {s : ℕ} (hlt : ∀ i < s, f i < N) (hinj : Set.InjOn f (Set.Iio s)) :
    s≤N := by
  have hcard := card_le_card_of_injOn (s := Finset.range s) (t := Finset.range N) f
    (fun i hi => by
      rw [mem_coe,Finset.mem_range] at hi
      exact mem_coe.2 (Finset.mem_range.2 (hlt i hi)))
    (by simpa [Set.Iio_def] using hinj)
  simpa using hcard

/-- The corners and the center are in the machine, and the arms of dimension `x` are apart. -/
structure Arms (T : ℕ → ℕ) (L U C : Coord) (x : ℕ) : Prop where
  ll : L x < T x
  ur : U x < T x
  center : C x < T x
  apart : upArm T U C x + downArm T L C x < T x

/-- The number of tasks on the arms of dimension `x`. -/
def armSize (T : ℕ → ℕ) (L U C : Coord) (x : ℕ) : ℕ := upArm T U C x + downArm T L C x

/-- The number of tasks on the arms of the dimensions before `x`. -/
def armStart (T : ℕ → ℕ) (L U C : Coord) (x : ℕ) : ℕ := ∑ y ∈ Finset.range x, armSize T L U C y

/-- The coordinate of the task at place `j` of the arms of dimension `x`. -/
def armAt (T : ℕ → ℕ) (U C : Coord) (x j : ℕ) : ℕ :=
  if j ≤ upArm T U C x then (C x + j) % T x else (T x + C x - (j - upArm T U C x)) % T x

/-- What `rank2Index` adds up for the dimensions before `x`, and for a coordinate in `x`. -/
def indexStart (L U : Coord) (x : ℕ) : ℕ := ∑ y ∈ Finset.range x, wordSub 32 (U y) (L y)

def indexAt (U C : Coord) (x v : ℕ) : ℕ :=
  if C x < v then v - C x else wordSub 64 (U x) (C x) + (C x - v)

theorem armStart_succ (x : ℕ) :
    armStart T L U C (x+1) = armStart T L U C x+armSize T L U C x := Finset.sum_range_succ _ _

theorem armStart_mono {x y : ℕ} (h : x≤y) : armStart T L U C x ≤ armStart T L U C y :=
  sum_le_sum_of_subset (range_mono h)

theorem indexStart_succ (x : ℕ) :
    indexStart L U (x+1) = indexStart L U x+wordSub 32 (U x) (L x) := Finset.sum_range_succ _ _

section Arm

variable {x : ℕ} (h : Arms T L U C x)
include h

theorem Arms.up_eq : upArm T U C x = if C x ≤ U x then U x-C x else T x+U x-C x := ring_sub h.ur h.center

theorem Arms.down_eq : downArm T L C x = if L x ≤ C x then C x-L x else T x+C x-L x := ring_sub h.center h.ll

theorem Arms.size_eq : (T x+U x-L x)%T x = armSize T L U C x := by
  have hu := h.up_eq
  have hd := h.down_eq
  have ha := h.apart
  have := h.ll
  have := h.ur
  have := h.center
  rw [ring_sub h.ur h.ll,armSize]
  split_ifs at * <;> omega

theorem Arms.size_lt : armSize T L U C x < T x := h.apart

theorem Arms.armAt_lt (j : ℕ) : armAt T U C x j < T x := by
  have : 0<T x := by have := h.ll; omega
  unfold armAt
  split <;> exact mod_lt _ this

theorem Arms.armAt_eq {j : ℕ} (hj : j ≤ armSize T L U C x) :
    armAt T U C x j = if j ≤ upArm T U C x then
        (if C x+j < T x then C x+j else C x+j-T x)
      else if j-upArm T U C x ≤ C x then C x-(j-upArm T U C x)
        else T x+C x-(j-upArm T U C x) := by
  have hc := h.center
  have hs := h.size_lt
  unfold armAt
  split
  · split
    · rename_i h1; exact mod_eq_of_lt h1
    · rw [mod_eq_sub_mod (by omega),mod_eq_of_lt (by omega)]
  · split
    · rw [show T x+C x-(j-upArm T U C x) = T x+(C x-(j-upArm T U C x)) by omega,
        add_mod_left,mod_eq_of_lt (by omega)]
    · exact mod_eq_of_lt (by omega)

theorem Arms.armAt_ne {j : ℕ} (hj : 1≤j) (hj' : j ≤ armSize T L U C x) :
    armAt T U C x j ≠ C x := by
  have hc := h.center
  have hs := h.size_lt
  rw [h.armAt_eq hj']
  split_ifs <;> omega

theorem Arms.armAt_inj {j k : ℕ} (hj : j ≤ armSize T L U C x) (hk : k ≤ armSize T L U C x)
    (heq : armAt T U C x j = armAt T U C x k) : j=k := by
  have hc := h.center
  have hs := h.size_lt
  rw [h.armAt_eq hj,h.armAt_eq hk] at heq
  by_cases hj1 : j≤upArm T U C x
  · rw [if_pos hj1] at heq
    by_cases hk1 : k≤upArm T U C x
    · rw [if_pos hk1] at heq
      split_ifs at heq <;> omega
    · rw [if_neg hk1] at heq
      split_ifs at heq <;> omega
  · rw [if_neg hj1] at heq
    by_cases hk1 : k≤upArm T U C x
    · rw [if_pos hk1] at heq
      split_ifs at heq <;> omega
    · rw [if_neg hk1] at heq
      split_ifs at heq <;> omega

theorem Arms.armAt_on {j : ℕ} (hj : j ≤ armSize T L U C x) (hc : c x = armAt T U C x j) :
    upArm T c C x ≤ upArm T U C x ∨ downArm T c C x ≤ downArm T L C x := by
  have hlt := h.armAt_lt j
  have hcl := h.center
  have hs := h.size_lt
  rw [← hc] at hlt
  have hup : upArm T c C x = if C x ≤ c x then c x-C x else T x+c x-C x := ring_sub hlt hcl
  have hdn : downArm T c C x = if c x ≤ C x then C x-c x else T x+C x-c x := ring_sub hcl hlt
  rw [h.armAt_eq hj] at hc
  rw [armSize] at hj hs
  by_cases hj1 : j≤upArm T U C x
  · rw [if_pos hj1] at hc
    left
    split_ifs at hc hup <;> omega
  · rw [if_neg hj1] at hc
    right
    split_ifs at hc hdn <;> omega

end Arm

theorem axialOfIndex_at (k a ix : ℕ) {x j : ℕ} (hx : a≤x) (hxk : x<a+k) (hj : 1≤j)
    (hj' : j ≤ armSize T L U C x) (hix : ix+armStart T L U C a = armStart T L U C x+j) :
    axialOfIndex T L U C (List.range' a k) ix = update C x (armAt T U C x j) := by
  induction k generalizing a ix with
  | zero => omega
  | succ k ih =>
    have hmono := armStart_mono (T := T) (L := L) (U := U) (C := C) hx
    rw [range'_succ,axialOfIndex,if_neg (by omega)]
    change (if ix≤upArm T U C a then _ else if ix-upArm T U C a ≤ downArm T L C a then _ else _) = _
    by_cases hax : a=x
    · subst hax
      obtain rfl : ix=j := by omega
      unfold armAt
      split
      · rfl
      · rw [armSize] at hj'
        rw [if_pos (by omega)]
        rfl
    · have hmono' := armStart_mono (T := T) (L := L) (U := U) (C := C) (show a+1≤x by omega)
      rw [armStart_succ] at hmono'
      have hs : armSize T L U C a = upArm T U C a+downArm T L C a := rfl
      rw [if_neg (by omega),if_neg (by omega)]
      refine ih (a+1) _ (by omega) (by omega) ?_
      rw [armStart_succ]
      simp only [upArm,downArm] at hs ⊢
      omega

theorem indexOfAxial_at (k a : ℕ) {x : ℕ} (hx : a≤x) (hxk : x<a+k)
    (hc : ∀ y, a≤y → y<x → c y = C y) (hcx : c x ≠ C x) :
    indexOfAxial L U C c (List.range' a k) (indexStart L U a%2^64) =
      (indexStart L U x+indexAt U C x (c x))%2^64 := by
  induction k generalizing a with
  | zero => omega
  | succ k ih =>
    rw [range'_succ,indexOfAxial]
    by_cases hax : a=x
    · subst hax
      rw [if_neg hcx,indexAt]
      split_ifs <;> rw [mod_add_mod]
    · rw [if_pos (hc a le_rfl (by omega)),mod_add_mod,← indexStart_succ]
      exact ih (a+1) (by omega) (by omega) fun y hy hyx => hc y (by omega) hyx

theorem indexOfAxial_center (xs : List ℕ) (ix : ℕ) (hc : ∀ x ∈ xs, c x = C x) :
    indexOfAxial L U C c xs ix = 0 := by
  induction xs generalizing ix with
  | nil => rfl
  | cons x xs ih =>
    rw [indexOfAxial,if_pos (hc x (List.mem_cons_self ..))]
    exact ih _ fun y hy => hc y (List.mem_cons_of_mem _ hy)

theorem exists_arm (d : ℕ) {ix : ℕ} (h0 : ix≠0) (h : ix ≤ armStart T L U C d) :
    ∃ x<d, ∃ j, 1≤j ∧ j ≤ armSize T L U C x ∧ ix = armStart T L U C x+j := by
  induction d with
  | zero => simp [armStart] at h; omega
  | succ d ih =>
    by_cases hd : ix≤armStart T L U C d
    · obtain ⟨x,hx,hj⟩ := ih hd
      exact ⟨x,by omega,hj⟩
    · rw [armStart_succ] at h
      exact ⟨d,by omega,ix-armStart T L U C d,by omega,by omega,by omega⟩

/-- No arm of dimension `x` crosses the end of the ring. -/
def NoWrap (L U C : Coord) (x : ℕ) : Prop := L x ≤ C x ∧ C x ≤ U x

def FullRing (T : ℕ → ℕ) (L U C : Coord) (x : ℕ) : Prop := C x = 0 ∧ U x + 2 = T x ∧ L x + 1 = T x

section Places

variable {x j : ℕ} (h : Arms T L U C x)
include h

theorem Arms.indexAt_noWrap (hw : NoWrap L U C x) (hsma : T x < 2^32) (hj : 1≤j)
    (hj' : j ≤ armSize T L U C x) : indexAt U C x (armAt T U C x j)%2^64 = j := by
  have hu := h.up_eq
  have hd := h.down_eq
  have hur := h.ur
  rw [if_pos hw.2] at hu
  rw [if_pos hw.1] at hd
  have hs : armSize T L U C x = upArm T U C x+downArm T L C x := rfl
  obtain ⟨hlo,hle⟩ := hw
  have hpla : indexAt U C x (armAt T U C x j)=j := by
    by_cases hj1 : j≤upArm T U C x
    · have harm : armAt T U C x j = C x+j := by rw [h.armAt_eq hj',if_pos hj1,if_pos (by omega)]
      rw [harm,indexAt,if_pos (by omega),Nat.add_sub_cancel_left]
    · have harm : armAt T U C x j = C x-(j-upArm T U C x) := by rw [h.armAt_eq hj',if_neg hj1,if_pos (by omega)]
      rw [harm,indexAt,if_neg (by omega),wordSub_of_le hle (hur.trans (hsma.trans (by decide)))]
      omega
  rw [hpla]
  exact mod_eq_of_lt (by omega)

theorem Arms.indexAt_fullRing (hw : FullRing T L U C x) (hsma : T x < 2^32) (hj : 1≤j)
    (hj' : j ≤ armSize T L U C x) : indexAt U C x (armAt T U C x j)%2^64 = j := by
  obtain ⟨h1,h2,h3⟩ := hw
  have hu := h.up_eq
  have hd := h.down_eq
  rw [if_pos (by omega)] at hu
  rw [if_neg (by omega)] at hd
  have hs : armSize T L U C x = upArm T U C x+downArm T L C x := rfl
  have hpla : indexAt U C x (armAt T U C x j)=j := by
    by_cases hj1 : j≤upArm T U C x
    · have harm : armAt T U C x j = C x+j := by rw [h.armAt_eq hj',if_pos hj1,if_pos (by omega)]
      rw [harm,indexAt,if_pos (by omega),Nat.add_sub_cancel_left]
    · have harm : armAt T U C x j = T x+C x-(j-upArm T U C x) := by
        rw [h.armAt_eq hj',if_neg hj1,if_neg (by omega)]
      rw [harm,indexAt,if_pos (by omega)]
      omega
  rw [hpla]
  exact mod_eq_of_lt (by omega)

theorem Arms.wordSub_noWrap (hw : NoWrap L U C x) (hsma : T x < 2^32) :
    wordSub 32 (U x) (L x) = armSize T L U C x := by
  have hu := h.up_eq
  have hd := h.down_eq
  have hur := h.ur
  rw [if_pos hw.2] at hu
  rw [if_pos hw.1] at hd
  obtain ⟨hlo,hle⟩ := hw
  rw [wordSub_of_le (hlo.trans hle) (hur.trans hsma),armSize]
  omega

theorem Arms.noWrap_or (hsma : T x < 2^32) {e : ℕ} (he : e<2^32)
    (hall : ∀ j, 1≤j → j ≤ armSize T L U C x → (e+indexAt U C x (armAt T U C x j))%2^64=e+j) :
    NoWrap L U C x ∨ C x < L x ∧ C x ≤ U x ∧ L x+1 = T x ∧ U x+C x+2 = T x := by
  have hu := h.up_eq
  have hd := h.down_eq
  have hur := h.ur
  have hll := h.ll
  have hc := h.center
  have hap := h.apart
  have hs : armSize T L U C x = upArm T U C x+downArm T L C x := rfl
  by_cases hup : C x ≤ U x
  · by_cases hdn : L x ≤ C x
    · exact Or.inl ⟨hdn,hup⟩
    · rw [if_pos hup] at hu
      rw [if_neg hdn] at hd
      -- the end of the arm towards `ll`, and the task before it
      have harm : armAt T U C x (armSize T L U C x) = L x := by
        rw [h.armAt_eq le_rfl,if_neg (by omega),if_neg (by omega)]; omega
      have hend := hall (armSize T L U C x) (by omega) le_rfl
      rw [harm,indexAt,if_pos (by omega),mod_eq_of_lt (by omega)] at hend
      have hla : L x+1 = T x := by
        by_contra hne
        have harm : armAt T U C x (armSize T L U C x-1) = L x+1 := by
          rw [h.armAt_eq (by omega),if_neg (by omega),if_neg (by omega)]; omega
        have hbef := hall (armSize T L U C x-1) (by omega) (by omega)
        rw [harm,indexAt,if_pos (by omega),mod_eq_of_lt (by omega)] at hbef
        omega
      exact Or.inr ⟨by omega,hup,hla,by omega⟩
  · rw [if_neg hup] at hu
    -- the end of the arm towards `ur` is taken for the center
    have harm : armAt T U C x (upArm T U C x) = U x := by
      rw [h.armAt_eq (by omega),if_pos le_rfl,if_neg (by omega)]; omega
    have hend := hall (upArm T U C x) (by omega) (by omega)
    rw [harm,indexAt,if_neg (by omega),wordSub_of_lt (by omega) (by omega),
      show e+(2^64+U x-C x+(C x-U x))=e+2^64 by omega,add_mod_right,mod_eq_of_lt (by omega)] at hend
    omega

end Places

namespace Mapping.Bijective

variable {m : Mapping} {n x y : ℕ}

theorem update_lt {v : ℕ} (hC : ∀ z < m.globalDims, C z < m.torusSize z) (hv : v < m.torusSize x) :
    ∀ z < m.globalDims, update C x v z < m.torusSize z := by
  intro z hz
  by_cases hzx : z=x
  · subst hzx; rwa [update_self]
  · rw [update_of_ne hzx]; exact hC z hz

theorem coords_eq (hm : m.Bijective n) {c c' : Coord}
    (hc : ∀ z < m.globalDims, c z < m.torusSize z)
    (hc' : ∀ z < m.globalDims, c' z < m.torusSize z)
    (h : m.network2task c = m.network2task c') : ∀ z < m.globalDims, c z = c' z := by
  intro z hz
  rw [← hm.right c hc z hz,h,hm.right c' hc' z hz]

section

variable (hm : m.Bijective n) (hC : ∀ z < m.globalDims, C z < m.torusSize z) (hx : x < m.globalDims)
include hm hC hx

theorem torus_mul_le (hy : y < m.globalDims) (hxy : x≠y) : m.torusSize x*m.torusSize y ≤ n := by
  have hlt : ∀ v < m.torusSize x, ∀ u < m.torusSize y, ∀ z < m.globalDims,
      update (update C x v) y u z < m.torusSize z :=
    fun v hv u hu => update_lt (update_lt hC hv) hu
  have hcard := card_le_card_of_injOn
    (s := Finset.range (m.torusSize x) ×ˢ Finset.range (m.torusSize y)) (t := Finset.range n)
    (fun p => m.network2task (update (update C x p.1) y p.2))
    (fun p hp => by
      rw [mem_coe,Finset.mem_product,Finset.mem_range,Finset.mem_range] at hp
      exact mem_coe.2 (Finset.mem_range.2 (hm.task _ (hlt _ hp.1 _ hp.2))))
    (fun p hp p' hp' he => by
      rw [mem_coe,Finset.mem_product,Finset.mem_range,Finset.mem_range] at hp hp'
      have hagr := hm.coords_eq (hlt _ hp.1 _ hp.2) (hlt _ hp'.1 _ hp'.2) he
      have h1 := hagr x hx
      have h2 := hagr y hy
      simp only [update_of_ne hxy,update_self] at h1 h2
      exact Prod.ext h1 h2)
  simpa using hcard

theorem torus_le : m.torusSize x ≤ n := by
  refine size_le_of_injOn (fun v hv => hm.task _ (update_lt hC hv)) fun v hv v' hv' he => ?_
  have h1 := hm.coords_eq (update_lt hC hv) (update_lt hC hv') he x hx
  simpa only [update_self] using h1

end

end Mapping.Bijective

namespace Topology

variable {m : Mapping} {n : ℕ} {t : Topology}

/-- An axial neighborhood of a machine. -/
structure IsAxial (m : Mapping) (n : ℕ) (t : Topology) (L U C : Coord) : Prop where
  bij : m.Bijective n
  context : t.allContexts = false
  type : t.type = .AXIAL L U C
  arms : ∀ x < m.globalDims, Arms m.torusSize L U C x
  size : t.size = 1 + armStart m.torusSize L U C m.globalDims

theorem Valid.isAxial (hm : m.Bijective n) (ht : t.Valid m n) (hk : t.type = .AXIAL L U C) :
    IsAxial m n t L U C := by
  have hv := ht.2
  rw [hk] at hv
  have harms : ∀ x < m.globalDims, Arms m.torusSize L U C x := fun x hx =>
    ⟨(hv.1 x hx).1,(hv.1 x hx).2.1,(hv.1 x hx).2.2.1,(hv.1 x hx).2.2.2⟩
  refine ⟨hm,ht.1,hk,harms,?_⟩
  rw [hv.2,armStart,sum_congr rfl fun x hx => (harms x (Finset.mem_range.1 hx)).size_eq]

namespace IsAxial

variable (h : IsAxial m n t L U C) {x j ix r : ℕ}
include h

theorem center_lt : ∀ z < m.globalDims, C z < m.torusSize z := fun z hz => (h.arms z hz).center

theorem small (hx : x < m.globalDims) : m.torusSize x < 2^32 := (h.bij.torus_le h.center_lt hx).trans_lt h.bij.small

theorem index2Rank_eq (hix : ix<t.size) : t.index2Rank m ix =
    m.network2task (axialOfIndex m.torusSize L U C (List.range m.globalDims) ix) := by
  simp [index2Rank,h.context,hix,h.type]

theorem rank2Index_eq (r : ℕ) : t.rank2Index m r =
    indexOfAxial L U C (m.task2network r) (List.range m.globalDims) 0 := by
  simp only [rank2Index,h.type]

theorem arm_lt (hx : x < m.globalDims) :
    ∀ z < m.globalDims, update C x (armAt m.torusSize U C x j) z < m.torusSize z :=
  Mapping.Bijective.update_lt h.center_lt ((h.arms x hx).armAt_lt j)

theorem place_lt (hx : x < m.globalDims) (hj : j ≤ armSize m.torusSize L U C x) :
    armStart m.torusSize L U C x+j < t.size := by
  have := armStart_mono (T := m.torusSize) (L := L) (U := U) (C := C)
    (show x+1 ≤ m.globalDims by omega)
  rw [armStart_succ] at this
  rw [h.size]
  omega

theorem exists_place (h0 : ix≠0) (hix : ix<t.size) :
    ∃ x < m.globalDims, ∃ j, 1≤j ∧ j ≤ armSize m.torusSize L U C x ∧ ix = armStart m.torusSize L U C x+j := by
  rw [h.size] at hix
  exact exists_arm m.globalDims h0 (by omega)

theorem index2Rank_arm (hx : x < m.globalDims) (hj : 1≤j)
    (hj' : j ≤ armSize m.torusSize L U C x) :
    t.index2Rank m (armStart m.torusSize L U C x+j) = m.network2task (update C x (armAt m.torusSize U C x j)) := by
  rw [h.index2Rank_eq (h.place_lt hx hj'),range_eq_range',
    axialOfIndex_at m.globalDims 0 _ (zero_le x) (by omega) hj hj' (by simp [armStart])]

theorem index2Rank_center : t.index2Rank m 0 = m.network2task C := by
  rw [h.index2Rank_eq (by rw [h.size]; omega)]
  cases hd : List.range m.globalDims <;> simp [axialOfIndex]

theorem rank2Index_at (hx : x < m.globalDims)
    (hc : ∀ y<x, m.task2network r y = C y) (hcx : m.task2network r x ≠ C x) :
    t.rank2Index m r = (indexStart L U x+indexAt U C x (m.task2network r x))%2^64 := by
  have := indexOfAxial_at (L := L) (U := U) m.globalDims 0 (zero_le x) (by omega)
    (fun y _ hy => hc y hy) hcx
  rw [h.rank2Index_eq,range_eq_range',← this]
  simp [indexStart]

theorem rank2Index_arm (hx : x < m.globalDims) (hj : 1≤j)
    (hj' : j ≤ armSize m.torusSize L U C x) :
    t.rank2Index m (t.index2Rank m (armStart m.torusSize L U C x+j)) =
      (indexStart L U x+indexAt U C x (armAt m.torusSize U C x j))%2^64 := by
  have hcoo := h.bij.right _ (h.arm_lt (j := j) hx)
  rw [h.index2Rank_arm hx hj hj']
  have hse : m.task2network
      (m.network2task (update C x (armAt m.torusSize U C x j))) x = armAt m.torusSize U C x j := by
    rw [hcoo x hx,update_self]
  have hbef : ∀ y<x, m.task2network
      (m.network2task (update C x (armAt m.torusSize U C x j))) y = C y := fun y hy => by
    rw [hcoo y (by omega),update_of_ne (by omega)]
  rw [h.rank2Index_at hx hbef (by rw [hse]; exact (h.arms x hx).armAt_ne hj hj'),hse]

theorem rank2Index_center : t.rank2Index m (t.index2Rank m 0) = 0 := by
  rw [h.index2Rank_center,h.rank2Index_eq]
  refine indexOfAxial_center _ _ fun x hx => ?_
  exact h.bij.right C h.center_lt x (List.mem_range.1 hx)

theorem index2Rank_lt (hix : ix<t.size) : t.index2Rank m ix < n := by
  by_cases h0 : ix=0
  · rw [h0,h.index2Rank_center]
    exact h.bij.task C h.center_lt
  · obtain ⟨x,hx,j,hj,hj',rfl⟩ := h.exists_place h0 hix
    rw [h.index2Rank_arm hx hj hj']
    exact h.bij.task _ (h.arm_lt hx)

theorem index2Rank_member (hix : ix<t.size) : t.Member m n (t.index2Rank m ix) := by
  rw [Member,h.type]
  refine ⟨h.index2Rank_lt hix,?_⟩
  by_cases h0 : ix=0
  · rw [h0,h.index2Rank_center]
    exact .inl (h.bij.right C h.center_lt)
  · obtain ⟨x,hx,j,hj,hj',rfl⟩ := h.exists_place h0 hix
    have hcoord := h.bij.right _ (h.arm_lt (j := j) hx)
    rw [h.index2Rank_arm hx hj hj']
    refine .inr ⟨x,hx,fun y hy hne => ?_,(h.arms x hx).armAt_on hj' ?_⟩
    · rw [hcoord y hy,update_of_ne hne]
    · rw [hcoord x hx,update_self]

theorem exists_index (hr : t.Member m n r) : ∃ ix<t.size, t.index2Rank m ix = r := by
  rw [Member,h.type] at hr
  obtain ⟨hrn,hmem⟩ := hr
  have hcen : (∀ x < m.globalDims, m.task2network r x = C x) →
      ∃ ix<t.size, t.index2Rank m ix=r := fun hc =>
    ⟨0,by rw [h.size]; omega,by rw [h.index2Rank_center]; exact h.bij.task_eq hrn hc⟩
  rcases hmem with hc | ⟨x,hx,hoth,hon⟩
  · exact hcen hc
  by_cases hcx : m.task2network r x = C x
  · refine hcen fun y hy => ?_
    by_cases hyx : y=x
    · subst hyx; exact hcx
    · exact hoth y hy hyx
  have hv := h.bij.coords r hrn x hx
  have ha := h.arms x hx
  have hcl := ha.center
  obtain ⟨j,hj,hj',hat⟩ : ∃ j, 1≤j ∧ j≤armSize m.torusSize L U C x ∧
      armAt m.torusSize U C x j = m.task2network r x := by
    have hs : armSize m.torusSize L U C x = upArm m.torusSize U C x+downArm m.torusSize L C x := rfl
    have hup := ring_sub hv hcl
    have hdn := ring_sub hcl hv
    simp only [upArm,downArm] at hon hs ⊢
    by_cases hup' : (m.torusSize x+m.task2network r x-C x)%m.torusSize x ≤ upArm m.torusSize U C x
    · refine ⟨_,?_,?_,(ha.armAt_eq ?_).trans (if_pos hup' |>.trans ?_)⟩
      · rw [hup]; split <;> omega
      · simp only [upArm] at hup'; omega
      · simp only [upArm] at hup'; omega
      · rw [hup]; split_ifs <;> omega
    · have hdn' := hon.resolve_left hup'
      refine ⟨upArm m.torusSize U C x+(m.torusSize x+C x-m.task2network r x)%m.torusSize x,?_,?_,?_⟩
      · rw [hdn]; split <;> omega
      · simp only [upArm]; omega
      · rw [ha.armAt_eq (by simp only [upArm]; omega),if_neg (by rw [hdn]; split <;> omega),
          Nat.add_sub_cancel_left,hdn]
        split_ifs <;> omega
  refine ⟨_,h.place_lt hx hj',?_⟩
  rw [h.index2Rank_arm hx hj hj']
  refine h.bij.task_eq hrn fun y hy => ?_
  by_cases hyx : y=x
  · subst hyx; rw [update_self,hat]
  · rw [update_of_ne hyx]; exact hoth y hy hyx

end IsAxial

end Topology

end PAMI.Common

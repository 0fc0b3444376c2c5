import PAMI.Common.Axial

namespace PAMI.Common

open Function Finset

namespace Topology

variable {m : Mapping} {n : ℕ} {t : Topology} {L U C : Coord}

theorem exists_first {P : ℕ → Prop} {x : ℕ} (h : ¬∀ y < x, P y) :
    ∃ w<x, ¬P w ∧ ∀ y<w, P y := by
  classical
  have hex : ∃ y, y<x ∧ ¬P y := by simpa only [not_forall,exists_prop] using h
  obtain ⟨hw,hn⟩ := Nat.find_spec hex
  refine ⟨Nat.find hex,hw,hn,fun y hy => ?_⟩
  by_contra hc
  exact Nat.find_min hex hy ⟨hy.trans hw,hc⟩

namespace IsAxial

section Only

variable (h : IsAxial m n t L U C) (hi : Indexed m n t) {w x : ℕ}
include h hi

theorem size_le : t.size≤n := by
  have hs : t.numRanks=t.size := by simp [numRanks,h.context]
  refine size_le_of_injOn (fun ix hix => h.index2Rank_lt hix) fun ix hix ix' hix' he => ?_
  rw [← (hi.rank ix (hs ▸ hix)).2,he,(hi.rank ix' (hs ▸ hix')).2]

section

variable (hx : x < m.globalDims)
include hx

theorem place_found {j : ℕ} (hj : 1≤j) (hj' : j ≤ armSize m.torusSize L U C x) :
    (indexStart L U x+indexAt U C x (armAt m.torusSize U C x j))%2^64 = armStart m.torusSize L U C x+j := by
  have hs : t.numRanks=t.size := by simp [numRanks,h.context]
  rw [← h.rank2Index_arm hx hj hj']
  exact (hi.rank _ (hs ▸ h.place_lt hx hj')).2

omit hx in
theorem armStart_lt (hx : x ≤ m.globalDims) : armStart m.torusSize L U C x < 2^32 := by
  have h1 := h.size_le hi
  have h2 := h.bij.small
  have h3 := h.size
  have h4 := armStart_mono (T := m.torusSize) (L := L) (U := U) (C := C) hx
  omega

omit hi hx in
theorem indexStart_eq (hx : x ≤ m.globalDims) (hw : ∀ y<x, NoWrap L U C y) :
    indexStart L U x = armStart m.torusSize L U C x := by
  refine sum_congr rfl fun y hy => ?_
  have hy := mem_range.1 hy
  exact (h.arms y (by omega)).wordSub_noWrap (hw y hy) (h.small (by omega))

theorem wrap_first (hw : ∀ y<x, NoWrap L U C y) : NoWrap L U C x ∨
      C x < L x ∧ C x ≤ U x ∧ L x+1 = m.torusSize x ∧ U x+C x+2 = m.torusSize x := by
  refine (h.arms x hx).noWrap_or (h.small hx) (h.armStart_lt hi hx.le) fun j hj hj' => ?_
  rw [← h.place_found hi hx hj hj',h.indexStart_eq hx.le hw]

omit hi in
theorem trivial_arms (h0 : armSize m.torusSize L U C x = 0) : L x = C x ∧ U x = C x := by
  have ha := h.arms x hx
  have hu := ha.up_eq
  have hd := ha.down_eq
  have := ha.ll
  have := ha.ur
  have := ha.center
  have hs : armSize m.torusSize L U C x = upArm m.torusSize U C x+downArm m.torusSize L C x := rfl
  split_ifs at hu hd <;> omega

omit hi hx in
theorem starts_after (hwx : w+1≤x) (hx : x ≤ m.globalDims)
    (h0 : ∀ y, w<y → y<x → armSize m.torusSize L U C y = 0) : indexStart L U x = indexStart L U (w+1) ∧
      armStart m.torusSize L U C x = armStart m.torusSize L U C (w+1) := by
  induction x, hwx using Nat.le_induction with
  | base => exact ⟨rfl,rfl⟩
  | succ x hwx ih =>
    obtain ⟨i1,i2⟩ := ih (by omega) fun y hy hyx => h0 y hy (by omega)
    obtain ⟨h1,h2⟩ := h.trivial_arms (by omega) (h0 x (by omega) (by omega))
    rw [indexStart_succ,armStart_succ,i1,i2,h0 x (by omega) (by omega),h1,h2]
    simp [wordSub]

omit hi in
theorem exists_small (h0 : armSize m.torusSize L U C x ≠ 0) : ∃ j, 1≤j ∧ j ≤ armSize m.torusSize L U C x ∧
      ∃ g<2^32, indexAt U C x (armAt m.torusSize U C x j)%2^64 = g := by
  have ha := h.arms x hx
  have hsm := h.small hx
  have hu := ha.up_eq
  have hc := ha.center
  have hur := ha.ur
  have hlt := ha.armAt_lt
  have hs : armSize m.torusSize L U C x = upArm m.torusSize U C x+downArm m.torusSize L C x := rfl
  by_cases hup : C x ≤ U x
  · refine ⟨1,le_rfl,by omega,_,?_,rfl⟩
    have := hlt 1
    rw [indexAt,wordSub]
    split_ifs <;> omega
  · rw [if_neg hup] at hu
    refine ⟨upArm m.torusSize U C x,by omega,by omega,0,by omega,?_⟩
    have harm : armAt m.torusSize U C x (upArm m.torusSize U C x) = U x := by
      rw [ha.armAt_eq (by omega),if_pos le_rfl,if_neg (by omega)]; omega
    rw [harm,indexAt,if_neg (by omega),wordSub]
    omega

omit hx in
theorem trivial_after (hw : w < m.globalDims) (hbef : ∀ y<w, NoWrap L U C y) (hC : C w < L w)
    (hCU : C w ≤ U w) (hL : L w+1 = m.torusSize w) (hU : U w+C w+2 = m.torusSize w) (hwx : w<x)
    (hx : x < m.globalDims) : armSize m.torusSize L U C x = 0 := by
  induction x using Nat.strong_induction_on with
  | _ x ih =>
    by_contra h0
    obtain ⟨s1,s2⟩ := h.starts_after (w := w) (x := x) hwx hx.le
      fun y hy hyx => ih y hyx hy (by omega)
    obtain ⟨j,hj,hj',g,hg,hgeq⟩ := h.exists_small hx h0
    have hfou := h.place_found hi hx hj hj'
    have ha := h.arms w hw
    have hu := ha.up_eq
    have hd := ha.down_eq
    rw [if_pos hCU] at hu
    rw [if_neg (by omega)] at hd
    have hs : armSize m.torusSize L U C w = upArm m.torusSize U C w+downArm m.torusSize L C w := rfl
    have hsta := h.armStart_lt hi hw.le
    have hTw := h.small hw
    have hword : wordSub 32 (U w) (L w) = 2^32+U w-L w := by rw [wordSub]; omega
    rw [s1,s2,indexStart_succ,armStart_succ,h.indexStart_eq hw.le hbef,hword,Nat.add_mod,hgeq] at hfou
    have hsum : m.torusSize w*m.torusSize x<2^32 :=
      (h.bij.torus_mul_le h.center_lt hw hx (by omega)).trans_lt h.bij.small
    have hTx : 2 ≤ m.torusSize x := by have := (h.arms x hx).size_lt; omega
    have hTw2 : 2 ≤ m.torusSize w := by have := ha.ll; omega
    have hle : m.torusSize w+m.torusSize x ≤ m.torusSize w*m.torusSize x := Nat.add_le_mul hTw2 hTx
    have hsx := (h.arms x hx).size_lt
    omega

theorem wrap_cases : NoWrap L U C x ∨
    C x < L x ∧ C x ≤ U x ∧ L x+1 = m.torusSize x ∧ U x+C x+2 = m.torusSize x := by
  induction x using Nat.strong_induction_on with
  | _ x ih =>
    by_cases hall : ∀ y<x, NoWrap L U C y
    · exact h.wrap_first hi hx hall
    · obtain ⟨w,hwx,hwn,hmin⟩ := exists_first hall
      obtain ⟨h1,h2,h3,h4⟩ := (h.wrap_first hi (hwx.trans hx) hmin).resolve_left hwn
      obtain ⟨e1,e2⟩ := h.trivial_arms hx
        (h.trivial_after hi (hwx.trans hx) hmin h1 h2 h3 h4 hwx hx)
      exact Or.inl ⟨e1.le,e2.ge⟩

theorem indexStart_lt : indexStart L U x < 2^33 := by
  by_cases hall : ∀ y<x, NoWrap L U C y
  · rw [h.indexStart_eq hx.le hall]
    have := h.armStart_lt hi hx.le
    omega
  · obtain ⟨w,hwx,hwn,hmin⟩ := exists_first hall
    obtain ⟨h1,h2,h3,h4⟩ := (h.wrap_first hi (hwx.trans hx) hmin).resolve_left hwn
    obtain ⟨s1,-⟩ := h.starts_after (w := w) (x := x) hwx hx.le fun y hy hyx =>
      h.trivial_after hi (hwx.trans hx) hmin h1 h2 h3 h4 hy (by omega)
    have := h.armStart_lt hi (hwx.trans hx).le
    have hword : wordSub 32 (U w) (L w)<2^32 := Nat.mod_lt _ (by omega)
    rw [s1,indexStart_succ,h.indexStart_eq (hwx.trans hx).le hmin]
    omega

omit hx in
theorem all_members {r : ℕ} (hr : r<n) : t.Member m n r := by
  by_contra hnr
  have hno := hi.nonmember r hr hnr
  have hoff : ¬∀ x < m.globalDims, m.task2network r x = C x := fun hc => hnr (by
    rw [Member,h.type]; exact ⟨hr,Or.inl hc⟩)
  obtain ⟨x,hx,hne,hmin⟩ := exists_first hoff
  rw [h.rank2Index_at hx hmin hne,noIndex] at hno
  have hsta := h.indexStart_lt hi hx
  have hsm := h.small hx
  have hv := h.bij.coords r hr x hx
  have hur := (h.arms x hx).ur
  have hCU : C x ≤ U x := by
    rcases h.wrap_cases hi hx with hw | ⟨-,hw,-⟩
    · exact hw.2
    · exact hw
  have hat : indexAt U C x (m.task2network r x)<2^32 := by
    rw [indexAt,wordSub]
    split_ifs <;> omega
  omega

theorem fullRing (hC : C x < L x) (hCU : C x ≤ U x) (hL : L x+1 = m.torusSize x)
    (hU : U x+C x+2 = m.torusSize x) : FullRing m.torusSize L U C x := by
  have hlt : ∀ z < m.globalDims, update C x (U x+1) z < m.torusSize z :=
    Mapping.Bijective.update_lt h.center_lt (by omega)
  have hcoo := h.bij.right _ hlt
  have hse := hcoo x hx
  rw [update_self] at hse
  have hmem := h.all_members hi (h.bij.task _ hlt)
  rw [Member,h.type] at hmem
  have hzr : C x=0 := by
    rcases hmem.2 with hc | ⟨y,hy,hoth,hon⟩
    · have := hc x hx
      omega
    · by_cases hyx : y=x
      · subst hyx
        have ha := h.arms y hy
        have hu := ha.up_eq
        have hd := ha.down_eq
        have hv : U y+1 < m.torusSize y := by omega
        have h1 := ring_sub hv ha.center
        have h2 := ring_sub ha.center hv
        rw [if_pos (by omega)] at hu h1
        rw [if_neg (by omega)] at hd h2
        simp only [upArm,downArm,hse] at hon hu hd
        omega
      · have := hoth x hx (Ne.symm hyx)
        omega
  exact ⟨hzr,by omega,hL⟩

end

end Only

section If

variable (h : IsAxial m n t L U C) (hall : ∀ r < n, t.Member m n r) {x y : ℕ}
include h hall

theorem torus_one (hx : x < m.globalDims) (hy : y < m.globalDims) (hxy : y≠x)
    (h2 : 2 ≤ m.torusSize x) : m.torusSize y = 1 := by
  by_contra hne
  have hcx := h.center_lt x hx
  have hcy := h.center_lt y hy
  obtain ⟨v,hv,hvC⟩ : ∃ v < m.torusSize x, v≠C x := by
    by_cases h0 : C x=0
    · exact ⟨1,by omega,by omega⟩
    · exact ⟨0,by omega,by omega⟩
  obtain ⟨u,hu,huC⟩ : ∃ u < m.torusSize y, u≠C y := by
    by_cases h0 : C y=0
    · exact ⟨1,by omega,by omega⟩
    · exact ⟨0,by omega,by omega⟩
  have hlt : ∀ z < m.globalDims, update (update C x v) y u z < m.torusSize z :=
    Mapping.Bijective.update_lt (Mapping.Bijective.update_lt h.center_lt hv) hu
  have hmem := hall _ (h.bij.task _ hlt)
  have hcoo := h.bij.right _ hlt
  have hx' := hcoo x hx
  have hy' := hcoo y hy
  simp only [update_of_ne (Ne.symm hxy),update_self] at hx' hy'
  rw [Member,h.type] at hmem
  rcases hmem.2 with hc | ⟨z,hz,hoth,-⟩
  · exact hvC (hx'.symm.trans (hc x hx))
  · by_cases hzx : z=x
    · subst hzx
      exact huC (hy'.symm.trans (hoth y hy hxy))
    · exact hvC (hx'.symm.trans (hoth x hx (Ne.symm hzx)))

theorem starts_zero (hx : x < m.globalDims) (h2 : 2 ≤ m.torusSize x) :
    indexStart L U x = 0 ∧ armStart m.torusSize L U C x = 0 := by
  have hone : ∀ y<x, m.torusSize y=1 := fun y hy => h.torus_one hall hx (hy.trans hx) (by omega) h2
  constructor
  · refine sum_eq_zero fun y hy => ?_
    have hy := mem_range.1 hy
    have ha := h.arms y (hy.trans hx)
    have h1 := ha.ll
    have h2 := ha.ur
    have h3 := hone y hy
    rw [show U y=0 by omega,show L y=0 by omega]
    rfl
  · refine sum_eq_zero fun y hy => ?_
    have hy := mem_range.1 hy
    have h1 := (h.arms y (hy.trans hx)).size_lt
    have h3 := hone y hy
    omega

theorem indexed (hw : ∀ x < m.globalDims, NoWrap L U C x ∨ FullRing m.torusSize L U C x) :
    Indexed m n t := by
  refine indexed_of_inverse h.bij h.context (fun ix hix => ?_) (fun r hr => h.exists_index hr)
    fun r hr hnr => absurd (hall r hr) hnr
  refine ⟨hall _ (h.index2Rank_lt hix),?_⟩
  by_cases h0 : ix=0
  · rw [h0]; exact h.rank2Index_center
  · obtain ⟨x,hx,j,hj,hj',rfl⟩ := h.exists_place h0 hix
    have hs := (h.arms x hx).size_lt
    obtain ⟨e1,e2⟩ := h.starts_zero hall hx (by omega)
    rw [h.rank2Index_arm hx hj hj',e1,e2,zero_add,zero_add]
    rcases hw x hx with hw | hw
    · exact (h.arms x hx).indexAt_noWrap hw (h.small hx) hj hj'
    · exact (h.arms x hx).indexAt_fullRing hw (h.small hx) hj hj'

end If

end IsAxial

/-- When the indices of a topology are exact: always, but an axial neighborhood must have all tasks
on its axes, and no arm across the end of a ring, or only that of the last task of a whole ring. -/
def Exact (m : Mapping) (n : ℕ) (t : Topology) : Prop :=
  match t.type with
  | .AXIAL L U C => (∀ r < n, t.Member m n r) ∧
      ∀ x < m.globalDims, NoWrap L U C x ∨ FullRing m.torusSize L U C x
  | _ => True

theorem indexed_empty (hm : m.Bijective n) (ht : t.Valid m n) (hk : t.type = .EMPTY) :
    Indexed m n t := by
  have hv := ht.2
  rw [hk] at hv
  refine indexed_of_inverse hm ht.1 (fun ix hix => ?_) (fun r hr => ?_) fun r _ _ => ?_
  · omega
  · rw [Member,hk] at hr
    exact hr.2.elim
  · simp only [rank2Index,hk]

/-- Indices and ranks are inverse to each other exactly for these topologies. -/
theorem indexed_iff (hm : m.Bijective n) (ht : t.Valid m n) : Indexed m n t ↔ Exact m n t := by
  unfold Exact
  cases hk : t.type with
  | EMPTY => exact iff_of_true (indexed_empty hm ht hk) trivial
  | SINGLE rank => exact iff_of_true (indexed_single hm ht hk) trivial
  | RANGE first last => exact iff_of_true (indexed_range hm ht hk) trivial
  | LIST ranklist => exact iff_of_true (indexed_list hm ht hk) trivial
  | COORD ll ur => exact iff_of_true (indexed_coord hm ht hk) trivial
  | AXIAL L U C =>
    have h := ht.isAxial hm hk
    constructor
    · intro hi
      refine ⟨fun r hr => h.all_members hi hr,fun x hx => ?_⟩
      refine (h.wrap_cases hi hx).imp_right fun hw => ?_
      exact h.fullRing hi hx hw.1 hw.2.1 hw.2.2.1 hw.2.2.2
    · rintro ⟨hall,hw⟩
      exact h.indexed hall hw

def grid : Mapping where
  globalDims := 2
  torusSize _ := 4
  task2network r x := if x = 0 then r / 4 else r % 4
  network2task c := 4 * c 0 + c 1

theorem grid_bijective : grid.Bijective 16 where
  small := by decide
  coords r hr x _ := by
    simp only [grid]
    split <;> omega
  task c hc := by
    have h0 := hc 0 (by decide)
    have h1 := hc 1 (by decide)
    simp only [grid] at h0 h1 ⊢
    omega
  injective r _ r' _ h := by
    have h0 := h 0 (by decide)
    have h1 := h 1 (by decide)
    simp only [grid,if_true,one_ne_zero,if_false] at h0 h1
    omega
  right c hc x hx := by
    have h1 := hc 1 (by decide)
    have hx : x<2 := hx
    simp only [grid] at h1 ⊢
    split
    · rename_i h0; subst h0; omega
    · obtain rfl : x=1 := by omega
      omega

def segment : Topology := ⟨.COORD (fun _ => 1) fun x => if x = 0 then 3 else 2, 6, 0, false⟩

theorem segment_valid : segment.Valid grid 16 := ⟨rfl,by decide,rfl⟩

theorem indexed_iff_segment : Indexed grid 16 segment := (indexed_iff grid_bijective segment_valid).2 trivial

/-- The neighborhood of task 5 in the grid: the tasks 1, 4, 6 and 9 around it. -/
def cross : Topology := ⟨.AXIAL (fun _ => 0) (fun _ => 2) fun _ => 1, 5, 0, false⟩

/-- Task 0 is not on the axes, but it has an index, that of task 1. -/
theorem cross_not_indexed :
    grid.Bijective 16 ∧ cross.Valid grid 16 ∧ cross.rank2Index grid 0 = 2 ∧
      cross.rank2Index grid 1 = 2 ∧ ¬Indexed grid 16 cross := by
  have hv : cross.Valid grid 16 := ⟨rfl,by decide,by decide⟩
  refine ⟨grid_bijective,hv,by decide,by decide,fun hi => ?_⟩
  have hnot : ¬cross.Member grid 16 0 := by
    simp only [Member,cross]
    decide
  exact absurd (hi.nonmember 0 (by decide) hnot) (by decide)

end Topology

end PAMI.Common

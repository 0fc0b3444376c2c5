import PAMI.Executor.Gather

namespace PAMI.Executor

open PAMI.Schedule GenericTreeSchedule GatherSchedule Finset
open PAMI.Math (Splitting)

/-- The schedules of the ranks make a tree: each rank collects the places from its own on, as many as its size, and its
children do so behind it. In a phase it has one child. -/
structure GatherTree (t : Topology) (root : ℕ) (S : ℕ → GatherSchedule) where
  degree : ℕ → ℕ
  child : ℕ → ℕ → ℕ
  size : ℕ → ℕ
  first : ℕ → ℕ
  size_root : size root = t.size
  bound : ∀ e ∈ t, place t root e + size e ≤ t.size
  child_mem : ∀ e ∈ t, ∀ q < degree e, child e q ∈ t
  child_place : ∀ e ∈ t, ∀ q < degree e, place t root e < place t root (child e q) ∧
      place t root (child e q) + size (child e q) ≤ place t root e + size e
  child_disjoint : ∀ e ∈ t, ∀ q < degree e, ∀ p < degree e, q ≠ p →
    place t root (child e q) + size (child e q) ≤ place t root (child e p) ∨
      place t root (child e p) + size (child e p) ≤ place t root (child e q)
  child_inj : ∀ e ∈ t, ∀ q < degree e, ∀ a ∈ t, ∀ p < degree a, child e q = child a p → e = a ∧ q = p
  cover : ∀ e ∈ t, ∀ j, place t root e < j → j < place t root e + size e →
    ∃ q < degree e, place t root (child e q) ≤ j ∧ j < place t root (child e q) + size (child e q)
  sum_size : ∀ e ∈ t, (∑ q ∈ Finset.range (degree e), size (child e q)) + 1 = size e
  exists_parent : ∀ e ∈ t, e ≠ root → ∃ a ∈ t, ∃ q < degree a, child a q = e
  getLList : ∀ e ∈ t, ∀ q < degree e, (S (child e q)).getLList (S (child e q)).startphase = [(e, size (child e q))]
  getRList : ∀ e ∈ t, ∀ q < degree e, (S e).getRList (S (child e q)).startphase = [(child e q, size (child e q))]
  startphase : ∀ e ∈ t, ∀ q < degree e, (S (child e q)).startphase = first e + q
  nphases : ∀ e ∈ t, 0 < degree e → (S e).nphases = first e + degree e
  mynphases : ∀ e ∈ t, (S e).mynphases = degree e + if e = root then 0 else 1
  maxsrcs : ∀ e ∈ t, 0 < (S e).maxsrcs

namespace GatherSchedule

variable {ports : ℕ} {t : Topology} {root e : ℕ}

/-- What `ofTree` finds for a rank that has one child in each phase. -/
structure Found (hpor : 0 < (knomial ports).nports) (t : Topology) (root e : ℕ) (S : GatherSchedule) : Prop where
  startphase : S.startphase + (if e = root then 0 else 1) = first hpor t root e
  nphases : S.nphases = first hpor t root e + degree hpor t root e
  mynphases : S.mynphases = degree hpor t root e + if e = root then 0 else 1
  maxsrcs : S.maxsrcs = ports
  getRList : ∀ q < degree hpor t root e, S.getRList (first hpor t root e + q) =
      [(child hpor t root e q, childSize hpor t root e q)]
  getLList : e ≠ root → S.getLList S.startphase = [(endpointAt t root (place t root e -
    ((knomial ports).splitting hpor).parent t.size (place t root e)), subtree hpor t root e)]

variable (hpor : 0 < (knomial ports).nports) (hrt : root ∈ t) (he : e ∈ t)

include hrt he

theorem found (h : OneChild ports t.size) (hle : ports ≤ maxConcurrent) :
    (ofTree ports t root e).isSome=true ∧ Found hpor t root e (tree ports t root e) := by
  obtain ⟨s,hs,hf⟩ := init_single (single_knomial h hpor) hrt he
  obtain ⟨hisr,hsrc⟩ := init_source hpor hrt he hs
  have hplc := eq_root_iff hrt he
  have hlst := hf.lstartph
  have hmyn := hf.mynphs
  rw [hf.nphs] at hmyn
  have hfir : e≠root → 0<first hpor t root e := by
    intro hne
    rw [first,Splitting.arrival_of_pos (place_lt hrt he) (pos_of_ne_zero (mt hplc.mpr hne))]
    exact Nat.succ_pos _
  have hzr : e=root → first hpor t root e=0 := by
    intro heq
    rw [first,hplc.mp heq,Splitting.arrival_zero]
  rw [tree,ofTree,hs,Option.bind_some,if_pos hle,Option.getD_some]
  refine ⟨rfl,?_⟩
  by_cases heq : e=root
  · have hfir0 := hzr heq
    rw [if_pos (hplc.mp heq)] at hlst
    refine ⟨?_,?_,?_,rfl,fun q hq => ?_,fun hne => absurd heq hne⟩
    · simp only [hlst,hfir0,if_pos heq,Int.toNat_zero]
    · simp only [hf.nphs]
      omega
    · simp only [hmyn,hlst,hfir0,if_pos heq]
      omega
    · simp only [(hf.getRList_child hrt he h hq).1,(hf.getRList_child hrt he h hq).2]
      rfl
  · have hpos := hfir heq
    have hne := mt hplc.mpr heq
    rw [if_neg hne] at hlst
    refine ⟨?_,?_,?_,rfl,fun q hq => ?_,fun _ => ?_⟩
    · simp only [hlst,if_neg heq]
      omega
    · simp only [hf.nphs]
      omega
    · simp only [hmyn,hlst,if_neg heq]
      omega
    · simp only [(hf.getRList_child hrt he h hq).1,(hf.getRList_child hrt he h hq).2]
      rfl
    · obtain ⟨hpar,hle'⟩ := Splitting.parent_bounds (S := (knomial ports).splitting hpor) (place_lt hrt he)
        (pos_of_ne_zero hne)
      have hpha : s.myrank≠s.root ∧ ((s.lstartph.toNat : ℕ) : ℤ)=s.lstartph :=
        ⟨fun hyes => hne (hisr.mp hyes),by rw [hlst]; omega⟩
      simp only [GenericTreeSchedule.getLList,getLLens,if_pos hpha,List.zip_cons_cons,List.zip_nil_left]
      rw [hf.topo_eq,hsrc (pos_of_ne_zero hne),source_eq hrt he hpar hle',hf.subsizes,
        degree,sum_childSize hpor (subtree_pos hpor hrt he)]

theorem startphase_child (h : OneChild ports t.size) (hle : ports ≤ maxConcurrent) {q : ℕ}
    (hq : q < degree hpor t root e) :
    (tree ports t root (child hpor t root e q)).startphase = first hpor t root e+q := by
  have hchi := child_mem hrt he hq
  have hsta := (found hpor hrt hchi h hle).2.startphase
  have harr := (size_arrival_child (single_knomial h hpor) le_rfl (place_lt hrt he) hq).2
  rw [if_neg (child_ne_root hrt he hq),first,place_child hrt he hq,subtree,harr] at hsta
  exact Nat.succ.inj hsta

end GatherSchedule

namespace GatherTree

variable {ports : ℕ} {t : Topology} {root : ℕ}

section Knomial

variable (hpor : 0 < (knomial ports).nports) (hrt : root ∈ t) (h : OneChild ports t.size)

include hrt h

section

variable {e q : ℕ} (he : e ∈ t) (hq : q < GenericTreeSchedule.degree hpor t root e)
include he hq

theorem tree_child_place : place t root e < place t root (GenericTreeSchedule.child hpor t root e q) ∧
      place t root (GenericTreeSchedule.child hpor t root e q)+subtree hpor t root
        (GenericTreeSchedule.child hpor t root e q) ≤ place t root e+subtree hpor t root e := by
  have hbnd := child_bounds hrt he hq
  rw [subtree_child hrt he (single_knomial h hpor) hq,place_child hrt he hq]
  omega

theorem tree_child_disjoint {p : ℕ} (hp : p < GenericTreeSchedule.degree hpor t root e) (hne : q≠p) :
    place t root (GenericTreeSchedule.child hpor t root e q)+subtree hpor t root
        (GenericTreeSchedule.child hpor t root e q) ≤ place t root (GenericTreeSchedule.child hpor t root e p) ∨
      place t root (GenericTreeSchedule.child hpor t root e p)+subtree hpor t root
        (GenericTreeSchedule.child hpor t root e p) ≤ place t root (GenericTreeSchedule.child hpor t root e q) := by
  have hsin := single_knomial h hpor
  have hpos := subtree_pos hpor hrt he
  -- the child of a later phase is before the one of an earlier phase
  have hlat : ∀ q<GenericTreeSchedule.degree hpor t root e, ∀ k, q+1+k <
      GenericTreeSchedule.degree hpor t root e → (knomial ports).pbig^[q+1+k] (subtree hpor t root e) ≤
        (knomial ports).pbig^[q+1] (subtree hpor t root e) := by
    intro q hq k hk
    rw [add_comm,Function.iterate_add_apply]
    exact (iterate_pbig_le hpor (iterate_pbig_le hpor hpos _).2 k).1
  rw [subtree_child hrt he hsin hq,subtree_child hrt he hsin hp,
    place_child hrt he hq,place_child hrt he hp,childSize,childSize]
  have hq' := iterate_pbig_lt hpos hq
  have hp' := iterate_pbig_lt hpos hp
  obtain hlt | hlt := Nat.lt_or_gt_of_ne hne
  · obtain ⟨k,rfl⟩ := Nat.exists_eq_add_of_lt hlt
    have := hlat q hq k (by omega)
    have hinx : q+k+1=q+1+k := by omega
    rw [hinx] at hp' ⊢
    omega
  · obtain ⟨k,rfl⟩ := Nat.exists_eq_add_of_lt hlt
    have := hlat p hp k (by omega)
    have hinx : p+k+1=p+1+k := by omega
    rw [hinx] at hq' ⊢
    omega

end

theorem tree_getLList (hle : ports ≤ maxConcurrent) {e : ℕ} (he : e ∈ t) {q : ℕ}
    (hq : q < GenericTreeSchedule.degree hpor t root e) :
    (tree ports t root (GenericTreeSchedule.child hpor t root e q)).getLList
        (tree ports t root (GenericTreeSchedule.child hpor t root e q)).startphase =
      [(e, subtree hpor t root (GenericTreeSchedule.child hpor t root e q))] := by
  have hchi := GenericTreeSchedule.child_mem hrt he hq
  have hfou := (found hpor hrt hchi h hle).2
  have hpar := place_parent hrt he (single_knomial h hpor) hq
  have hpla : place t root (GenericTreeSchedule.child hpor t root e q)-((knomial ports).splitting hpor).parent
      t.size (place t root (GenericTreeSchedule.child hpor t root e q)) = place t root e := by omega
  rw [hfou.getLList (child_ne_root hrt he hq),hpla,endpointAt_place hrt he]

end Knomial

/-- The tree of the k-nomial schedules with one child in each phase. -/
def ofTree (hpor : 0 < (knomial ports).nports) (hrt : root ∈ t) (h : OneChild ports t.size)
    (hle : ports ≤ maxConcurrent) : GatherTree t root (tree ports t root) where
  degree := GenericTreeSchedule.degree hpor t root
  child := GenericTreeSchedule.child hpor t root
  size := subtree hpor t root
  first := GenericTreeSchedule.first hpor t root
  size_root := by rw [subtree, place_root hrt, Splitting.size_zero]
  bound e he := subtree_le hpor hrt he
  child_mem e he q hq := GenericTreeSchedule.child_mem hrt he hq
  child_place e he q hq := tree_child_place hpor hrt h he hq
  child_disjoint e he q hq p hp hne := tree_child_disjoint hpor hrt h he hq hp hne
  child_inj e he q hq a ha p hp heq := GenericTreeSchedule.child_inj hrt he (single_knomial h hpor) ha hq hp heq
  cover e he j hlow hhg := by
    obtain ⟨q, hq, hpla, hlt⟩ := exists_child_below hrt he hlow hhg
    rw [← subtree_child hrt he (single_knomial h hpor) hq] at hlt
    exact ⟨q, hq, hpla, hlt⟩
  sum_size e he := by
    have hsum := sum_childSize hpor (subtree_pos hpor hrt he)
    rw [← hsum]
    refine congrArg (· + 1) (sum_congr rfl fun q hq => ?_)
    exact subtree_child hrt he (single_knomial h hpor) (Finset.mem_range.mp hq)
  exists_parent e he hne := by
    obtain ⟨a, ha, q, hq, heq, -⟩ := GenericTreeSchedule.exists_parent (single_knomial h hpor) hrt he hne
    exact ⟨a, ha, q, hq, heq⟩
  getLList e he q hq := tree_getLList hpor hrt h hle he hq
  getRList e he q hq := by
    rw [startphase_child hpor hrt he h hle hq, (found hpor hrt he h hle).2.getRList
      q hq, subtree_child hrt he (single_knomial h hpor) hq]
  startphase e he q hq := startphase_child hpor hrt he h hle hq
  nphases e he _ := (found hpor hrt he h hle).2.nphases
  mynphases e he := (found hpor hrt he h hle).2.mynphases
  maxsrcs e he := by
    rw [(found hpor hrt he h hle).2.maxsrcs]
    exact hpor

section Flat

theorem flat_child {e q : ℕ} (hq : q < if e=root then t.size-1 else 0) : e=root ∧ q+1<t.size := by
  split at hq
  case isTrue heq => exact ⟨heq,by omega⟩
  case isFalse => exact absurd hq (Nat.not_lt_zero q)

variable (hrt : root ∈ t)

include hrt

theorem flat_child_ne {q : ℕ} (hq : q+1<t.size) : endpointAt t root (q+1) ≠ root := by
  rw [Ne,eq_root_iff hrt (endpointAt_mem hrt hq),place_endpointAt hrt hq]
  exact Nat.succ_ne_zero q

theorem flat_startphase {q : ℕ} (hq : q+1<t.size) :
    (GatherSchedule.flat t root (endpointAt t root (q+1))).startphase=q ∧
      (GatherSchedule.flat t root (endpointAt t root (q+1))).getLList q = [(root, 1)] := by
  have he := endpointAt_mem hrt hq
  have hcur : (t.endpoint2Index (endpointAt t root (q+1))+t.size-t.endpoint2Index root)%t.size=q+1 :=
    (start_curPos hrt he).trans (place_endpointAt hrt hq)
  have hinx : t.endpoint2Index (endpointAt t root (q+1)) ≠ t.endpoint2Index root :=
    mt (index_eq_iff hrt he).mp (mt (eq_root_iff hrt he).mpr (flat_child_ne hrt hq))
  have hsta : (GatherSchedule.flat t root (endpointAt t root (q+1))).startphase=q := by
    rw [GatherSchedule.flat,FlatTreeSchedule.init]
    simp only [ne_eq,if_pos hinx,hcur,Nat.add_sub_cancel]
  refine ⟨hsta,(if_pos ⟨hinx,hsta.symm⟩).trans ?_⟩
  have hback : t.index2Endpoint (t.endpoint2Index root)=root := Topology.index2Endpoint_endpoint2Index hrt
  exact congrArg (fun r => [(r, 1)]) hback

theorem flat_getRList {q : ℕ} (hq : q+1<t.size) :
    (GatherSchedule.flat t root root).getRList q = [(endpointAt t root (q+1), 1)] := by
  have hpha : q<(FlatTreeSchedule.init t root root).nphs := by
    change q<t.size-1
    omega
  have hper := partner_eq hrt hrt (x := q+1) (by rw [place_root hrt]; omega)
  rw [place_root hrt,zero_add] at hper
  refine (if_pos rfl).trans ?_
  rw [if_pos hpha,List.range_one,List.map_singleton,← hper,add_zero,add_comm (q+1)]
  rfl

end Flat

/-- The tree of the schedules in which the root has all others as children. -/
def flat (hrt : root ∈ t) : GatherTree t root (GatherSchedule.flat t root) where
  degree e := if e = root then t.size - 1 else 0
  child _ q := endpointAt t root (q + 1)
  size e := if e = root then t.size else 1
  first _ := 0
  size_root := if_pos rfl
  bound e he := by
    have hpla := place_lt hrt he
    have hzr := eq_root_iff hrt he
    split
    case isTrue heq => rw [hzr.mp heq, Nat.zero_add]
    case isFalse => exact hpla
  child_mem e he q hq := endpointAt_mem hrt (flat_child hq).2
  child_place e he q hq := by
    obtain ⟨rfl, hlt⟩ := flat_child hq
    rw [place_endpointAt hrt hlt, place_root hrt, if_neg (flat_child_ne hrt hlt), if_pos rfl]
    omega
  child_disjoint e he q hq p hp hne := by
    obtain ⟨rfl, hlt⟩ := flat_child hq
    obtain ⟨-, hlt'⟩ := flat_child hp
    rw [place_endpointAt hrt hlt, place_endpointAt hrt hlt', if_neg (flat_child_ne hrt hlt),
      if_neg (flat_child_ne hrt hlt')]
    omega
  child_inj e he q hq a ha p hp heq := by
    obtain ⟨rfl, hlt⟩ := flat_child hq
    obtain ⟨rfl, hlt'⟩ := flat_child hp
    have hpls := congrArg (place t a) heq
    rw [place_endpointAt hrt hlt, place_endpointAt hrt hlt'] at hpls
    exact ⟨rfl, Nat.succ.inj hpls⟩
  cover e he j hlow hhg := by
    by_cases heq : e = root
    · subst heq
      rw [place_root hrt] at hlow hhg
      rw [if_pos rfl] at hhg
      refine ⟨j - 1, by rw [if_pos rfl]; omega, ?_⟩
      rw [Nat.sub_add_cancel hlow, place_endpointAt hrt (by omega)]
      split <;> omega
    · rw [if_neg heq] at hhg
      omega
  sum_size e he := by
    by_cases heq : e = root
    · have hpos := (place_lt hrt hrt).trans_le' (Nat.zero_le _)
      rw [if_pos heq, if_pos heq, sum_congr rfl fun q hq =>
        if_neg (flat_child_ne hrt (t := t) (by have := Finset.mem_range.mp hq; omega)), sum_const,
        card_range, nsmul_one]
      exact Nat.sub_add_cancel hpos
    · rw [if_neg heq, if_neg heq]
      rfl
  exists_parent e he hne := by
    have hpla := place_lt hrt he
    have hpos : 0 < place t root e := Nat.pos_of_ne_zero (mt (eq_root_iff hrt he).mpr hne)
    refine ⟨root, hrt, place t root e - 1, by rw [if_pos rfl]; omega, ?_⟩
    rw [Nat.sub_add_cancel hpos, endpointAt_place hrt he]
  getLList e he q hq := by
    obtain ⟨rfl, hlt⟩ := flat_child hq
    obtain ⟨hsta, hli⟩ := flat_startphase hrt hlt
    rw [hsta, hli, if_neg (flat_child_ne hrt hlt)]
  getRList e he q hq := by
    obtain ⟨rfl, hlt⟩ := flat_child hq
    rw [(flat_startphase hrt hlt).1, flat_getRList hrt hlt, if_neg (flat_child_ne hrt hlt)]
  startphase e he q hq := by
    obtain ⟨rfl, hlt⟩ := flat_child hq
    rw [(flat_startphase hrt hlt).1, Nat.zero_add]
  nphases e he hpos := by
    have heq := (flat_child hpos).1
    rw [Nat.zero_add, if_pos heq]
    rfl
  mynphases e he := by
    have hinx := (index_eq_iff hrt he).trans (eq_root_iff hrt he).symm
    rw [GatherSchedule.flat, FlatTreeSchedule.init]
    by_cases heq : e = root
    · simp only [ne_eq, heq, not_true, if_false, if_true, Nat.add_zero]
    · simp only [ne_eq, hinx, heq, not_false_eq_true, if_true, if_false, Nat.zero_add]
  maxsrcs _ _ := Nat.one_pos

end GatherTree

end PAMI.Executor

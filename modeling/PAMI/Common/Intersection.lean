import PAMI.Common.Bijection
import PAMI.Common.Subtraction

namespace PAMI.Common

open List Set

def coordLT (c0 c1 : Coord) (ndims : ℕ) : Bool := (List.range ndims).all fun x => !decide (c1 x ≤ c0 x)

def coordMAX (c0 c1 : Coord) : Coord := fun x => if c1 x < c0 x then c0 x else c1 x

def coordMIN (c0 c1 : Coord) : Coord := fun x => if c0 x < c1 x then c0 x else c1 x

/-- `__sizeRange` of corners in any order: the widths are of type `unsigned`, the size is a `size_t`. -/
def sizeRangeWords (ll ur : Coord) (ndims : ℕ) : ℕ :=
  (List.range ndims).foldl (fun s x => s * wordSub 32 (ur x + 1) (ll x) % 2 ^ 64) 1

namespace Topology

variable (m : Mapping)

def toSingle (t : Topology) (rank : ℕ) : Topology := { t with type := .SINGLE rank, size := 1 }

def intersectCoord (new : Topology) (ll ur ll' ur' : Coord) : Topology :=
  if coordLT ur ll' m.globalDims || coordLT ur' ll m.globalDims then new.toEmpty
  else
    let ll := coordMAX ll ll'
    let ur := coordMIN ur ur'
    { new with type := .COORD ll ur, size := sizeRangeWords ll ur m.globalDims }

def intersectRange (new : Topology) (first last first' last' : ℕ) : Topology :=
  if last < first' ∨ last' < first then new.toEmpty
  else
    let first := if first' < first then first else first'
    let last := if last < last' then last else last'
    { new with type := .RANGE first last, size := last - first + 1 }

/-- The ranks of a list, each as often as it is in the other. -/
def commonRanks (size size' : ℕ) (ranklist ranklist' : ℕ → ℕ) : List ℕ := (List.range size).flatMap fun i =>
    ((List.range size').filter fun j => ranklist i == ranklist' j).map fun _ => ranklist i

def intersectSingle (new : Topology) (other : AnyTopology) (rank : ℕ) : Topology :=
  if other.isRankMember m rank then new.toSingle rank else new.toEmpty

/-- `intersectTopology`: what `_new` becomes. -/
def intersectTopology (new : Topology) : AnyTopology → AnyTopology → Topology
  | .tasks this, .tasks other =>
    match this.type, other.type with
    | .COORD ll ur, .COORD ll' ur' => intersectCoord m new ll ur ll' ur'
    | .SINGLE rank, .SINGLE rank' => if rank' = rank then new.toSingle rank else new.toEmpty
    | .RANGE first last, .RANGE first' last' => intersectRange new first last first' last'
    | .LIST ranklist, .LIST ranklist' =>
      let rl := commonRanks this.size other.size ranklist ranklist'
      if rl.length = 0 then new.toEmpty else new.toList rl
    | .SINGLE rank, _ => intersectSingle m new (.tasks other) rank
    | _, .SINGLE rank' => intersectSingle m new (.tasks this) rank'
    | _, _ => new.toEmpty
  | .tasks this, .EPLIST l =>
    match this.type with
    | .SINGLE rank => intersectSingle m new (.EPLIST l) rank
    | _ => new.toEmpty
  | .EPLIST l, .tasks other =>
    match other.type with
    | .SINGLE rank' => intersectSingle m new (.EPLIST l) rank'
    | _ => new.toEmpty
  | .EPLIST _, .EPLIST _ => new.toEmpty

end Topology

open Math (Box)

variable {m : Mapping} {n d : ℕ} {ll ur ll' ur' : Coord}

theorem coordLT_iff {c0 c1 : Coord} : coordLT c0 c1 d = true ↔ ∀ x<d, c0 x < c1 x := by
  simp [coordLT]

theorem inter_corners :
    Box.mk (coordMAX ll ll') (coordMIN ur ur') = (Box.mk ll ur).inter (Box.mk ll' ur') := by
  have hll : coordMAX ll ll' = fun x => max (ll x) (ll' x) := by
    funext x
    simp only [coordMAX]
    split_ifs <;> omega
  have hur : coordMIN ur ur' = fun x => min (ur x) (ur' x) := by
    funext x
    simp only [coordMIN]
    split_ifs <;> omega
  rw [hll,hur]
  rfl

theorem sizeRangeWords_eq (h : ∀ x<d, ll x ≤ ur x) (hcard : (Box.mk ll ur).card d < 2^32) :
    sizeRangeWords ll ur d = (Box.mk ll ur).card d := by
  induction d with
  | zero => rfl
  | succ d ih =>
    have hsma := lt_of_le_of_lt Box.card_le_succ hcard
    have hwid : (Box.mk ll ur).width d<2^32 := lt_of_le_of_lt Box.width_le_card hcard
    have hword : wordSub 32 (ur d+1) (ll d) = (Box.mk ll ur).width d := by
      have := h d (Nat.lt_succ_self d)
      unfold wordSub
      unfold Box.width at hwid ⊢
      simp only at hwid ⊢
      omega
    have hfold : sizeRangeWords ll ur (d+1) = sizeRangeWords ll ur d*wordSub 32 (ur d+1) (ll d)%2^64 := by
      rw [sizeRangeWords,range_succ,foldl_append]
      rfl
    rw [hfold,ih (fun x hx => h x (Nat.lt_succ_of_lt hx)) hsma,hword]
    exact Nat.mod_eq_of_lt (lt_trans hcard (by decide))

namespace Topology

/-- `new` is the intersection of `a` and `b`. -/
structure Intersected (m : Mapping) (n : ℕ) (a b : AnyTopology) (new : Topology) : Prop where
  member : ∀ r, new.Member m n r ↔ a.Member m n r ∧ b.Member m n r
  size : new.numRanks = {r | a.Member m n r ∧ b.Member m n r}.ncard
  empty : new.type = .EMPTY ↔ ∀ r, ¬(a.Member m n r ∧ b.Member m n r)

/-- The pairs of kinds that are intersected: the same kind, or a single rank and any. -/
def Comparable : AnyTopology → AnyTopology → Prop
  | .tasks a, .tasks b =>
    match a.type, b.type with
    | .COORD _ _, .COORD _ _ | .RANGE _ _, .RANGE _ _ | .LIST _, .LIST _ => True
    | .SINGLE _, _ | _, .SINGLE _ => True
    | _, _ => False
  | .tasks a, .EPLIST _ => ∃ rank, a.type = .SINGLE rank
  | .EPLIST _, .tasks b => ∃ rank, b.type = .SINGLE rank
  | .EPLIST _, .EPLIST _ => False

def Once (size size' : ℕ) (ranklist ranklist' : ℕ → ℕ) : Prop :=
  ∀ i < size, ∀ j < size', ∀ i' < size, ∀ j' < size', ranklist i = ranklist' j →
    ranklist i' = ranklist' j' → ranklist i = ranklist i' → i = i' ∧ j = j'

/-- When the kinds are intersected: rectangle segments that overlap in every dimension or lie one
before the other in every dimension; lists where each common rank is once in both; a single rank where
`isRankMember` tells whether the other topology has it. -/
def Intersectable (m : Mapping) (n : ℕ) (a b : AnyTopology) : Prop :=
  match a, b with
  | .tasks a, .tasks b =>
    match a.type, b.type with
    | .COORD ll ur, .COORD ll' ur' => 0 < m.globalDims ∧
        ((∀ x < m.globalDims, ll' x ≤ ur x ∧ ll x ≤ ur' x) ∨
          (∀ x < m.globalDims, ur x < ll' x) ∨ ∀ x < m.globalDims, ur' x < ll x)
    | .LIST ranklist, .LIST ranklist' => Once a.size b.size ranklist ranklist'
    | .SINGLE rank, _ => b.isRankMember m rank = true ↔ b.Member m n rank
    | _, .SINGLE rank' => a.isRankMember m rank' = true ↔ a.Member m n rank'
    | _, _ => True
  | .tasks a, .EPLIST l => ∀ rank, a.type = .SINGLE rank →
      ((AnyTopology.EPLIST l).isRankMember m rank = true ↔ (AnyTopology.EPLIST l).Member m n rank)
  | .EPLIST l, .tasks b => ∀ rank, b.type = .SINGLE rank →
      ((AnyTopology.EPLIST l).isRankMember m rank = true ↔ (AnyTopology.EPLIST l).Member m n rank)
  | .EPLIST _, .EPLIST _ => True

/-- `_new` counts its ranks, or has none. -/
def CountsRanks (m : Mapping) (n : ℕ) (a b : AnyTopology) (new : Topology) : Prop :=
  new.allContexts = false ∨ new.offset = 1 ∨ ∀ r, ¬(a.Member m n r ∧ b.Member m n r)

variable {a b : AnyTopology} {new res : Topology}

theorem intersection_finite : {r | a.Member m n r ∧ b.Member m n r}.Finite :=
  (finite_lt_nat n).subset fun _ hr => hr.1.lt

theorem intersected_iff_counts (hcon : res.allContexts=new.allContexts)
    (hoft : res.offset=new.offset)
    (hmem : ∀ r, res.Member m n r ↔ a.Member m n r ∧ b.Member m n r)
    (hsi : res.size = {r | a.Member m n r ∧ b.Member m n r}.ncard)
    (hemp : res.type = .EMPTY ↔ ∀ r, ¬(a.Member m n r ∧ b.Member m n r)) :
    Intersected m n a b res ↔ CountsRanks m n a b new := by
  have hiff : res.numRanks = {r | a.Member m n r ∧ b.Member m n r}.ncard ↔ CountsRanks m n a b new := by
    rw [numRanks,CountsRanks,hcon,hoft,← hsi]
    cases hall : new.allContexts with
    | false => simp
    | true =>
      have hzr : res.size=0 ↔ ∀ r, ¬(a.Member m n r ∧ b.Member m n r) := by
        rw [hsi,ncard_eq_zero intersection_finite,eq_empty_iff_forall_notMem]
        rfl
      rw [if_pos rfl,← hzr]
      constructor
      · intro h
        by_cases h0 : res.size=0
        · exact .inr (.inr h0)
        · exact .inr (.inl (Nat.eq_of_mul_eq_mul_left (pos_of_ne_zero h0) (by omega)))
      · rintro (h | h | h)
        · cases h
        · rw [h,mul_one]
        · rw [h,zero_mul]
  exact ⟨fun h => hiff.mp h.size,fun h => ⟨hmem,hiff.mpr h,hemp⟩⟩

theorem intersected_toEmpty :
    Intersected m n a b new.toEmpty ↔ ∀ r, ¬(a.Member m n r ∧ b.Member m n r) := by
  constructor
  · intro h
    exact h.empty.mp rfl
  · intro h
    have hcos : Intersected m n a b new.toEmpty ↔ CountsRanks m n a b new := by
      refine intersected_iff_counts rfl rfl (fun r => ?_) ?_ ?_
      · exact iff_of_false (toEmpty_member new r) (h r)
      · show 0 = _
        symm
        rw [ncard_eq_zero intersection_finite,eq_empty_iff_forall_notMem]
        exact h
      · exact iff_of_true rfl h
    exact hcos.mpr (.inr (.inr h))

theorem intersected_toSingle {rank : ℕ} (hr : rank<n)
    (h : ∀ r, a.Member m n r ∧ b.Member m n r → r=rank) :
    Intersected m n a b (new.toSingle rank) ↔ (a.Member m n rank ∧ b.Member m n rank) ∧ CountsRanks m n a b new := by
  by_cases hrk : a.Member m n rank ∧ b.Member m n rank
  · have hset : {r | a.Member m n r ∧ b.Member m n r} = {rank} := by
      ext r
      exact ⟨fun hr => h r hr,fun hr => by rw [mem_singleton_iff.mp hr]; exact hrk⟩
    rw [and_iff_right hrk]
    refine intersected_iff_counts rfl rfl (fun r => ⟨fun hr' => ?_,fun hr' => ?_⟩) ?_ ?_
    · rw [hr'.2]
      exact hrk
    · exact ⟨hr'.1.lt,h r hr'⟩
    · rw [hset,ncard_singleton]
      rfl
    · exact iff_of_false (fun h => by cases h) fun hnn => hnn rank hrk
  · refine iff_of_false (fun hi => ?_) fun hi => hrk hi.1
    exact hrk ((hi.member rank).mp ⟨hr,rfl⟩)

theorem intersected_single {rank : ℕ} {other : AnyTopology} (hr : rank<n)
    (hab : ∀ r, a.Member m n r ∧ b.Member m n r ↔ r=rank ∧ other.Member m n rank) :
    Intersected m n a b (intersectSingle m new other rank) ↔
      (other.isRankMember m rank = true ↔ other.Member m n rank) ∧ CountsRanks m n a b new := by
  have hrk : a.Member m n rank ∧ b.Member m n rank ↔ other.Member m n rank := by rw [hab rank,and_iff_right rfl]
  rw [intersectSingle]
  by_cases hmem : other.isRankMember m rank=true
  · rw [if_pos hmem,intersected_toSingle hr fun r h => ((hab r).mp h).1,hrk,iff_true_left hmem]
  · rw [if_neg hmem,intersected_toEmpty,iff_false_left hmem]
    have hnn : (∀ r, ¬(a.Member m n r ∧ b.Member m n r)) ↔ ¬other.Member m n rank := by
      constructor
      · intro h hoth
        exact h rank (hrk.mpr hoth)
      · intro h r hr
        exact h ((hab r).mp hr).2
    rw [hnn]
    exact ⟨fun h => ⟨h,.inr (.inr (hnn.mpr h))⟩,fun h => h.1⟩

theorem intersected_coord (hm : m.Bijective n)
    (hb : ∀ x < m.globalDims, ll x ≤ ur x ∧ ur x < m.torusSize x)
    (hb' : ∀ x < m.globalDims, ll' x ≤ ur' x ∧ ur' x < m.torusSize x)
    (ha : ∀ r, a.Member m n r ↔ r<n ∧ (Box.mk ll ur).Inside m.globalDims (m.task2network r))
    (hb'' : ∀ r, b.Member m n r ↔ r<n ∧ (Box.mk ll' ur').Inside m.globalDims (m.task2network r)) :
    Intersected m n a b (intersectCoord m new ll ur ll' ur') ↔
      (0 < m.globalDims ∧ ((∀ x < m.globalDims, ll' x ≤ ur x ∧ ll x ≤ ur' x) ∨
        (∀ x < m.globalDims, ur x < ll' x) ∨ ∀ x < m.globalDims, ur' x < ll x)) ∧
      CountsRanks m n a b new := by
  have hbt (r : ℕ) : a.Member m n r ∧ b.Member m n r ↔ r<n ∧
      ((Box.mk ll ur).inter (Box.mk ll' ur')).Inside m.globalDims (m.task2network r) := by
    rw [ha,hb'',Box.inside_inter]
    exact ⟨fun h => ⟨h.1.1,h.1.2,h.2.2⟩,fun h => ⟨⟨h.1,h.2.1⟩,h.1,h.2.2⟩⟩
  have hove {r x : ℕ} (hr : a.Member m n r ∧ b.Member m n r) (hx : x < m.globalDims) :
      ll' x ≤ ur x ∧ ll x ≤ ur' x := by
    have hra := ((ha r).mp hr.1).2 x hx
    have hrb := ((hb'' r).mp hr.2).2 x hx
    simp only at hra hrb
    omega
  rw [intersectCoord]
  by_cases hlt : (coordLT ur ll' m.globalDims || coordLT ur' ll m.globalDims)=true
  · rw [if_pos hlt,intersected_toEmpty]
    rw [Bool.or_eq_true,coordLT_iff,coordLT_iff] at hlt
    rcases eq_zero_or_pos m.globalDims with hd | hd
    · -- without dimensions there is one task, in every segment
      refine iff_of_false (fun h => ?_) fun h => lt_irrefl 0 (hd ▸ h.1.1)
      refine h (m.network2task ll) ((hbt _).mpr ⟨hm.task ll fun x hx => ?_,fun x hx => ?_⟩)
      · omega
      · omega
    · have hnn : ∀ r, ¬(a.Member m n r ∧ b.Member m n r) := by
        intro r hr
        have h0 := hove hr hd
        rcases hlt with hlt | hlt
        · exact absurd (hlt 0 hd) (by omega)
        · exact absurd (hlt 0 hd) (by omega)
      exact iff_of_true hnn ⟨⟨hd,.inr hlt⟩,.inr (.inr hnn)⟩
  · rw [if_neg hlt]
    rw [Bool.or_eq_true,coordLT_iff,coordLT_iff] at hlt
    have hd : 0 < m.globalDims := by
      by_contra hd
      exact hlt (.inl fun x hx => absurd hx (by omega))
    by_cases hall : ∀ x < m.globalDims, ll' x ≤ ur x ∧ ll x ≤ ur' x
    · rw [and_iff_right (show _ ∧ _ from ⟨hd,.inl hall⟩)]
      have hcor : ∀ x < m.globalDims, coordMAX ll ll' x ≤ coordMIN ur ur' x ∧ coordMIN ur ur' x < m.torusSize x := by
        intro x hx
        have h := hall x hx
        have hx' := hb x hx
        have hx'' := hb' x hx
        simp only [coordMAX,coordMIN]
        split_ifs <;> omega
      obtain ⟨hcou,hle⟩ := coord_ncard hm hcor
      have hset : {r | a.Member m n r ∧ b.Member m n r} = {r | r<n ∧
          (Box.mk (coordMAX ll ll') (coordMIN ur ur')).Inside m.globalDims (m.task2network r)} := by
        ext r
        rw [mem_ofPred_eq,hbt,← inter_corners]
        rfl
      refine intersected_iff_counts rfl rfl (fun r => ?_) ?_ (iff_of_false (fun h => by cases h) ?_)
      · rw [hbt,← inter_corners]
        rfl
      · rw [hset,hcou]
        exact sizeRangeWords_eq (fun x hx => (hcor x hx).1) (lt_of_le_of_lt hle hm.small)
      · intro hnn
        have hpos := Box.card_pos (b := Box.mk (coordMAX ll ll') (coordMIN ur ur')) m.globalDims
        rw [← hcou,← hset,ncard_pos intersection_finite] at hpos
        obtain ⟨r,hr⟩ := hpos
        exact hnn r hr
    · have hnn : ∀ r, ¬(a.Member m n r ∧ b.Member m n r) := fun r hr => hall fun x hx => hove hr hx
      refine iff_of_false (fun h => ?_) fun h => ?_
      · cases h.empty.mpr hnn
      · exact h.1.2.elim hall hlt

theorem intersected_range {first last first' last' : ℕ} (hfir : first≤last) (hla : last<n)
    (hfir' : first'≤last')
    (ha : ∀ r, a.Member m n r ↔ r<n ∧ first ≤ r ∧ r≤last)
    (hb : ∀ r, b.Member m n r ↔ r<n ∧ first' ≤ r ∧ r≤last') :
    Intersected m n a b (intersectRange new first last first' last') ↔ CountsRanks m n a b new := by
  rw [intersectRange]
  by_cases hdis : last<first' ∨ last'<first
  · have hnn : ∀ r, ¬(a.Member m n r ∧ b.Member m n r) := by
      intro r hr
      rw [ha,hb] at hr
      omega
    rw [if_pos hdis,intersected_toEmpty]
    exact iff_of_true hnn (.inr (.inr hnn))
  · have hbt (r : ℕ) : a.Member m n r ∧ b.Member m n r ↔ max first first' ≤ r ∧ r ≤ min last last' := by
      rw [ha,hb]
      omega
    have hmax : (if first'<first then first else first')=max first first' := by
      split_ifs <;> omega
    have hmin : (if last<last' then last else last')=min last last' := by
      split_ifs <;> omega
    rw [if_neg hdis,hmax,hmin]
    have hset : {r | a.Member m n r ∧ b.Member m n r} = ((List.range' (max first first')
        (min last last'-max first first'+1)).toFinset : Set ℕ) := by
      ext r
      rw [mem_ofPred_eq,hbt,List.coe_toFinset,mem_ofPred_eq,mem_range'_1]
      omega
    refine intersected_iff_counts rfl rfl (fun r => ?_) ?_ (iff_of_false (fun h => by cases h) ?_)
    · rw [hbt]
      exact ⟨fun h => h.2,fun h => ⟨by omega,h⟩⟩
    · rw [hset,ncard_coe_finset,toFinset_card_of_nodup nodup_range',length_range']
    · intro hnn
      exact hnn (max first first') ((hbt _).mpr (by omega))

theorem commonRanks_eq (size size' : ℕ) (ranklist ranklist' : ℕ → ℕ) :
    commonRanks size size' ranklist ranklist' =
      ((List.range size ×ˢ List.range size').filter fun q => ranklist q.1 == ranklist' q.2).map
        fun q => ranklist q.1 := by
  rw [commonRanks]
  show _ = List.map _ (List.filter _ (List.flatMap _ _))
  rw [filter_flatMap,map_flatMap]
  simp only [filter_map,List.map_map]
  rfl

theorem commonRanks_nodup {size size' : ℕ} {ranklist ranklist' : ℕ → ℕ} :
    (commonRanks size size' ranklist ranklist').Nodup ↔ Once size size' ranklist ranklist' := by
  have hpai : (List.range size ×ˢ List.range size').Nodup := nodup_range.product nodup_range
  rw [commonRanks_eq,nodup_map_iff_inj_on (hpai.filter _)]
  simp only [mem_filter,mem_product,List.mem_range,beq_iff_eq,Prod.forall,Prod.mk.injEq,Once]
  constructor
  · intro h i hi j hj i' hi' j' hj' hij hij' heq
    exact h i j ⟨⟨hi,hj⟩,hij⟩ i' j' ⟨⟨hi',hj'⟩,hij'⟩ heq
  · intro h i j hij i' j' hij' heq
    exact h i hij.1.1 j hij.1.2 i' hij'.1.1 j' hij'.1.2 hij.2 hij'.2 heq

theorem mem_commonRanks {size size' r : ℕ} {ranklist ranklist' : ℕ → ℕ} :
    r ∈ commonRanks size size' ranklist ranklist' ↔ (∃ i < size, ranklist i = r) ∧ ∃ j < size', ranklist' j = r := by
  simp only [commonRanks,mem_flatMap,List.mem_range,mem_map,mem_filter,beq_iff_eq]
  constructor
  · rintro ⟨i,hi,j,⟨hj,hij⟩,rfl⟩
    exact ⟨⟨i,hi,rfl⟩,j,hj,hij.symm⟩
  · rintro ⟨⟨i,hi,rfl⟩,j,hj,hij⟩
    exact ⟨i,hi,j,⟨hj,hij.symm⟩,rfl⟩

theorem intersected_list {size size' : ℕ} {ranklist ranklist' : ℕ → ℕ}
    (hlt : ∀ i < size, ranklist i < n)
    (ha : ∀ r, a.Member m n r ↔ r<n ∧ ∃ i < size, ranklist i = r)
    (hb : ∀ r, b.Member m n r ↔ r<n ∧ ∃ i < size', ranklist' i = r) :
    Intersected m n a b (if (commonRanks size size' ranklist ranklist').length=0 then new.toEmpty
        else new.toList (commonRanks size size' ranklist ranklist')) ↔
      Once size size' ranklist ranklist' ∧ CountsRanks m n a b new := by
  have hbt (r : ℕ) : a.Member m n r ∧ b.Member m n r ↔ r ∈ commonRanks size size' ranklist ranklist' := by
    rw [ha,hb,mem_commonRanks]
    constructor
    · intro h
      exact ⟨h.1.2,h.2.2⟩
    · rintro ⟨⟨i,hi,rfl⟩,h⟩
      exact ⟨⟨hlt i hi,i,hi,rfl⟩,hlt i hi,h⟩
  rw [← commonRanks_nodup]
  generalize commonRanks size size' ranklist ranklist'=rl at hbt
  have hset : {r | a.Member m n r ∧ b.Member m n r} = (rl.toFinset : Set ℕ) := by
    ext r
    simp [hbt]
  by_cases hzr : rl.length=0
  · obtain rfl := length_eq_zero_iff.mp hzr
    have hnn : ∀ r, ¬(a.Member m n r ∧ b.Member m n r) := by
      intro r hr
      cases (hbt r).mp hr
    rw [if_pos hzr,intersected_toEmpty]
    exact iff_of_true hnn ⟨nodup_nil,.inr (.inr hnn)⟩
  · rw [if_neg hzr]
    by_cases hnod : rl.Nodup
    · rw [and_iff_right hnod]
      refine intersected_iff_counts rfl rfl (fun r => ?_) ?_ (iff_of_false (fun h => by cases h) ?_)
      · rw [hbt]
        exact toList_member (fun r hr => ((hbt r).mpr hr).1.lt) r
      · rw [hset,ncard_coe_finset,toFinset_card_of_nodup hnod]
        rfl
      · intro hnn
        obtain ⟨r,hr⟩ := exists_mem_of_length_pos (pos_of_ne_zero hzr)
        exact hnn r ((hbt r).mpr hr)
    · refine iff_of_false (fun h => ?_) fun h => hnod h.1
      have hcard : (new.toList rl).numRanks=rl.dedup.length := by rw [h.size,hset,ncard_coe_finset,card_toFinset]
      have hlt : rl.dedup.length < rl.length := by
        refine lt_of_le_of_ne rl.dedup_sublist.length_le fun heq => hnod ?_
        exact dedup_eq_self.mp (rl.dedup_sublist.eq_of_length heq)
      have hpos : 0 < rl.dedup.length := by
        obtain ⟨r,hr⟩ := exists_mem_of_length_pos (pos_of_ne_zero hzr)
        exact length_pos_of_mem (mem_dedup.mpr hr)
      have hran : (new.toList rl).numRanks = if new.allContexts then rl.length*new.offset
          else rl.length := rfl
      rw [hcard] at hran
      split_ifs at hran
      · rcases eq_zero_or_pos new.offset with hoft | hoft
        · rw [hoft,mul_zero] at hran
          omega
        · have := Nat.le_mul_of_pos_right rl.length hoft
          omega
      · omega

theorem single_and {t : Topology} {rank : ℕ} (ht : t.type = .SINGLE rank) (r : ℕ) :
    (AnyTopology.tasks t).Member m n r ∧ b.Member m n r ↔ r=rank ∧ b.Member m n rank := by
  have hmem : (AnyTopology.tasks t).Member m n r ↔ r<n ∧ r=rank := by simp only [AnyTopology.Member,Member,ht]
  rw [hmem]
  constructor
  · rintro ⟨⟨-,rfl⟩,h⟩
    exact ⟨rfl,h⟩
  · rintro ⟨rfl,h⟩
    exact ⟨⟨h.lt,rfl⟩,h⟩

/-- The result is the intersection exactly when the pair is intersectable and `_new` counts ranks. -/
theorem intersect_iff (hm : m.Bijective n) (ha : a.WellFormed m n) (hb : b.WellFormed m n)
    (hp : Comparable a b) :
    Intersected m n a b (intersectTopology m new a b) ↔ Intersectable m n a b ∧ CountsRanks m n a b new := by
  match a, b with
  | .EPLIST _, .EPLIST _ => exact hp.elim
  | .tasks s, .EPLIST l =>
    obtain ⟨rank,hs⟩ := hp
    have hr : rank<n := by
      simp only [AnyTopology.WellFormed,WellFormed,hs] at ha
      exact ha.2
    simp only [intersectTopology,Intersectable,hs,Kind.SINGLE.injEq,forall_eq']
    exact intersected_single hr (single_and hs)
  | .EPLIST l, .tasks t =>
    obtain ⟨rank,ht⟩ := hp
    have hr : rank<n := by
      simp only [AnyTopology.WellFormed,WellFormed,ht] at hb
      exact hb.2
    simp only [intersectTopology,Intersectable,ht,Kind.SINGLE.injEq,forall_eq']
    exact intersected_single hr fun r => and_comm.trans (single_and ht r)
  | .tasks s, .tasks t =>
    simp only [AnyTopology.WellFormed,WellFormed] at ha hb
    have hlf {rank : ℕ} (hs : s.type = .SINGLE rank) (hr : rank<n) :
        Intersected m n (.tasks s) (.tasks t) (intersectSingle m new (.tasks t) rank) ↔
          (t.isRankMember m rank=true ↔ t.Member m n rank) ∧
            CountsRanks m n (.tasks s) (.tasks t) new := intersected_single hr (single_and hs)
    have hrig {rank : ℕ} (ht : t.type = .SINGLE rank) (hr : rank<n) :
        Intersected m n (.tasks s) (.tasks t) (intersectSingle m new (.tasks s) rank) ↔
          (s.isRankMember m rank=true ↔ s.Member m n rank) ∧ CountsRanks m n (.tasks s) (.tasks t) new :=
      intersected_single hr fun r => and_comm.trans (single_and ht r)
    cases hs : s.type with
    | EMPTY =>
      cases ht : t.type with
      | SINGLE rank' =>
        rw [ht] at hb
        simp only [intersectTopology,Intersectable,hs,ht]
        exact hrig ht hb.2
      | _ => simp [Comparable,hs,ht] at hp
    | SINGLE rank =>
      rw [hs] at ha
      cases ht : t.type with
      | SINGLE rank' =>
        have hsm : intersectSingle m new (.tasks t) rank =
            if rank'=rank then new.toSingle rank else new.toEmpty := by
          simp only [intersectSingle,AnyTopology.isRankMember,isRankMember,ht,beq_iff_eq]
          simp only [eq_comm]
        simp only [intersectTopology,Intersectable,hs,ht]
        rw [← hsm]
        exact hlf hs ha.2
      | _ =>
        simp only [intersectTopology,Intersectable,hs,ht]
        exact hlf hs ha.2
    | RANGE first last =>
      rw [hs] at ha
      cases ht : t.type with
      | SINGLE rank' =>
        rw [ht] at hb
        simp only [intersectTopology,Intersectable,hs,ht]
        exact hrig ht hb.2
      | RANGE first' last' =>
        rw [ht] at hb
        simp only [intersectTopology,Intersectable,hs,ht,true_and]
        refine intersected_range ha.1 ha.2.1 hb.1 (fun r => ?_) fun r => ?_
        · simp only [AnyTopology.Member,Member,hs]
        · simp only [AnyTopology.Member,Member,ht]
      | _ => simp [Comparable,hs,ht] at hp
    | LIST ranklist =>
      rw [hs] at ha
      cases ht : t.type with
      | SINGLE rank' =>
        rw [ht] at hb
        simp only [intersectTopology,Intersectable,hs,ht]
        exact hrig ht hb.2
      | LIST ranklist' =>
        simp only [intersectTopology,Intersectable,hs,ht]
        refine intersected_list ha (fun r => ?_) fun r => ?_
        · simp only [AnyTopology.Member,Member,hs]
        · simp only [AnyTopology.Member,Member,ht]
      | _ => simp [Comparable,hs,ht] at hp
    | COORD ll ur =>
      rw [hs] at ha
      cases ht : t.type with
      | SINGLE rank' =>
        rw [ht] at hb
        simp only [intersectTopology,Intersectable,hs,ht]
        exact hrig ht hb.2
      | COORD ll' ur' =>
        rw [ht] at hb
        simp only [intersectTopology,Intersectable,hs,ht]
        refine intersected_coord hm ha.1 hb.1 (fun r => ?_) fun r => ?_
        · simp only [AnyTopology.Member,Member,hs]
        · simp only [AnyTopology.Member,Member,ht]
      | _ => simp [Comparable,hs,ht] at hp
    | AXIAL ll ur center =>
      cases ht : t.type with
      | SINGLE rank' =>
        rw [ht] at hb
        simp only [intersectTopology,Intersectable,hs,ht]
        exact hrig ht hb.2
      | _ => simp [Comparable,hs,ht] at hp

def rows (first last : ℕ) : AnyTopology :=
  .tasks ⟨.COORD (fun x => if x = 0 then first else 0) fun x => if x = 0 then last else 3,
    (last - first + 1) * 4, 0, false⟩

theorem rows_wellFormed {first last : ℕ} (h : first≤last) (h' : last<4) :
    (rows first last).WellFormed grid 16 := by
  refine ⟨fun x _ => ?_,?_⟩
  · show (if x=0 then first else 0)≤(if x=0 then last else 3) ∧ (if x=0 then last else 3)<4
    split_ifs <;> omega
  · simp [grid,Box.card,Box.width]

theorem intersect_iff_rows : Intersected grid 16 (rows 0 2) (rows 1 3)
    (intersectTopology grid ⟨.EMPTY, 0, 0, false⟩ (rows 0 2) (rows 1 3)) :=
  (intersect_iff grid_bijective (rows_wellFormed (by decide) (by decide))
    (rows_wellFormed (by decide) (by decide)) trivial).mpr ⟨⟨by decide,.inl (by decide)⟩,.inl rfl⟩

/-- Rows above each other give a rectangle segment that is not empty. -/
theorem rows_not_intersected : grid.Bijective 16 ∧ (rows 0 1).WellFormed grid 16 ∧
    (rows 2 3).WellFormed grid 16 ∧ ¬Intersected grid 16 (rows 0 1) (rows 2 3)
      (intersectTopology grid ⟨.EMPTY, 0, 0, false⟩ (rows 0 1) (rows 2 3)) := by
  refine ⟨grid_bijective,rows_wellFormed (by decide) (by decide),
    rows_wellFormed (by decide) (by decide),fun h => ?_⟩
  have hemp := h.empty.mpr fun r hr => by
    have hra : r / 4≤1 := (hr.1.2 0 (by decide)).2
    have hrb : 2 ≤ r / 4 := (hr.2.2 0 (by decide)).1
    omega
  cases hemp

end Topology

end PAMI.Common

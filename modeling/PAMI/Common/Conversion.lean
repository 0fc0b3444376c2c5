import PAMI.Common.Bijection
import PAMI.Common.Subtraction

namespace PAMI.Common

open Topology List Nat

/-- `pami_topology_type_t`. -/
inductive TopologyType
  | EMPTY
  | SINGLE
  | RANGE
  | LIST
  | COORD
  | AXIAL
  | EPLIST
  deriving DecidableEq, Repr

/-- A topology with the flag that says whether it owns its rank list. -/
structure Holder where
  topology : AnyTopology
  freeRanklist : Bool

/-- What the memory holds where the code reads it in another way than it was written: the rank that
`COORDS2RANK` leaves when it is given the union with a pointer in it, and a rank list after it was
freed. -/
structure Leftover where
  coordsRank : ℕ
  freed : ℕ → ℕ

/-- The loops of `__analyzeCoordsRange` and `__analyzeCoordsList`: the corners around the coordinates of
some ranks. -/
def coordsAround (m : Mapping) (rank : ℕ) (ranks : List ℕ) : Coord × Coord :=
  (ranks.map m.task2network).foldl bumpRange (m.task2network rank, m.task2network rank)

/-- The loop of `__analyzeRangeList`. -/
def bumpMinMax (mm : ℕ × ℕ) (rank : ℕ) : ℕ × ℕ :=
  if rank < mm.1 then (rank, mm.2) else if mm.2 < rank then (mm.1, rank) else mm

def restOfList (ranklist : ℕ → ℕ) (size : ℕ) : List ℕ := (List.range' 1 (size - 1)).map ranklist

/-- Whether the corners around a rank list enclose as many coordinates as it has entries. -/
def fillsCoords (m : Mapping) (ranklist : ℕ → ℕ) (size : ℕ) : Bool :=
  let lu := coordsAround m (ranklist 0) (restOfList ranklist size)
  sizeRange lu.1 lu.2 m.globalDims == size

/-- Whether there are as many ranks from the least to the greatest of a rank list as it has entries. -/
def fillsRange (ranklist : ℕ → ℕ) (size : ℕ) : Bool :=
  let mm := (restOfList ranklist size).foldl bumpMinMax (ranklist 0, ranklist 0)
  size == mm.2 - mm.1 + 1

namespace Topology

variable (m : Mapping) (t : Topology) (freeRanklist : Bool)

def unchanged : Bool × Holder := (false, ⟨.tasks t, freeRanklist⟩)

/-- The topology becomes one of another type; `__free_ranklist` as given. -/
def become (type : Kind) : Bool × Holder := (true, ⟨.tasks { t with type := type }, freeRanklist⟩)

def analyzeCoordsRange (first last : ℕ) : Bool × Holder :=
  let lu := coordsAround m first (List.range' (first + 1) (last - first))
  if sizeRange lu.1 lu.2 m.globalDims = t.size then t.become freeRanklist (.COORD lu.1 lu.2)
  else t.unchanged freeRanklist

def analyzeCoordsList (ranklist : ℕ → ℕ) : Bool × Holder :=
  let lu := coordsAround m (ranklist 0) (restOfList ranklist t.size)
  if fillsCoords m ranklist t.size then t.become false (.COORD lu.1 lu.2)
  else t.unchanged freeRanklist

def analyzeRangeList (ranklist : ℕ → ℕ) : Bool × Holder :=
  let mm := (restOfList ranklist t.size).foldl bumpMinMax (ranklist 0, ranklist 0)
  if fillsRange ranklist t.size then t.become false (.RANGE mm.1 mm.2)
  else t.unchanged freeRanklist

/-- `analyzeTopology`. A list of one rank takes the branch that was written for a rectangle segment. -/
def analyzeTopology (leftover : Leftover) : Bool × Holder :=
  match t.type with
  | .LIST ranklist =>
    if t.size = 1 then t.become freeRanklist (.SINGLE leftover.coordsRank)
    else
      let r := t.analyzeCoordsList m freeRanklist ranklist
      if r.1 then r else t.analyzeRangeList freeRanklist ranklist
  | .RANGE first last =>
    if t.size = 1 then t.become freeRanklist (.SINGLE first)
    else t.analyzeCoordsRange m freeRanklist first last
  | _ => t.unchanged freeRanklist

/-- The ranks of a rectangle segment in the order of `__nextCoord`, for which `convertTopology` has
allocated `__size` entries. -/
def ranksOfCoord (ll ur : Coord) : List ℕ := (walkCoords ll ur m.globalDims t.size ll).map m.network2task

def convertTopology (leftover : Leftover) (type : TopologyType) : Bool × Holder :=
  match t.type, type with
  | .SINGLE rank, .COORD => t.become freeRanklist (.COORD (m.task2network rank) (m.task2network rank))
  | .SINGLE rank, .RANGE => t.become freeRanklist (.RANGE rank rank)
  | .SINGLE rank, .LIST => t.become true (.LIST fun i => [rank].getD i 0)
  | .RANGE first last, .COORD => t.analyzeCoordsRange m freeRanklist first last
  | .RANGE first _, .SINGLE => if t.size = 1 then t.become freeRanklist (.SINGLE first) else t.unchanged freeRanklist
  | .RANGE first last, .LIST => t.become true (.LIST fun i => (List.range' first (last - first + 1)).getD i 0)
  | .LIST ranklist, .COORD => t.analyzeCoordsList m freeRanklist ranklist
  | .LIST ranklist, .SINGLE =>
    if t.size = 1 then
      -- the list is freed before its rank is read
      t.become false (.SINGLE (if freeRanklist then leftover.freed 0 else ranklist 0))
    else t.unchanged freeRanklist
  | .LIST ranklist, .RANGE => t.analyzeRangeList freeRanklist ranklist
  | .COORD ll _, .SINGLE =>
    if t.size = 1 then t.become freeRanklist (.SINGLE (m.network2task ll))
    else t.unchanged freeRanklist
  | .COORD ll ur, .LIST => t.become true (.LIST fun i => (t.ranksOfCoord m ll ur).getD i 0)
  | .COORD ll ur, .RANGE =>
    let min := (t.ranksOfCoord m ll ur).foldl min noTask
    let max := (t.ranksOfCoord m ll ur).foldl max 0
    if t.size = max - min + 1 then t.become freeRanklist (.RANGE min max)
    else t.unchanged freeRanklist
  | _, _ => t.unchanged freeRanklist

example (leftover : Leftover) (type : TopologyType) (h : t.type = .EMPTY) :
    t.convertTopology m freeRanklist leftover type = t.unchanged freeRanklist := by
  simp only [convertTopology,h]

end Topology

namespace Holder

variable (m : Mapping) (leftover : Leftover)

/-- `analyzeTopology` and `convertTopology`, which leave lists of endpoints as they are: whether the
topology was changed, and what it is then. -/
def analyzeTopology (s : Holder) : Bool × Holder :=
  match s.topology with
  | .tasks t => t.analyzeTopology m s.freeRanklist leftover
  | .EPLIST _ => (false, s)

def convertTopology (s : Holder) (type : TopologyType) : Bool × Holder :=
  match s.topology with
  | .tasks t => t.convertTopology m s.freeRanklist leftover type
  | .EPLIST _ => (false, s)

end Holder

open Math (Box)

variable {m : Mapping} {n : ℕ} {ranklist : ℕ → ℕ} {size rank : ℕ} {ranks : List ℕ}

def Distinct (ranklist : ℕ → ℕ) (size : ℕ) : Prop := ∀ i < size, ∀ j < size, ranklist i = ranklist j → i = j

theorem nodup_iff_distinct : ((List.range size).map ranklist).Nodup ↔ Distinct ranklist size := by
  rw [nodup_map_iff_inj_on nodup_range]
  simp only [List.mem_range,Distinct]

theorem ranks_of_list (ranklist : ℕ → ℕ) (hsi : size≠0) :
    (List.range size).map ranklist = ranklist 0 :: restOfList ranklist size := by
  obtain ⟨k,rfl⟩ := exists_eq_succ_of_ne_zero hsi
  rw [restOfList,range_eq_range',range'_succ]
  rfl

theorem coordsAround_spec (hm : m.Bijective n) (hlt : ∀ r ∈ rank :: ranks, r<n) :
    (∀ x < m.globalDims, (coordsAround m rank ranks).1 x ≤ (coordsAround m rank ranks).2 x ∧
        (coordsAround m rank ranks).2 x < m.torusSize x) ∧
      ∀ r ∈ rank :: ranks, (Box.mk (coordsAround m rank ranks).1 (coordsAround m rank ranks).2).Inside
        m.globalDims (m.task2network r) := by
  have hspec := fun x => foldl_bumpRange (ranks.map m.task2network)
    (m.task2network rank, m.task2network rank) x le_rfl
  rw [← coordsAround] at hspec
  generalize coordsAround m rank ranks=lu at hspec
  have hlow (x : ℕ) : lu.1 x ≤ m.task2network rank x := (hspec x).1
  have hupp (x : ℕ) : m.task2network rank x ≤ lu.2 x := (hspec x).2.1
  refine ⟨fun x hx => ⟨(hlow x).trans (hupp x),?_⟩,fun r hr x hx => ?_⟩
  · have hcrd (r : ℕ) (hr : r ∈ rank :: ranks) :
        m.task2network r x < m.torusSize x := hm.coords r (hlt r hr) x hx
    have hrk := hcrd rank mem_cons_self
    have hall := (hspec x).2.2.2 0 (m.torusSize x-1) (zero_le _) (le_sub_one_of_lt hrk)
      fun c hc => by
        obtain ⟨r,hr,rfl⟩ := mem_map.mp hc
        exact ⟨zero_le _,le_sub_one_of_lt (hcrd r (mem_cons_of_mem _ hr))⟩
    omega
  · rcases mem_cons.mp hr with rfl | hr
    · exact ⟨hlow x,hupp x⟩
    · exact (hspec x).2.2.1 _ (mem_map_of_mem hr)

theorem coordsAround_covers (hm : m.Bijective n) (rank : ℕ) (ranks : List ℕ)
    (hlt : ∀ r ∈ rank :: ranks, r<n)
    (hsi : sizeRange (coordsAround m rank ranks).1 (coordsAround m rank ranks).2 m.globalDims =
      (rank :: ranks).length) :
    (∀ r, (r<n ∧ (Box.mk (coordsAround m rank ranks).1 (coordsAround m rank ranks).2).Inside
      m.globalDims (m.task2network r)) ↔ r ∈ rank :: ranks) ↔ (rank :: ranks).Nodup := by
  obtain ⟨hcor,hine⟩ := coordsAround_spec hm hlt
  rw [sizeRange_eq] at hsi
  exact covers_iff_nodup below_finite (fun r hr => ⟨hlt r hr,hine r hr⟩) ((coord_ncard hm hcor).1.trans hsi)

theorem foldl_bumpMinMax (n : ℕ) (ranks : List ℕ) (mm : ℕ × ℕ) (h : mm.1 ≤ mm.2) :
    (ranks.foldl bumpMinMax mm).1 ≤ mm.1 ∧ mm.2≤(ranks.foldl bumpMinMax mm).2 ∧
      (∀ r ∈ ranks, (ranks.foldl bumpMinMax mm).1 ≤ r ∧ r≤(ranks.foldl bumpMinMax mm).2) ∧
      (mm.2<n → (∀ r ∈ ranks, r<n) → (ranks.foldl bumpMinMax mm).2<n) := by
  induction ranks generalizing mm with
  | nil => exact ⟨le_rfl,le_rfl,fun r hr => (by cases hr),fun h _ => h⟩
  | cons r ranks ih =>
    have hbump : (bumpMinMax mm r).1 ≤ mm.1 ∧ mm.2≤(bumpMinMax mm r).2 ∧
        (bumpMinMax mm r).1 ≤ r ∧ r≤(bumpMinMax mm r).2 ∧
        (mm.2<n → r<n → (bumpMinMax mm r).2<n) := by
      rw [bumpMinMax]
      split_ifs <;> refine ⟨?_,?_,?_,?_,?_⟩ <;> omega
    obtain ⟨h1,h2,h3,h4,h5⟩ := hbump
    obtain ⟨i1,i2,i3,i4⟩ := ih (bumpMinMax mm r) (h3.trans h4)
    rw [foldl_cons]
    refine ⟨i1.trans h1,h2.trans i2,fun r' hr' => ?_,fun hn hlt => ?_⟩
    · rcases mem_cons.mp hr' with rfl | hr'
      · exact ⟨i1.trans h3,h4.trans i2⟩
      · exact i3 r' hr'
    · exact i4 (h5 hn (hlt r mem_cons_self)) fun r' hr' => hlt r' (mem_cons_of_mem _ hr')

theorem interval_ncard {first last : ℕ} (h : first≤last) (hla : last<n) :
    {r | r<n ∧ first ≤ r ∧ r≤last}.ncard=last-first+1 := by
  have hset : {r | r<n ∧ first ≤ r ∧ r≤last} = ((List.range' first (last-first+1)).toFinset : Set ℕ) := by
    ext r
    rw [List.coe_toFinset,Set.mem_ofPred_eq,Set.mem_ofPred_eq,mem_range'_1]
    omega
  rw [hset,Set.ncard_coe_finset,toFinset_card_of_nodup nodup_range',length_range']

theorem minMax_covers (rank : ℕ) (ranks : List ℕ) (hlt : ∀ r ∈ rank :: ranks, r<n)
    (hsi : (rank :: ranks).length =
      (ranks.foldl bumpMinMax (rank, rank)).2-(ranks.foldl bumpMinMax (rank, rank)).1+1) :
    (∀ r, (r<n ∧ (ranks.foldl bumpMinMax (rank, rank)).1 ≤ r ∧
      r≤(ranks.foldl bumpMinMax (rank, rank)).2) ↔ r ∈ rank :: ranks) ↔ (rank :: ranks).Nodup := by
  obtain ⟨hmin,hmax,hall,hn⟩ := foldl_bumpMinMax n ranks (rank, rank) le_rfl
  generalize ranks.foldl bumpMinMax (rank, rank)=mm at hsi hmin hmax hall hn
  have hla := hn (hlt rank mem_cons_self) fun r hr => hlt r (mem_cons_of_mem _ hr)
  refine covers_iff_nodup below_finite (fun r hr => ⟨hlt r hr,?_⟩)
    ((interval_ncard (hmin.trans hmax) hla).trans hsi.symm)
  rcases mem_cons.mp hr with rfl | hr
  · exact ⟨hmin,hmax⟩
  · exact hall r hr

theorem foldl_min_le (l : List ℕ) (a : ℕ) : l.foldl min a ≤ a ∧ ∀ i ∈ l, l.foldl min a ≤ i := by
  induction l generalizing a with
  | nil => exact ⟨le_rfl,fun i hi => (by cases hi)⟩
  | cons b l ih =>
    obtain ⟨h1,h2⟩ := ih (min a b)
    rw [foldl_cons]
    refine ⟨h1.trans (min_le_left a b),fun i hi => ?_⟩
    rcases mem_cons.mp hi with rfl | hi
    · exact h1.trans (min_le_right a i)
    · exact h2 i hi

theorem foldl_max_lt {l : List ℕ} {a : ℕ} (ha : a<n) (h : ∀ i ∈ l, i<n) : l.foldl max a < n := by
  induction l generalizing a with
  | nil => exact ha
  | cons b l ih => refine ih (max_lt ha (h b mem_cons_self)) fun i hi => h i (mem_cons_of_mem _ hi)

namespace Holder

/-- The result of a conversion: whether the topology was changed, and what it is then. If it was, it has
the members and the size from before, otherwise it is the same. -/
structure Kept (m : Mapping) (n : ℕ) (s : Holder) (r : Bool × Holder) : Prop where
  member : r.1 = true → ∀ rank, r.2.topology.Member m n rank ↔ s.topology.Member m n rank
  size : r.1 = true → r.2.topology.numRanks = s.topology.numRanks
  unchanged : r.1 = false → r.2 = s

/-- When `convertTopology` keeps the members: a list that is taken for a rectangle segment or a range has
no rank twice; and one that is freed for a single rank still holds that. -/
def Convertible (m : Mapping) (leftover : Leftover) (s : Holder) (type : TopologyType) : Prop :=
  match s.topology with
  | .EPLIST _ => True
  | .tasks t =>
    match t.type, type with
    | .LIST ranklist, .COORD => fillsCoords m ranklist t.size → Distinct ranklist t.size
    | .LIST ranklist, .RANGE => fillsRange ranklist t.size → Distinct ranklist t.size
    | .LIST ranklist, .SINGLE => t.size = 1 → s.freeRanklist → leftover.freed 0 = ranklist 0
    | _, _ => True

/-- When `analyzeTopology` keeps the members: a list that is taken for a rectangle segment or a range has
no rank twice; and one of a single rank has the rank that its pointer is read as. -/
def Analyzable (m : Mapping) (leftover : Leftover) (s : Holder) : Prop :=
  match s.topology with
  | .EPLIST _ => True
  | .tasks t =>
    match t.type with
    | .LIST ranklist =>
      if t.size = 1 then leftover.coordsRank = ranklist 0
      else fillsCoords m ranklist t.size ∨ fillsRange ranklist t.size → Distinct ranklist t.size
    | _ => True

variable {t : Topology} {free free' : Bool}

theorem kept_unchanged : Kept m n ⟨.tasks t,free⟩ (t.unchanged free) :=
  ⟨fun h => (by cases h),fun h => (by cases h),fun _ => rfl⟩

theorem kept_become {type : Kind} : Kept m n ⟨.tasks t,free⟩ (t.become free' type) ↔
    ∀ r, Topology.Member m n { t with type := type } r ↔ t.Member m n r :=
  ⟨fun h => h.member rfl,fun h => ⟨fun _ => h,fun _ => rfl,fun h => (by cases h)⟩⟩

theorem kept_if {p : Prop} [Decidable p] {type : Kind} :
    Kept m n ⟨.tasks t,free⟩ (if p then t.become free' type else t.unchanged free) ↔
      (p → ∀ r, Topology.Member m n { t with type := type } r ↔ t.Member m n r) := by
  by_cases hp : p
  · rw [if_pos hp,kept_become,forall_prop_of_true hp]
  · rw [if_neg hp]
    exact iff_of_true kept_unchanged fun h => absurd h hp

section Lists

variable (free : Bool) (ht : t.type = .LIST ranklist) (hlt : ∀ i < t.size, ranklist i < n)

include ht hlt

theorem kept_analyzeCoordsList (hm : m.Bijective n) :
    Kept m n ⟨.tasks t,free⟩ (t.analyzeCoordsList m free ranklist) ↔
      (fillsCoords m ranklist t.size → Distinct ranklist t.size) := by
  rw [analyzeCoordsList,kept_if]
  refine imp_congr_right fun hfil => ?_
  have hfill : sizeRange _ _ _ = t.size := beq_iff_eq.mp hfil
  have hsi : t.size≠0 := by
    rw [← hfill,sizeRange_eq]
    exact (Box.card_pos _).ne'
  have hran := ranks_of_list ranklist hsi
  have hcov := coordsAround_covers hm (ranklist 0) (restOfList ranklist t.size) (fun r hr => ?_) ?_
  · rw [← nodup_iff_distinct,hran,← hcov]
    refine forall_congr' fun r => ?_
    rw [list_member ht hlt,hran]
    rfl
  · rw [← hran] at hr
    obtain ⟨i,hi,rfl⟩ := mem_map.mp hr
    exact hlt i (List.mem_range.mp hi)
  · rw [hfill,← hran,length_map,length_range]

theorem kept_analyzeRangeList :
    Kept m n ⟨.tasks t,free⟩ (t.analyzeRangeList free ranklist) ↔
      (fillsRange ranklist t.size → Distinct ranklist t.size) := by
  rw [analyzeRangeList,kept_if]
  refine imp_congr_right fun hfil => ?_
  have hfill : t.size = _-_+1 := beq_iff_eq.mp hfil
  have hsi : t.size≠0 := by omega
  have hran := ranks_of_list ranklist hsi
  have hcov := minMax_covers (n := n) (ranklist 0) (restOfList ranklist t.size) (fun r hr => ?_) ?_
  · rw [← nodup_iff_distinct,hran,← hcov]
    refine forall_congr' fun r => ?_
    rw [list_member ht hlt,hran]
    rfl
  · rw [← hran] at hr
    obtain ⟨i,hi,rfl⟩ := mem_map.mp hr
    exact hlt i (List.mem_range.mp hi)
  · rw [← hran,length_map,length_range]
    exact hfill

end Lists

theorem kept_analyzeCoordsRange (hm : m.Bijective n) {first last : ℕ} (ht : t.type = .RANGE first last)
    (hfir : first≤last) (hla : last<n) (hsi : t.size=last-first+1) :
    Kept m n ⟨.tasks t,free⟩ (t.analyzeCoordsRange m free first last) := by
  rw [analyzeCoordsRange,kept_if]
  intro hfill r
  have hran : first :: List.range' (first+1) (last-first) =
      List.range' first (last-first+1) := (range'_succ ..).symm
  have hcov := coordsAround_covers hm first (List.range' (first+1) (last-first))
    (fun r hr => ?_) ?_
  · have hmem := hcov.mpr (by rw [hran]; exact nodup_range') r
    refine Iff.trans hmem ?_
    rw [hran,mem_range'_1,Topology.Member,ht]
    simp only
    omega
  · rw [hran,mem_range'_1] at hr
    omega
  · rw [hfill,hran,length_range']
    exact hsi

section Coords

variable {ll ur : Coord} (hm : m.Bijective n) (ht : t.type = .COORD ll ur)
  (hb : ∀ x < m.globalDims, ll x ≤ ur x ∧ ur x < m.torusSize x)
  (hsi : t.size = (Box.mk ll ur).card m.globalDims)

include hm ht hb hsi

theorem ranksOfCoord_spec : (t.ranksOfCoord m ll ur).Nodup ∧ (∀ r, t.Member m n r ↔ r ∈ t.ranksOfCoord m ll ur) ∧
    (t.ranksOfCoord m ll ur).length=t.size := by
  have hw := walk_ranks hm hb
  have hlng := congrArg List.length (walkCoords_corner fun x hx => (hb x hx).1).2
  rw [length_map,length_range'] at hlng
  rw [ranksOfCoord,hsi]
  refine ⟨hw.nodup,fun r => ?_,?_⟩
  · rw [hw.mem,Topology.Member,ht]
  · rw [length_map,hlng]

theorem kept_coord_range : Kept m n ⟨.tasks t,free⟩
    (if t.size = (t.ranksOfCoord m ll ur).foldl max 0-(t.ranksOfCoord m ll ur).foldl min noTask+1 then
      t.become free (.RANGE ((t.ranksOfCoord m ll ur).foldl min noTask) ((t.ranksOfCoord m ll ur).foldl max 0))
    else t.unchanged free) := by
  obtain ⟨hnod,hmem,hlng⟩ := ranksOfCoord_spec hm ht hb hsi
  rw [kept_if]
  generalize t.ranksOfCoord m ll ur=rl at hnod hmem hlng
  intro hfill r
  have hlt : ∀ r ∈ rl, r<n := fun r hr => ((hmem r).mpr hr).1
  have hpos : 0 < rl.length := by
    rw [hlng,hsi]
    exact Box.card_pos _
  obtain ⟨rank,hrk⟩ := exists_mem_of_length_pos hpos
  have hmin := (foldl_min_le rl noTask).2
  have hmax := (le_foldl_max rl 0).2
  have hla := foldl_max_lt (zero_lt_of_lt (hlt rank hrk)) hlt
  have hcou := (interval_ncard ((hmin rank hrk).trans (hmax rank hrk)) hla).trans
    (hfill.symm.trans hlng.symm)
  rw [hmem]
  exact (covers_iff_nodup below_finite (fun r hr => ⟨hlt r hr,hmin r hr,hmax r hr⟩) hcou).mpr hnod r

end Coords

theorem single_coord (hm : m.Bijective n) (ht : t.type = .SINGLE rank) (hrk : rank<n) (r : ℕ) :
    Topology.Member m n { t with type := .COORD (m.task2network rank) (m.task2network rank) } r ↔ t.Member m n r := by
  simp only [Topology.Member,ht]
  constructor
  · rintro ⟨hr,hine⟩
    refine ⟨hr,hm.injective r hr rank hrk fun x hx => ?_⟩
    exact le_antisymm (hine x hx).2 (hine x hx).1
  · rintro ⟨hr,rfl⟩
    exact ⟨hr,fun x _ => ⟨le_rfl,le_rfl⟩⟩

theorem list_of_ranks (hlng : ranks.length=t.size)
    (hmem : ∀ r, t.Member m n r ↔ r ∈ ranks) (r : ℕ) :
    Topology.Member m n { t with type := .LIST fun i => ranks.getD i 0 } r ↔ t.Member m n r := by
  have hli := toList_member (m := m) (t := t) (fun r hr => ((hmem r).mpr hr).1) r
  rw [hmem,← hli,toList,hlng]

variable {leftover : Leftover}

theorem kept_convert_single (hm : m.Bijective n) (ht : t.type = .SINGLE rank) (hsi : t.size=1)
    (hrk : rank<n) (type : TopologyType) :
    Kept m n ⟨.tasks t,free⟩ (t.convertTopology m free leftover type) := by
  have hmem (r : ℕ) : t.Member m n r ↔ r<n ∧ r=rank := by simp only [Topology.Member,ht]
  cases type with
  | COORD =>
    simp only [Topology.convertTopology,ht]
    exact kept_become.mpr (single_coord hm ht hrk)
  | RANGE =>
    simp only [Topology.convertTopology,ht]
    refine kept_become.mpr fun r => ?_
    rw [hmem]
    show r<n ∧ rank ≤ r ∧ r ≤ rank ↔ _
    omega
  | LIST =>
    simp only [Topology.convertTopology,ht]
    refine kept_become.mpr (list_of_ranks hsi.symm fun r => ?_)
    rw [hmem,List.mem_singleton]
    exact ⟨fun h => h.2,fun h => ⟨by rw [h]; exact hrk,h⟩⟩
  | _ =>
    simp only [Topology.convertTopology,ht]
    exact kept_unchanged

theorem single_of_range {first last : ℕ} (ht : t.type = .RANGE first last) (hfir : first≤last)
    (hsi : t.size=last-first+1) (hone : t.size=1) (r : ℕ) :
    Topology.Member m n { t with type := .SINGLE first } r ↔ t.Member m n r := by
  simp only [Topology.Member,ht]
  omega

theorem kept_convert_range (hm : m.Bijective n) {first last : ℕ} (ht : t.type = .RANGE first last)
    (hfir : first≤last) (hla : last<n) (hsi : t.size=last-first+1)
    (type : TopologyType) :
    Kept m n ⟨.tasks t,free⟩ (t.convertTopology m free leftover type) := by
  cases type with
  | COORD =>
    simp only [Topology.convertTopology,ht]
    exact kept_analyzeCoordsRange hm ht hfir hla hsi
  | SINGLE =>
    simp only [Topology.convertTopology,ht]
    exact kept_if.mpr (single_of_range ht hfir hsi)
  | LIST =>
    simp only [Topology.convertTopology,ht]
    refine kept_become.mpr (list_of_ranks (by rw [length_range',hsi]) fun r => ?_)
    simp only [Topology.Member,ht,mem_range'_1]
    omega
  | _ =>
    simp only [Topology.convertTopology,ht]
    exact kept_unchanged

theorem single_of_list (ht : t.type = .LIST ranklist) (hlt : ∀ i<t.size, ranklist i < n)
    (hone : t.size=1) (rank : ℕ) :
    (∀ r, Topology.Member m n { t with type := .SINGLE rank } r ↔ t.Member m n r) ↔ rank = ranklist 0 := by
  have hmem (r : ℕ) : t.Member m n r ↔ r=ranklist 0 := by
    rw [list_member ht hlt,hone,mem_map]
    simp [eq_comm]
  have hfir : ranklist 0<n := hlt 0 (by omega)
  constructor
  · intro h
    exact ((h (ranklist 0)).mpr ((hmem _).mpr rfl)).2.symm
  · rintro rfl r
    rw [hmem]
    exact ⟨fun h => h.2,fun h => ⟨by rw [h]; exact hfir,h⟩⟩

theorem kept_convert_list (hm : m.Bijective n) (ht : t.type = .LIST ranklist)
    (hlt : ∀ i<t.size, ranklist i < n) (type : TopologyType) :
    Kept m n ⟨.tasks t,free⟩ (t.convertTopology m free leftover type) ↔
      Convertible m leftover ⟨.tasks t,free⟩ type := by
  cases type with
  | COORD =>
    simp only [Topology.convertTopology,Convertible,ht]
    exact kept_analyzeCoordsList free ht hlt hm
  | RANGE =>
    simp only [Topology.convertTopology,Convertible,ht]
    exact kept_analyzeRangeList free ht hlt
  | SINGLE =>
    simp only [Topology.convertTopology,Convertible,ht]
    rw [kept_if]
    refine imp_congr_right fun hone => ?_
    rw [single_of_list ht hlt hone]
    cases free with
    | false | true => simp
  | _ =>
    simp only [Topology.convertTopology,Convertible,ht]
    exact iff_of_true kept_unchanged trivial

theorem kept_convert_coord (hm : m.Bijective n) {ll ur : Coord} (ht : t.type = .COORD ll ur)
    (hb : ∀ x < m.globalDims, ll x ≤ ur x ∧ ur x < m.torusSize x)
    (hsi : t.size = (Box.mk ll ur).card m.globalDims) (type : TopologyType) :
    Kept m n ⟨.tasks t,free⟩ (t.convertTopology m free leftover type) := by
  obtain ⟨hnod,hmem,hlng⟩ := ranksOfCoord_spec hm ht hb hsi
  cases type with
  | SINGLE =>
    simp only [Topology.convertTopology,ht]
    refine kept_if.mpr fun hone r => ?_
    have hll : ∀ x < m.globalDims, ll x < m.torusSize x := fun x hx => lt_of_le_of_lt (hb x hx).1 (hb x hx).2
    have hcrn : t.Member m n (m.network2task ll) := by
      rw [Topology.Member,ht]
      refine ⟨hm.task ll hll,fun x hx => ?_⟩
      rw [hm.right ll hll x hx]
      exact ⟨le_rfl,(hb x hx).1⟩
    obtain ⟨rank,hrk⟩ := length_eq_one_iff.mp (hlng.trans hone)
    rw [hmem,hrk,List.mem_singleton] at hcrn ⊢
    rw [← hcrn]
    exact ⟨fun h => h.2,fun h => ⟨by rw [h]; exact hm.task ll hll,h⟩⟩
  | LIST =>
    simp only [Topology.convertTopology,ht]
    exact kept_become.mpr (list_of_ranks hlng hmem)
  | RANGE =>
    simp only [Topology.convertTopology,ht]
    exact kept_coord_range hm ht hb hsi
  | _ =>
    simp only [Topology.convertTopology,ht]
    exact kept_unchanged

/-- The conversions keep the members of a topology of the machine, and report what they do, exactly
when the topology is convertible, or analyzable. -/
theorem kept_iff (hm : m.Bijective n) (leftover : Leftover) (s : Holder)
    (hs : s.topology.WellFormed m n) :
    (∀ type, Kept m n s (s.convertTopology m leftover type) ↔ Convertible m leftover s type) ∧
      (Kept m n s (s.analyzeTopology m leftover) ↔ Analyzable m leftover s) := by
  obtain ⟨topology,free⟩ := s
  cases topology with
  | EPLIST l =>
    have hkp : Kept m n ⟨.EPLIST l,free⟩ (false, ⟨.EPLIST l,free⟩) :=
      ⟨fun h => (by cases h),fun h => (by cases h),fun _ => rfl⟩
    exact ⟨fun _ => iff_of_true hkp trivial,iff_of_true hkp trivial⟩
  | tasks t =>
    simp only [AnyTopology.WellFormed,Topology.WellFormed] at hs
    cases ht : t.type with
    | EMPTY | AXIAL ll ur center =>
      simp only [convertTopology,Topology.convertTopology,Convertible,analyzeTopology,
        Topology.analyzeTopology,Analyzable,ht]
      exact ⟨fun _ => iff_of_true kept_unchanged trivial,iff_of_true kept_unchanged trivial⟩
    | SINGLE rank =>
      rw [ht] at hs
      refine ⟨fun type => ?_,?_⟩
      · simp only [convertTopology,Convertible,ht]
        exact iff_of_true (kept_convert_single hm ht hs.1 hs.2 type) trivial
      · simp only [analyzeTopology,Topology.analyzeTopology,Analyzable,ht]
        exact iff_of_true kept_unchanged trivial
    | RANGE first last =>
      rw [ht] at hs
      refine ⟨fun type => ?_,?_⟩
      · simp only [convertTopology,Convertible,ht]
        exact iff_of_true (kept_convert_range hm ht hs.1 hs.2.1 hs.2.2 type) trivial
      · simp only [analyzeTopology,Topology.analyzeTopology,Analyzable,ht,iff_true]
        by_cases hone : t.size=1
        · rw [if_pos hone]
          exact kept_become.mpr (single_of_range ht hs.1 hs.2.2 hone)
        · rw [if_neg hone]
          exact kept_analyzeCoordsRange hm ht hs.1 hs.2.1 hs.2.2
    | LIST ranklist =>
      rw [ht] at hs
      refine ⟨kept_convert_list hm ht hs,?_⟩
      simp only [analyzeTopology,Topology.analyzeTopology,Analyzable,ht]
      by_cases hone : t.size=1
      · rw [if_pos hone,if_pos hone,kept_become]
        exact single_of_list ht hs hone leftover.coordsRank
      · rw [if_neg hone,if_neg hone]
        have hcoo := kept_analyzeCoordsList free ht hs hm
        have hrng := kept_analyzeRangeList (m := m) free ht hs
        by_cases hfil : fillsCoords m ranklist t.size=true
        · have hcha : (t.analyzeCoordsList m free ranklist).1=true := by
            rw [analyzeCoordsList,if_pos hfil]
            rfl
          rw [if_pos hcha,hcoo]
          simp [hfil]
        · have hsm : (t.analyzeCoordsList m free ranklist).1=false := by
            rw [analyzeCoordsList,if_neg hfil]
            rfl
          rw [hsm,if_neg Bool.false_ne_true,hrng]
          simp [hfil]
    | COORD ll ur =>
      rw [ht] at hs
      refine ⟨fun type => ?_,?_⟩
      · simp only [convertTopology,Convertible,ht]
        exact iff_of_true (kept_convert_coord hm ht hs.1 hs.2 type) trivial
      · simp only [analyzeTopology,Topology.analyzeTopology,Analyzable,ht]
        exact iff_of_true kept_unchanged trivial

/-- A list of the ranks of two rows of the grid. -/
def twoRows : Holder := ⟨.tasks ⟨.LIST fun i => i, 8, 0, false⟩, false⟩

theorem kept_iff_twoRows :
    Kept grid 16 twoRows
        (twoRows.convertTopology grid ⟨0, fun _ => 0⟩ .COORD) ∧
      Kept grid 16 twoRows (twoRows.analyzeTopology grid ⟨0, fun _ => 0⟩) := by
  have hs : twoRows.topology.WellFormed grid 16 := fun i hi => lt_trans hi (show 8<16 by decide)
  have h := kept_iff grid_bijective ⟨0,fun _ => 0⟩ twoRows hs
  exact ⟨(h.1 .COORD).mpr fun _ _ _ _ _ h => h,h.2.mpr fun _ _ _ _ _ h => h⟩

/-- A list of one rank becomes the rank that its pointer is read as. -/
theorem one_not_kept : ∃ s : Holder, s.topology.WellFormed grid 16 ∧
    ¬Kept grid 16 s (s.analyzeTopology grid ⟨0, fun _ => 0⟩) := by
  refine ⟨⟨.tasks ⟨.LIST fun _ => 3,1,0,false⟩,false⟩,fun _ _ => (show 3<16 by decide),fun h => ?_⟩
  have hmem := (h.member rfl 3).mpr ⟨by decide,0,by decide,rfl⟩
  cases hmem.2

end Holder

end PAMI.Common

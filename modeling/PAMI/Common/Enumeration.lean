import PAMI.Common.EndpointIndexing
import PAMI.Common.SubtractTopology

namespace PAMI.Common

open Topology Nat Finset Function

namespace Topology.IsAxial

variable {m : Mapping} {n : ℕ} {t : Topology} {L U C : Coord}

theorem index2Rank_injOn (h : IsAxial m n t L U C) : Set.InjOn (t.index2Rank m) (Set.Iio t.size) := by
  have hat : ∀ {x j}, x < m.globalDims → 1≤j → j≤armSize m.torusSize L U C x → ∀ z < m.globalDims,
      m.task2network (t.index2Rank m (armStart m.torusSize L U C x+j)) z =
        update C x (armAt m.torusSize U C x j) z := fun hx hj hj' => by
    rw [h.index2Rank_arm hx hj hj']
    exact h.bij.right _ (h.arm_lt hx)
  have hcenter : ∀ z < m.globalDims, m.task2network (t.index2Rank m 0) z = C z := by
    rw [h.index2Rank_center]
    exact h.bij.right C h.center_lt
  have hoff : ∀ {i x j}, x < m.globalDims → 1≤j → j≤armSize m.torusSize L U C x →
      m.task2network (t.index2Rank m i) x = C x →
        t.index2Rank m i ≠ t.index2Rank m (armStart m.torusSize L U C x+j) := fun hx hj hj' hc he => by
    rw [he,hat hx hj hj' _ hx,update_self] at hc
    exact (h.arms _ hx).armAt_ne hj hj' hc
  intro i hi i' hi' he
  by_cases h0 : i=0 <;> by_cases h0' : i'=0
  · rw [h0,h0']
  · obtain ⟨x,hx,j,hj,hj',rfl⟩ := h.exists_place h0' hi'
    exact absurd he (hoff hx hj hj' (h0 ▸ hcenter x hx))
  · obtain ⟨x,hx,j,hj,hj',rfl⟩ := h.exists_place h0 hi
    exact absurd he.symm (hoff hx hj hj' (h0' ▸ hcenter x hx))
  · obtain ⟨x,hx,j,hj,hj',rfl⟩ := h.exists_place h0 hi
    obtain ⟨y,hy,k,hk,hk',rfl⟩ := h.exists_place h0' hi'
    by_cases hxy : x=y
    · subst hxy
      have hv := hat hx hj hj' x hx
      rw [he,hat hx hk hk' x hx,update_self,update_self] at hv
      rw [(h.arms x hx).armAt_inj hj' hk' hv.symm]
    · refine absurd he (hoff hy hk hk' ?_)
      rw [hat hx hj hj' y hy,update_of_ne (Ne.symm hxy)]

end Topology.IsAxial

namespace AnyTopology

section Permuted

variable (m : Mapping)

def rank2Index (rank : ℕ) : AnyTopology → ℕ
  | .tasks t => t.rank2Index m rank
  | .EPLIST _ => noIndex

/-- `__size`. -/
def tableSize : AnyTopology → ℕ
  | .tasks t => t.size
  | .EPLIST l => l.size

/-- `index2PermutedIndex` of the task `me`. -/
def index2PermutedIndex (me : ℕ) (T : AnyTopology) (index : ℕ) : ℕ :=
  if index < T.tableSize then
    let index := (index + T.rank2Index m me) % 2 ^ 64
    if index < T.tableSize then index else index - T.tableSize
  else noIndex

/-- The permuted indices are those below the size, each once. -/
def Permutes (me : ℕ) (T : AnyTopology) : Prop :=
  Set.BijOn (T.index2PermutedIndex m me) (Set.Iio T.numRanks) (Set.Iio T.numRanks)

/-- When the indices are rotated: a list of endpoints has no index of a task, and of several contexts of
each task the indices are those of the tasks. In an axial neighborhood an index can be too large. -/
def Rotates (me : ℕ) : AnyTopology → Prop
  | .EPLIST _ => False
  | .tasks t => (t.allContexts = true → t.offset = 1) ∧
      ∀ ll ur center, t.type = .AXIAL ll ur center → t.rank2Index m me ≤ t.size

end Permuted

variable {m : Mapping} {n K me : ℕ} {T : AnyTopology}

theorem permutes_of_size (hs : T.numRanks=T.tableSize) (h1 : T.tableSize<2^62) (h0 : 0<T.tableSize)
    (hk : T.rank2Index m me < 2^64) : T.Permutes m me ↔ T.rank2Index m me ≤ T.tableSize := by
  unfold Permutes
  rw [hs]
  generalize hf : T.index2PermutedIndex m me=f
  have hval : ∀ i<T.tableSize, f i = if (i+T.rank2Index m me)%2^64<T.tableSize then
      (i+T.rank2Index m me)%2^64 else (i+T.rank2Index m me)%2^64-T.tableSize := fun i hi => by
    rw [← hf,index2PermutedIndex,if_pos hi]
  generalize T.rank2Index m me=k at *
  generalize T.tableSize=s at *
  constructor
  · intro h
    by_contra hlt
    have hfirst := h.mapsTo (Set.mem_Iio.2 h0)
    have hla := h.mapsTo (Set.mem_Iio.2 (show s-1 < s by omega))
    rw [Set.mem_Iio,hval _ (by omega)] at hfirst hla
    rw [Nat.zero_add,Nat.mod_eq_of_lt hk,if_neg (by omega)] at hfirst
    split_ifs at hla <;> omega
  · intro hle
    have hval' : ∀ i < s, f i = if i+k < s then i+k else i+k-s := fun i hi => by
      rw [hval i hi,Nat.mod_eq_of_lt (by omega)]
    clear hval
    refine ⟨fun i hi => ?_,fun i hi i' hi' he => ?_,fun j hj => ?_⟩
    · rw [Set.mem_Iio] at hi ⊢
      rw [hval' i hi]
      split_ifs <;> omega
    · rw [hval' i hi,hval' i' hi'] at he
      rw [Set.mem_Iio] at hi hi'
      split_ifs at he <;> omega
    · rw [Set.mem_Iio] at hj
      have hi : (if k≤j then j-k else j+s-k) < s := by split_ifs <;> omega
      refine ⟨_,Set.mem_Iio.2 hi,?_⟩
      rw [hval' _ hi]
      split_ifs <;> omega

theorem not_permutes_of_size (hs : T.tableSize<T.numRanks) (h : T.numRanks≤noIndex) :
    ¬T.Permutes m me := by
  intro hp
  have hla := hp.mapsTo (Set.mem_Iio.2 hs)
  rw [Set.mem_Iio,index2PermutedIndex,if_neg (lt_irrefl _)] at hla
  omega

end AnyTopology

namespace Topology

variable {m : Mapping} {n r : ℕ} {t : Topology} {L U C c : Coord}

theorem indexOfAxial_lt (xs : List ℕ) (ix : ℕ) : indexOfAxial L U C c xs ix < 2^64 := by
  induction xs generalizing ix with
  | nil => exact Nat.two_pow_pos 64
  | cons x xs ih =>
    rw [indexOfAxial]
    split_ifs
    · exact ih _
    · exact mod_lt _ (Nat.two_pow_pos 64)
    · exact mod_lt _ (Nat.two_pow_pos 64)

theorem Valid.size_le (hm : m.Bijective n) (ht : t.Valid m n) : t.size≤n := by
  by_cases hk : ∃ L U C, t.type = .AXIAL L U C
  · obtain ⟨L,U,C,hk⟩ := hk
    have h := ht.isAxial hm hk
    exact size_le_of_injOn (fun i hi => h.index2Rank_lt hi) h.index2Rank_injOn
  · simp only [not_exists] at hk
    have hle := ((indexed_iff hm ht).2 (exact_of_ne_axial hk)).size_le
    rwa [numRanks_one ht.1] at hle

theorem Valid.index_small (hm : m.Bijective n) (ht : t.Valid m n) (hr : t.Member m n r) :
    t.rank2Index m r < 2^64 ∧ 0<t.size ∧
      ((∀ ll ur center, t.type ≠ .AXIAL ll ur center) → t.rank2Index m r ≤ t.size) := by
  by_cases hk : ∃ L U C, t.type = .AXIAL L U C
  · obtain ⟨L,U,C,hk⟩ := hk
    have h := ht.isAxial hm hk
    rw [h.rank2Index_eq,h.size]
    exact ⟨indexOfAxial_lt _ _,by omega,fun hne => absurd hk (hne L U C)⟩
  · simp only [not_exists] at hk
    have hlt := (((indexed_iff hm ht).2 (exact_of_ne_axial hk)).index r hr).1
    have hle := ht.size_le hm
    have hn := hm.small
    rw [numRanks_one ht.1] at hlt
    exact ⟨by omega,by omega,fun _ => hlt.le⟩

end Topology

namespace AnyTopology

variable {m : Mapping} {n K me : ℕ} {T : AnyTopology}

theorem ValidEndpoints.list_size_le {l : EndpointList} (ht : ValidEndpoints m n K (.EPLIST l)) :
    l.size≤n*K := by
  refine size_le_of_injOn (f := fun i => (l.eplist i).1*K+(l.eplist i).2)
    (fun i hi => place_lt (ht.1 i hi).1 (ht.1 i hi).2) fun i hi i' hi' he => ?_
  have h := place_div (i := (l.eplist i).1) (ht.1 i hi).2
  have h' := place_div (i := (l.eplist i').1) (ht.1 i' hi').2
  simp only at he
  rw [he] at h
  exact ht.2 i hi i' hi' (Prod.ext (h.1.symm.trans h'.1) (h.2.symm.trans h'.2))

/-- The permuted indices are a permutation of the indices exactly for these topologies. -/
theorem permutes_iff (hm : m.Bijective n) (hs : n * K ≤ 2 ^ 32) (ht : T.ValidEndpoints m n K)
    (hme : T.Member m n me) : T.Permutes m me ↔ T.Rotates m me := by
  cases T with
  | EPLIST l =>
    obtain ⟨-,i,hi,-⟩ := hme
    have hle : l.size≤2 ^ 32 := ht.list_size_le.trans hs
    have hiff : Permutes m me (.EPLIST l) ↔ noIndex≤l.size :=
      permutes_of_size rfl (hle.trans_lt (by decide)) (zero_lt_of_lt hi) (show noIndex<2 ^ 64 by decide)
    rw [hiff]
    refine iff_of_false (fun h : 2 ^ 64 - 1≤l.size => ?_) not_false
    omega
  | tasks t =>
    obtain ⟨hk,h0,hle⟩ := ht.tasks.index_small hm hme
    have hsi := ht.tasks.size_le hm
    have hn := hm.small
    have hax : t.rank2Index m me≤t.size ↔
        ∀ ll ur center, t.type = .AXIAL ll ur center → t.rank2Index m me≤t.size := by
      refine ⟨fun h _ _ _ _ => h,fun h => ?_⟩
      by_contra hlt
      exact hlt (hle fun ll ur center hk => hlt (h ll ur center hk))
    have hone (he : t.numRanks=t.size) : Permutes m me (.tasks t) ↔ t.rank2Index m me≤t.size :=
      permutes_of_size he (hsi.trans_lt (hn.trans (by decide))) h0 hk
    cases hc : t.allContexts with
    | false =>
      rw [hone (numRanks_one hc),hax,Rotates,hc]
      simp
    | true =>
      have hpos := (ht.contexts hc).1
      have hall := numRanks_all hc
      by_cases h1 : t.offset=1
      · rw [hone (by rw [hall,h1,mul_one]),hax,Rotates]
        simp [h1]
      · refine iff_of_false (not_permutes_of_size (T := .tasks t) ?_ ?_) fun h => h1 (h.1 hc)
        · change t.size<t.numRanks
          rw [hall]
          exact (Nat.lt_mul_iff_one_lt_right h0).2 (by omega)
        · change t.numRanks ≤ 2 ^ 64 - 1
          have hmul := Nat.mul_le_mul hsi (ht.contexts hc).2
          simp only [tasksOnly] at hmul
          omega

theorem permutes_iff_segment : (AnyTopology.tasks segment).Permutes grid 5 := by
  have hv : (AnyTopology.tasks segment).ValidEndpoints grid 16 1 :=
    ⟨segment_valid,fun _ => Nat.zero_lt_one,nofun,nofun⟩
  have hme : (AnyTopology.tasks segment).Member grid 16 5 := (isRankMember_iff (t := segment) (by decide) nofun).1 (by decide)
  exact (permutes_iff grid_bijective (by decide) hv hme).2 ⟨nofun,nofun⟩

/-- On a task of a topology with both contexts of two tasks, the last two of four indices give `-1`. -/
theorem not_permutes : grid.Bijective 16 ∧ twoPairs.ValidEndpoints grid 16 2 ∧ twoPairs.Member grid 16 4 ∧
    twoPairs.numRanks = 4 ∧ twoPairs.index2PermutedIndex grid 4 2 = noIndex ∧
      twoPairs.index2PermutedIndex grid 4 3 = noIndex ∧ ¬twoPairs.Permutes grid 4 :=
  ⟨grid_bijective,twoPairs_valid,⟨by decide,by decide⟩,rfl,rfl,rfl,
    not_permutes_of_size (T := twoPairs) (by decide) (by decide)⟩

end AnyTopology

variable {m : Mapping} {n d max r : ℕ} {t : Topology} {ll ur c : Coord}

namespace Topology

/-- `getRankList` with space for `max` ranks: those that are written, and `nranks`. -/
def getRankList (m : Mapping) (t : Topology) (max : ℕ) : List ℕ × ℕ :=
  let ranks := match t.type with
    | .LIST ranklist => (List.range (min t.size max)).map ranklist
    | .COORD ll ur => (walkCoords ll ur m.globalDims max ll).map m.network2task
    | .SINGLE rank => [rank]
    | .RANGE first last => List.range' first (min (last + 1 - first) max)
    | .AXIAL _ _ _ => []
    | .EMPTY => []
  (ranks, t.size)

/-- Membership, indices and the list agree on the ranks of the machine; there is space for the list. -/
structure Enumerated (m : Mapping) (n : ℕ) (t : Topology) : Prop where
  indexed : ∀ r < n, t.isRankMember m r = true ↔ ∃ ix < t.numRanks, t.index2Rank m ix = r
  listed : ∀ max, 0 < max → t.numRanks ≤ max →
    (t.getRankList m max).1.length = t.numRanks ∧ (t.getRankList m max).2 = t.numRanks ∧
      ∀ r < n, t.isRankMember m r = true ↔ r ∈ (t.getRankList m max).1

/-- When they agree: nothing is written for an axial neighborhood, and each task once, not once for
each of its contexts. -/
def Enumerable (t : Topology) : Prop :=
  (∀ ll ur center, t.type ≠ .AXIAL ll ur center) ∧ (t.allContexts = true → t.offset = 1 ∨ t.size = 0)

/-- A task has a context, and an axial neighborhood its center. -/
def Inhabited (t : Topology) : Prop :=
  (t.allContexts = true → 0 < t.offset) ∧ ∀ ll ur center, t.type = .AXIAL ll ur center → 0 < t.size

theorem walkCoords_stop {k l : ℕ} (hk : 0<k) (hl : k≤l) (h : (Math.Box.mk ll ur).Inside d c)
    (hc : (Math.Box.mk ll ur).encode c d+k = (Math.Box.mk ll ur).card d) :
    walkCoords ll ur d l c = walkCoords ll ur d k c := by
  induction k generalizing l c with
  | zero => omega
  | succ k ih =>
    obtain ⟨l,rfl⟩ := exists_eq_succ_of_ne_zero (show l≠0 by omega)
    have hn := nextCoord_spec h
    rw [succ_eq_add_one,walkCoords,walkCoords]
    generalize nextCoord ll ur d c=res at hn
    obtain ⟨b,c'⟩ := res
    cases b with
    | false => rfl
    | true =>
      obtain ⟨h1,h2,-⟩ := hn
      have hlt := Math.Box.encode_lt h1
      simp only
      rw [ih (l := l) (by omega) (by omega) h1 (by omega)]

theorem walkCoords_all (hb : ∀ x<d, ll x ≤ ur x) (hmax : (Math.Box.mk ll ur).card d ≤ max) :
    walkCoords ll ur d max ll = walkCoords ll ur d ((Math.Box.mk ll ur).card d) ll :=
  walkCoords_stop (Math.Box.card_pos d) hmax (fun x hx => ⟨le_rfl,hb x hx⟩)
    (by rw [Math.Box.encode_corner,zero_add])

theorem Indexed.member_iff (hi : Indexed m n t) : t.Member m n r ↔ ∃ ix<t.numRanks, t.index2Rank m ix = r := by
  constructor
  · intro h
    exact ⟨_,hi.index r h⟩
  · rintro ⟨ix,hix,rfl⟩
    exact (hi.rank ix hix).1

section

variable (hm : m.Bijective n) (ht : t.WellFormed m n) (hne : ∀ ll ur center, t.type ≠ .AXIAL ll ur center)
include hm ht hne

theorem member_iff_index : t.Member m n r ↔ ∃ ix<t.size, t.tasksOnly.index2Rank m ix = r := by
  by_cases hl : ∃ ranklist, t.type = .LIST ranklist
  · obtain ⟨ranklist,hk⟩ := hl
    have hix : ∀ ix<t.size, t.tasksOnly.index2Rank m ix = ranklist ix := fun ix hix => by
      simp [index2Rank,tasksOnly,hix,hk]
    rw [WellFormed,hk] at ht
    rw [Member,hk]
    constructor
    · rintro ⟨-,ix,hlt,rfl⟩
      exact ⟨ix,hlt,hix ix hlt⟩
    · rintro ⟨ix,hlt,rfl⟩
      rw [hix ix hlt]
      exact ⟨ht ix hlt,ix,hlt,rfl⟩
  · have hv : t.tasksOnly.Valid m n := by
      refine ⟨rfl,?_⟩
      unfold WellFormed at ht
      simp only [tasksOnly]
      cases hk : t.type with
      | LIST ranklist => exact absurd ⟨ranklist,hk⟩ hl
      | AXIAL ll ur center => exact absurd hk (hne ll ur center)
      | _ => simpa [hk] using ht
    exact ((indexed_iff hm hv).2 (tasksOnly_exact.2 (exact_of_ne_axial hne))).member_iff

theorem listed_of_size (hmax : t.size ≤ max) : (t.getRankList m max).1.length=t.size ∧
      ∀ r<n, t.isRankMember m r = true ↔ r ∈ (t.getRankList m max).1 := by
  have hmem := fun r (hr : r<n) => isRankMember_iff (m := m) hr hne
  unfold WellFormed at ht
  unfold Member at hmem
  unfold getRankList
  cases hk : t.type with
  | AXIAL ll ur center => exact absurd hk (hne ll ur center)
  | EMPTY =>
    simp only [hk] at ht hmem ⊢
    exact ⟨ht.symm,fun r hr => by simp [hmem r hr]⟩
  | SINGLE rank =>
    simp only [hk] at ht hmem ⊢
    exact ⟨ht.1.symm,fun r hr => by simp [hmem r hr,hr]⟩
  | RANGE first last =>
    simp only [hk] at ht hmem ⊢
    rw [Nat.min_eq_left (by omega)]
    refine ⟨by rw [List.length_range']; omega,fun r hr => ?_⟩
    rw [hmem r hr,List.mem_range'_1]
    omega
  | LIST ranklist =>
    simp only [hk] at ht hmem ⊢
    rw [Nat.min_eq_left hmax]
    exact ⟨by simp,fun r hr => by simp [hmem r hr,hr]⟩
  | COORD ll ur =>
    simp only [hk] at ht hmem ⊢
    rw [walkCoords_all (fun x hx => (ht.1 x hx).1) (ht.2 ▸ hmax)]
    have hlength := congrArg List.length (walkCoords_corner fun x hx => (ht.1 x hx).1).2
    rw [List.length_map,List.length_range'] at hlength
    refine ⟨by rw [List.length_map,hlength,ht.2],fun r hr => ?_⟩
    rw [hmem r hr,(walk_ranks hm ht.1).mem r]

end

/-- Membership, indices and the list agree exactly for these topologies. -/
theorem enumerated_iff (hm : m.Bijective n) (ht : t.WellFormed m n) (hp : t.Inhabited) :
    Enumerated m n t ↔ t.Enumerable := by
  constructor
  · intro h
    refine ⟨fun ll ur center hk => ?_,fun hc => ?_⟩
    · have hpos : 0<t.numRanks := by
        have := hp.2 ll ur center hk
        cases hc : t.allContexts with
        | false => rwa [numRanks_one hc]
        | true => rw [numRanks_all hc]; exact Nat.mul_pos this (hp.1 hc)
      have hl := (h.listed t.numRanks hpos le_rfl).1
      simp only [getRankList,hk,List.length_nil] at hl
      omega
    · by_contra hno
      have hl := (h.listed (t.numRanks + 1) (by omega) (by omega)).2.1
      have hpos := hp.1 hc
      rw [numRanks_all hc] at hl
      simp only [getRankList] at hl
      have := Nat.eq_of_mul_eq_mul_left (show 0<t.size by omega) ((Nat.mul_one _).trans hl)
      omega
  · rintro ⟨hne,hone⟩
    have hsi : t.numRanks=t.size ∧ ∀ ix<t.size, t.index2Rank m ix = t.tasksOnly.index2Rank m ix := by
      cases hc : t.allContexts with
      | false => exact ⟨numRanks_one hc,fun ix _ => by rw [tasksOnly_eq hc]⟩
      | true =>
        rw [numRanks_all hc]
        rcases hone hc with h1 | h0
        · exact ⟨by rw [h1,mul_one],fun ix _ => by rw [index2Rank_all hc,h1,Nat.div_one]⟩
        · exact ⟨by rw [h0,zero_mul],fun ix hix => by omega⟩
    refine ⟨fun r hr => ?_,fun max _ hmax => ?_⟩
    · rw [isRankMember_iff hr hne,member_iff_index hm ht hne,hsi.1]
      exact exists_congr fun ix => and_congr_right fun hix => by rw [hsi.2 ix hix]
    · rw [hsi.1] at hmax ⊢
      obtain ⟨h1,h2⟩ := listed_of_size hm ht hne hmax
      exact ⟨h1,rfl,h2⟩

theorem enumerated_iff_segment : Enumerated grid 16 segment := by
  have hwf : segment.WellFormed grid 16 := segment_valid.2
  exact (enumerated_iff grid_bijective hwf ⟨nofun,nofun⟩).2 ⟨nofun,nofun⟩

/-- The list of an axial neighborhood of five tasks stays empty. -/
theorem not_enumerated : grid.Bijective 16 ∧ cross.WellFormed grid 16 ∧ cross.Inhabited ∧
    cross.index2Rank grid 0 = 5 ∧ cross.getRankList grid 5 = ([], 5) ∧ ¬Enumerated grid 16 cross := by
  refine ⟨grid_bijective,trivial,⟨nofun,fun _ _ _ _ => by decide⟩,by decide,rfl,fun h => ?_⟩
  exact absurd (h.listed 5 (by decide) le_rfl).1 (by decide)

end Topology

end PAMI.Common

import PAMI.Common.Bijection

namespace PAMI.Common

open Topology Nat Finset

/-- A task and one of its contexts. -/
abbrev Endpoint := ℕ × ℕ

namespace Topology

variable (m : Mapping) (t : Topology)

def endpoint2Index (ep : Endpoint) : ℕ :=
  if t.allContexts then (t.rank2Index m ep.1 * t.offset + ep.2) % 2 ^ 64
  else t.rank2Index m ep.1

def index2Endpoint (ordinal : ℕ) : Endpoint :=
  if t.allContexts then (t.index2Rank m ordinal, ordinal % t.offset)
  else (t.index2Rank m ordinal, t.offset)

def tasksOnly : Topology := { t with allContexts := false }

/-- A topology of endpoints of `n` tasks with `K` contexts each: its tasks are valid, and its context,
or the number of them, is one of the machine. No operation gives an axial neighborhood all contexts. -/
structure ValidEndpoints (n K : ℕ) : Prop where
  tasks : t.tasksOnly.Valid m n
  context : t.allContexts = false → t.offset < K
  contexts : t.allContexts = true → 0 < t.offset ∧ t.offset ≤ K
  axial : t.allContexts = true → ∀ ll ur center, t.type ≠ .AXIAL ll ur center

/-- The context of a member is that of the topology, or one of all its contexts. -/
def HasEndpoint (n : ℕ) (ep : Endpoint) : Prop :=
  t.Member m n ep.1 ∧ if t.allContexts then ep.2 < t.offset else ep.2 = t.offset

end Topology

namespace AnyTopology

variable (m : Mapping) (n K : ℕ)

def endpoint2Index (ep : Endpoint) : AnyTopology → ℕ
  | .tasks t => t.endpoint2Index m ep
  | .EPLIST l =>
    match (List.range l.size).find? fun x => ep == l.eplist x with
    | some x => x
    | none => noIndex

def index2Endpoint (ordinal : ℕ) : AnyTopology → Endpoint
  | .tasks t => t.index2Endpoint m ordinal
  | .EPLIST l => l.eplist ordinal

def ValidEndpoints : AnyTopology → Prop
  | .tasks t => t.ValidEndpoints m n K
  | .EPLIST l => (∀ i < l.size, (l.eplist i).1 < n ∧ (l.eplist i).2 < K) ∧
      ∀ i < l.size, ∀ j < l.size, l.eplist i = l.eplist j → i = j

def HasEndpoint (ep : Endpoint) : AnyTopology → Prop
  | .tasks t => t.HasEndpoint m n ep
  | .EPLIST l => ∃ i < l.size, l.eplist i = ep

/-- Indices below the size and endpoints of the topology are inverse to each other, and an endpoint
that is not in it has no index. -/
structure EndpointIndexed (T : AnyTopology) : Prop where
  endpoint : ∀ ix < T.numRanks, T.HasEndpoint m n (T.index2Endpoint m ix) ∧
    T.endpoint2Index m (T.index2Endpoint m ix) = ix
  index : ∀ ep, T.HasEndpoint m n ep →
    T.endpoint2Index m ep < T.numRanks ∧ T.index2Endpoint m (T.endpoint2Index m ep) = ep
  nonmember : ∀ ep : Endpoint, ep.1 < n → ep.2 < K → ¬T.HasEndpoint m n ep → T.endpoint2Index m ep = noIndex

/-- When the indices of endpoints are exact: in a list of endpoints always. Elsewhere those of the tasks
must be. With one context a task has no other; with all of them, the topology has as many as the
machine, and every task, or tasks have one context. -/
def EndpointExact : AnyTopology → Prop
  | .EPLIST _ => True
  | .tasks t => t.Exact m n ∧
      if t.allContexts then
        ((∀ r, ¬t.Member m n r) ∨ t.offset = K) ∧ ((∀ r < n, t.Member m n r) ∨ K = 1)
      else (∀ r, ¬t.Member m n r) ∨ K = 1

end AnyTopology

theorem place_lt {i c s k : ℕ} (hi : i < s) (hc : c<k) : i*k+c < s*k :=
  calc i*k+c<(i+1)*k := by rw [succ_mul]; omega
    _ ≤ s*k := Nat.mul_le_mul_right k hi

theorem place_div {i c k : ℕ} (hc : c<k) : (i*k+c)/k=i ∧ (i*k+c)%k=c := by
  rw [mul_comm i k]
  exact ⟨by rw [mul_add_div (by omega),div_eq_of_lt hc,add_zero],
    by rw [mul_add_mod,mod_eq_of_lt hc]⟩

theorem noIndex_mul {k c : ℕ} (hk : k≤2^64) (hc : c<k) :
    (noIndex*k+c)%2^64=2^64-k+c := by
  have h : noIndex*k+c=2^64-k+c+2^64*(k-1) := by
    unfold noIndex
    omega
  rw [h,add_mul_mod_self_left]
  exact mod_eq_of_lt (by omega)

namespace Topology

variable {m : Mapping} {n K : ℕ} {t : Topology}

section Tasks

@[simp] theorem tasksOnly_rank2Index (r : ℕ) : t.tasksOnly.rank2Index m r = t.rank2Index m r := rfl

@[simp] theorem tasksOnly_exact : t.tasksOnly.Exact m n ↔ t.Exact m n := Iff.rfl

theorem index2Rank_all (h : t.allContexts=true) (ix : ℕ) :
    t.index2Rank m ix = t.tasksOnly.index2Rank m (ix/t.offset) := by
  unfold index2Rank tasksOnly
  simp only [h,if_true,Bool.false_eq_true,if_false]

theorem tasksOnly_eq (h : t.allContexts=false) : t.tasksOnly=t := by
  cases t
  simp only at h
  rw [h,tasksOnly]

end Tasks

theorem Indexed.size_le (hi : Indexed m n t) : t.numRanks≤n := by
  refine size_le_of_injOn (fun ix hix => (hi.rank ix hix).1.1) fun ix hix ix' hix' he => ?_
  rw [← (hi.rank ix hix).2,he,(hi.rank ix' hix').2]

theorem exact_of_ne_axial (h : ∀ ll ur center, t.type ≠ .AXIAL ll ur center) : Exact m n t := by
  unfold Exact
  cases hk : t.type with
  | AXIAL L U C => exact absurd hk (h L U C)
  | _ => trivial

section OneContext

variable (hc : t.allContexts = false)
include hc

theorem endpoint2Index_one (ep : Endpoint) : t.endpoint2Index m ep = t.rank2Index m ep.1 := by
  rw [endpoint2Index,hc,if_neg Bool.false_ne_true]

theorem index2Endpoint_one (ix : ℕ) : t.index2Endpoint m ix = (t.index2Rank m ix, t.offset) := by
  rw [index2Endpoint,hc,if_neg Bool.false_ne_true]

theorem hasEndpoint_one (ep : Endpoint) :
    t.HasEndpoint m n ep ↔ t.Member m n ep.1 ∧ ep.2=t.offset := by
  rw [HasEndpoint,hc,if_neg Bool.false_ne_true]

theorem numRanks_one : t.numRanks=t.size := by rw [numRanks,hc,if_neg Bool.false_ne_true]

end OneContext

section AllContexts

variable (hc : t.allContexts = true)
include hc

theorem endpoint2Index_all (ep : Endpoint) :
    t.endpoint2Index m ep = (t.rank2Index m ep.1*t.offset+ep.2)%2^64 := by
  rw [endpoint2Index,if_pos hc]

theorem index2Endpoint_all (ix : ℕ) : t.index2Endpoint m ix =
    (t.tasksOnly.index2Rank m (ix/t.offset), ix%t.offset) := by
  rw [index2Endpoint,if_pos hc,index2Rank_all hc]

theorem hasEndpoint_all (ep : Endpoint) :
    t.HasEndpoint m n ep ↔ t.Member m n ep.1 ∧ ep.2<t.offset := by
  rw [HasEndpoint,if_pos hc]

theorem numRanks_all : t.numRanks=t.size*t.offset := by rw [numRanks,if_pos hc]

end AllContexts

section OneContext

variable (hm : m.Bijective n) (ht : t.ValidEndpoints m n K) (hc : t.allContexts = false)
include hm ht hc

theorem indexed_of_endpoints (h : AnyTopology.EndpointIndexed m n K (.tasks t)) :
    Indexed m n t := by
  refine ⟨fun ix hix => ?_,fun r hr => ?_,fun r hr hnr => ?_,beyond_size hm hc⟩
  · have he := h.endpoint ix hix
    simp only [AnyTopology.HasEndpoint,AnyTopology.endpoint2Index,AnyTopology.index2Endpoint,
      endpoint2Index_one hc,index2Endpoint_one hc,hasEndpoint_one hc] at he
    exact ⟨he.1.1,he.2⟩
  · have he := h.index (r, t.offset) ((hasEndpoint_one hc _).2 ⟨hr,rfl⟩)
    simp only [AnyTopology.endpoint2Index,AnyTopology.index2Endpoint,endpoint2Index_one hc,
      index2Endpoint_one hc] at he
    exact ⟨he.1,congrArg Prod.fst he.2⟩
  · have he := h.nonmember (r, t.offset) hr (ht.context hc)
      fun hmem => hnr ((hasEndpoint_one hc _).1 hmem).1
    simpa only [AnyTopology.endpoint2Index,endpoint2Index_one hc] using he

theorem one_of_member (h : AnyTopology.EndpointIndexed m n K (.tasks t)) {r : ℕ}
    (hr : t.Member m n r) : K=1 := by
  by_contra hK
  have hoff := ht.context hc
  obtain ⟨c,hcK,hne⟩ : ∃ c<K, c≠t.offset := by
    by_cases h0 : t.offset=0
    · exact ⟨1,by omega,by omega⟩
    · exact ⟨0,by omega,by omega⟩
  have hi := indexed_of_endpoints hm ht hc h
  have hlt := (hi.index r hr).1
  have hsi := hi.size_le
  have hsma := hm.small
  have he := h.nonmember (r, c) hr.1 hcK fun hmem => hne ((hasEndpoint_one hc _).1 hmem).2
  simp only [AnyTopology.endpoint2Index,endpoint2Index_one hc,noIndex] at he
  omega

omit hm in
theorem endpoints_of_indexed (hi : Indexed m n t) (hK : (∀ r, ¬t.Member m n r) ∨ K=1) :
    AnyTopology.EndpointIndexed m n K (.tasks t) := by
  refine ⟨fun ix hix => ?_,fun ep hep => ?_,fun ep h1 h2 hep => ?_⟩
  all_goals simp only [AnyTopology.HasEndpoint,AnyTopology.endpoint2Index,
    AnyTopology.index2Endpoint,AnyTopology.numRanks,endpoint2Index_one hc,
    index2Endpoint_one hc,hasEndpoint_one hc] at *
  · obtain ⟨hmem,heq⟩ := hi.rank ix hix
    exact ⟨⟨hmem,trivial⟩,heq⟩
  · obtain ⟨hlt,heq⟩ := hi.index ep.1 hep.1
    exact ⟨hlt,Prod.ext heq hep.2.symm⟩
  · refine hi.nonmember ep.1 h1 fun hmem => ?_
    rcases hK with hno | hK
    · exact hno _ hmem
    · have := ht.context hc
      exact hep ⟨hmem,by omega⟩

theorem endpointIndexed_one : AnyTopology.EndpointIndexed m n K (.tasks t) ↔
    Exact m n t ∧ ((∀ r, ¬t.Member m n r) ∨ K=1) := by
  have hv : t.Valid m n := by
    rw [← tasksOnly_eq hc]
    exact ht.tasks
  constructor
  · intro h
    refine ⟨(indexed_iff hm hv).1 (indexed_of_endpoints hm ht hc h),?_⟩
    by_cases hno : ∀ r, ¬t.Member m n r
    · exact .inl hno
    · obtain ⟨r,hr⟩ := not_forall_not.1 hno
      exact .inr (one_of_member hm ht hc h hr)
  · intro h
    exact endpoints_of_indexed ht hc ((indexed_iff hm hv).2 h.1) h.2

end OneContext

section AllContexts

variable (hm : m.Bijective n) (hs : n * K ≤ 2 ^ 32) (ht : t.ValidEndpoints m n K)
  (hc : t.allContexts = true)

theorem exact_all (ht : t.ValidEndpoints m n K) (hc : t.allContexts=true) : Exact m n t := exact_of_ne_axial (ht.axial hc)

include hm ht hc

theorem tasks_indexed : Indexed m n t.tasksOnly := (indexed_iff hm ht.tasks).2 (tasksOnly_exact.2 (exact_all ht hc))

theorem member_index (hs : n*K≤2^32) {r c : ℕ} (hr : t.Member m n r) (hcK : c<K) :
    t.endpoint2Index m (r, c) = t.rank2Index m r*t.offset+c ∧ t.rank2Index m r*t.offset+c < 2^32 := by
  have hi := tasks_indexed hm ht hc
  have hlt : t.rank2Index m r<n := (hi.index r hr).1.trans_le hi.size_le
  have hle : t.rank2Index m r*t.offset+c<n*K :=
    calc t.rank2Index m r*t.offset+c
        ≤ t.rank2Index m r*K+c := Nat.add_le_add_right (Nat.mul_le_mul_left _ (ht.contexts hc).2) c
      _ < n*K := place_lt hlt hcK
  have hsma := hle.trans_le hs
  exact ⟨(endpoint2Index_all hc _).trans (mod_eq_of_lt (hsma.trans (by decide))),hsma⟩

theorem nonmember_index (hK : K≤2^32) {r c : ℕ} (hr : r<n) (hnr : ¬t.Member m n r)
    (hck : c<t.offset) :
    t.endpoint2Index m (r, c) = 2^64-t.offset+c := by
  have hi := tasks_indexed hm ht hc
  have h := hi.nonmember r hr hnr
  rw [tasksOnly_rank2Index] at h
  have := (ht.contexts hc).2
  rw [endpoint2Index_all hc,h]
  exact noIndex_mul (by omega) hck

include hs

theorem all_conditions (h : AnyTopology.EndpointIndexed m n K (.tasks t)) :
    ((∀ r, ¬t.Member m n r) ∨ t.offset=K) ∧ ((∀ r<n, t.Member m n r) ∨ K=1) := by
  have hk := ht.contexts hc
  constructor
  · by_contra hcon
    obtain ⟨hex,hne⟩ := not_or.1 hcon
    obtain ⟨r,hr⟩ := not_forall_not.1 hex
    -- The context behind those of the topology.
    have hlt : t.offset<K := by omega
    have he := h.nonmember (r, t.offset) hr.1 hlt fun hmem => (lt_irrefl _ ((hasEndpoint_all hc _).1 hmem).2)
    have hidx := member_index hm ht hc hs hr hlt
    simp only [AnyTopology.endpoint2Index,hidx.1,noIndex] at he
    omega
  · by_contra hcon
    obtain ⟨hex,hne⟩ := not_or.1 hcon
    push Not at hex
    obtain ⟨r,hrn,hr⟩ := hex
    have hK : K≤2^32 := (Nat.le_mul_of_pos_left K (by omega)).trans hs
    have hno : ∀ c<K, ¬t.HasEndpoint m n (r, c) := fun c _ hmem => hr ((hasEndpoint_all hc _).1 hmem).1
    have h0 := h.nonmember (r, 0) hrn (by omega) (hno 0 (by omega))
    have hi0 := nonmember_index hm ht hc hK hrn hr hk.1
    simp only [AnyTopology.endpoint2Index,hi0,noIndex] at h0
    -- The topology has one context, the machine more.
    have h1 := h.nonmember (r, 1) hrn (by omega) (hno 1 (by omega))
    have hrk := (tasks_indexed hm ht hc).nonmember r hrn hr
    rw [tasksOnly_rank2Index] at hrk
    simp only [AnyTopology.endpoint2Index,endpoint2Index_all hc,hrk,noIndex,
      show t.offset=1 by omega] at h1
    omega

theorem endpoints_of_conditions
    (hmem : (∀ r, ¬t.Member m n r) ∨ t.offset=K) (hall : (∀ r<n, t.Member m n r) ∨ K=1) :
    AnyTopology.EndpointIndexed m n K (.tasks t) := by
  have hk := ht.contexts hc
  have hi := tasks_indexed hm ht hc
  have hsi : t.size≤n := hi.size_le
  refine ⟨fun ix hix => ?_,fun ep hep => ?_,fun ep h1 h2 hep => ?_⟩
  · simp only [AnyTopology.numRanks,numRanks_all hc] at hix
    have hdiv : ix/t.offset<t.size := Nat.div_lt_of_lt_mul (by rwa [mul_comm])
    have hmod : ix%t.offset<t.offset := mod_lt _ hk.1
    obtain ⟨hr,heq⟩ := hi.rank (ix/t.offset) hdiv
    rw [tasksOnly_rank2Index] at heq
    simp only [AnyTopology.HasEndpoint,AnyTopology.endpoint2Index,AnyTopology.index2Endpoint,
      index2Endpoint_all hc,hasEndpoint_all hc]
    refine ⟨⟨hr,hmod⟩,?_⟩
    rw [(member_index hm ht hc hs hr (hmod.trans_le hk.2)).1,heq,mul_comm]
    exact div_add_mod ix t.offset
  · obtain ⟨r,c⟩ := ep
    obtain ⟨hr,hck⟩ := (hasEndpoint_all hc _).1 hep
    obtain ⟨hlt,heq⟩ := hi.index r hr
    rw [tasksOnly_rank2Index] at hlt heq
    simp only [AnyTopology.endpoint2Index,AnyTopology.index2Endpoint,AnyTopology.numRanks,
      numRanks_all hc,index2Endpoint_all hc,(member_index hm ht hc hs hr (hck.trans_le hk.2)).1,
      place_div hck,heq]
    exact ⟨place_lt hlt hck,trivial⟩
  · obtain ⟨r,c⟩ := ep
    have hr : ¬t.Member m n r := fun hr => by
      rcases hmem with hno | hK
      · exact hno r hr
      · exact hep ((hasEndpoint_all hc _).2 ⟨hr,hK ▸ h2⟩)
    rcases hall with hall | hK
    · exact absurd (hall r h1) hr
    · simp only at h1 h2
      rw [AnyTopology.endpoint2Index,nonmember_index hm ht hc (by omega) h1 hr (by omega),noIndex]
      omega

theorem endpointIndexed_all : AnyTopology.EndpointIndexed m n K (.tasks t) ↔
    ((∀ r, ¬t.Member m n r) ∨ t.offset=K) ∧ ((∀ r<n, t.Member m n r) ∨ K=1) :=
  ⟨all_conditions hm hs ht hc,fun h => endpoints_of_conditions hm hs ht hc h.1 h.2⟩

end AllContexts

end Topology

namespace AnyTopology

variable {m : Mapping} {n K : ℕ}

theorem endpointIndexed_list {l : EndpointList} (ht : ValidEndpoints m n K (.EPLIST l)) :
    EndpointIndexed m n K (.EPLIST l) := by
  have hfind : ∀ ix<l.size, endpoint2Index m (l.eplist ix) (.EPLIST l)=ix := fun ix hix => by
    have hf : (List.range l.size).find? (fun x => l.eplist ix == l.eplist x) = some ix := by
      rw [List.find?_range_eq_some]
      refine ⟨by simp,List.mem_range.2 hix,fun j hj => ?_⟩
      have : l.eplist ix ≠ l.eplist j := fun he => by
        have := ht.2 ix hix j (by omega) he
        omega
      simpa using this
    simp only [endpoint2Index,hf]
  refine ⟨fun ix hix => ⟨⟨ix,hix,rfl⟩,hfind ix hix⟩,?_,fun ep _ _ hno => ?_⟩
  · rintro ep ⟨ix,hix,rfl⟩
    rw [hfind ix hix]
    exact ⟨hix,rfl⟩
  · have hf : (List.range l.size).find? (fun x => ep == l.eplist x)=none := by
      rw [List.find?_eq_none]
      intro x hx
      have : ep≠l.eplist x := fun he => hno ⟨x,List.mem_range.1 hx,he.symm⟩
      simpa using this
    simp only [endpoint2Index,hf]

/-- Indices and endpoints are inverse to each other exactly for these topologies. -/
theorem endpointIndexed_iff (hm : m.Bijective n) (hs : n * K ≤ 2 ^ 32) {T : AnyTopology}
    (ht : T.ValidEndpoints m n K) : T.EndpointIndexed m n K ↔ T.EndpointExact m n K := by
  cases T with
  | EPLIST l => exact iff_of_true (endpointIndexed_list ht) trivial
  | tasks t =>
    cases hc : t.allContexts with
    | false =>
      rw [EndpointExact,hc,if_neg Bool.false_ne_true]
      exact endpointIndexed_one hm ht hc
    | true =>
      rw [EndpointExact,if_pos hc,endpointIndexed_all hm hs ht hc]
      exact ⟨fun h => ⟨exact_all ht hc,h⟩,fun h => h.2⟩

/-- All tasks of the grid with both contexts of each. -/
def wholeGrid : AnyTopology := .tasks ⟨.RANGE 0 15, 16, 2, true⟩

theorem wholeGrid_valid : wholeGrid.ValidEndpoints grid 16 2 where
  tasks := ⟨rfl,Nat.zero_le _,lt_succ_self _,rfl⟩
  context := nofun
  contexts _ := ⟨Nat.zero_lt_two,le_rfl⟩
  axial _ _ _ _ := nofun

theorem endpointIndexed_iff_wholeGrid : wholeGrid.EndpointIndexed grid 16 2 :=
  (endpointIndexed_iff grid_bijective (by decide) wholeGrid_valid).2
    ⟨trivial,.inr rfl,.inl fun r hr => ⟨hr,zero_le r,le_of_lt_succ hr⟩⟩

def onePair : AnyTopology := .tasks ⟨.RANGE 4 5, 2, 1, false⟩

theorem onePair_valid : onePair.ValidEndpoints grid 16 2 where
  tasks := ⟨rfl,le_succ 4,Nat.lt_of_sub_eq_succ rfl,rfl⟩
  context _ := Nat.one_lt_two
  contexts := nofun
  axial := nofun

def twoPairs : AnyTopology := .tasks ⟨.RANGE 4 5, 2, 2, true⟩

theorem twoPairs_valid : twoPairs.ValidEndpoints grid 16 2 where
  tasks := ⟨rfl,le_succ 4,Nat.lt_of_sub_eq_succ rfl,rfl⟩
  context := nofun
  contexts _ := ⟨Nat.zero_lt_two,le_rfl⟩
  axial _ _ _ _ := nofun

/-- With one context, another of the same task has its index; with all, an endpoint of a task outside
has an index that is not `-1`. -/
theorem nonmember_has_index :
    onePair.ValidEndpoints grid 16 2 ∧ ¬onePair.HasEndpoint grid 16 (5, 0) ∧ onePair.endpoint2Index grid (5, 0) = 1 ∧
      ¬onePair.EndpointIndexed grid 16 2 ∧
      twoPairs.ValidEndpoints grid 16 2 ∧
      ¬twoPairs.HasEndpoint grid 16 (0, 0) ∧
      twoPairs.endpoint2Index grid (0, 0) = 2 ^ 64 - 2 ∧
      ¬twoPairs.EndpointIndexed grid 16 2 := by
  have h1 : ¬onePair.HasEndpoint grid 16 (5, 0) := fun h => absurd h.2 (by decide)
  have h2 : ¬twoPairs.HasEndpoint grid 16 (0, 0) := fun h => absurd h.1.2.1 (by decide)
  refine ⟨onePair_valid,h1,by decide,fun h => ?_,twoPairs_valid,h2,by decide,fun h => ?_⟩
  · exact absurd (h.nonmember (5, 0) (by decide) (by decide) h1) (by decide)
  · exact absurd (h.nonmember (0, 0) (by decide) (by decide) h2) (by decide)

end AnyTopology

end PAMI.Common

import PAMI.Schedule.NodeOptTopoMap

namespace PAMI.Schedule

open CollectiveOperation PhaseCode PAMI.Math MultinomialTreeT Topology List
open MultinomialTree (getRadix getBinoPhases getMaxPhases getLogRadix setupPeer setupAux setupBino)

/-- A topology parted into nodes: each has a topology of its own, and its first endpoint is the
master. The number of nodes is a power of two. -/
structure NodeLayout where
  all : Topology
  master : Topology
  locals : ℕ → Topology
  pow : master.size = 2^master.size.log2
  local_pos : ∀ i < master.size, 0 < (locals i).size
  local_master : ∀ i < master.size, (locals i).index2Endpoint 0 = master.index2Endpoint i
  mem_all : ∀ e, e ∈ all ↔ ∃ i < master.size, e ∈ locals i
  disjoint : ∀ i < master.size, ∀ j < master.size, ∀ e ∈ locals i, e ∈ locals j → i = j

namespace NodeLayout

variable (L : NodeLayout)

def nodeOf (e : ℕ) : ℕ := (List.range L.master.size).findIdx fun i => e ∈ L.locals i

def masterOf (i : ℕ) : ℕ := L.master.index2Endpoint i

def others (i : ℕ) : List ℕ := (L.locals i).endpoints.tail

/-- The tree an endpoint of the topology builds. -/
def tree (platform : Platform) (maxRadix : ℕ) (op : CollectiveOperation) (e : ℕ) :
    MultinomialTreeT :=
  .init maxRadix (NodeOptTopoMap.new platform e L.all (L.locals (L.nodeOf e)) L.master).toMap op

theorem master_pos : 0<L.master.size := by
  rw [L.pow]
  exact Nat.two_pow_pos _

section Nodes

variable {L} {e i : ℕ}

theorem nodeOf_spec (he : e ∈ L.all) : L.nodeOf e < L.master.size ∧ e ∈ L.locals (L.nodeOf e) := by
  obtain ⟨i,hi,hmem⟩ := (L.mem_all e).mp he
  have hlt : (List.range L.master.size).findIdx (fun i => e ∈ L.locals i)<(List.range L.master.size).length := by
    apply findIdx_lt_length_of_exists
    exact ⟨i,mem_range.mpr hi,decide_eq_true hmem⟩
  have hfou := findIdx_getElem (w := hlt)
  simp only [getElem_range,decide_eq_true_eq] at hfou
  rw [length_range] at hlt
  exact ⟨hlt,hfou⟩

section

variable (hi : i < L.master.size)
include hi

theorem mem_all_of_local (he : e ∈ L.locals i) : e ∈ L.all := (L.mem_all e).mpr ⟨i,hi,he⟩

theorem nodeOf_eq (he : e ∈ L.locals i) : L.nodeOf e = i := by
  obtain ⟨hlt,hmem⟩ := nodeOf_spec (mem_all_of_local hi he)
  exact L.disjoint _ hlt _ hi e hmem he

theorem masterOf_local : L.masterOf i ∈ L.locals i := by
  rw [masterOf,← L.local_master i hi]
  exact index2Endpoint_mem (L.local_pos i hi)

theorem masterOf_all : L.masterOf i ∈ L.all := mem_all_of_local hi (masterOf_local hi)

theorem nodeOf_masterOf : L.nodeOf (L.masterOf i) = i := nodeOf_eq hi (masterOf_local hi)

theorem endpoints_local : (L.locals i).endpoints = L.masterOf i :: L.others i := by
  have hpos := L.local_pos i hi
  have hmas := L.local_master i hi
  rw [index2Endpoint] at hmas
  rw [others,masterOf,← hmas]
  rw [size] at hpos
  cases h : (L.locals i).endpoints with
  | nil =>
    rw [h] at hpos
    exact absurd hpos (lt_irrefl _)
  | cons x l => rfl

theorem mem_others : e ∈ L.others i ↔ e ∈ L.locals i ∧ e ≠ L.masterOf i := by
  have hnod := (L.locals i).nodup
  have hmem : e ∈ L.locals i ↔ e ∈ (L.locals i).endpoints := Iff.rfl
  rw [endpoints_local hi] at hnod hmem
  rw [hmem,mem_cons]
  constructor
  · intro h
    refine ⟨.inr h,?_⟩
    rintro rfl
    exact (nodup_cons.mp hnod).1 h
  · rintro ⟨rfl | h,hne⟩
    · exact absurd rfl hne
    · exact h

omit hi in
theorem mem_others_nodeOf (he : e ∈ L.all) (hne : e ≠ L.masterOf (L.nodeOf e)) : e ∈ L.others (L.nodeOf e) :=
  (mem_others (nodeOf_spec he).1).mpr ⟨(nodeOf_spec he).2,hne⟩

theorem nodeOf_others (he : e ∈ L.others i) : e ∈ L.all ∧ L.nodeOf e = i ∧ e ≠ L.masterOf i := by
  obtain ⟨hmem,hne⟩ := (mem_others hi).mp he
  exact ⟨mem_all_of_local hi hmem,nodeOf_eq hi hmem,hne⟩

end

theorem size_ne_of_others (he : e ∈ L.all) (hne : e ≠ L.masterOf (L.nodeOf e)) :
    L.master.size≠L.all.size := by
  have hnot : e ∉ L.master.endpoints := by
    intro hmem
    have hlt := endpoint2Index_lt hmem
    have heq : L.masterOf (L.master.endpoint2Index e)=e := index2Endpoint_endpoint2Index hmem
    have hnode := nodeOf_masterOf hlt
    rw [heq] at hnode
    rw [hnode] at hne
    exact hne heq.symm
  have hsub : (e :: L.master.endpoints) ⊆ L.all.endpoints := by
    intro x hx
    rcases mem_cons.mp hx with rfl | hx
    · exact he
    · have hlt := endpoint2Index_lt hx
      have heq : L.masterOf (L.master.endpoint2Index x)=x := index2Endpoint_endpoint2Index hx
      rw [← heq]
      exact masterOf_all hlt
  have hle := (subperm_of_subset (nodup_cons.mpr ⟨hnot,L.master.nodup⟩) hsub).length_le
  rw [length_cons] at hle
  simp only [size]
  omega

end Nodes

section Partners

variable {L} {platform : Platform} {maxRadix : ℕ} {op : CollectiveOperation} {e p : ℕ}

/-- The dimensions of the exchange between the masters. -/
def masterDims (L : NodeLayout) (maxRadix : ℕ) : Dims := dims maxRadix L.master_pos

theorem masterDims_hnranks (maxRadix : ℕ) : (L.masterDims maxRadix).hnranks=L.master.size := by
  rw [masterDims,dims_hnranks,← L.pow]

theorem masterDims_nranks (maxRadix : ℕ) : (L.masterDims maxRadix).nranks=L.master.size := rfl

/-- Whom an endpoint hears from in a phase: a master from its node in phase `first` and from other
masters in the phases between, the others from their master in phase `last`. -/
def partners (L : NodeLayout) (maxRadix first last e p : ℕ) : List ℕ :=
  if e ≠ L.masterOf (L.nodeOf e) then if p = last then [L.masterOf (L.nodeOf e)] else []
  else if 1 ≤ p ∧ p ≤ (L.masterDims maxRadix).phases then
    ((L.masterDims maxRadix).exchange (L.nodeOf e) p).map L.masterOf
  else if p = first then L.others (L.nodeOf e) else []

def sources (L : NodeLayout) (maxRadix e p : ℕ) : List ℕ :=
  L.partners maxRadix 0 ((L.masterDims maxRadix).phases + 1) e p

def targets (L : NodeLayout) (maxRadix e p : ℕ) : List ℕ :=
  L.partners maxRadix ((L.masterDims maxRadix).phases + 1) 0 e p

theorem tree_getMyRank (he : e ∈ L.all) :
    (L.tree platform maxRadix op e).map.getMyRank = L.nodeOf e := by
  obtain ⟨hlt,-⟩ := nodeOf_spec he
  show L.master.endpoint2Index ((L.locals (L.nodeOf e)).index2Endpoint 0) = _
  rw [L.local_master _ hlt]
  exact endpoint2Index_index2Endpoint hlt

theorem tree_isAuxProc (he : e ∈ L.all) :
    (L.tree platform maxRadix op e).map.isAuxProc = decide (e ≠ L.masterOf (L.nodeOf e)) := by
  show decide (e≠(L.locals (L.nodeOf e)).index2Endpoint 0) = _
  rw [L.local_master _ (nodeOf_spec he).1]
  rfl

theorem tree_isPeerProc (he : e ∈ L.all) : (L.tree platform maxRadix op e).map.isPeerProc =
    decide (e = L.masterOf (L.nodeOf e) ∧ L.others (L.nodeOf e) ≠ []) := by
  obtain ⟨hlt,-⟩ := nodeOf_spec he
  have hsi : 1<(L.locals (L.nodeOf e)).size ↔ L.others (L.nodeOf e) ≠ [] := by
    rw [size,endpoints_local hlt,length_cons,← length_pos_iff]
    omega
  apply decide_eq_decide.mpr
  show e=(L.locals (L.nodeOf e)).index2Endpoint 0 ∧ 1<(L.locals (L.nodeOf e)).size ↔ _
  rw [L.local_master _ hlt,hsi]
  rfl

theorem tree_maxphases (he : e ∈ L.all)
    (haux : e ≠ L.masterOf (L.nodeOf e) ∨ L.others (L.nodeOf e) ≠ []) :
    (L.tree platform maxRadix op e).maxphases=(L.masterDims maxRadix).phases+2 := by
  have hne : L.master.size≠L.all.size := by
    rcases haux with hne | hne
    · exact size_ne_of_others he hne
    · obtain ⟨x,hx⟩ := exists_mem_of_ne_nil _ hne
      obtain ⟨hall,hnode,hneq⟩ := nodeOf_others (nodeOf_spec he).1 hx
      exact size_ne_of_others hall (hnode.symm ▸ hneq)
  show getMaxPhases maxRadix L.master.size+(decide (L.master.size≠L.all.size)).toNat = _
  rw [decide_eq_true hne]
  rfl

variable (platform maxRadix) in
theorem tree_context_aux (he : e ∈ L.all) (hop : op=BARRIER_OP ∨ op=ALLREDUCE_OP)
    (haux : e ≠ L.masterOf (L.nodeOf e)) :
    let c := (L.tree platform maxRadix op e).context
    let k := (L.masterDims maxRadix).phases
    (c.st=0 ∧ c.np=k+2) ∧ (c.sendph=NO_PHASES ∧ c.recvph=NO_PHASES) ∧
      (c.auxsendph=phase 0 ∧ c.auxrecvph=phase (k+1)) ∧
      (op=ALLREDUCE_OP → c.lastrdcph=phase k) := by
  have hmax : (L.tree platform maxRadix op e).maxphases = _ := tree_maxphases he (.inl haux)
  have hisa : (L.tree platform maxRadix op e).map.isAuxProc = _ := tree_isAuxProc he
  have hisp : (L.tree platform maxRadix op e).map.isPeerProc = _ := tree_isPeerProc he
  have hcon : (L.tree platform maxRadix op e).context=setupAux op (L.tree platform maxRadix op e).maxphases
        (setupPeer op false (L.masterDims maxRadix).phases (L.tree platform maxRadix op e).maxphases) := by
    show setupContext _ (L.tree platform maxRadix op e).map _ _ _ = _
    rw [setupContext,hisa,hisp]
    simp only [haux,ne_eq,not_false_eq_true,decide_true,false_and,decide_false,if_true]
    rfl
  rw [hcon,hmax]
  rcases hop with rfl | rfl
  · exact ⟨⟨rfl,rfl⟩,⟨rfl,rfl⟩,⟨rfl,rfl⟩,nofun⟩
  · exact ⟨⟨rfl,rfl⟩,⟨rfl,rfl⟩,⟨rfl,rfl⟩,fun _ => rfl⟩

variable (platform maxRadix) in
theorem tree_context_master (he : e ∈ L.all) (hop : op=BARRIER_OP ∨ op=ALLREDUCE_OP)
    (hmas : e = L.masterOf (L.nodeOf e)) :
    let c := (L.tree platform maxRadix op e).context
    let k := (L.masterDims maxRadix).phases
    (c.sendph=ALL_PHASES ∧ c.recvph=ALL_PHASES ∧ c.lastrdcph=UNDEFINED_PHASE) ∧
      ((L.others (L.nodeOf e) = [] ∧ (c.st=1 ∧ c.np=k) ∧ c.auxsendph=NO_PHASES ∧ c.auxrecvph=NO_PHASES) ∨
      (L.others (L.nodeOf e) ≠ [] ∧ (c.st=0 ∧ c.np=k+2) ∧
        c.auxsendph=phase (k+1) ∧ c.auxrecvph=phase 0)) := by
  have hisa : (L.tree platform maxRadix op e).map.isAuxProc = _ := tree_isAuxProc he
  have hisp : (L.tree platform maxRadix op e).map.isPeerProc = _ := tree_isPeerProc he
  have hcon : (L.tree platform maxRadix op e).context=setupBino op (L.tree platform maxRadix op e).map.getMyRank
        (L.tree platform maxRadix op e).radix
        (setupPeer op (decide (L.others (L.nodeOf e) ≠ [])) (L.masterDims maxRadix).phases
          (L.tree platform maxRadix op e).maxphases) := by
    show setupContext _ (L.tree platform maxRadix op e).map _ _ _ = _
    rw [setupContext,hisa,hisp]
    simp only [← hmas,ne_eq,not_true_eq_false,decide_false,true_and,Bool.false_eq_true,if_false]
    rfl
  rw [hcon]
  by_cases hots : L.others (L.nodeOf e) = []
  · rw [hots]
    rcases hop with rfl | rfl
    · exact ⟨⟨rfl,rfl,rfl⟩,.inl ⟨rfl,⟨rfl,rfl⟩,rfl,rfl⟩⟩
    · exact ⟨⟨rfl,rfl,rfl⟩,.inl ⟨rfl,⟨rfl,rfl⟩,rfl,rfl⟩⟩
  · have hmax : (L.tree platform maxRadix op e).maxphases = _ := tree_maxphases he (.inr hots)
    rw [hmax,decide_eq_true hots]
    rcases hop with rfl | rfl
    · exact ⟨⟨rfl,rfl,rfl⟩,.inr ⟨hots,⟨rfl,rfl⟩,rfl,rfl⟩⟩
    · exact ⟨⟨rfl,rfl,rfl⟩,.inr ⟨hots,⟨rfl,rfl⟩,rfl,rfl⟩⟩

theorem getGlobalRank_master {i : ℕ} (hi : i<L.master.size) :
    (L.tree platform maxRadix op e).map.getGlobalRank i = platform.task (L.masterOf i) :=
  if_pos hi

theorem getGlobalRank_local (j : ℕ) :
    (L.tree platform maxRadix op e).map.getGlobalRank (L.master.size+j) =
      platform.task ((L.locals (L.nodeOf e)).index2Endpoint j) := by
  show (if _ < L.master.size then _ else _) = _
  rw [if_neg (by omega)]
  show platform.task ((L.locals (L.nodeOf e)).index2Endpoint (L.master.size+j-L.master.size)) = _
  rw [Nat.add_sub_cancel_left]

theorem map_getAuxForPeer (he : e ∈ L.all) :
    (L.tree platform maxRadix op e).map.getAuxForPeer.map
        (L.tree platform maxRadix op e).map.getGlobalRank =
      (L.others (L.nodeOf e)).map platform.task := by
  have hcons := endpoints_local (nodeOf_spec he).1
  have hsi : (L.locals (L.nodeOf e)).size-1=(L.others (L.nodeOf e)).length := by
    rw [size,hcons,length_cons,Nat.add_sub_cancel]
  show ((List.range' 1 ((L.locals (L.nodeOf e)).size-1)).map _).map _ = _
  rw [map_map,hsi,range'_eq_map_range,map_map]
  apply ext_getElem
  · simp
  · intro j h1 h2
    rw [length_map] at h2
    simp only [getElem_map,getElem_range,Function.comp_apply]
    show (L.tree platform maxRadix op e).map.getGlobalRank (L.master.size+(1+j)) = _
    rw [getGlobalRank_local,index2Endpoint,hcons,Nat.add_comm,getD_cons_succ,getD_eq_getElem _ _ h2]

/-- The phase of a master with its node, as it receives or sends. -/
def firstPhase (k : ℕ) (parent : Bool) : ℕ := if parent then 0 else k + 1

def lastPhase (k : ℕ) (parent : Bool) : ℕ := if parent then k + 1 else 0

theorem partnerRanks_other (he : e ∈ L.all) (hop : op=BARRIER_OP ∨ op=ALLREDUCE_OP)
    (haux : e ≠ L.masterOf (L.nodeOf e)) (parent : Bool) (p : ℕ) :
    (L.tree platform maxRadix op e).partnerRanks parent p =
      if p = lastPhase (L.masterDims maxRadix).phases parent then [L.nodeOf e] else [] := by
  obtain ⟨-,⟨hsd,hrecv⟩,⟨haxs,haxr⟩,-⟩ := tree_context_aux platform maxRadix he hop haux
  have haxp : (L.tree platform maxRadix op e).auxph parent =
      phase (lastPhase (L.masterDims maxRadix).phases parent) := by
    cases parent with
    | false => exact haxs
    | true => exact haxr
  have hmain (parent : Bool) : (L.tree platform maxRadix op e).mainph parent=NO_PHASES := by
    cases parent with
    | false => exact hsd
    | true => exact hrecv
  split_ifs with hp
  · rw [hp,partnerRanks_of_aux haxp,tree_isAuxProc he,if_pos (decide_eq_true haux)]
    show [(L.tree platform maxRadix op e).map.getMyRank] = _
    rw [tree_getMyRank he]
  · apply partnerRanks_of_neither
    · rw [MultinomialTreeT.Communicates,hmain]
      simp
    · rw [haxp]
      simp [Ne.symm hp]

variable (platform maxRadix) in
theorem auxph_master (he : e ∈ L.all) (hop : op=BARRIER_OP ∨ op=ALLREDUCE_OP)
    (hmas : e = L.masterOf (L.nodeOf e)) (parent : Bool) (q : ℕ) :
    (L.tree platform maxRadix op e).auxph parent = phase q ↔
      q = firstPhase (L.masterDims maxRadix).phases parent ∧ L.others (L.nodeOf e) ≠ [] := by
  obtain ⟨-,hphs⟩ := tree_context_master platform maxRadix he hop hmas
  rw [auxph,firstPhase]
  rcases hphs with ⟨hnil,-,hs,hr⟩ | ⟨hne,-,hs,hr⟩
  · simp [hs,hr,hnil]
  · cases parent <;> simp [hs,hr,hne,eq_comm]

variable (platform maxRadix) in
theorem communicates_master (he : e ∈ L.all) (hop : op=BARRIER_OP ∨ op=ALLREDUCE_OP)
    (hmas : e = L.masterOf (L.nodeOf e)) (parent : Bool) (p : ℕ) :
    (L.tree platform maxRadix op e).Communicates parent p ↔ 1≤p ∧ p≤(L.masterDims maxRadix).phases := by
  obtain ⟨⟨hsd,hrecv,-⟩,-⟩ := tree_context_master platform maxRadix he hop hmas
  have hmain : (L.tree platform maxRadix op e).mainph parent=ALL_PHASES := by
    cases parent with
    | false => exact hsd
    | true => exact hrecv
  rw [MultinomialTreeT.Communicates,hmain]
  simp only [true_or,and_true]
  rfl

section

variable (he : e ∈ L.all) (hop : op = BARRIER_OP ∨ op = ALLREDUCE_OP)
include he hop

theorem partnerRanks_master (hmas : e = L.masterOf (L.nodeOf e)) (parent : Bool) (p : ℕ) :
    (L.tree platform maxRadix op e).partnerRanks parent p =
      if 1≤p ∧ p≤(L.masterDims maxRadix).phases then
        (L.masterDims maxRadix).exchange (L.nodeOf e) p
      else if p = firstPhase (L.masterDims maxRadix).phases parent ∧ L.others (L.nodeOf e) ≠ [] then
        (L.tree platform maxRadix op e).map.getAuxForPeer
      else [] := by
  have haxp (parent : Bool) := auxph_master platform maxRadix he hop hmas parent p
  have hcomm := communicates_master platform maxRadix he hop hmas parent p
  split_ifs with hp hfir
  · rw [partnerRanks_of_bino (hcomm.mpr hp),tree_getMyRank he,Dims.exchange]
    · exact congrArg (fun r => bino _ _ r _) (getRadix_eq maxRadix L.master.size)
    · intro parent h
      have hq := ((haxp parent).mp h).1
      cases parent with
      | false | true => exact absurd hq (by rw [firstPhase]; simp; omega)
  · have hpe : (L.tree platform maxRadix op e).map.isPeerProc=true := by
      rw [tree_isPeerProc he]
      exact decide_eq_true ⟨hmas,hfir.2⟩
    have hnot : (L.tree platform maxRadix op e).map.isAuxProc=false := by
      rw [tree_isAuxProc he]
      exact decide_eq_false (not_not.mpr hmas)
    rw [partnerRanks_of_aux ((haxp parent).mpr hfir),hpe,hnot]
    rfl
  · exact partnerRanks_of_neither (mt hcomm.mp hp) (mt (haxp parent).mp hfir)

theorem map_partnerRanks (parent : Bool) (p : ℕ) : ((L.tree platform maxRadix op e).partnerRanks parent p).map
        (L.tree platform maxRadix op e).map.getGlobalRank =
      (L.partners maxRadix (firstPhase (L.masterDims maxRadix).phases parent)
        (lastPhase (L.masterDims maxRadix).phases parent) e p).map platform.task := by
  obtain ⟨hnode,-⟩ := nodeOf_spec he
  by_cases hmas : e=L.masterOf (L.nodeOf e)
  · rw [partnerRanks_master he hop hmas,partners,if_neg (not_not.mpr hmas)]
    by_cases hp : 1≤p ∧ p≤(L.masterDims maxRadix).phases
    · rw [if_pos hp,if_pos hp,map_map]
      apply map_congr_left
      intro r hr
      apply getGlobalRank_master
      rw [← masterDims_hnranks maxRadix] at hnode ⊢
      exact (L.masterDims maxRadix).exchange_lt hp hnode hr
    · rw [if_neg hp,if_neg hp]
      by_cases hfir : p=firstPhase (L.masterDims maxRadix).phases parent
      · rw [if_pos hfir]
        by_cases hnil : L.others (L.nodeOf e) = []
        · rw [if_neg (fun h => h.2 hnil),hnil]
          rfl
        · rw [if_pos ⟨hfir,hnil⟩,map_getAuxForPeer he]
      · rw [if_neg (fun h => hfir h.1),if_neg hfir]
        rfl
  · rw [partnerRanks_other he hop hmas,partners,if_pos hmas]
    split_ifs
    · rw [map_singleton,map_singleton,getGlobalRank_master hnode]
    · rfl

theorem getSrcTopology_eq (p : ℕ) : (L.tree platform maxRadix op e).getSrcTopology p =
      (L.sources maxRadix e p).map platform.task :=
  map_partnerRanks he hop true p

theorem getDstTopology_eq (p : ℕ) : (L.tree platform maxRadix op e).getDstTopology p =
      (L.targets maxRadix e p).map platform.task :=
  map_partnerRanks he hop false p

end

theorem mem_partners {first last x : ℕ} (he : e ∈ L.all)
    (hx : x ∈ L.partners maxRadix first last e p) : x ∈ L.all ∧ x≠e := by
  obtain ⟨hnode,-⟩ := nodeOf_spec he
  rw [partners] at hx
  split_ifs at hx with haux hla hp hfir
  · rw [mem_singleton.mp hx]
    exact ⟨masterOf_all hnode,Ne.symm haux⟩
  · cases hx
  · obtain ⟨r,hr,rfl⟩ := mem_map.mp hx
    have hlt : r<L.master.size := by
      rw [← masterDims_hnranks maxRadix] at hnode ⊢
      exact (L.masterDims maxRadix).exchange_lt hp hnode hr
    refine ⟨masterOf_all hlt,?_⟩
    intro heq
    have hnds := nodeOf_masterOf hlt
    rw [heq] at hnds
    exact (L.masterDims maxRadix).exchange_ne hr hnds.symm
  · obtain ⟨hall,-,hne⟩ := nodeOf_others hnode hx
    rw [not_not] at haux
    exact ⟨hall,haux ▸ hne⟩
  · cases hx

theorem mem_partners_comm {first last a b : ℕ} (ha : a ∈ L.all)
    (hla : ¬ (1≤last ∧ last≤(L.masterDims maxRadix).phases))
    (h : b ∈ L.partners maxRadix first last a p) : a ∈ L.partners maxRadix last first b p := by
  obtain ⟨hnode,-⟩ := nodeOf_spec ha
  rw [partners] at h
  split_ifs at h with haux hp hp hp
  · -- `a` is not a master, so `b` is its master
    have hb' := mem_singleton.mp h
    have hnds : L.nodeOf b = L.nodeOf a := by rw [hb',nodeOf_masterOf hnode]
    rw [partners,hnds,if_neg (not_not.mpr hb'),hp,if_neg hla,if_pos rfl]
    exact mem_others_nodeOf ha haux
  · cases h
  · -- both are masters
    obtain ⟨r,hr,rfl⟩ := mem_map.mp h
    have hlt : r<L.master.size := by
      rw [← masterDims_hnranks maxRadix] at hnode ⊢
      exact (L.masterDims maxRadix).exchange_lt hp hnode hr
    rw [partners,nodeOf_masterOf hlt,if_neg (not_not.mpr rfl),if_pos hp,mem_map]
    exact ⟨L.nodeOf a,(L.masterDims maxRadix).mem_exchange_comm.mp hr,(not_not.mp haux).symm⟩
  · -- `a` is the master of the node of `b`
    obtain ⟨-,hnds,hne⟩ := nodeOf_others hnode h
    rw [partners,hnds,if_pos hne,if_pos hp,← not_not.mp haux]
    exact mem_singleton_self _
  · cases h

theorem mem_targets_iff {a b : ℕ} (ha : a ∈ L.all) (hb : b ∈ L.all) :
    b ∈ L.targets maxRadix a p ↔ a ∈ L.sources maxRadix b p := by
  constructor
  · exact mem_partners_comm ha (by omega)
  · exact mem_partners_comm hb (by omega)

theorem active_of_partner (parent : Bool) (he : e ∈ L.all)
    (hop : op=BARRIER_OP ∨ op=ALLREDUCE_OP)
    (hne : L.partners maxRadix (firstPhase (L.masterDims maxRadix).phases parent)
      (lastPhase (L.masterDims maxRadix).phases parent) e p ≠ []) :
    (L.tree platform maxRadix op e).Active p := by
  have hfir : firstPhase (L.masterDims maxRadix).phases parent<(L.masterDims maxRadix).phases+2 := by
    rw [firstPhase]
    split_ifs <;> omega
  have hla : lastPhase (L.masterDims maxRadix).phases parent<(L.masterDims maxRadix).phases+2 := by
    rw [lastPhase]
    split_ifs <;> omega
  rw [MultinomialTreeT.Active]
  rw [partners] at hne
  by_cases haux : e=L.masterOf (L.nodeOf e)
  · rw [if_neg (not_not.mpr haux)] at hne
    obtain ⟨-,⟨hnil,⟨hst,hnp⟩,-⟩ | ⟨-,⟨hst,hnp⟩,-⟩⟩ := tree_context_master platform maxRadix he hop haux
    · rw [hst,hnp]
      split_ifs at hne with hp
      · omega
      · exact absurd hnil hne
      · exact absurd rfl hne
    · rw [hst,hnp]
      split_ifs at hne with hp hp
      · omega
      · omega
      · exact absurd rfl hne
  · obtain ⟨⟨hst,hnp⟩,-⟩ := tree_context_aux platform maxRadix he hop haux
    rw [if_pos haux] at hne
    rw [hst,hnp]
    split_ifs at hne with hp
    · omega
    · exact absurd rfl hne

end Partners

end NodeLayout

end PAMI.Schedule

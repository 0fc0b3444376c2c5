import Mathlib.Data.Finset.Max
import PAMI.Schedule.NodeLayout

namespace PAMI.Schedule

open CollectiveOperation PhaseCode PAMI.Math Finset Platform

namespace NodeLayout

section Execution

variable (L : NodeLayout) (platform : Platform) (maxRadix : ℕ) (op : CollectiveOperation)

/-- The endpoint sends to another one in a phase. -/
def Sends (p a b : ℕ) : Prop :=
  (L.tree platform maxRadix op a).Active p ∧ b ∈ (L.tree platform maxRadix op a).getDstTopology p

def Receives (p b a : ℕ) : Prop :=
  (L.tree platform maxRadix op b).Active p ∧ a ∈ (L.tree platform maxRadix op b).getSrcTopology p

instance (p a b : ℕ) : Decidable (L.Sends platform maxRadix op p a b) := inferInstanceAs (Decidable (_ ∧ _))

/-- Whom an endpoint hears from in a phase: those of its sources that send to it. -/
def received (p e : ℕ) : List ℕ :=
  if (L.tree platform maxRadix op e).Active p then
    ((L.tree platform maxRadix op e).getSrcTopology p).filter fun a => a ∈ L.all ∧ L.Sends platform maxRadix op p a e
  else []

variable {M : Type*} [AddCommMonoid M]

/-- One phase: what an endpoint receives is combined with its own value, and replaces it after the
last reduce phase of an allreduce. What the messages of a barrier carry is counted the same way. -/
def phaseStep (v : ℕ → M) (p : ℕ) : ℕ → M := fun e =>
  if (L.tree platform maxRadix ALLREDUCE_OP e).Reduces p ∨ L.received platform maxRadix op p e = [] then
    v e + ((L.received platform maxRadix op p e).map v).sum
  else ((L.received platform maxRadix op p e).map v).sum

/-- The value of an endpoint after all phases in order. -/
def execute (v : ℕ → M) (e : ℕ) : M :=
  (List.range (L.tree platform maxRadix op e).maxphases).foldl (L.phaseStep platform maxRadix op) v e

/-- An endpoint sends to another in a phase exactly if that one receives from it. -/
def Matched : Prop := ∀ p, ∀ a ∈ L.all, ∀ b ∈ L.all,
    L.Sends platform maxRadix op p a b ↔ L.Receives platform maxRadix op p b a

/-- Every endpoint ends with the contribution of every endpoint, exactly once. -/
def Delivered : Prop := ∀ e ∈ L.all, L.execute platform maxRadix op (fun a => ({a} : Multiset ℕ)) e = L.all.endpoints

end Execution

section Named

variable {L : NodeLayout} {platform : Platform} {maxRadix : ℕ} {op : CollectiveOperation}

def Named (L : NodeLayout) (platform : Platform) : Prop := L.all.size = 1 ∨ ∀ e ∈ L.all, platform.task e = e

theorem Named.partners (h : L.Named platform) {first last e p : ℕ} (he : e ∈ L.all) :
    (L.partners maxRadix first last e p).map platform.task = L.partners maxRadix first last e p := by
  have hid : ∀ x ∈ L.partners maxRadix first last e p, platform.task x = id x := by
    intro x hx
    obtain ⟨hall,hne⟩ := mem_partners he hx
    rcases h with hone | hall'
    · obtain ⟨y,hy⟩ := List.length_eq_one_iff.mp hone
      have hx' : x ∈ L.all.endpoints := hall
      have he' : e ∈ L.all.endpoints := he
      rw [hy,List.mem_singleton] at hx' he'
      exact absurd (hx'.trans he'.symm) hne
    · exact hall' x hall
  rw [List.map_congr_left hid,List.map_id]

section

variable (h : L.Named platform) (hop : op = BARRIER_OP ∨ op = ALLREDUCE_OP)
include h hop

theorem Named.sends_iff {p a b : ℕ} (ha : a ∈ L.all) :
    L.Sends platform maxRadix op p a b ↔ b ∈ L.targets maxRadix a p := by
  rw [Sends,getDstTopology_eq ha hop,targets,h.partners ha,and_iff_right_iff_imp]
  intro hb
  exact active_of_partner false ha hop (List.ne_nil_of_mem hb)

theorem Named.receives_iff {p a b : ℕ} (hb : b ∈ L.all) :
    L.Receives platform maxRadix op p b a ↔ a ∈ L.sources maxRadix b p := by
  rw [Receives,getSrcTopology_eq hb hop,sources,h.partners hb,and_iff_right_iff_imp]
  intro ha
  exact active_of_partner true hb hop (List.ne_nil_of_mem ha)

theorem Named.matched : L.Matched platform maxRadix op := by
  intro p a ha b hb
  rw [h.sends_iff hop ha,h.receives_iff hop hb]
  exact mem_targets_iff ha hb

theorem Named.received_eq {p e : ℕ} (he : e ∈ L.all) :
    L.received platform maxRadix op p e = L.sources maxRadix e p := by
  rw [received,getSrcTopology_eq he hop,sources,h.partners he]
  split_ifs with hact
  · rw [List.filter_eq_self]
    intro a ha
    have hall := (mem_partners he ha).1
    rw [decide_eq_true_eq,h.sends_iff hop hall,mem_targets_iff hall he]
    exact ⟨hall,ha⟩
  · by_contra hne
    exact hact (active_of_partner true he hop (Ne.symm hne))

end

end Named

section Values

variable {L : NodeLayout} {platform : Platform} {maxRadix : ℕ} {op : CollectiveOperation}
  {M : Type*} [AddCommMonoid M] {e : ℕ}

def nodeSum (L : NodeLayout) (v : ℕ → M) (i : ℕ) : M := ((L.locals i).endpoints.map v).sum

theorem sum_nodeSum (v : ℕ → M) :
    ∑ i ∈ range L.master.size, L.nodeSum v i = (L.all.endpoints.map v).sum := by
  have hall : L.all.endpoints.toFinset=(range L.master.size).biUnion fun i => (L.locals i).endpoints.toFinset := by
    ext e
    simp only [List.mem_toFinset,mem_biUnion,mem_range]
    exact L.mem_all e
  rw [← List.sum_toFinset v L.all.nodup,hall,sum_biUnion]
  · apply sum_congr rfl
    intro i _
    rw [nodeSum,List.sum_toFinset v (L.locals i).nodup]
  · intro i hi j hj hne
    rw [Function.onFun_apply,disjoint_left]
    intro e hei hej
    rw [List.mem_toFinset] at hei hej
    rw [coe_range,Set.mem_Iio] at hi hj
    exact hne (L.disjoint i hi j hj e hei hej)

theorem reduces_master (hi : e ∈ L.all) (hmas : e = L.masterOf (L.nodeOf e)) (p : ℕ) :
    (L.tree platform maxRadix ALLREDUCE_OP e).Reduces p := by
  obtain ⟨⟨-,-,hla⟩,-⟩ := tree_context_master platform maxRadix hi (.inr rfl) hmas
  rw [MultinomialTreeT.Reduces,hla]
  trivial

section

variable (h : L.Named platform) (hop : op = BARRIER_OP ∨ op = ALLREDUCE_OP) {i : ℕ}
include h hop

theorem Named.phaseStep_master (v : ℕ → M) (hi : i<L.master.size) (p : ℕ) :
    L.phaseStep platform maxRadix op v p (L.masterOf i) =
      v (L.masterOf i)+((L.sources maxRadix (L.masterOf i) p).map v).sum := by
  have hmas : L.masterOf i = L.masterOf (L.nodeOf (L.masterOf i)) := by rw [nodeOf_masterOf hi]
  rw [phaseStep,if_pos (.inl (reduces_master (masterOf_all hi) hmas p)),h.received_eq hop (masterOf_all hi)]

omit h hop in
theorem sources_master (hi : i<L.master.size) (p : ℕ) : L.sources maxRadix (L.masterOf i) p =
      if 1≤p ∧ p≤(L.masterDims maxRadix).phases then
        ((L.masterDims maxRadix).exchange i p).map L.masterOf
      else if p=0 then L.others i else [] := by
  rw [sources,partners,nodeOf_masterOf hi,if_neg (not_not.mpr rfl)]

omit h hop in
theorem rankStep_node (w : ℕ → M) (hi : i<L.master.size) (p : ℕ) :
    rankStep (L.masterDims maxRadix) ALLREDUCE_OP w p i = w i +
      if 1≤p ∧ p≤(L.masterDims maxRadix).phases then
        (((L.masterDims maxRadix).exchange i p).map w).sum else 0 := by
  have hinn : ¬ (L.masterDims maxRadix).hnranks ≤ i := by
    rw [masterDims_hnranks]
    omega
  have hpe : ¬ (p=0 ∧ (L.masterDims maxRadix).IsPeer i) := by
    rintro ⟨-,h⟩
    rw [Dims.IsPeer,masterDims_hnranks,masterDims_nranks] at h
    omega
  rw [rankStep,if_pos (.inl (fun _ h => absurd h hinn)),Dims.sources,if_neg hinn,if_neg hpe]
  split_ifs
  · rfl
  · rfl

theorem Named.master_values (v : ℕ → M) {j : ℕ} (hj : j≤(L.masterDims maxRadix).phases)
    (hi : i<L.master.size) :
    (List.range (j+1)).foldl (L.phaseStep platform maxRadix op) v (L.masterOf i) =
      (List.range (j+1)).foldl (rankStep (L.masterDims maxRadix) ALLREDUCE_OP) (L.nodeSum v) i := by
  induction j generalizing i with
  | zero =>
    show L.phaseStep platform maxRadix op v 0 (L.masterOf i) =
      rankStep (L.masterDims maxRadix) ALLREDUCE_OP (L.nodeSum v) 0 i
    rw [h.phaseStep_master hop v hi,sources_master hi,rankStep_node _ hi,if_neg (by omega),
      if_pos rfl,if_neg (by omega),add_zero,nodeSum,endpoints_local hi,List.map_cons,
      List.sum_cons]
  | succ j ih =>
    have hp : 1≤j+1 ∧ j+1≤(L.masterDims maxRadix).phases := ⟨by omega,hj⟩
    have hprev {r : ℕ} (hr : r<L.master.size) := ih (by omega) hr
    rw [List.range_succ,List.foldl_append,List.foldl_append]
    show L.phaseStep platform maxRadix op _ (j+1) (L.masterOf i) =
      rankStep (L.masterDims maxRadix) ALLREDUCE_OP _ (j+1) i
    rw [h.phaseStep_master hop _ hi,sources_master hi,rankStep_node _ hi,if_pos hp,if_pos hp,
      hprev hi,List.map_map]
    congr 2
    apply List.map_congr_left
    intro r hr
    apply hprev
    rw [← masterDims_hnranks maxRadix] at hi ⊢
    exact (L.masterDims maxRadix).exchange_lt hp hi hr

theorem Named.master_total (v : ℕ → M) (hi : i<L.master.size) :
    (List.range ((L.masterDims maxRadix).phases+1)).foldl (L.phaseStep platform maxRadix op) v
      (L.masterOf i) = (L.all.endpoints.map v).sum := by
  have hlt : i<(L.masterDims maxRadix).hnranks := by
    rw [masterDims_hnranks]
    exact hi
  rw [h.master_values hop v (le_refl _) hi,allreduce_inner _ _ hlt,masterDims_nranks,sum_nodeSum]

theorem Named.other_total (v : ℕ → M) (he : e ∈ L.all) :
    (List.range ((L.masterDims maxRadix).phases+2)).foldl (L.phaseStep platform maxRadix op) v e =
      (L.all.endpoints.map v).sum := by
  obtain ⟨hnode,-⟩ := nodeOf_spec he
  have htot : (List.range ((L.masterDims maxRadix).phases+1)).foldl
      (L.phaseStep platform maxRadix op) v (L.masterOf (L.nodeOf e)) = _ :=
    h.master_total hop v hnode
  rw [List.range_succ,List.foldl_append]
  show L.phaseStep platform maxRadix op _ ((L.masterDims maxRadix).phases+1) e = _
  by_cases hmas : e=L.masterOf (L.nodeOf e)
  · rw [hmas,h.phaseStep_master hop _ hnode,sources_master hnode,if_neg (by omega),
      if_neg (by omega),htot,List.map_nil,List.sum_nil,add_zero]
  · obtain ⟨-,-,-,hla⟩ := tree_context_aux platform maxRadix he (.inr rfl) hmas
    have hsou : L.sources maxRadix e ((L.masterDims maxRadix).phases+1) = [L.masterOf (L.nodeOf e)] := by
      rw [sources,NodeLayout.partners,if_pos hmas,if_pos rfl]
    have hnot : ¬ ((L.tree platform maxRadix ALLREDUCE_OP e).Reduces ((L.masterDims maxRadix).phases+1) ∨
        L.received platform maxRadix op ((L.masterDims maxRadix).phases+1) e = []) := by
      rw [h.received_eq hop he,hsou,MultinomialTreeT.Reduces,hla rfl]
      simp
    rw [phaseStep,if_neg hnot,h.received_eq hop he,hsou,List.map_singleton,List.sum_singleton,htot]

theorem Named.execute_eq (v : ℕ → M) (he : e ∈ L.all) :
    L.execute platform maxRadix op v e = (L.all.endpoints.map v).sum := by
  have hmax : (L.tree platform maxRadix op e).maxphases =
      (L.masterDims maxRadix).phases+1+(decide (L.master.size≠L.all.size)).toNat := rfl
  rw [execute]
  by_cases hsi : L.master.size=L.all.size
  · have hmas : e=L.masterOf (L.nodeOf e) := by
      by_contra hne
      exact size_ne_of_others he hne hsi
    rw [hmax,decide_eq_false (not_not.mpr hsi),hmas]
    exact h.master_total hop v (nodeOf_spec he).1
  · rw [hmax,decide_eq_true hsi]
    exact h.other_total hop v he

theorem Named.delivered : L.Delivered platform maxRadix op := by
  intro e he
  rw [h.execute_eq hop _ he]
  exact Multiset.sum_map_singleton (L.all.endpoints : Multiset ℕ)

end

end Values

section Unnamed

variable {L : NodeLayout} {platform : Platform} {maxRadix : ℕ} {op : CollectiveOperation}

theorem exists_unnamed (h : ¬ ∀ e ∈ L.all, platform.task e = e) :
    ∃ e ∈ L.all, ∀ x ∈ L.all, platform.task x ≠ e := by
  have hne : (L.all.endpoints.toFinset.filter fun e => platform.task e≠e).Nonempty := by
    simp only [not_forall] at h
    obtain ⟨e,he,hne⟩ := h
    exact ⟨e,mem_filter.mpr ⟨List.mem_toFinset.mpr he,hne⟩⟩
  obtain ⟨e,he,hmax⟩ := exists_max_image _ id hne
  obtain ⟨hmem,htask⟩ := mem_filter.mp he
  refine ⟨e,List.mem_toFinset.mp hmem,?_⟩
  intro x hx heq
  have hle : e≤x := heq ▸ platform.task_le x
  have hxe : x=e := by
    by_cases hfix : platform.task x=x
    · exact hfix.symm.trans heq
    · exact le_antisymm (hmax x (mem_filter.mpr ⟨List.mem_toFinset.mpr hx,hfix⟩)) hle
  rw [hxe] at heq
  exact htask heq

theorem mem_received {p e a : ℕ} (hop : op=BARRIER_OP ∨ op=ALLREDUCE_OP) (he : e ∈ L.all)
    (ha : a ∈ L.received platform maxRadix op p e) :
    a ∈ L.all ∧ ∃ x ∈ L.all, platform.task x = a := by
  rw [received,getSrcTopology_eq he hop] at ha
  split_ifs at ha
  · obtain ⟨hsrc,hcond⟩ := List.mem_filter.mp ha
    obtain ⟨x,hx,rfl⟩ := List.mem_map.mp hsrc
    exact ⟨(of_decide_eq_true hcond).1,x,(mem_partners he hx).1,rfl⟩
  · cases ha

theorem mem_sum_map {α β : Type*} {l : List α} {f : α → Multiset β} {x : β}
    (h : x ∈ (l.map f).sum) : ∃ a ∈ l, x ∈ f a := by
  induction l with
  | nil => exact absurd h (Multiset.notMem_zero x)
  | cons a l ih =>
    rw [List.map_cons,List.sum_cons,Multiset.mem_add] at h
    rcases h with h | h
    · exact ⟨a,List.mem_cons_self,h⟩
    · obtain ⟨b,hb,hx⟩ := ih h
      exact ⟨b,List.mem_cons_of_mem a hb,hx⟩

section

variable {e : ℕ} (hop : op = BARRIER_OP ∨ op = ALLREDUCE_OP) (hname : ∀ x ∈ L.all, platform.task x ≠ e)
  {v : ℕ → Multiset ℕ}
include hop hname

theorem phaseStep_unnamed (hv : ∀ b ∈ L.all, b≠e → e ∉ v b) (p : ℕ) :
    ∀ b ∈ L.all, b≠e → e ∉ L.phaseStep platform maxRadix op v p b := by
  intro b hb hne hmem
  have hsum : e ∉ ((L.received platform maxRadix op p b).map v).sum := by
    intro h
    obtain ⟨a,ha,hea⟩ := mem_sum_map h
    obtain ⟨hall,x,hx,hxa⟩ := mem_received hop hb ha
    refine hv a hall ?_ hea
    intro hae
    exact hname x hx (hxa.trans hae)
  rw [phaseStep] at hmem
  split_ifs at hmem
  · rcases Multiset.mem_add.mp hmem with h | h
    · exact hv b hb hne h
    · exact hsum h
  · exact hsum hmem

theorem foldl_unnamed (ps : List ℕ) (hv : ∀ b ∈ L.all, b≠e → e ∉ v b) :
    ∀ b ∈ L.all, b≠e → e ∉ ps.foldl (L.phaseStep platform maxRadix op) v b := by
  induction ps generalizing v with
  | nil => exact hv
  | cons p ps ih => exact ih (phaseStep_unnamed hop hname hv p)

end

theorem Delivered.named (h : L.Delivered platform maxRadix op)
    (hop : op=BARRIER_OP ∨ op=ALLREDUCE_OP) : L.Named platform := by
  by_contra hno
  rw [Named,not_or] at hno
  obtain ⟨hone,hno⟩ := hno
  obtain ⟨e,he,hname⟩ := exists_unnamed hno
  have hoth : ∃ b ∈ L.all.endpoints, b≠e := by
    by_contra hall
    simp only [not_exists,not_and,not_not] at hall
    apply hone
    rw [Topology.size,List.eq_replicate_of_mem hall,List.length_replicate]
    have hnod := L.all.nodup
    rw [List.eq_replicate_of_mem hall,List.nodup_replicate] at hnod
    have hpos : 0<L.all.endpoints.length := List.length_pos_of_mem he
    omega
  obtain ⟨b,hb,hne⟩ := hoth
  have hmem : e ∈ L.execute platform maxRadix op (fun a => ({a} : Multiset ℕ)) b := by
    rw [h b hb]
    exact he
  refine foldl_unnamed hop hname _ ?_ b hb hne hmem
  intro c _ hce hmem
  exact hce (Multiset.mem_singleton.mp hmem).symm

end Unnamed

section NodeOpt

/-- The node-optimised schedule is right exactly where the endpoints are their own tasks, unless there is only one: in each
phase sends and receives match, and all phases collect every contribution at every endpoint once. -/
theorem nodeOpt_iff (L : NodeLayout) (platform : Platform) (maxRadix : ℕ)
    {op : CollectiveOperation} (hop : op = BARRIER_OP ∨ op = ALLREDUCE_OP) :
    (L.Matched platform maxRadix op ∧ L.Delivered platform maxRadix op) ↔
      L.all.size = 1 ∨ ∀ e ∈ L.all, platform.task e = e := by
  constructor
  · rintro ⟨-,hdel⟩
    exact hdel.named hop
  · intro hnam
    have hnam : L.Named platform := hnam
    exact ⟨hnam.matched hop,hnam.delivered hop⟩

/-- Two nodes, one of three endpoints and one of a single endpoint. -/
def unevenNodes : NodeLayout where
  all := ⟨[0, 1, 2, 3], by decide⟩
  master := ⟨[0, 3], by decide⟩
  locals i := if i = 0 then ⟨[0, 1, 2], by decide⟩ else ⟨[3], by decide⟩
  pow := by decide
  local_pos := by decide
  local_master := by decide
  mem_all e := by
    constructor
    · intro he
      rcases List.mem_append.mp (show e ∈ [0, 1, 2] ++ [3] from he) with h | h
      · exact ⟨0, by decide, h⟩
      · exact ⟨1, by decide, h⟩
    · rintro ⟨i, -, he⟩
      show e ∈ [0, 1, 2] ++ [3]
      rw [List.mem_append]
      by_cases h0 : i = 0
      · rw [if_pos h0] at he
        exact .inl he
      · rw [if_neg h0] at he
        exact .inr he
  disjoint := by decide

theorem nodeOpt_iff_uneven : unevenNodes.Matched bgq 8 ALLREDUCE_OP ∧ unevenNodes.Delivered bgq 8 ALLREDUCE_OP :=
  (nodeOpt_iff unevenNodes bgq 8 (.inr rfl)).mpr (.inr (by decide))

def oneNode (t : Topology) (h : 0 < t.size) : NodeLayout where
  all := t
  master := ⟨[t.index2Endpoint 0], List.nodup_singleton _⟩
  locals _ := t
  pow := rfl
  local_pos _ _ := h
  local_master i hi := by
    rw [Nat.lt_one_iff.mp hi]
    rfl
  mem_all _ := ⟨fun he => ⟨0, Nat.zero_lt_one, he⟩, fun ⟨_, _, he⟩ => he⟩
  disjoint i hi j hj _ _ _ := (Nat.lt_one_iff.mp hi).trans (Nat.lt_one_iff.mp hj).symm

def twoContexts : NodeLayout := oneNode ⟨[0, 1 <<< 23], by decide⟩ (by decide)

/-- The second context sends to the first, which waits for itself. -/
theorem contexts_not_matched :
    twoContexts.Sends bgq 8 ALLREDUCE_OP 0 (1 <<< 23) 0 ∧
    (twoContexts.tree bgq 8 ALLREDUCE_OP 0).getSrcTopology 0 = [0] ∧
    ¬ (twoContexts.Matched bgq 8 ALLREDUCE_OP ∧ twoContexts.Delivered bgq 8 ALLREDUCE_OP) := by
  have hsen : twoContexts.Sends bgq 8 ALLREDUCE_OP 0 (1 <<< 23) 0 := by decide
  have hsrc : (twoContexts.tree bgq 8 ALLREDUCE_OP 0).getSrcTopology 0 = [0] := by decide
  refine ⟨hsen,hsrc,?_⟩
  rintro ⟨hmat,-⟩
  have hrec := (hmat 0 (1 <<< 23) (by decide) 0 (by decide)).mp hsen
  rw [Receives,hsrc] at hrec
  exact absurd hrec.2 (by decide)

end NodeOpt

end NodeLayout

end PAMI.Schedule

import PAMI.Math.Runs
import PAMI.Schedule.Matching

namespace PAMI.Schedule

open CollectiveOperation PhaseCode PAMI.Math MultinomialTree Finset Dims Nat

section Execution

variable (maxRadix : ℕ) (topology : Topology) (root : ℕ) (op : CollectiveOperation)

/-- Whom an endpoint hears from in a phase: those of its sources that send to it. -/
def received (p e : ℕ) : List ℕ :=
  if (init maxRadix topology root op e).Active p then
    ((init maxRadix topology root op e).getSrcTopology p).filter fun a => (init maxRadix topology root op a).Active p ∧
        e ∈ (init maxRadix topology root op a).getDstTopology p
  else []

/-- What comes in a phase is combined, up to the phase `getLastReducePhase` gives. -/
def Reduces (t : MultinomialTree) (p : ℕ) : Prop :=
  match t.context.lastrdcph with
  | phase q => p ≤ q
  | _ => True

instance (t : MultinomialTree) (p : ℕ) : Decidable (Reduces t p) := by
  unfold Reduces
  split
  · infer_instance
  · infer_instance

variable {M : Type*} [AddCommMonoid M]

/-- One phase in which every endpoint combines its value with those it receives. -/
def combineStep (v : ℕ → M) (p : ℕ) : ℕ → M := fun e => v e + ((received maxRadix topology root op p e).map v).sum

/-- One phase of the operation: after the last reduce phase, a value received replaces the own
one. -/
def phaseStep (v : ℕ → M) (p : ℕ) : ℕ → M := fun e =>
  if Reduces (init maxRadix topology root op e) p ∨ received maxRadix topology root op p e = [] then
    combineStep maxRadix topology root op v p e
  else ((received maxRadix topology root op p e).map v).sum

def execute (step : (ℕ → M) → ℕ → ℕ → M) (v : ℕ → M) : ℕ → M :=
  (List.range (init maxRadix topology root op root).maxphases).foldl step v

end Execution

section Ranks

variable {maxRadix root : ℕ} {topology : Topology} {op : CollectiveOperation} {r : ℕ}

/-- The endpoint of a rank relative to the root of an operation. -/
def endpointOf (topology : Topology) (root : ℕ) (op : CollectiveOperation) (r : ℕ) : ℕ :=
  (TopologyMap.rooted topology (rootIndex topology root op) 0).getGlobalRank r

theorem endpointOf_mem (hrt : root ∈ topology) (hr : r<topology.size) :
    endpointOf topology root op r ∈ topology :=
  TopologyMap.getGlobalRank_mem (rootIndex_lt hrt) hr

theorem rankOf_endpointOf (hrt : root ∈ topology) (hr : r<topology.size) :
    rankOf topology root op (endpointOf topology root op r) = r :=
  TopologyMap.getMyRank_getGlobalRank (rootIndex_lt hrt) hr

theorem endpointOf_rankOf (op : CollectiveOperation) (hrt : root ∈ topology) {e : ℕ}
    (he : e ∈ topology) : endpointOf topology root op (rankOf topology root op e) = e :=
  TopologyMap.getGlobalRank_getMyRank (rootIndex_lt hrt) he

section

variable {e : ℕ} (hs : Supported maxRadix topology op) (hrt : root ∈ topology) (he : e ∈ topology)
  (hpos : 0 < topology.size)
include hs hrt he hpos

theorem mem_sources_lt {p : ℕ} (hr : r ∈ (dims maxRadix hpos).sources op (rankOf topology root op e) p) :
    r<topology.size := by
  have h : Fits (init maxRadix topology root op e) (dims maxRadix hpos) op := init_fits hpos hrt he
  rw [← (init_partners hs hrt he hpos p).1,activeSrc] at hr
  split_ifs at hr
  · exact ((h.partnerRanks_spec true p).2 r hr).1
  · exact absurd hr List.not_mem_nil

theorem received_eq (p : ℕ) : received maxRadix topology root op p e =
      ((dims maxRadix hpos).sources op (rankOf topology root op e) p).map
        (endpointOf topology root op) := by
  have h : Fits (init maxRadix topology root op e) (dims maxRadix hpos) op := init_fits hpos hrt he
  rw [received,← (init_partners hs hrt he hpos p).1,activeSrc]
  split_ifs with hact
  · have hglo : (init maxRadix topology root op e).map.getGlobalRank=endpointOf topology root op := by
      rw [init_map]
      rfl
    rw [getSrcTopology,hglo,List.filter_eq_self]
    intro a ha
    obtain ⟨r,hr,rfl⟩ := List.mem_map.mp ha
    have hlt := ((h.partnerRanks_spec true p).2 r hr).1
    have hmem : endpointOf topology root op r ∈ topology := endpointOf_mem hrt hlt
    rw [decide_eq_true_eq,mem_getDstTopology hrt hmem he,match_of_active hs hrt hmem he,rankOf_endpointOf hrt hlt]
    exact ⟨hact,hr⟩
  · rfl

end

end Ranks

section Sums

variable {M : Type*} [AddCommMonoid M] (d : Dims) (w : ℕ → M) {r : ℕ}

def rankStep (op : CollectiveOperation) (w : ℕ → M) (p : ℕ) : ℕ → M := fun r =>
  if (op = ALLREDUCE_OP → d.hnranks ≤ r → p ≤ d.phases) ∨ d.sources op r p = [] then
    w r + ((d.sources op r p).map w).sum
  else ((d.sources op r p).map w).sum

/-- The value of a rank and of the auxiliary rank it takes part for. -/
def folded (r : ℕ) : M := w r + if d.IsPeer r then w (r + d.hnranks) else 0

theorem sum_folded : ∑ r ∈ range d.hnranks, folded d w r = ∑ r ∈ range d.nranks, w r := by
  have hlow := d.hnranks_le
  have hhg := d.lt_two_hnranks
  have hpee : ∑ r ∈ range d.hnranks, (if d.IsPeer r then w (r+d.hnranks) else 0) =
      ∑ r ∈ range (d.nranks-d.hnranks), w (d.hnranks+r) := by
    rw [← sum_filter]
    have hfil : {r ∈ range d.hnranks | d.IsPeer r} = range (d.nranks-d.hnranks) := by
      ext r
      rw [mem_filter,mem_range,mem_range,Dims.IsPeer]
      omega
    rw [hfil]
    apply sum_congr rfl
    intro r _
    rw [add_comm]
  simp only [folded]
  rw [sum_add_distrib,hpee,← sum_range_add,Nat.add_sub_cancel' hlow]

theorem sum_exchange (v : ℕ → M) (r j : ℕ) :
    v r+((d.exchange r (j+1)).map v).sum = ∑ x ∈ range (2^d.logradix), v (r ^^^ (x <<< (j*d.logradix))) := by
  obtain ⟨n,hn⟩ : ∃ n, 2^d.logradix=n+1 := ⟨2^d.logradix-1,(Nat.sub_add_cancel (Nat.two_pow_pos _)).symm⟩
  rw [exchange,bino,hn,Nat.add_sub_cancel,Nat.add_sub_cancel,sum_range_succ',List.map_map,
    zero_shiftLeft,xor_zero,add_comm,List.range'_eq_map_range,List.map_map]
  congr 1
  have htof : (List.range n).toFinset=range n := by
    ext x
    rw [List.mem_toFinset,List.mem_range,mem_range]
  rw [← List.sum_toFinset _ List.nodup_range,htof]
  apply sum_congr rfl
  intro x _
  rw [Function.comp_apply,Function.comp_apply,add_comm]

section Allreduce

theorem allreduce_main {j : ℕ} (hj : j≤d.phases) :
    (∀ r, r<d.hnranks → (List.range (j+1)).foldl (rankStep d ALLREDUCE_OP) w r =
        blockSum (folded d w) d.hnranks (j*d.logradix) r) ∧
      ∀ r, d.hnranks ≤ r → (List.range (j+1)).foldl (rankStep d ALLREDUCE_OP) w r = w r := by
  induction j with
  | zero =>
    constructor
    · intro r hr
      have hsrc : d.sources ALLREDUCE_OP r 0 = if d.IsPeer r then [r+d.hnranks] else [] := by
        simp [sources,not_le.mpr hr]
      rw [zero_mul,blockSum_zero _ hr,folded]
      show rankStep d ALLREDUCE_OP w 0 r = _
      rw [rankStep,if_pos (.inl (fun _ _ => zero_le _)),hsrc]
      split_ifs
      · simp
      · simp
    · intro r hr
      have hsrc : d.sources ALLREDUCE_OP r 0 = [] := by simp [sources,hr]
      show rankStep d ALLREDUCE_OP w 0 r = _
      rw [rankStep,if_pos (.inr hsrc),hsrc]
      simp
  | succ j ih =>
    obtain ⟨hmain,haux⟩ := ih (by omega)
    rw [List.range_succ,List.foldl_append]
    generalize (List.range (j+1)).foldl (rankStep d ALLREDUCE_OP) w=W at hmain haux
    constructor
    · intro r hr
      have hp : 1≤j+1 ∧ j+1≤d.phases := ⟨by omega,hj⟩
      have hsrc : d.sources ALLREDUCE_OP r (j+1) = d.exchange r (j+1) := by
        rw [sources,if_neg (not_le.mpr hr),if_pos hp]
      show rankStep d ALLREDUCE_OP W (j+1) r = _
      rw [rankStep,if_pos (.inl (fun _ _ => hj)),hsrc,sum_exchange,succ_mul,blockSum_digit]
      apply sum_congr rfl
      intro x hx
      apply hmain
      exact xor_lt_two_pow hr (digit_lt (mem_range.mp hx) (by omega))
    · intro r hr
      have hne : ¬ j+1=d.phases+1 := by omega
      have hsrc : d.sources ALLREDUCE_OP r (j+1) = [] := by rw [sources,if_pos hr,if_neg hne]
      show rankStep d ALLREDUCE_OP W (j+1) r = _
      rw [rankStep,if_pos (.inr hsrc),hsrc,List.map_nil,List.sum_nil,add_zero]
      exact haux r hr

theorem allreduce_inner (hr : r<d.hnranks) :
    (List.range (d.phases+1)).foldl (rankStep d ALLREDUCE_OP) w r = ∑ s ∈ range d.nranks, w s := by
  have hall : d.hnranks≤2^(d.phases*d.logradix) := le_refl _
  rw [(allreduce_main d w (le_refl _)).1 r hr,blockSum_all _ hall hr,sum_folded]

theorem allreduce_last (hr : r<d.nranks) : (List.range (d.phases+2)).foldl (rankStep d ALLREDUCE_OP) w r =
      ∑ s ∈ range d.nranks, w s := by
  have hhg := d.lt_two_hnranks
  rw [List.range_succ,List.foldl_append]
  have hinn := fun s hs => allreduce_inner d w (r := s) hs
  generalize (List.range (d.phases+1)).foldl (rankStep d ALLREDUCE_OP) w=W at hinn
  show rankStep d ALLREDUCE_OP W (d.phases+1) r = _
  by_cases haux : d.hnranks ≤ r
  · have hsrc : d.sources ALLREDUCE_OP r (d.phases+1) = [r-d.hnranks] := by rw [sources,if_pos haux,if_pos rfl]
    have hrdc : ¬ ((ALLREDUCE_OP=ALLREDUCE_OP → d.hnranks ≤ r → d.phases+1≤d.phases) ∨
        d.sources ALLREDUCE_OP r (d.phases+1) = []) := by
      rw [hsrc]
      rintro (h | h)
      · exact absurd (h rfl haux) (by omega)
      · cases h
    rw [rankStep,if_neg hrdc,hsrc,List.map_singleton,List.sum_singleton]
    exact hinn _ (by omega)
  · have hsrc : d.sources ALLREDUCE_OP r (d.phases+1) = [] := by
      rw [sources,if_neg haux,if_neg (by omega),if_neg (by omega)]
    rw [rankStep,if_pos (.inr hsrc),hsrc,List.map_nil,List.sum_nil,add_zero]
    exact hinn _ (not_le.mp haux)

end Allreduce

section Reduce

theorem reduce_main {j : ℕ} (hj : j≤d.phases) (hr : r<d.hnranks) (hmod : r%2^j=0) :
    (List.range (j+1)).foldl (rankStep d REDUCE_OP) w r = blockSum (folded d w) d.hnranks j r := by
  induction j generalizing r with
  | zero =>
    have hsrc : d.sources REDUCE_OP r 0 = if d.IsPeer r then [r+d.hnranks] else [] := by
      simp [sources,not_le.mpr hr]
    rw [blockSum_zero _ hr,folded]
    show rankStep d REDUCE_OP w 0 r = _
    rw [rankStep,if_pos (.inl (fun h => absurd h (by decide))),hsrc]
    split_ifs
    · simp
    · simp
  | succ j ih =>
    have hpos := Nat.two_pow_pos j
    have hsc : 2^(j+1)=2^j+2^j := by rw [pow_succ,mul_two]
    have hlow : r%2^j=0 := by
      rw [mod_two_pow_succ] at hmod
      omega
    have hft := d.block_fits hj hr hmod
    rw [List.range_succ,List.foldl_append]
    show rankStep d REDUCE_OP _ (j+1) r = _
    have hp : 1≤j+1 ∧ j+1≤d.phases := ⟨by omega,hj⟩
    have hsrc : d.sources REDUCE_OP r (j+1) = [r+2^j] := by
      rw [sources,if_neg (not_le.mpr hr),if_pos hp,if_pos hmod,Nat.add_sub_cancel]
    have hmod' : (r+2^j)%2^j=0 := by rw [add_mod_right,hlow]
    rw [rankStep,if_pos (.inl (fun h => absurd h (by decide))),hsrc,List.map_singleton,List.sum_singleton,
      ih (by omega) hr hlow,ih (by omega) (by omega) hmod',← xor_of_mod_eq_zero hmod,
      blockSum_digit,Nat.pow_one,sum_range_succ,sum_range_one,zero_shiftLeft,xor_zero]

theorem reduce_root (hl : d.logradix=1) :
    (List.range (d.phases+1)).foldl (rankStep d REDUCE_OP) w 0 = ∑ s ∈ range d.nranks, w s := by
  have hpos : 0<d.hnranks := Nat.two_pow_pos _
  have hall : d.hnranks≤2^d.phases := by rw [hnranks,hl,mul_one]
  rw [reduce_main d w (le_refl _) hpos (zero_mod _),blockSum_all _ hall hpos,sum_folded]

theorem reduce_root_last (hl : d.logradix=1) :
    (List.range (d.phases+2)).foldl (rankStep d REDUCE_OP) w 0 = ∑ s ∈ range d.nranks, w s := by
  have hpos : 0<d.hnranks := Nat.two_pow_pos _
  have hsrc : d.sources REDUCE_OP 0 (d.phases+1) = [] := by
    rw [sources,if_neg (not_le.mpr hpos),if_neg (by omega),if_neg (by omega)]
  rw [List.range_succ,List.foldl_append]
  show rankStep d REDUCE_OP _ (d.phases+1) 0 = _
  rw [rankStep,if_pos (.inr hsrc),hsrc,List.map_nil,List.sum_nil,add_zero,reduce_root d w hl]

end Reduce

end Sums

section Simulation

variable {M : Type*} [AddCommMonoid M] {maxRadix root : ℕ} {topology : Topology}
  {op : CollectiveOperation}

theorem setupBino_lastrdcph (op : CollectiveOperation) (rank radix : ℕ) (c : Context) :
    (setupBino op rank radix c).lastrdcph=c.lastrdcph := by
  cases op with
  | BARRIER_OP | ALLREDUCE_OP => rfl
  | REDUCE_OP | BROADCAST_OP =>
    rw [setupBino]
    split_ifs
    · rfl
    · rfl

theorem Fits.reduces_iff {t : MultinomialTree} {d : Dims} (h : Fits t d op) (p : ℕ) :
    Reduces t p ↔ (op=ALLREDUCE_OP → d.hnranks≤t.map.getMyRank → p≤d.phases) := by
  by_cases haux : d.hnranks≤t.map.getMyRank
  · obtain ⟨-,hctx⟩ := h.context_of_aux haux
    cases op <;> simp [Reduces,hctx,setupAux,setupPeer,haux]
  · have hla : t.context.lastrdcph=UNDEFINED_PHASE := by
      by_cases hpe : d.IsPeer t.map.getMyRank
      · obtain ⟨-,-,hctx⟩ := h.context_of_peer hpe
        rw [hctx,setupBino_lastrdcph]
        cases op <;> rfl
      · obtain ⟨-,-,hctx⟩ := h.context_of_inner haux hpe
        rw [hctx,setupBino_lastrdcph]
        rfl
    simp [Reduces,hla,haux]

def SameValues (topology : Topology) (root : ℕ) (op : CollectiveOperation) (v w : ℕ → M) : Prop :=
  ∀ e ∈ topology, v e = w (rankOf topology root op e)

section

variable (hs : Supported maxRadix topology op) (hrt : root ∈ topology) (hpos : 0 < topology.size)
include hs hrt hpos

theorem phaseStep_same {v w : ℕ → M} (h : SameValues topology root op v w) (p : ℕ) :
    SameValues topology root op (phaseStep maxRadix topology root op v p)
      (rankStep (dims maxRadix hpos) op w p) := by
  intro e he
  have hft : Fits (init maxRadix topology root op e) (dims maxRadix hpos) op := init_fits hpos hrt he
  have hsum : ((received maxRadix topology root op p e).map v).sum =
      (((dims maxRadix hpos).sources op (rankOf topology root op e) p).map w).sum := by
    rw [received_eq hs hrt he hpos,List.map_map]
    congr 1
    apply List.map_congr_left
    intro r hr
    have hlt := mem_sources_lt hs hrt he hpos hr
    rw [Function.comp_apply,h _ (endpointOf_mem hrt hlt),rankOf_endpointOf hrt hlt]
  have hnil : received maxRadix topology root op p e = [] ↔
      (dims maxRadix hpos).sources op (rankOf topology root op e) p = [] := by
    rw [received_eq hs hrt he hpos,List.map_eq_nil_iff]
  simp only [phaseStep,rankStep,combineStep,hft.reduces_iff,init_rank,hnil,hsum,h e he]

theorem foldl_same (ps : List ℕ) {v w : ℕ → M} (h : SameValues topology root op v w) :
    SameValues topology root op (ps.foldl (phaseStep maxRadix topology root op) v)
      (ps.foldl (rankStep (dims maxRadix hpos) op) w) := by
  induction ps generalizing v w with
  | nil => exact h
  | cons p ps ih => exact ih (phaseStep_same hs hrt hpos h p)

end

theorem sum_ranks (op : CollectiveOperation) (hrt : root ∈ topology) (v : ℕ → M) :
    ∑ r ∈ range topology.size, v (endpointOf topology root op r) = (topology.endpoints.map v).sum :=
  topology.sum_places v (fun _ hr => endpointOf_mem hrt hr) (fun _ he => rankOf_lt op hrt he)
    (fun _ hr => rankOf_endpointOf hrt hr) (fun _ he => endpointOf_rankOf op hrt he)

end Simulation

section Information

variable {d : Dims} {src : ℕ → ℕ → List ℕ} {name : ℕ → ℕ}

def Delivers (d : Dims) (op : CollectiveOperation) (src : ℕ → ℕ → List ℕ) (name : ℕ → ℕ) : Prop :=
  ∀ s p r, s < d.nranks → r ∈ d.sources op s p → name r ∈ src p (name s)

theorem broadcast_sources (hl : d.logradix=1) {r : ℕ} (h0 : r≠0) (hr : r<d.hnranks) :
    ∃ n, n+1≤d.phases ∧ 2^n ≤ r ∧ r-2^n<2^n ∧
      ∀ p, d.sources BROADCAST_OP r p = if p=n+1 then [r-2^n] else [] := by
  obtain ⟨n,-,hlow,hhg⟩ := countPhases_rank h0
  have hnk : n+1≤d.phases := by
    rw [hnranks,hl,mul_one] at hr
    exact (Nat.pow_lt_pow_iff_right (by decide)).mp (lt_of_le_of_lt hlow hr)
  rw [pow_succ] at hhg
  refine ⟨n,hnk,hlow,by omega,fun p => ?_⟩
  rw [sources,if_neg (not_le.mpr hr)]
  by_cases hp : 1≤p ∧ p≤d.phases
  · obtain ⟨q,rfl⟩ : ∃ q, p=q+1 := ⟨p-1,by omega⟩
    rw [if_pos hp,Nat.add_sub_cancel]
    by_cases hq : q=n
    · have htop := (top_iff (a := r-2^n) (b := r) n).mp (by omega)
      rw [hq,if_pos htop.1,if_pos rfl]
    · have hdiv : ¬ r/2^q=1 := by
        intro h1
        have htop := (top_iff (a := r-2^q) (b := r) q).mpr ⟨h1,rfl⟩
        have hle : 2^n<2^(q+1) := by
          rw [pow_succ]
          omega
        have hle' : 2^q<2^(n+1) := by
          rw [pow_succ]
          omega
        have h2 := (Nat.pow_lt_pow_iff_right (by decide)).mp hle
        have h3 := (Nat.pow_lt_pow_iff_right (by decide)).mp hle'
        omega
      rw [if_neg hdiv,if_neg (by omega)]
  · rw [if_neg hp,if_neg (by omega)]

theorem broadcast_reaches (hl : d.logradix=1) (hsrc : Delivers d BROADCAST_OP src name) {q r : ℕ}
    (hq : r<2^q) (hr : r<d.hnranks) : Reaches src (q+1) (name 0) (name r) := by
  induction r using Nat.strong_induction_on generalizing q with
  | _ r ih =>
    by_cases h0 : r=0
    · rw [h0]
      exact .refl _ _
    · obtain ⟨n,-,hlow,hlt,hsou⟩ := broadcast_sources hl h0 hr
      have hpos := Nat.two_pow_pos n
      have hn : n<q := (Nat.pow_lt_pow_iff_right (by decide)).mp (lt_of_le_of_lt hlow hq)
      have hprev := ih (r-2^n) (by omega) hlt (by omega)
      refine .step hprev (by omega) (hsrc r (n+1) _ (lt_of_lt_of_le hr d.hnranks_le) ?_)
      rw [hsou,if_pos rfl]
      exact List.mem_singleton_self _

/-- The rank of the power of two part that speaks for a rank. -/
def speaker (d : Dims) (r : ℕ) : ℕ := if d.hnranks ≤ r then r - d.hnranks else r

theorem barrier_reaches (hsrc : Delivers d BARRIER_OP src name) {r s j : ℕ} (hr : r<d.nranks)
    (hs : s<d.hnranks) (hj : j≤d.phases)
    (heq : s/2^(j*d.logradix) = speaker d r/2^(j*d.logradix)) :
    Reaches src (j+1) (name r) (name s) := by
  have hlow := d.hnranks_le
  induction j generalizing s with
  | zero =>
    rw [zero_mul,pow_zero,Nat.div_one,Nat.div_one,speaker] at heq
    split_ifs at heq with haux
    · refine .step (.refl 0 (name r)) (by omega) (hsrc s 0 r (by omega) ?_)
      have hpe : 0=0 ∧ d.IsPeer s := ⟨rfl,by rw [Dims.IsPeer]; omega⟩
      rw [sources,if_neg (not_le.mpr hs),if_neg (by omega),if_pos hpe,List.mem_singleton]
      omega
    · rw [heq]
      exact .refl _ _
  | succ j ih =>
    obtain ⟨x,hx⟩ : ∃ x, x=s/2^(j*d.logradix) ^^^ speaker d r/2^(j*d.logradix) := ⟨_,rfl⟩
    have hlt : x<2^d.logradix := by
      rw [hx,xor_lt_iff,Nat.div_div_eq_div_mul,Nat.div_div_eq_div_mul,← pow_add,← succ_mul]
      exact heq
    have hblo : (s ^^^ (x <<< (j*d.logradix)))/2^(j*d.logradix)=speaker d r/2^(j*d.logradix) := by
      rw [xor_shiftLeft_div,hx,Nat.xor_comm,Nat.xor_assoc,Nat.xor_comm,xor_xor_cancel_right]
    have hlt' : s ^^^ (x <<< (j*d.logradix))<d.hnranks := xor_lt_two_pow hs (digit_lt hlt (by omega))
    have hprev := ih hlt' (by omega) hblo
    by_cases hx0 : x=0
    · rw [hx0,zero_shiftLeft,xor_zero] at hprev
      exact hprev.mono (by omega)
    · refine .step hprev (by omega) (hsrc s (j+1) _ (by omega) ?_)
      rw [sources,if_neg (not_le.mpr hs),if_pos ⟨by omega,hj⟩,d.mem_exchange,Nat.add_sub_cancel]
      exact ⟨x,⟨by omega,hlt⟩,rfl⟩

theorem barrier_reaches_all (hsrc : Delivers d BARRIER_OP src name) {r s n : ℕ} (hr : r<d.nranks)
    (hs : s<d.nranks) (hn : d.phases+1≤n) (hn' : d.hnranks<d.nranks → d.phases+2≤n) :
    Reaches src n (name r) (name s) := by
  have hhg := d.lt_two_hnranks
  have hinn {s : ℕ} (hs : s<d.hnranks) : Reaches src (d.phases+1) (name r) (name s) := by
    apply barrier_reaches hsrc hr hs (le_refl _)
    have hspe : speaker d r<d.hnranks := by
      rw [speaker]
      split_ifs <;> omega
    show s/d.hnranks=speaker d r/d.hnranks
    rw [div_eq_of_lt hs,div_eq_of_lt hspe]
  by_cases haux : d.hnranks ≤ s
  · have hla := hn' (lt_of_le_of_lt haux hs)
    refine .step (hinn (s := s-d.hnranks) (by omega)) (by omega) (hsrc s (d.phases+1) _ hs ?_)
    rw [sources,if_pos haux,if_pos rfl]
    exact List.mem_singleton_self _
  · exact (hinn (not_le.mp haux)).mono hn

end Information

section Collectives

variable {M : Type*} [AddCommMonoid M] {maxRadix root : ℕ} {topology : Topology}
  {op : CollectiveOperation} {e : ℕ}

theorem delivers (hs : Supported maxRadix topology op)
    (hrt : root ∈ topology)
    (hpos : 0<topology.size) :
    Delivers (dims maxRadix hpos) op (received maxRadix topology root op)
      (endpointOf topology root op) := by
  intro s p r hlt hr
  rw [received_eq hs hrt (endpointOf_mem hrt hlt) hpos,rankOf_endpointOf hrt hlt]
  exact List.mem_map_of_mem hr

theorem maxphases_cases (maxRadix : ℕ) (op : CollectiveOperation) (hrt : root ∈ topology)
    (hpos : 0<topology.size) :
    ((dims maxRadix hpos).nranks=(dims maxRadix hpos).hnranks ∧
      (init maxRadix topology root op root).maxphases=(dims maxRadix hpos).phases+1) ∨
    ((dims maxRadix hpos).hnranks<(dims maxRadix hpos).nranks ∧
      (init maxRadix topology root op root).maxphases=(dims maxRadix hpos).phases+2) := by
  rcases lt_or_eq_of_le (dims maxRadix hpos).hnranks_le with hlt | heq
  · exact .inr ⟨hlt,(init_fits hpos hrt hrt).maxphases hlt⟩
  · exact .inl ⟨heq.symm,init_maxphases hpos heq.symm⟩

theorem rankOf_root (hop : op=REDUCE_OP ∨ op=BROADCAST_OP) :
    rankOf topology root op root = 0 := by
  rw [rankOf,TopologyMap.getMyRank_rooted,rootIndex,if_pos hop,if_pos (le_refl _),Nat.sub_self]

omit [AddCommMonoid M] in
theorem same_start (hrt : root ∈ topology) (v : ℕ → M) :
    SameValues topology root op v (fun r => v (endpointOf topology root op r)) := by
  intro e he
  show v e = v (endpointOf topology root op (rankOf topology root op e))
  rw [endpointOf_rankOf _ hrt he]

theorem allreduce_execute (hrt : root ∈ topology) (v : ℕ → M) (he : e ∈ topology) :
    execute maxRadix topology root ALLREDUCE_OP (phaseStep maxRadix topology root ALLREDUCE_OP) v e =
      (topology.endpoints.map v).sum := by
  have hpos := Topology.size_pos hrt
  have hs : Supported maxRadix topology ALLREDUCE_OP := .inr (.inl rfl)
  have hlt := rankOf_lt ALLREDUCE_OP hrt he
  rw [execute,foldl_same hs hrt hpos _ (same_start hrt v) e he,← sum_ranks ALLREDUCE_OP hrt v]
  rcases maxphases_cases maxRadix ALLREDUCE_OP hrt hpos with ⟨heq,hm⟩ | ⟨-,hm⟩
  · rw [hm]
    exact allreduce_inner _ _ (heq ▸ hlt)
  · rw [hm]
    exact allreduce_last _ _ hlt

theorem reduce_execute (hr : getRadix maxRadix topology.size = 2) (hrt : root ∈ topology)
    (v : ℕ → M) :
    execute maxRadix topology root REDUCE_OP (phaseStep maxRadix topology root REDUCE_OP) v root =
      (topology.endpoints.map v).sum := by
  have hpos := Topology.size_pos hrt
  have hl := dims_logradix hpos hr
  rw [execute,foldl_same (.inr (.inr hr)) hrt hpos _ (same_start hrt v) root hrt,
    rankOf_root (.inl rfl),← sum_ranks REDUCE_OP hrt v]
  rcases maxphases_cases maxRadix REDUCE_OP hrt hpos with ⟨-,hm⟩ | ⟨-,hm⟩
  · rw [hm]
    exact reduce_root _ _ hl
  · rw [hm]
    exact reduce_root_last _ _ hl

theorem broadcast_execute (hr : getRadix maxRadix topology.size = 2) (hrt : root ∈ topology)
    (he : e ∈ topology) (hne : e≠root) :
    ∃ p a, p<(init maxRadix topology root BROADCAST_OP root).maxphases ∧
      (∀ q, received maxRadix topology root BROADCAST_OP q e = if q=p then [a] else []) ∧
      Reaches (received maxRadix topology root BROADCAST_OP) p root a := by
  have hpos := Topology.size_pos hrt
  have hl := dims_logradix hpos hr
  have hs : Supported maxRadix topology BROADCAST_OP := .inr (.inr hr)
  have hdel := delivers hs hrt hpos
  have hzr : endpointOf topology root BROADCAST_OP 0=root := by
    rw [← rankOf_root (.inr rfl),endpointOf_rankOf _ hrt hrt]
  have hlt : rankOf topology root BROADCAST_OP e<(dims maxRadix hpos).nranks := rankOf_lt BROADCAST_OP hrt he
  have hrec := received_eq hs hrt he hpos
  obtain ⟨r,hrk⟩ : ∃ r, r=rankOf topology root BROADCAST_OP e := ⟨_,rfl⟩
  rw [← hrk] at hlt hrec
  have hr0 : r≠0 := by
    intro h0
    apply hne
    rw [← endpointOf_rankOf BROADCAST_OP hrt he,← hrk,h0,hzr]
  have hrch {q r : ℕ} (hq : r<2^q) (hr : r<(dims maxRadix hpos).hnranks) :
      Reaches (received maxRadix topology root BROADCAST_OP) (q+1) root
        (endpointOf topology root BROADCAST_OP r) := by
    have h := broadcast_reaches hl hdel hq hr
    rw [hzr] at h
    exact h
  have hmax := maxphases_cases maxRadix BROADCAST_OP hrt hpos
  generalize dims maxRadix hpos=d at *
  by_cases haux : d.hnranks ≤ r
  · have hhg := d.lt_two_hnranks
    have hinn : r-d.hnranks<d.hnranks := by omega
    refine ⟨d.phases+1,endpointOf topology root BROADCAST_OP (r-d.hnranks),by omega,?_,?_⟩
    · intro q
      rw [hrec,sources,if_pos haux]
      split_ifs
      · rfl
      · rfl
    · have hpow : d.hnranks=2^d.phases := by rw [hnranks,hl,mul_one]
      apply hrch _ hinn
      rw [← hpow]
      exact hinn
  · obtain ⟨n,hn,hlow,hlt',hsou⟩ := broadcast_sources hl hr0 (not_le.mp haux)
    refine ⟨n+1,endpointOf topology root BROADCAST_OP (r-2^n),by omega,?_,?_⟩
    · intro q
      rw [hrec,hsou]
      split_ifs
      · rfl
      · rfl
    · exact hrch hlt' (by omega)

theorem barrier_execute (hrt : root ∈ topology) {a : ℕ} (ha : a ∈ topology) (he : e ∈ topology) :
    Reaches (received maxRadix topology root BARRIER_OP)
      (init maxRadix topology root BARRIER_OP root).maxphases a e := by
  have hpos := Topology.size_pos hrt
  have hs : Supported maxRadix topology BARRIER_OP := .inl rfl
  have hdel := delivers hs hrt hpos
  have hmax := maxphases_cases maxRadix BARRIER_OP hrt hpos
  have h := barrier_reaches_all hdel (rankOf_lt BARRIER_OP hrt ha) (rankOf_lt BARRIER_OP hrt he)
    (n := (init maxRadix topology root BARRIER_OP root).maxphases) (by omega) (by omega)
  rw [endpointOf_rankOf _ hrt ha,endpointOf_rankOf _ hrt he] at h
  exact h

/-- The schedules collect every contribution exactly once: the sum at all endpoints, or at the root; the data of the root at
each other endpoint, by one message; and in a barrier every endpoint hears from every endpoint. -/
theorem collectives_exact (maxRadix : ℕ) (topology : Topology) {root : ℕ} (hrt : root ∈ topology)
    (v : ℕ → M) :
    (∀ e ∈ topology, execute maxRadix topology root ALLREDUCE_OP
        (phaseStep maxRadix topology root ALLREDUCE_OP) v e = (topology.endpoints.map v).sum) ∧
    (getRadix maxRadix topology.size = 2 → execute maxRadix topology root REDUCE_OP
        (phaseStep maxRadix topology root REDUCE_OP) v root = (topology.endpoints.map v).sum) ∧
    (getRadix maxRadix topology.size = 2 → ∀ e ∈ topology, e ≠ root →
      ∃ p a, p < (init maxRadix topology root BROADCAST_OP root).maxphases ∧
        (∀ q, received maxRadix topology root BROADCAST_OP q e = if q = p then [a] else []) ∧
        Reaches (received maxRadix topology root BROADCAST_OP) p root a) ∧
    ∀ a ∈ topology, ∀ e ∈ topology, Reaches (received maxRadix topology root BARRIER_OP)
      (init maxRadix topology root BARRIER_OP root).maxphases a e := by
  refine ⟨?_,?_,?_,?_⟩
  · intro e he
    exact allreduce_execute hrt v he
  · intro hr
    exact reduce_execute hr hrt v
  · intro hr e he hne
    exact broadcast_execute hr hrt he hne
  · intro a ha e he
    exact barrier_execute hrt ha he

theorem collectives_exact_three :
    execute 2 (firstEndpoints 3) 1 ALLREDUCE_OP (phaseStep 2 (firstEndpoints 3) 1 ALLREDUCE_OP)
      (fun e => 10^e) 2 = 111 :=
  (collectives_exact 2 (firstEndpoints 3) (show 1 ∈ firstEndpoints 3 by decide) (fun e => 10^e)).1 2 (by decide)

/-- If the auxiliary rank of an allreduce also combined what comes in the last phase, its own
contribution would count twice. -/
theorem allreduce_combine_twice :
    execute 2 (firstEndpoints 3) 0 ALLREDUCE_OP (combineStep 2 (firstEndpoints 3) 0 ALLREDUCE_OP)
        (fun e => 10^e) 2 = 211 ∧
      ((firstEndpoints 3).endpoints.map (fun e => 10^e)).sum = 111 := by
  decide

end Collectives

end PAMI.Schedule

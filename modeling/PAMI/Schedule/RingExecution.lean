import Mathlib.Algebra.BigOperators.Intervals
import PAMI.Schedule.Ring

namespace PAMI.Schedule

open CollectiveOperation PAMI.Math Finset List Option Nat

namespace RingSchedule

section Endpoints

variable {topology : Topology} {root : ℤ} {op : CollectiveOperation} {a b e : ℕ} {p q : ℤ}

theorem rootOf_mem (hn : 2≤topology.size) (hrt : root<0 ∨ root.toNat ∈ topology) :
    rootOf topology root ∈ topology := by
  rw [rootOf]
  split_ifs with h
  · exact hrt.resolve_left (by omega)
  · exact Topology.index2Endpoint_mem (by omega)

variable (hrt : rootOf topology root ∈ topology) (hn : 2 ≤ topology.size) (hop : op ≠ BARRIER_OP)

include hrt hn hop

theorem mem_src_iff (hb : b ∈ topology) :
    a ∈ (init topology root op b).getSrcTopology q ↔
      ∃ d, srcAt op topology.size (placeOf topology root b) q = some d ∧ endpointAt topology root d = a := by
  rw [getSrcTopology_eq hrt hn hb hop,Option.mem_toList,map_eq_some_iff]

theorem mem_dst_iff (ha : a ∈ topology) :
    b ∈ (init topology root op a).getDstTopology p ↔
      ∃ d, dstAt op topology.size (placeOf topology root a) p = some d ∧ endpointAt topology root d = b := by
  rw [getDstTopology_eq hrt hn ha hop,Option.mem_toList,map_eq_some_iff]

theorem active_iff (he : e ∈ topology) :
    (init topology root op e).Active p ↔ startAt op topology.size (placeOf topology root e) ≤ p ∧
        p < finishAt op topology.size (placeOf topology root e) := by
  rw [Active,finish_eq hrt hn he hop,startPhase_eq hrt hn he hop]

theorem notifyRecvPhase_eq (hb : b ∈ topology) :
    (init topology root op b).notifyRecvPhase p = clampAt op topology.size (placeOf topology root b) p := by
  rw [notifyRecvPhase,clampAt,getEndPhase,finish_eq hrt hn hb hop]

theorem sent_expected (ha : a ∈ topology)
    (h : b ∈ (init topology root op a).getDstTopology p) :
    b ∈ topology ∧ a ∈ (init topology root op b).getSrcTopology
      ((init topology root op b).notifyRecvPhase p) ∧
      (init topology root op b).Active ((init topology root op b).notifyRecvPhase p) := by
  obtain ⟨d,hd,rfl⟩ := (mem_dst_iff hrt hn hop ha).mp h
  obtain ⟨hlt,hsrc,hact⟩ := srcAt_of_dstAt hop (placeOf_lt hrt ha) hd
  have hmem := endpointAt_mem hrt hlt
  have hpla := placeOf_endpointAt hrt hlt
  rw [notifyRecvPhase_eq hrt hn hop hmem,
    mem_src_iff hrt hn hop hmem,active_iff hrt hn hop hmem,hpla]
  exact ⟨hmem,⟨_,hsrc,endpointAt_placeOf hrt ha⟩,hact⟩

theorem expected_sent (hb : b ∈ topology)
    (h : a ∈ (init topology root op b).getSrcTopology q) :
    a ∈ topology ∧ ∃ p, (init topology root op a).Active p ∧ b ∈ (init topology root op a).getDstTopology p ∧
      (init topology root op b).notifyRecvPhase p = q := by
  obtain ⟨d,hd,rfl⟩ := (mem_src_iff hrt hn hop hb).mp h
  obtain ⟨hlt,p,hdst,hcla,hact⟩ := dstAt_of_srcAt hop (placeOf_lt hrt hb) hd
  have hmem := endpointAt_mem hrt hlt
  have hpla := placeOf_endpointAt hrt hlt
  refine ⟨hmem,p,?_,?_,?_⟩
  · rw [active_iff hrt hn hop hmem,hpla]
    exact hact
  · rw [mem_dst_iff hrt hn hop hmem,hpla]
    exact ⟨_,hdst,endpointAt_placeOf hrt hb⟩
  · rw [notifyRecvPhase_eq hrt hn hop hb,hcla]

end Endpoints

section Execution

variable {M : Type*} [AddCommMonoid M]

def Reduces (s : RingSchedule) (phase : ℤ) : Prop := s.op ≠ BROADCAST_OP ∧ ∀ last ∈ s.getLastReducePhase, phase ≤ last

instance (s : RingSchedule) (phase : ℤ) : Decidable (s.Reduces phase) := inferInstanceAs (Decidable (_ ∧ _))

def takeIn (s : RingSchedule) (phase : ℤ) (x : M) (values : List M) : M :=
  if s.Reduces phase then x + values.sum else values.getLast?.getD x

/-- The ring as a network of ranks that go through their phases. -/
def program (M : Type*) [AddCommMonoid M] (topology : Topology) (root : ℤ)
    (op : CollectiveOperation) : PhasedProgram ℕ M where
  parties := topology.endpoints.toFinset
  first e := (init topology root op e).startPhase
  finish e := (init topology root op e).startPhase + (init topology root op e).nphases
  src e := (init topology root op e).getSrcTopology
  dst e := (init topology root op e).getDstTopology
  phaseOf e := (init topology root op e).notifyRecvPhase
  combine e := (init topology root op e).takeIn

/-- The value at a place of the ring before phase `p`, from the values `w` at all places. -/
def heldAt (op : CollectiveOperation) (n : ℕ) (w : ℕ → M) (d : ℕ) (p : ℤ) : M :=
  match op with
  | REDUCE_OP => if p ≤ (n : ℤ) - 2 - d then w d else ∑ i ∈ Ico d n, w i
  | ALLREDUCE_OP =>
    if p ≤ (n : ℤ) - 2 - d then w d
    else if 0 < d ∧ p ≤ resultAt ALLREDUCE_OP n d then ∑ i ∈ Ico d n, w i
    else ∑ i ∈ Ico 0 n, w i
  | _ => if 0 < d ∧ p ≤ resultAt BROADCAST_OP n d then w d else w 0

variable {op : CollectiveOperation} {n a d : ℕ} {p q : ℤ} (w : ℕ → M)

theorem heldAt_reduce_send (hb : op≠BROADCAST_OP) (hop : op≠BARRIER_OP) :
    heldAt op n w (d+1) ((n : ℤ)-2-d) = ∑ i ∈ Ico (d+1) n, w i := by
  cases op with
  | BARRIER_OP => exact absurd rfl hop
  | BROADCAST_OP => exact absurd rfl hb
  | REDUCE_OP => exact if_neg (by omega)
  | ALLREDUCE_OP =>
    rw [heldAt,if_neg (by omega),if_pos]
    refine ⟨succ_pos d,?_⟩
    rw [resultAt]
    split_ifs <;> omega

def result (op : CollectiveOperation) (n : ℕ) (w : ℕ → M) : M :=
  if op = BROADCAST_OP then w 0 else ∑ i ∈ Ico 0 n, w i

theorem heldAt_pass (hr : op≠REDUCE_OP) (hop : op≠BARRIER_OP) (h : a+1<n) :
    heldAt op n w a (passAt op n a) = result op n w := by
  cases op with
  | BARRIER_OP => exact absurd rfl hop
  | REDUCE_OP => exact absurd rfl hr
  | BROADCAST_OP =>
    refine (if_neg ?_).trans (if_pos rfl).symm
    simp only [passAt,resultAt]
    omega
  | ALLREDUCE_OP =>
    rw [heldAt,result,if_neg (by rw [passAt]; omega),if_neg,if_neg (by decide)]
    rw [passAt,resultAt,if_neg (by omega)]
    omega

theorem heldAt_idle (hop : op≠BARRIER_OP) (hq : startAt op n d ≤ q) (hd : d<n)
    (h : srcAt op n d q = none) : heldAt op n w d (q+1) = heldAt op n w d q := by
  have hdown (hb : op≠BROADCAST_OP) : q+1≤(n : ℤ)-2-d ↔ q≤(n : ℤ)-2-d := by
    rcases (show d+1<n ∨ d=n-1 by omega) with hlt | rfl
    · have hne : q≠(n : ℤ)-2-d := by
        rintro rfl
        rw [srcAt_reduce hb hlt] at h
        cases h
      omega
    · cases op with
      | BARRIER_OP => exact absurd rfl hop
      | BROADCAST_OP => exact absurd rfl hb
      | REDUCE_OP | ALLREDUCE_OP =>
        rw [startAt,if_pos rfl] at hq
        omega
  have hup (hr : op≠REDUCE_OP) :
      (0<d ∧ q+1 ≤ resultAt op n d) ↔ (0<d ∧ q ≤ resultAt op n d) := by
    refine and_congr_right fun hpos => ?_
    have hne : q≠resultAt op n d := by
      rintro rfl
      obtain ⟨d,rfl⟩ := exists_eq_succ_of_ne_zero hpos.ne'
      rw [srcAt_result hr hop] at h
      cases h
    omega
  cases op with
  | BARRIER_OP => exact absurd rfl hop
  | REDUCE_OP => simp only [heldAt,hdown (by decide)]
  | BROADCAST_OP => simp only [heldAt,hup (by decide)]
  | ALLREDUCE_OP => simp only [heldAt,hdown (by decide),hup (by decide)]

theorem heldAt_start (hop : op≠BARRIER_OP) (hn : 2≤n) (hd : d<n) :
    heldAt op n w d (startAt op n d) = w d := by
  have hta : d=n-1 → ∑ i ∈ Ico d n, w i = w d := by
    rintro rfl
    rw [sum_eq_sum_Ico_succ_bot hd,Ico_eq_empty (by omega),sum_empty,add_zero]
  cases op with
  | BARRIER_OP => exact absurd rfl hop
  | REDUCE_OP =>
    by_cases h : d=n-1
    · rw [startAt,if_pos h,heldAt,if_neg (by omega),hta h]
    · rw [startAt,if_neg h,heldAt,if_pos (le_refl _)]
  | BROADCAST_OP =>
    have hsta : startAt BROADCAST_OP n d = if d=0 then 0 else (d : ℤ)-1 := rfl
    by_cases h : d=0
    · rw [hsta,if_pos h,h]
      rfl
    · rw [hsta,if_neg h]
      exact if_pos ⟨by omega,le_refl _⟩
  | ALLREDUCE_OP =>
    by_cases h : d=n-1
    · rw [startAt,if_pos h,heldAt,if_neg (by omega),if_pos,hta h]
      rw [resultAt]
      split_ifs <;> omega
    · rw [startAt,if_neg h,heldAt,if_pos (le_refl _)]

theorem heldAt_finish (hop : op≠BARRIER_OP) (hn : 2≤n) (h : op=REDUCE_OP → d=0) :
    heldAt op n w d (finishAt op n d) = result op n w := by
  cases op with
  | BARRIER_OP => exact absurd rfl hop
  | REDUCE_OP =>
    obtain rfl := h rfl
    exact if_neg (by simp only [finishAt]; omega)
  | BROADCAST_OP =>
    refine (if_neg ?_).trans (if_pos rfl).symm
    simp only [finishAt,resultAt]
    split_ifs <;> omega
  | ALLREDUCE_OP =>
    have hlate : ¬ finishAt ALLREDUCE_OP n d≤(n : ℤ)-2-d := by
      simp only [finishAt]
      split_ifs <;> omega
    have hres : ¬ (0<d ∧ finishAt ALLREDUCE_OP n d ≤ resultAt ALLREDUCE_OP n d) := by
      simp only [finishAt,resultAt]
      split_ifs <;> omega
    rw [heldAt,if_neg hlate,if_neg hres]
    rfl

theorem heldAt_combine (hb : op≠BROADCAST_OP) (hop : op≠BARRIER_OP) (h : d+1<n) :
    heldAt op n w d ((n : ℤ)-2-d+1) = heldAt op n w d ((n : ℤ)-2-d) + ∑ i ∈ Ico (d+1) n, w i := by
  have hsum : ∑ i ∈ Ico d n, w i = w d + ∑ i ∈ Ico (d+1) n, w i := sum_eq_sum_Ico_succ_bot (by omega) w
  cases op with
  | BARRIER_OP => exact absurd rfl hop
  | BROADCAST_OP => exact absurd rfl hb
  | REDUCE_OP => rw [heldAt,heldAt,if_neg (by omega),if_pos (le_refl _),hsum]
  | ALLREDUCE_OP =>
    rw [heldAt,heldAt,if_neg (by omega),if_pos (le_refl _)]
    by_cases h0 : d=0
    · subst h0
      rw [if_neg (by omega),hsum]
    · rw [if_pos,hsum]
      rw [resultAt]
      split_ifs <;> omega

theorem heldAt_result (hr : op≠REDUCE_OP) (hop : op≠BARRIER_OP) :
    heldAt op n w (a+1) (resultAt op n (a+1)+1) = result op n w := by
  cases op with
  | BARRIER_OP => exact absurd rfl hop
  | REDUCE_OP => exact absurd rfl hr
  | BROADCAST_OP => exact (if_neg (by omega)).trans (if_pos rfl).symm
  | ALLREDUCE_OP =>
    have hlate : ¬ resultAt ALLREDUCE_OP n (a+1)+1≤(n : ℤ)-2-(a+1 : ℕ) := by
      simp only [resultAt]
      split_ifs <;> omega
    rw [heldAt,if_neg hlate,if_neg (by omega)]
    rfl

end Execution

section Network

variable {M : Type*} [AddCommMonoid M]
variable {topology : Topology} {root : ℤ} {op : CollectiveOperation} {e d : ℕ}

/-- What an endpoint holds before phase `p`. -/
def held (topology : Topology) (root : ℤ) (op : CollectiveOperation) (v : ℕ → M) (e : ℕ) (p : ℤ) :
    M :=
  heldAt op topology.size (fun d => v (endpointAt topology root d)) (placeOf topology root e) p

variable (hrt : rootOf topology root ∈ topology) (hn : 2 ≤ topology.size) (hop : op ≠ BARRIER_OP)

include hrt hn hop

theorem reduces_at (he : e ∈ topology) (hb : op≠BROADCAST_OP) :
    (init topology root op e).Reduces ((topology.size : ℤ)-2-placeOf topology root e) := by
  refine ⟨hb,fun last hla => ?_⟩
  simp only [getLastReducePhase] at hla
  split_ifs at hla with hall
  · obtain rfl := some.inj hla
    obtain rfl : op=ALLREDUCE_OP := hall
    rw [bcastStart_eq hrt hn he hop (by decide),passAt,resultAt]
    split_ifs <;> omega
  · cases hla

theorem not_reduces_result (he : e ∈ topology) (hr : op≠REDUCE_OP)
    (hpos : 0 < placeOf topology root e) :
    ¬ (init topology root op e).Reduces
      (resultAt op topology.size (placeOf topology root e)) := by
  rintro ⟨hb,hla⟩
  have hbca := bcastStart_eq hrt hn he hop hr
  cases op with
  | BARRIER_OP => exact absurd rfl hop
  | REDUCE_OP => exact absurd rfl hr
  | BROADCAST_OP => exact absurd rfl hb
  | ALLREDUCE_OP =>
    have hle := hla _ rfl
    rw [hbca,if_neg hpos.ne'] at hle
    omega

theorem program_combine (v : ℕ → M) (he : e ∈ topology) {q : ℤ}
    (hq : (program M topology root op).IsPhase e q) {values : List M}
    (h : List.Forall₂ (fun a x => ∃ p, (program M topology root op).Feeds a p e q ∧
      x = held topology root op v a p) ((init topology root op e).getSrcTopology q) values) :
    (init topology root op e).takeIn q (held topology root op v e q) values = held topology root op v e (q+1) := by
  have hlt := placeOf_lt hrt he
  have hsta : startAt op topology.size (placeOf topology root e)≤q := by
    rw [← startPhase_eq hrt hn he hop]
    exact hq.1
  rw [getSrcTopology_eq hrt hn he hop] at h
  cases hsrc : srcAt op topology.size (placeOf topology root e) q with
  | none =>
    rw [hsrc] at h
    cases h
    rw [held,held,heldAt_idle _ hop hsta hlt hsrc,takeIn]
    simp
  | some d =>
    rw [hsrc] at h
    obtain ⟨x,_,⟨p,⟨hmem,-,hdst,-⟩,rfl⟩,hnil,rfl⟩ := forall₂_cons_left_iff.mp h
    cases hnil
    have hd : d<topology.size := (dstAt_of_srcAt hop hlt hsrc).1
    have hpla := placeOf_endpointAt hrt hd
    obtain ⟨d',hd',rfl⟩ := (mem_dst_iff hrt hn hop (List.mem_toFinset.mp hmem)).mp hdst
    rw [hpla] at hd'
    have hpla' := placeOf_endpointAt hrt (srcAt_of_dstAt hop hd hd').1
    have hrdc := reduces_at hrt hn hop he
    have hres := not_reduces_result hrt hn hop he
    rw [hpla'] at hsrc hrdc hres
    rw [held,held,held,hpla,hpla']
    rcases srcAt_cases hsrc with ⟨hb,rfl,hin,rfl⟩ | ⟨hr,rfl,rfl⟩
    · have hp : p=(topology.size : ℤ)-2-d' := by
        rcases dstAt_cases hd' with ⟨-,-,rfl⟩ | ⟨-,hwro,-⟩ <;> omega
      rw [takeIn,if_pos (hrdc hb),hp,heldAt_reduce_send _ hb hop,heldAt_combine _ hb hop hin,List.sum_singleton]
    · have hp : p=passAt op topology.size d := by
        rcases dstAt_cases hd' with ⟨-,hwro,-⟩ | ⟨-,-,-,rfl⟩
        · omega
        · rfl
      rw [takeIn,if_neg (hres hr (succ_pos d)),hp,heldAt_pass _ hr hop
        (srcAt_of_dstAt hop hd hd').1,heldAt_result _ hr hop]
      rfl

theorem program_holds (v : ℕ → M) :
    (program M topology root op).Holds v (held topology root op v) where
  first_le e he := by
    have he := List.mem_toFinset.mp he
    have hlt := placeOf_lt hrt he
    change (init topology root op e).startPhase ≤ _+_
    rw [finish_eq hrt hn he hop,startPhase_eq hrt hn he hop]
    exact startAt_le hop hn hlt
  start e he := by
    have he := List.mem_toFinset.mp he
    change held topology root op v e (init topology root op e).startPhase = v e
    rw [held,startPhase_eq hrt hn he hop,heldAt_start _ hop hn (placeOf_lt hrt he),endpointAt_placeOf hrt he]
  combine e he q hq values h := program_combine hrt hn hop v (List.mem_toFinset.mp he) hq h

theorem program_ordered : (program M topology root op).Ordered fun e =>
    clockAt op topology.size (placeOf topology root e) where
  mono e he p p' hlt hfin := by
    have he := List.mem_toFinset.mp he
    have hfin : p'<(init topology root op e).startPhase+(init topology root op e).nphases := hfin
    rw [finish_eq hrt hn he hop] at hfin
    exact clockAt_lt hop hn (placeOf_lt hrt he) hlt hfin
  feeds e he q hq a ha := by
    have he := List.mem_toFinset.mp he
    obtain ⟨d,hsrc,rfl⟩ := (mem_src_iff hrt hn hop he).mp ha
    obtain ⟨hd,p,hdst,hcla,hact⟩ := dstAt_of_srcAt hop (placeOf_lt hrt he) hsrc
    have hmem := endpointAt_mem hrt hd
    have hpla := placeOf_endpointAt hrt hd
    have hclo := clockAt_le hop hd hdst
    have hpha : (program M topology root op).IsPhase (endpointAt topology root d) p :=
      (active_iff hrt hn hop hmem).mpr (by rw [hpla]; exact hact)
    have hsen : e ∈ (init topology root op (endpointAt topology root d)).getDstTopology p :=
      (mem_dst_iff hrt hn hop hmem).mpr ⟨_,by rw [hpla]; exact hdst,endpointAt_placeOf hrt he⟩
    have hfor : (init topology root op e).notifyRecvPhase p=q := by
      rw [notifyRecvPhase_eq hrt hn hop he,hcla]
    rw [hcla] at hclo
    exact ⟨p,⟨List.mem_toFinset.mpr hmem,hpha,hsen,hfor⟩,by rw [hpla]; exact hclo⟩

omit hn hop in
theorem placeOf_root : placeOf topology root (rootOf topology root) = 0 :=
  (eq_head_iff (Topology.endpoint2Index_lt hrt) (Topology.endpoint2Index_lt hrt)).mp rfl

omit hn hop in
theorem eq_root_of_placeOf (he : e ∈ topology) (h : placeOf topology root e = 0) :
    e = rootOf topology root := by
  have hpla := endpointAt_placeOf hrt he
  rw [h,← placeOf_root hrt,endpointAt_placeOf hrt hrt] at hpla
  exact hpla.symm

omit hn hop in
theorem result_eq (op : CollectiveOperation) (v : ℕ → M) :
    result op topology.size (fun d => v (endpointAt topology root d)) =
      if op=BROADCAST_OP then v (rootOf topology root) else (topology.endpoints.map v).sum := by
  rw [result,← placeOf_root hrt,endpointAt_placeOf hrt hrt,placeOf_root hrt,← range_eq_Ico]
  congr 1
  exact topology.sum_places v (fun _ hd => endpointAt_mem hrt hd)
    (fun _ he => placeOf_lt hrt he) (fun _ hd => placeOf_endpointAt hrt hd)
    (fun _ he => endpointAt_placeOf hrt he)

theorem result_sources (he : e ∈ topology) {q : ℤ} {a : ℕ}
    (hq : ¬ (init topology root op e).Reduces q)
    (ha : a ∈ (init topology root op e).getSrcTopology q) :
    0 < placeOf topology root e ∧ q = resultAt op topology.size (placeOf topology root e) := by
  obtain ⟨d,hd,rfl⟩ := (mem_src_iff hrt hn hop he).mp ha
  rcases srcAt_cases hd with ⟨hb,rfl,hlt,rfl⟩ | ⟨-,hpla,rfl⟩
  · exact absurd (reduces_at hrt hn hop he hb) hq
  · exact ⟨by omega,rfl⟩

end Network

section Exact

/-- No difference that `local_init` or `getLastReducePhase` computes for a rank is below zero. -/
structure NoWrap (nranks head my : ℕ) : Prop where
  reduceDividend : 0 ≤ (tailIdx nranks head : ℤ) - my + nranks - 1
  reduceFlipped : my ≠ tailIdx nranks head → flips nranks head = true → 0 ≤ (my : ℤ) - 1
  broadcastDividend : 0 ≤ (my : ℤ) - head + nranks - 1
  broadcastFlipped : my ≠ head → flips nranks head = true → 0 ≤ (head : ℤ) - my - 1
  reduceStart : 0 ≤ reduceStart nranks head my
  broadcastStart : 0 ≤ broadcastStart nranks head my
  phasesUp : 0 ≤ (nranks : ℤ) - 2 - RingSchedule.reduceStart nranks head my
  lastReducePhase : 0 ≤ allreduceBcastStart nranks head my - 1
  allreducePhases : 0 ≤ allreduceBcastStart nranks head my + 2 - RingSchedule.reduceStart nranks head my

theorem noWrap {n head my : ℕ} (hn : 2≤n) (hhe : head<n) (hmy : my<n) :
    NoWrap n head my := by
  have hpla := place_lt hhe hmy
  have hta := tailIdx_eq hn hhe
  have hree := reduceStart_eq hn hhe hmy
  have hbro := broadcastStart_eq hhe hmy
  have hbca := allreduceBcastStart_eq hn hhe hmy
  refine ⟨by omega,fun hne hflip => ?_,by omega,fun hne hflip => ?_,?_,?_,?_,?_,?_⟩
  · rw [if_pos hflip] at hta
    omega
  · have hla := flips_iff.mp hflip
    omega
  · rw [hree]
    split_ifs <;> omega
  · rw [hbro]
    split_ifs <;> omega
  · rw [hree]
    split_ifs <;> omega
  · rw [hbca]
    split_ifs <;> omega
  · rw [hbca,hree]
    split_ifs <;> omega

/-- What a rank sends in one of its phases its receiver expects in the phase to which it attributes
the message, and what a rank expects is sent. -/
def Matches (topology : Topology) (root : ℤ) (op : CollectiveOperation) : Prop :=
  (∀ a ∈ topology, ∀ p, (init topology root op a).Active p → ∀ b ∈ (init topology root op a).getDstTopology p,
      b ∈ topology ∧ a ∈ (init topology root op b).getSrcTopology ((init topology root op b).notifyRecvPhase p) ∧
      (init topology root op b).Active ((init topology root op b).notifyRecvPhase p)) ∧
  ∀ b ∈ topology, ∀ q, (init topology root op b).Active q → ∀ a ∈ (init topology root op b).getSrcTopology q,
      a ∈ topology ∧ ∃ p, (init topology root op a).Active p ∧ b ∈ (init topology root op a).getDstTopology p ∧
        (init topology root op b).notifyRecvPhase p = q

/-- Once the reduction is over, every rank but the root gets one message. -/
def ResultOnce (topology : Topology) (root : ℤ) (op : CollectiveOperation) : Prop := ∀ e ∈ topology,
    if e = rootOf topology root then
      ∀ q, ¬ (init topology root op e).Reduces q → (init topology root op e).getSrcTopology q = []
    else ∃ q a, (init topology root op e).Active q ∧ ∀ q', ¬ (init topology root op e).Reduces q' →
      (init topology root op e).getSrcTopology q' = if q' = q then [a] else []

/-- Every run of the ring can be carried on to its end, and a rank at its end holds the result; in
a reduction only the root need do so. -/
def Executes {M : Type*} [AddCommMonoid M] (topology : Topology) (root : ℤ)
    (op : CollectiveOperation) (v : ℕ → M) : Prop :=
  ∀ s, Run (program M topology root op).step (fun _ _ => True)
      ((program M topology root op).start v) s →
    (∀ e ∈ topology, (op = REDUCE_OP → e = rootOf topology root) → s.phase e = (program M topology root op).finish e →
      s.value e =
        if op = BROADCAST_OP then v (rootOf topology root) else (topology.endpoints.map v).sum) ∧
    ∃ s', Run (program M topology root op).step (fun _ _ => True) s s' ∧
      ∀ e ∈ topology, s'.phase e = (program M topology root op).finish e

/-- The ring is exact for every number of ranks, every root and every operation. -/
theorem ring_exact {M : Type*} [AddCommMonoid M] (topology : Topology) (hn : 2 ≤ topology.size)
    (root : ℤ) (hrt : root < 0 ∨ root.toNat ∈ topology) (op : CollectiveOperation)
    (hop : op ≠ BARRIER_OP) (v : ℕ → M) :
    Matches topology root op ∧ (op ≠ REDUCE_OP → ResultOnce topology root op) ∧ Executes topology root op v ∧
      ∀ e ∈ topology, NoWrap topology.size (topology.endpoint2Index (rootOf topology root))
        (topology.endpoint2Index e) := by
  have hrt := rootOf_mem hn hrt
  refine ⟨⟨fun a ha p _ b hb => sent_expected hrt hn hop ha hb,
    fun b hb q _ a ha => expected_sent hrt hn hop hb ha⟩,fun hr e he => ?_,fun s hs => ?_,
    fun e he => noWrap hn (Topology.endpoint2Index_lt hrt) (Topology.endpoint2Index_lt he)⟩
  · have hsou {q : ℤ} {a : ℕ} := result_sources (q := q) (a := a) hrt hn hop he
    split_ifs with hhe
    · intro q hq
      apply eq_nil_iff_forall_not_mem.mpr
      intro a ha
      have hpos := (hsou hq ha).1
      rw [hhe,placeOf_root hrt] at hpos
      exact absurd hpos (lt_irrefl 0)
    · have hpos : 0<placeOf topology root e := Nat.pos_of_ne_zero (mt (eq_root_of_placeOf hrt he) hhe)
      obtain ⟨d,hd⟩ := exists_eq_succ_of_ne_zero hpos.ne'
      have hlt := placeOf_lt hrt he
      have hsrc : srcAt op topology.size (placeOf topology root e)
          (resultAt op topology.size (placeOf topology root e)) = some d := by
        rw [hd]
        exact srcAt_result hr hop
      refine ⟨resultAt op topology.size (placeOf topology root e),endpointAt topology root d,?_,fun q' hq' => ?_⟩
      · rw [active_iff hrt hn hop he,hd]
        exact isPhase_result hr hop (by omega)
      · split_ifs with heq
        · rw [heq,getSrcTopology_eq hrt hn he hop,hsrc]
          rfl
        · exact eq_nil_iff_forall_not_mem.mpr fun a ha => heq (hsou hq' ha).2
  · have hhol := program_holds hrt hn hop v
    have hinv := hhol.run hs
    refine ⟨fun e he hred hfin => ?_,?_⟩
    · have hval := hinv.value e (List.mem_toFinset.mpr he)
      have hfns : (program M topology root op).finish e =
          finishAt op topology.size (placeOf topology root e) := finish_eq hrt hn he hop
      rw [hval,hfin,hfns,held,heldAt_finish _ hop hn,result_eq hrt]
      intro hr
      rw [hred hr,placeOf_root hrt]
    · obtain ⟨s',hs',hfin⟩ := (program_ordered hrt hn hop).completes hhol hs
      exact ⟨s',hs',fun e he => hfin e (List.mem_toFinset.mpr he)⟩

theorem ring_exact_three : ∃ topology : Topology, topology.endpoints = [4, 2, 7] ∧
    Matches topology 7 ALLREDUCE_OP ∧ ResultOnce topology 7 ALLREDUCE_OP ∧
    Executes topology 7 ALLREDUCE_OP (fun e => 10^e) := by
  obtain ⟨hmat,honce,hexe,-⟩ := ring_exact ⟨[4,2,7],by decide⟩ (by decide) 7
    (.inr (by decide)) ALLREDUCE_OP (by decide) (fun e => 10^e)
  exact ⟨_,rfl,hmat,honce (by decide),hexe⟩

end Exact

end RingSchedule

end PAMI.Schedule

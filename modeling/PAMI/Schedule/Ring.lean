import PAMI.Math.PhasedNetwork
import PAMI.Schedule.MultinomialTree

namespace PAMI.Schedule

open CollectiveOperation Topology Nat Option

/-- A `RingSchedule` after `init`. Its phases are unsigned in the source; as integers they show
whether a difference would be below zero. -/
structure RingSchedule where
  op : CollectiveOperation
  root : ℕ
  startPhase : ℤ
  nphases : ℤ
  bcastStart : ℤ
  isHead : Bool
  isTail : Bool
  next : ℕ
  prev : ℕ
  dir : Bool

namespace RingSchedule

def prevIdx (nranks my : ℕ) : ℕ := if 0 < my then my - 1 else nranks - 1

def nextIdx (nranks my : ℕ) : ℕ := if my < nranks - 1 then my + 1 else 0

/-- The direction of the ring is flipped if the last rank is its head. -/
def flips (nranks head : ℕ) : Bool := head = nranks - 1

def tailIdx (nranks head : ℕ) : ℕ :=
  if flips nranks head then 0 else (head + nranks - 1) % nranks

def reduceStart (nranks head my : ℕ) : ℤ :=
  if my = tailIdx nranks head then 0
  else if flips nranks head then my - 1
  else ((tailIdx nranks head : ℤ) - my + nranks - 1) % nranks

/-- The phase in which an allreduce starts to pass on the result. -/
def allreduceBcastStart (nranks head my : ℕ) : ℤ :=
  let start := reduceStart nranks head my
  if my = head then start + 1
  else if my = tailIdx nranks head then
    if 2 < nranks then start + 2 * (nranks - 2 - start) else start + 1
  else start + 2 * (nranks - 2 - start)

def allreducePhases (nranks head my : ℕ) : ℤ :=
  let bcastStart := allreduceBcastStart nranks head my
  if my = head then 2
  else if my = tailIdx nranks head then bcastStart + 1
  else bcastStart + 2 - reduceStart nranks head my

def broadcastStart (nranks head my : ℕ) : ℤ :=
  if my = head then 0
  else if flips nranks head then head - my - 1
  else ((my : ℤ) - head + nranks - 1) % nranks

/-- The number of phases of a broadcast or a reduction. -/
def oneWayPhases (nranks head my : ℕ) : ℤ :=
  if my = tailIdx nranks head ∨ my = head then 1 else 2

/-- The root, or the first rank if there is none. -/
def rootOf (topology : Topology) (root : ℤ) : ℕ :=
  if 0 ≤ root then root.toNat else topology.index2Endpoint 0

/-- `init` with `local_init`; a barrier is refused. -/
def init (topology : Topology) (root : ℤ) (op : CollectiveOperation) (myEp : ℕ) : RingSchedule :=
  let nranks := topology.size
  let my := topology.endpoint2Index myEp
  let head := topology.endpoint2Index (rootOf topology root)
  let phases : ℤ × ℤ × ℤ :=
    match op with
    | REDUCE_OP => (reduceStart nranks head my, -1, oneWayPhases nranks head my)
    | ALLREDUCE_OP => (reduceStart nranks head my, allreduceBcastStart nranks head my, allreducePhases nranks head my)
    | BROADCAST_OP => (broadcastStart nranks head my, broadcastStart nranks head my, oneWayPhases nranks head my)
    | BARRIER_OP => (-1, -1, 0)
  { op := op
    root := rootOf topology root
    startPhase := phases.1
    bcastStart := phases.2.1
    nphases := phases.2.2
    isHead := my = head
    isTail := my = tailIdx nranks head
    next := topology.index2Endpoint (nextIdx nranks my)
    prev := topology.index2Endpoint (prevIdx nranks my)
    dir := flips nranks head }

variable (s : RingSchedule)

def getBroadcastSources (phase : ℤ) : List ℕ :=
  if s.isHead = false ∧ phase = s.bcastStart then [if s.dir then s.next else s.prev] else []

def getBroadcastDestinations (phase : ℤ) : List ℕ :=
  let sendphase := s.bcastStart + if s.isHead then 0 else 1
  if s.isTail = false ∧ phase = sendphase then [if s.dir then s.prev else s.next] else []

def getReduceSources (phase : ℤ) : List ℕ :=
  if s.isTail = false ∧ phase = s.startPhase then [if s.dir then s.prev else s.next] else []

def getReduceDestinations (phase : ℤ) : List ℕ :=
  let sendphase := s.startPhase + if s.isTail then 0 else 1
  if s.isHead = false ∧ phase = sendphase then [if s.dir then s.next else s.prev] else []

def getSrcTopology (phase : ℤ) : List ℕ :=
  match s.op with
  | REDUCE_OP => s.getReduceSources phase
  | BROADCAST_OP => s.getBroadcastSources phase
  | ALLREDUCE_OP => if phase < s.bcastStart then s.getReduceSources phase else s.getBroadcastSources phase
  | BARRIER_OP => []

def getDstTopology (phase : ℤ) : List ℕ :=
  match s.op with
  | REDUCE_OP => s.getReduceDestinations phase
  | BROADCAST_OP => s.getBroadcastDestinations phase
  | ALLREDUCE_OP =>
    if phase < s.bcastStart then s.getReduceDestinations phase
    else s.getBroadcastDestinations phase
  | BARRIER_OP => []

/-- `getLastReducePhase`; `none` stands for the unsigned `-1`. -/
def getLastReducePhase : Option ℤ := if s.op = ALLREDUCE_OP then some (s.bcastStart - 1) else none

def getEndPhase : ℤ := s.startPhase + s.nphases - 1

/-- The phase to which `notifyRecv` attributes a message. -/
def notifyRecvPhase (phase : ℤ) : ℤ := if s.getEndPhase < phase then s.getEndPhase else phase

def Active (phase : ℤ) : Prop := s.startPhase ≤ phase ∧ phase < s.startPhase + s.nphases

end RingSchedule

open PAMI.Math

namespace RingSchedule

section Place

variable {n head my d : ℕ}

theorem flips_iff : flips n head = true ↔ head=n-1 := decide_eq_true_iff

/-- How far a rank is from the head, along the ring. -/
def place (n head my : ℕ) : ℕ :=
  if flips n head then n - 1 - my else if head ≤ my then my - head else my + n - head

def idxAt (n head d : ℕ) : ℕ :=
  if flips n head then n - 1 - d else if head + d < n then head + d else head + d - n

section

variable (hhe : head < n)
include hhe

theorem idxAt_lt (hd : d<n) : idxAt n head d < n := by
  rw [idxAt]
  split_ifs <;> omega

theorem place_lt (hmy : my<n) : place n head my < n := by
  rw [place]
  split_ifs <;> omega

theorem idxAt_place (hmy : my<n) : idxAt n head (place n head my) = my := by
  rw [idxAt,place]
  split_ifs <;> omega

theorem place_idxAt (hd : d<n) : place n head (idxAt n head d) = d := by
  rw [idxAt,place]
  split_ifs <;> omega

omit hhe in
theorem tailIdx_eq (hn : 2≤n) (hhe : head<n) :
    tailIdx n head = if flips n head then 0 else if head=0 then n-1 else head-1 := by
  rw [tailIdx]
  split_ifs with hflip h0
  · rfl
  · rw [h0,Nat.zero_add,mod_eq_of_lt (by omega)]
  · have hsum : head+n-1=head-1+n := by omega
    rw [hsum,add_mod_right,mod_eq_of_lt (by omega)]

theorem eq_head_iff (hmy : my<n) : my=head ↔ place n head my = 0 := by
  rw [place]
  split_ifs with hflip <;> rw [flips_iff] at hflip <;> omega

omit hhe in
theorem eq_tail_iff (hn : 2≤n) (hhe : head<n) (hmy : my<n) :
    my = tailIdx n head ↔ place n head my = n-1 := by
  rw [tailIdx_eq hn hhe,place]
  split_ifs <;> omega

theorem neighbor_down (hmy : my<n) (hd : place n head my+1 < n) :
    (if flips n head then prevIdx n my else nextIdx n my) = idxAt n head (place n head my+1) := by
  rw [place] at hd ⊢
  rw [prevIdx,nextIdx,idxAt]
  split_ifs at hd ⊢ <;> omega

theorem neighbor_up (hmy : my<n) (hd : 0 < place n head my) :
    (if flips n head then nextIdx n my else prevIdx n my) = idxAt n head (place n head my-1) := by
  rw [place] at hd ⊢
  rw [prevIdx,nextIdx,idxAt]
  split_ifs at hd ⊢ <;> omega

end

theorem emod_once {x m : ℤ} (h0 : 0≤x) (h : x < m+m) :
    x%m = if x < m then x else x-m := by
  split_ifs with hlt
  · exact Int.emod_eq_of_lt h0 hlt
  · rw [← Int.sub_emod_right x m]
    exact Int.emod_eq_of_lt (by omega) (by omega)

theorem reduceStart_eq (hn : 2≤n) (hhe : head<n) (hmy : my<n) :
    reduceStart n head my =
      if place n head my = n-1 then 0 else (n : ℤ)-2-place n head my := by
  have hta := eq_tail_iff hn hhe hmy
  have htl := tailIdx_eq hn hhe
  rw [reduceStart]
  by_cases h : my=tailIdx n head
  · rw [if_pos h,if_pos (hta.mp h)]
  rw [if_neg h,if_neg (mt hta.mpr h),place]
  by_cases hflip : flips n head=true
  · rw [if_pos hflip,if_pos hflip]
    omega
  · rw [if_neg hflip] at htl
    rw [if_neg hflip,if_neg hflip,emod_once (by omega) (by split_ifs at htl <;> omega)]
    split_ifs at htl ⊢ <;> omega

theorem broadcastStart_eq (hhe : head<n) (hmy : my<n) :
    broadcastStart n head my =
      if place n head my = 0 then 0 else (place n head my : ℤ)-1 := by
  have hhd := eq_head_iff hhe hmy
  rw [broadcastStart]
  by_cases h : my=head
  · rw [if_pos h,if_pos (hhd.mp h)]
  rw [if_neg h,if_neg (mt hhd.mpr h),place]
  by_cases hflip : flips n head=true
  · have hla := flips_iff.mp hflip
    rw [if_pos hflip,if_pos hflip]
    omega
  · rw [if_neg hflip,if_neg hflip,emod_once (by omega) (by omega)]
    split_ifs <;> omega

theorem allreduceBcastStart_eq (hn : 2≤n) (hhe : head<n) (hmy : my<n) :
    allreduceBcastStart n head my = if place n head my = n-1 ∧ 2<n then 2*((n : ℤ)-2)
      else if place n head my = 0 then (n : ℤ)-1 else (n : ℤ)-2+place n head my := by
  have hta := eq_tail_iff hn hhe hmy
  have hhd := eq_head_iff hhe hmy
  simp only [allreduceBcastStart,reduceStart_eq hn hhe hmy,hta,hhd]
  split_ifs <;> omega

theorem allreducePhases_eq (hn : 2≤n) (hhe : head<n) (hmy : my<n) :
    allreducePhases n head my = if place n head my = 0 then 2
      else if place n head my = n-1 then if 2<n then 2*(n : ℤ)-3 else 2
      else 2*(place n head my : ℤ)+2 := by
  have hta := eq_tail_iff hn hhe hmy
  have hhd := eq_head_iff hhe hmy
  simp only [allreducePhases,allreduceBcastStart_eq hn hhe hmy,reduceStart_eq hn hhe hmy,hta,hhd]
  split_ifs <;> omega

end Place

section Neighbors

variable {topology : Topology} {root : ℤ} {op : CollectiveOperation} {e d : ℕ}

/-- How far an endpoint is from the root, along the ring. -/
def placeOf (topology : Topology) (root : ℤ) (e : ℕ) : ℕ :=
  place topology.size (topology.endpoint2Index (rootOf topology root)) (topology.endpoint2Index e)

def endpointAt (topology : Topology) (root : ℤ) (d : ℕ) : ℕ := topology.index2Endpoint
    (idxAt topology.size (topology.endpoint2Index (rootOf topology root)) d)

variable (hrt : rootOf topology root ∈ topology)

include hrt

theorem placeOf_lt (he : e ∈ topology) : placeOf topology root e < topology.size :=
  place_lt (endpoint2Index_lt hrt) (endpoint2Index_lt he)

theorem endpointAt_mem (hd : d<topology.size) : endpointAt topology root d ∈ topology :=
  index2Endpoint_mem (idxAt_lt (endpoint2Index_lt hrt) hd)

theorem placeOf_endpointAt (hd : d<topology.size) :
    placeOf topology root (endpointAt topology root d) = d := by
  have hhe := endpoint2Index_lt hrt
  rw [placeOf,endpointAt,endpoint2Index_index2Endpoint (idxAt_lt hhe hd),place_idxAt hhe hd]

theorem endpointAt_placeOf (he : e ∈ topology) :
    endpointAt topology root (placeOf topology root e) = e := by
  rw [placeOf,endpointAt,idxAt_place (endpoint2Index_lt hrt)
    (endpoint2Index_lt he),index2Endpoint_endpoint2Index he]

theorem not_isHead_iff (op : CollectiveOperation) (he : e ∈ topology) :
    (init topology root op e).isHead=false ↔ 0 < placeOf topology root e :=
  decide_eq_false_iff_not.trans <| (not_congr (eq_head_iff (endpoint2Index_lt hrt)
    (endpoint2Index_lt he))).trans Nat.pos_iff_ne_zero.symm

theorem not_isTail_iff (op : CollectiveOperation) (hn : 2≤topology.size) (he : e ∈ topology) :
    (init topology root op e).isTail=false ↔ placeOf topology root e+1 < topology.size := by
  have hlt := placeOf_lt hrt he
  have hta := eq_tail_iff hn (endpoint2Index_lt hrt) (endpoint2Index_lt he)
  rw [placeOf] at hlt ⊢
  refine decide_eq_false_iff_not.trans ((not_congr hta).trans ?_)
  omega

theorem down_eq (he : e ∈ topology) (hd : placeOf topology root e+1 < topology.size) :
    (if (init topology root op e).dir then (init topology root op e).prev else (init topology root op e).next) =
        endpointAt topology root (placeOf topology root e+1) := by
  have h := neighbor_down (endpoint2Index_lt hrt) (endpoint2Index_lt he) hd
  rw [endpointAt,placeOf,← h]
  exact (apply_ite topology.index2Endpoint _ _ _).symm

theorem up_eq (he : e ∈ topology) (hd : 0 < placeOf topology root e) :
    (if (init topology root op e).dir then (init topology root op e).next else (init topology root op e).prev) =
        endpointAt topology root (placeOf topology root e-1) := by
  have h := neighbor_up (endpoint2Index_lt hrt) (endpoint2Index_lt he) hd
  rw [endpointAt,placeOf,← h]
  exact (apply_ite topology.index2Endpoint _ _ _).symm

theorem down_partners (op : CollectiveOperation) (hn : 2≤topology.size) (he : e ∈ topology)
    (c : Prop) [Decidable c] :
    (if (init topology root op e).isTail=false ∧ c then
        [if (init topology root op e).dir then (init topology root op e).prev
          else (init topology root op e).next] else []) =
      if placeOf topology root e+1 < topology.size ∧ c
      then [endpointAt topology root (placeOf topology root e+1)] else [] := by
  simp only [not_isTail_iff hrt op hn he]
  by_cases h : placeOf topology root e+1<topology.size
  · rw [down_eq hrt he h]
  · rw [if_neg fun hc => h hc.1,if_neg fun hc => h hc.1]

theorem up_partners (op : CollectiveOperation) (he : e ∈ topology) (c : Prop) [Decidable c] :
    (if (init topology root op e).isHead=false ∧ c then
        [if (init topology root op e).dir then (init topology root op e).next
          else (init topology root op e).prev] else []) =
      if 0 < placeOf topology root e ∧ c
      then [endpointAt topology root (placeOf topology root e-1)] else [] := by
  simp only [not_isHead_iff hrt op he]
  by_cases h : 0<placeOf topology root e
  · rw [up_eq hrt he h]
  · rw [if_neg fun hc => h hc.1,if_neg fun hc => h hc.1]

end Neighbors

section Phases

variable {topology : Topology} {root : ℤ} {e : ℕ}

/-- The phases of the rank at a place of the ring. -/
def startAt (op : CollectiveOperation) (n d : ℕ) : ℤ :=
  match op with
  | REDUCE_OP | ALLREDUCE_OP => if d = n - 1 then 0 else (n : ℤ) - 2 - d
  | _ => if d = 0 then 0 else (d : ℤ) - 1

def finishAt (op : CollectiveOperation) (n d : ℕ) : ℤ :=
  match op with
  | REDUCE_OP => if d = 0 then (n : ℤ) - 1 else (n : ℤ) - d
  | ALLREDUCE_OP =>
    if d = 0 then (n : ℤ)
    else if d = n - 1 then if 2 < n then 2 * (n : ℤ) - 3 else 2
    else (n : ℤ) + d
  | _ => if d = 0 then 1 else if d = n - 1 then (n : ℤ) - 1 else (d : ℤ) + 1

/-- The phase in which the result comes to the rank at a place of the ring. -/
def resultAt (op : CollectiveOperation) (n d : ℕ) : ℤ :=
  match op with
  | ALLREDUCE_OP => if d = n - 1 ∧ 2 < n then 2 * ((n : ℤ) - 2) else (n : ℤ) - 2 + d
  | _ => (d : ℤ) - 1

/-- The phase in which the rank at a place of the ring passes the result on. -/
def passAt (op : CollectiveOperation) (n d : ℕ) : ℤ :=
  match op with
  | ALLREDUCE_OP => (n : ℤ) - 1 + d
  | _ => d

def srcAt (op : CollectiveOperation) (n d : ℕ) (phase : ℤ) : Option ℕ :=
  if op ≠ BROADCAST_OP ∧ d + 1 < n ∧ phase = (n : ℤ) - 2 - d then some (d + 1)
  else if op ≠ REDUCE_OP ∧ 0 < d ∧ phase = resultAt op n d then some (d - 1)
  else none

def dstAt (op : CollectiveOperation) (n d : ℕ) (phase : ℤ) : Option ℕ :=
  if op ≠ BROADCAST_OP ∧ 0 < d ∧ phase = (n : ℤ) - 1 - d then some (d - 1)
  else if op ≠ REDUCE_OP ∧ d + 1 < n ∧ phase = passAt op n d then some (d + 1)
  else none

variable (hrt : rootOf topology root ∈ topology) (hn : 2 ≤ topology.size) (he : e ∈ topology)
  {op : CollectiveOperation} (hop : op ≠ BARRIER_OP)

include hrt hn he hop

theorem startPhase_eq : (init topology root op e).startPhase = startAt op topology.size (placeOf topology root e) := by
  have hhe := endpoint2Index_lt hrt
  have hmy := endpoint2Index_lt he
  cases op with
  | BARRIER_OP => exact absurd rfl hop
  | BROADCAST_OP => exact broadcastStart_eq hhe hmy
  | REDUCE_OP | ALLREDUCE_OP => exact reduceStart_eq hn hhe hmy

theorem finish_eq : (init topology root op e).startPhase+(init topology root op e).nphases =
    finishAt op topology.size (placeOf topology root e) := by
  have hhe := endpoint2Index_lt hrt
  have hmy := endpoint2Index_lt he
  have hlt := placeOf_lt hrt he
  have hhd := eq_head_iff hhe hmy
  have hta := eq_tail_iff hn hhe hmy
  rw [startPhase_eq hrt hn he hop]
  rw [← placeOf] at hhd hta
  cases op with
  | BARRIER_OP => exact absurd rfl hop
  | BROADCAST_OP | REDUCE_OP =>
    simp only [startAt,finishAt,init,oneWayPhases,hhd,hta]
    split_ifs <;> omega
  | ALLREDUCE_OP =>
    have hphs := allreducePhases_eq hn hhe hmy
    rw [← placeOf] at hphs
    simp only [startAt,finishAt,init,hphs]
    split_ifs <;> omega

theorem bcastStart_eq (hr : op≠REDUCE_OP) : (init topology root op e).bcastStart =
    if placeOf topology root e = 0 then passAt op topology.size 0
    else resultAt op topology.size (placeOf topology root e) := by
  have hhe := endpoint2Index_lt hrt
  have hmy := endpoint2Index_lt he
  cases op with
  | BARRIER_OP => exact absurd rfl hop
  | BROADCAST_OP => exact broadcastStart_eq hhe hmy
  | REDUCE_OP => exact absurd rfl hr
  | ALLREDUCE_OP =>
    have hlt := placeOf_lt hrt he
    refine (allreduceBcastStart_eq hn hhe hmy).trans ?_
    rw [← placeOf,passAt,resultAt]
    split_ifs <;> omega

theorem getSrcTopology_eq (phase : ℤ) : (init topology root op e).getSrcTopology phase =
    ((srcAt op topology.size (placeOf topology root e) phase).map (endpointAt topology root)).toList := by
  have hlt := placeOf_lt hrt he
  have hsta := startPhase_eq hrt hn he hop
  have hbca := bcastStart_eq hrt hn he hop
  have hdown := down_partners hrt op hn he
  have hup := up_partners hrt op he
  cases op with
  | BARRIER_OP => exact absurd rfl hop
  | BROADCAST_OP =>
    change getBroadcastSources _ phase = _
    rw [getBroadcastSources,hup,hbca (by decide)]
    simp only [srcAt,resultAt,ne_eq,reduceCtorEq,not_false_eq_true,not_true_eq_false,true_and,
      false_and,if_false]
    split_ifs <;> first | rfl | omega
  | REDUCE_OP =>
    change getReduceSources _ phase = _
    rw [getReduceSources,hdown,hsta]
    simp only [srcAt,startAt,ne_eq,reduceCtorEq,not_false_eq_true,not_true_eq_false,true_and,
      false_and,if_false]
    split_ifs <;> first | rfl | omega
  | ALLREDUCE_OP =>
    change (if phase < _ then getReduceSources _ phase else getBroadcastSources _ phase) = _
    rw [getReduceSources,getBroadcastSources,hdown,hup,hsta,hbca (by decide)]
    simp only [srcAt,startAt,passAt,resultAt,ne_eq,reduceCtorEq,not_false_eq_true,true_and]
    split_ifs <;> first | rfl | omega

theorem reduceDestinations_eq (hb : op≠BROADCAST_OP) (phase : ℤ) :
    (init topology root op e).getReduceDestinations phase =
      if 0 < placeOf topology root e ∧ phase = (topology.size : ℤ)-1-placeOf topology root e
      then [endpointAt topology root (placeOf topology root e-1)] else [] := by
  have hlt := placeOf_lt hrt he
  have hta := not_isTail_iff hrt op hn he
  have hsta : startAt op topology.size (placeOf topology root e) =
      if placeOf topology root e=topology.size-1 then 0 else (topology.size : ℤ)-2-placeOf topology root e := by
    cases op with
    | BARRIER_OP => exact absurd rfl hop
    | BROADCAST_OP => exact absurd rfl hb
    | REDUCE_OP | ALLREDUCE_OP => rfl
  have hsend : (init topology root op e).startPhase+(if (init topology root op e).isTail then 0 else 1) =
      (topology.size : ℤ)-1-placeOf topology root e := by
    rw [startPhase_eq hrt hn he hop,hsta]
    cases htl : (init topology root op e).isTail with
    | false =>
      have hlt' := hta.mp htl
      rw [if_neg (by omega),if_neg Bool.false_ne_true]
      omega
    | true =>
      have hge : ¬placeOf topology root e+1<topology.size := fun h => by simp [hta.mpr h] at htl
      rw [if_pos (by omega),if_pos rfl]
      omega
  rw [getReduceDestinations,hsend]
  exact up_partners hrt op he _

theorem broadcastDestinations_eq (hr : op≠REDUCE_OP) (phase : ℤ) :
    (init topology root op e).getBroadcastDestinations phase =
      if placeOf topology root e+1 < topology.size ∧ phase = passAt op topology.size (placeOf topology root e)
      then [endpointAt topology root (placeOf topology root e+1)] else [] := by
  have hhe := not_isHead_iff hrt op he
  rw [getBroadcastDestinations,down_partners hrt op hn he,bcastStart_eq hrt hn he hop hr]
  refine if_congr (and_congr_right fun hlt => ?_) rfl rfl
  have hsend : (if placeOf topology root e=0 then passAt op topology.size 0
        else resultAt op topology.size (placeOf topology root e))+
      (if (init topology root op e).isHead then 0 else 1) = passAt op topology.size (placeOf topology root e) := by
    cases hhd : (init topology root op e).isHead with
    | false =>
      have hpos := hhe.mp hhd
      rw [if_neg (by omega),if_neg Bool.false_ne_true]
      cases op with
      | ALLREDUCE_OP =>
        simp only [resultAt,passAt]
        rw [if_neg (by omega)]
        omega
      | _ =>
        simp only [resultAt,passAt]
        omega
    | true =>
      have h0 : placeOf topology root e=0 := by
        by_contra hne
        simp [hhe.mpr (Nat.pos_of_ne_zero hne)] at hhd
      rw [if_pos h0,if_pos rfl,h0,add_zero]
  rw [hsend]

theorem getDstTopology_eq (phase : ℤ) : (init topology root op e).getDstTopology phase =
    ((dstAt op topology.size (placeOf topology root e) phase).map (endpointAt topology root)).toList := by
  have hlt := placeOf_lt hrt he
  cases op with
  | BARRIER_OP => exact absurd rfl hop
  | BROADCAST_OP =>
    refine (broadcastDestinations_eq hrt hn he hop (by decide) phase).trans ?_
    simp only [dstAt,ne_eq,reduceCtorEq,not_false_eq_true,not_true_eq_false,true_and,false_and,if_false]
    split_ifs <;> rfl
  | REDUCE_OP =>
    refine (reduceDestinations_eq hrt hn he hop (by decide) phase).trans ?_
    rw [dstAt]
    simp only [ne_eq,reduceCtorEq,not_false_eq_true,not_true_eq_false,true_and,false_and,if_false]
    split_ifs <;> rfl
  | ALLREDUCE_OP =>
    change (if phase < _ then getReduceDestinations _ phase else getBroadcastDestinations _ phase) = _
    have hbca := bcastStart_eq hrt hn he hop (by decide)
    simp only [passAt,resultAt] at hbca
    rw [reduceDestinations_eq hrt hn he hop (by decide),broadcastDestinations_eq hrt hn he hop (by decide),dstAt]
    simp only [ne_eq,reduceCtorEq,not_false_eq_true,true_and]
    -- what is passed up goes before the result is passed down
    by_cases hup : 0<placeOf topology root e ∧ phase=(topology.size : ℤ)-1-placeOf topology root e
    · have hbef : phase<(init topology root ALLREDUCE_OP e).bcastStart := by
        rw [hbca,if_neg (by omega)]
        split_ifs <;> omega
      rw [if_pos hbef,if_pos hup,if_pos hup]
      rfl
    · rw [if_neg hup,if_neg hup]
      by_cases hdn : placeOf topology root e+1<topology.size ∧
          phase=passAt ALLREDUCE_OP topology.size (placeOf topology root e)
      · have haft : ¬phase<(init topology root ALLREDUCE_OP e).bcastStart := by
          rw [hbca,hdn.2,passAt]
          split_ifs <;> omega
        rw [if_neg haft,if_pos hdn,if_pos hdn]
        rfl
      · rw [if_neg hdn,if_neg hdn,ite_self]
        rfl

end Phases

section Matching

variable {op : CollectiveOperation} {n a b : ℕ} {p q : ℤ}

/-- The last phase of a place, if a message is of a later one. -/
def clampAt (op : CollectiveOperation) (n d : ℕ) (p : ℤ) : ℤ :=
  if finishAt op n d - 1 < p then finishAt op n d - 1 else p

theorem dstAt_cases (h : dstAt op n a p = some b) :
    (op≠BROADCAST_OP ∧ a=b+1 ∧ p=(n : ℤ)-1-a) ∨
      (op≠REDUCE_OP ∧ b=a+1 ∧ b<n ∧ p = passAt op n a) := by
  rw [dstAt] at h
  split_ifs at h with hup hdown
  · obtain rfl := some.inj h
    exact .inl ⟨hup.1,by omega,hup.2.2⟩
  · obtain rfl := some.inj h
    exact .inr ⟨hdown.1,rfl,hdown.2.1,hdown.2.2⟩

theorem srcAt_cases (h : srcAt op n b q = some a) :
    (op≠BROADCAST_OP ∧ a=b+1 ∧ a<n ∧ q=(n : ℤ)-2-b) ∨
      (op≠REDUCE_OP ∧ b=a+1 ∧ q = resultAt op n b) := by
  rw [srcAt] at h
  split_ifs at h with hdown hup
  · obtain rfl := some.inj h
    exact .inl ⟨hdown.1,rfl,hdown.2.1,hdown.2.2⟩
  · obtain rfl := some.inj h
    exact .inr ⟨hup.1,by omega,hup.2.2⟩

theorem clampAt_reduce (hb : op≠BROADCAST_OP) (hop : op≠BARRIER_OP) :
    clampAt op n b ((n : ℤ)-2-b) = (n : ℤ)-2-b := by
  cases op with
  | BARRIER_OP => exact absurd rfl hop
  | BROADCAST_OP => exact absurd rfl hb
  | REDUCE_OP | ALLREDUCE_OP =>
    simp only [clampAt,finishAt]
    split_ifs <;> omega

section

variable (hr : op ≠ REDUCE_OP) (hop : op ≠ BARRIER_OP)
include hr hop

theorem clampAt_pass (h : a+1<n) : clampAt op n (a+1) (passAt op n a) = resultAt op n (a+1) := by
  cases op with
  | BARRIER_OP => exact absurd rfl hop
  | REDUCE_OP => exact absurd rfl hr
  | BROADCAST_OP | ALLREDUCE_OP =>
    simp only [clampAt,finishAt,passAt,resultAt,succ_ne_zero,if_false]
    split_ifs <;> omega

omit hr hop in
theorem srcAt_reduce (hb : op≠BROADCAST_OP) (h : b+1<n) :
    srcAt op n b ((n : ℤ)-2-b) = some (b+1) :=
  if_pos ⟨hb,h,rfl⟩

theorem srcAt_result : srcAt op n (a+1) (resultAt op n (a+1)) = some a := by
  have hnot : ¬ (op≠BROADCAST_OP ∧ a+1+1<n ∧ resultAt op n (a+1)=(n : ℤ)-2-(a+1 : ℕ)) := by
    rintro ⟨hb,hlt,heq⟩
    cases op with
    | BARRIER_OP => exact absurd rfl hop
    | REDUCE_OP => exact absurd rfl hr
    | BROADCAST_OP => exact absurd rfl hb
    | ALLREDUCE_OP =>
      simp only [resultAt] at heq
      split_ifs at heq <;> omega
  rw [srcAt,if_neg hnot,if_pos ⟨hr,succ_pos a,rfl⟩]
  rfl

omit hr hop in
theorem isPhase_reduce (hb : op≠BROADCAST_OP) (hop : op≠BARRIER_OP) (h : b+1<n) :
    startAt op n b ≤ (n : ℤ)-2-b ∧ (n : ℤ)-2-b < finishAt op n b := by
  cases op with
  | BARRIER_OP => exact absurd rfl hop
  | BROADCAST_OP => exact absurd rfl hb
  | REDUCE_OP | ALLREDUCE_OP =>
    simp only [startAt,finishAt]
    split_ifs <;> omega

theorem isPhase_result (h : a+1<n) : startAt op n (a+1) ≤ resultAt op n (a+1) ∧
      resultAt op n (a+1) < finishAt op n (a+1) := by
  cases op with
  | BARRIER_OP => exact absurd rfl hop
  | REDUCE_OP => exact absurd rfl hr
  | BROADCAST_OP | ALLREDUCE_OP =>
    simp only [startAt,finishAt,resultAt,succ_ne_zero,if_false]
    split_ifs <;> omega

omit hr hop in
theorem srcAt_of_dstAt (hop : op≠BARRIER_OP) (ha : a<n) (h : dstAt op n a p = some b) :
    b<n ∧ srcAt op n b (clampAt op n b p) = some a ∧
      startAt op n b ≤ clampAt op n b p ∧ clampAt op n b p < finishAt op n b := by
  rcases dstAt_cases h with ⟨hb,rfl,rfl⟩ | ⟨hr,rfl,hlt,rfl⟩
  · have hp : (n : ℤ)-1-(b+1 : ℕ)=(n : ℤ)-2-b := by omega
    rw [hp,clampAt_reduce hb hop]
    exact ⟨by omega,srcAt_reduce hb ha,isPhase_reduce hb hop ha⟩
  · rw [clampAt_pass hr hop hlt]
    exact ⟨hlt,srcAt_result hr hop,isPhase_result hr hop hlt⟩

omit hr hop in
theorem dstAt_reduce (hb : op≠BROADCAST_OP) : dstAt op n (b+1) ((n : ℤ)-2-b) = some b :=
  if_pos ⟨hb,succ_pos b,by omega⟩

theorem dstAt_pass (h : a+1<n) : dstAt op n a (passAt op n a) = some (a+1) := by
  rw [dstAt,if_neg,if_pos ⟨hr,h,rfl⟩]
  rintro ⟨hb,hpos,heq⟩
  cases op with
  | BARRIER_OP => exact absurd rfl hop
  | REDUCE_OP => exact absurd rfl hr
  | BROADCAST_OP => exact absurd rfl hb
  | ALLREDUCE_OP =>
    rw [passAt] at heq
    omega

omit hr hop in
theorem isPhase_reduce_send (hb : op≠BROADCAST_OP) (hop : op≠BARRIER_OP) (h : b+1<n) :
    startAt op n (b+1) ≤ (n : ℤ)-2-b ∧ (n : ℤ)-2-b < finishAt op n (b+1) := by
  cases op with
  | BARRIER_OP => exact absurd rfl hop
  | BROADCAST_OP => exact absurd rfl hb
  | REDUCE_OP | ALLREDUCE_OP =>
    simp only [startAt,finishAt,succ_ne_zero,if_false]
    split_ifs <;> omega

theorem isPhase_pass (h : a+1<n) : startAt op n a ≤ passAt op n a ∧ passAt op n a < finishAt op n a := by
  cases op with
  | BARRIER_OP => exact absurd rfl hop
  | REDUCE_OP => exact absurd rfl hr
  | BROADCAST_OP | ALLREDUCE_OP =>
    simp only [startAt,finishAt,passAt]
    split_ifs <;> omega

end

theorem dstAt_of_srcAt (hop : op≠BARRIER_OP) (hb : b<n) (h : srcAt op n b q = some a) :
    a<n ∧ ∃ p, dstAt op n a p = some b ∧ clampAt op n b p = q ∧ startAt op n a ≤ p ∧ p < finishAt op n a := by
  rcases srcAt_cases h with ⟨hne,rfl,hlt,rfl⟩ | ⟨hr,rfl,rfl⟩
  · exact ⟨hlt,_,dstAt_reduce hne,clampAt_reduce hne hop,isPhase_reduce_send hne hop hlt⟩
  · exact ⟨by omega,_,dstAt_pass hr hop hb,clampAt_pass hr hop hb,isPhase_pass hr hop hb⟩

theorem startAt_le (hop : op≠BARRIER_OP) (hn : 2≤n) (ha : a<n) :
    startAt op n a ≤ finishAt op n a := by
  cases op with
  | BARRIER_OP => exact absurd rfl hop
  | BROADCAST_OP | REDUCE_OP | ALLREDUCE_OP =>
    simp only [startAt,finishAt]
    split_ifs <;> omega

theorem finishAt_le (hop : op≠BARRIER_OP) (hn : 2≤n) (ha : a<n) :
    finishAt op n a ≤ 2*n := by
  cases op with
  | BARRIER_OP => exact absurd rfl hop
  | BROADCAST_OP | REDUCE_OP | ALLREDUCE_OP =>
    simp only [finishAt]
    split_ifs <;> omega

/-- A clock for the phases of a place: the tail of an allreduce gets the result after its last
phase has begun. -/
def clockAt (op : CollectiveOperation) (n d : ℕ) (p : ℤ) : ℤ :=
  if op = ALLREDUCE_OP ∧ d = n - 1 ∧ p + 1 = finishAt op n d then 2 * n else p

theorem clockAt_lt (hop : op≠BARRIER_OP) (hn : 2≤n) (ha : a<n) (hpq : p<q)
    (hq : q < finishAt op n a) : clockAt op n a p < clockAt op n a q := by
  have hle := finishAt_le hop hn ha
  rw [clockAt,clockAt]
  split_ifs <;> omega

theorem clockAt_le (hop : op≠BARRIER_OP) (ha : a<n) (h : dstAt op n a p = some b) :
    clockAt op n a p ≤ clockAt op n b (clampAt op n b p) := by
  rcases dstAt_cases h with ⟨hb,rfl,rfl⟩ | ⟨hr,rfl,hlt,rfl⟩
  · have hp : (n : ℤ)-1-(b+1 : ℕ)=(n : ℤ)-2-b := by omega
    rw [hp,clampAt_reduce hb hop,clockAt,clockAt,if_neg]
    · split_ifs <;> omega
    · rintro ⟨rfl,hta,heq⟩
      rw [finishAt,if_neg (succ_ne_zero b),if_pos hta] at heq
      split_ifs at heq <;> omega
  · rw [clampAt_pass hr hop hlt,clockAt,clockAt,if_neg (by omega)]
    cases op with
    | BARRIER_OP => exact absurd rfl hop
    | REDUCE_OP => exact absurd rfl hr
    | BROADCAST_OP =>
      simp only [passAt,resultAt]
      split_ifs <;> omega
    | ALLREDUCE_OP =>
      simp only [passAt,resultAt,finishAt,succ_ne_zero,if_false,true_and]
      split_ifs <;> omega

end Matching

end RingSchedule

end PAMI.Schedule

import PAMI.Schedule.TopologyMap

namespace PAMI.Schedule

inductive CollectiveOperation where
  | BROADCAST_OP
  | BARRIER_OP
  | ALLREDUCE_OP
  | REDUCE_OP
  deriving DecidableEq, Repr

/-- A phase, or one of the codes for implicit phases. `NOT_RECV_PHASE` and `NOT_SEND_PHASE` are
one code. -/
inductive PhaseCode where
  | UNDEFINED_PHASE
  | ALL_PHASES
  | NO_PHASES
  | NOT_OTHER_PHASE
  | phase (p : ℕ)
  deriving DecidableEq, Repr

/-- `ffs`: the number of the lowest bit that is set, counted from one. -/
def ffs (n : ℕ) : ℕ :=
  if n = 0 then 0 else (List.range (n.log2 + 1)).findIdx (fun i => n.testBit i) + 1

/-- The partners `mynode ^ (r << (phase * lradix))` of a node. -/
def bino (mynode phase radix lradix : ℕ) : List ℕ :=
  (List.range' 1 (radix - 1)).map fun r => mynode ^^^ (r <<< (phase * lradix))

/-- The loop `while (d < distance) { d *= radix; n++; }`. -/
def countPhases (radix distance : ℕ) : ℕ → ℕ → ℕ
  | 0, _ => 0
  | fuel + 1, d => if d < distance then countPhases radix distance fuel (d * radix) + 1 else 0

/-- What `setupContext` computes for a rank and an operation. -/
structure Context where
  st : ℕ
  np : ℕ
  sendph : PhaseCode
  recvph : PhaseCode
  auxsendph : PhaseCode
  auxrecvph : PhaseCode
  lastrdcph : PhaseCode

/-- `MultinomialTreeT<TopologyMap, T_MaxRadix>`. -/
structure MultinomialTree where
  map : TopologyMap
  radix : ℕ
  logradix : ℕ
  nphbino : ℕ
  maxphases : ℕ
  context : Context

namespace MultinomialTree

open CollectiveOperation PhaseCode

def getRadix (maxRadix nranks : ℕ) : ℕ :=
  let nph := nranks.log2
  if maxRadix ≥ 8 ∧ nranks ≤ 4096 ∧ nph % 3 = 0 then 8
  else if maxRadix ≥ 4 ∧ nph &&& 1 = 0 then 4
  else 2

/-- The number of phases of the power of two part that `getMaxPhases` finds. -/
def getBinoPhases (maxRadix nranks : ℕ) : ℕ :=
  let nph := nranks.log2
  if getRadix maxRadix nranks = 8 then nph / 3
  else if getRadix maxRadix nranks = 4 then nph / 2
  else nph

def getMaxPhases (maxRadix nranks : ℕ) : ℕ := getBinoPhases maxRadix nranks + 1

def getLogRadix (radix : ℕ) : ℕ := if radix = 8 then 3 else if radix = 4 then 2 else 1

/-- The first part of `setupContext`: the extra phases of a peer. -/
def setupPeer (op : CollectiveOperation) (peer : Bool) (nphbino maxphases : ℕ) : Context :=
  let c : Context := ⟨1, nphbino, NO_PHASES, NO_PHASES, NO_PHASES, NO_PHASES, UNDEFINED_PHASE⟩
  if peer then
    match op with
    | BARRIER_OP | ALLREDUCE_OP =>
      { c with st := 0, np := c.np + 2, auxrecvph := phase 0, auxsendph := phase (maxphases - 1) }
    | REDUCE_OP => { c with st := 0, np := c.np + 1, auxrecvph := phase 0 }
    | BROADCAST_OP => { c with st := 1, np := c.np + 1, auxsendph := phase (maxphases - 1) }
  else c

def setupAux (op : CollectiveOperation) (maxphases : ℕ) (c : Context) : Context :=
  match op with
  | ALLREDUCE_OP =>
    { c with
      lastrdcph := phase (maxphases - 2), st := 0, np := c.np + 2, auxsendph := phase 0,
      auxrecvph := phase (maxphases - 1) }
  | BARRIER_OP => { c with st := 0, np := c.np + 2, auxsendph := phase 0, auxrecvph := phase (maxphases - 1) }
  | REDUCE_OP => { c with st := 0, np := 1, auxsendph := phase 0 }
  | BROADCAST_OP => { c with st := maxphases - 1, np := 1, auxrecvph := phase (maxphases - 1) }

/-- The phases of a process of the power of two part. -/
def setupBino (op : CollectiveOperation) (rank radix : ℕ) (c : Context) : Context :=
  match op with
  | BARRIER_OP | ALLREDUCE_OP => { c with sendph := ALL_PHASES, recvph := ALL_PHASES }
  | REDUCE_OP =>
    if rank = 0 then { c with recvph := ALL_PHASES, sendph := NO_PHASES }
    else
      let np := ffs rank + 1 - c.st
      { c with np := np, sendph := phase (c.st + np - 1), recvph := NOT_OTHER_PHASE }
  | BROADCAST_OP =>
    if rank = 0 then { c with recvph := NO_PHASES, sendph := ALL_PHASES }
    else
      let n := countPhases radix (rank + 1) (rank + 1) 1 - 1
      { c with
        st := c.st + n, np := c.np - n, recvph := phase (c.st + n), sendph := NOT_OTHER_PHASE }

def setupContext (op : CollectiveOperation) (map : TopologyMap) (radix nphbino maxphases : ℕ) :
    Context :=
  let c := setupPeer op map.isPeerProc nphbino maxphases
  if map.isAuxProc then setupAux op maxphases c else setupBino op map.getMyRank radix c

/-- The constructor with `initBinoSched`, and `init` for a root and an operation. -/
def init (maxRadix : ℕ) (topology : Topology) (root : ℕ) (op : CollectiveOperation)
    (myendpoint : ℕ) : MultinomialTree :=
  let map := TopologyMap.new myendpoint topology
  let nranks := map.getNumRanks
  let radix := getRadix maxRadix nranks
  let nphbino := getBinoPhases maxRadix nranks
  let maxphases := getMaxPhases maxRadix nranks + map.hasAuxPhases.toNat
  let map := if op = REDUCE_OP ∨ op = BROADCAST_OP then map.setRoot root else map
  ⟨map, radix, getLogRadix radix, nphbino, maxphases, setupContext op map radix nphbino maxphases⟩

/-- The phases `[start, start + nphases)` that `init` reports to the rank. -/
def Active (t : MultinomialTree) (ph : ℕ) : Prop := t.context.st ≤ ph ∧ ph < t.context.st + t.context.np

instance (t : MultinomialTree) (ph : ℕ) : Decidable (t.Active ph) := inferInstanceAs (Decidable (_ ∧ _))

def nextNodes (t : MultinomialTree) (parent : Bool) (ph : ℕ) : List ℕ :=
  if (t.context.auxsendph = phase ph ∧ parent = false) ∨ (t.context.auxrecvph = phase ph ∧ parent = true) then
    if t.map.isAuxProc then [t.map.getPeerForAux]
    else if t.map.isPeerProc then t.map.getAuxForPeer
    else []
  else if t.context.auxrecvph ≠ phase ph ∧ t.context.auxsendph ≠ phase ph then
    bino t.map.getMyRank (ph - 1) t.radix t.logradix
  else []

/-- The phases of the power of two part in which a rank receives, or sends. -/
def mainph (t : MultinomialTree) (parent : Bool) : PhaseCode :=
  if parent then t.context.recvph else t.context.sendph

/-- The phase in which a rank receives from, or sends to, the other one of a peer and its
auxiliary rank. -/
def auxph (t : MultinomialTree) (parent : Bool) : PhaseCode :=
  if parent then t.context.auxrecvph else t.context.auxsendph

/-- The rank takes part in this phase of the power of two part. -/
def Communicates (t : MultinomialTree) (parent : Bool) (ph : ℕ) : Prop :=
  1 ≤ ph ∧ ph ≤ t.nphbino ∧ (t.mainph parent = ALL_PHASES ∨
    (t.mainph parent = NOT_OTHER_PHASE ∧ t.mainph (!parent) ≠ phase ph) ∨
    t.mainph parent = phase ph)

instance (t : MultinomialTree) (parent : Bool) (ph : ℕ) : Decidable (t.Communicates parent ph) :=
  inferInstanceAs (Decidable (_ ∧ _))

/-- What `getSrcTopology` and `getDstTopology` find, relative to the root. -/
def partnerRanks (t : MultinomialTree) (parent : Bool) (ph : ℕ) : List ℕ :=
  if t.Communicates parent ph ∨ t.auxph parent = phase ph then t.nextNodes parent ph else []

def srcRanks (t : MultinomialTree) (ph : ℕ) : List ℕ := t.partnerRanks true ph

def dstRanks (t : MultinomialTree) (ph : ℕ) : List ℕ := t.partnerRanks false ph

def getSrcTopology (t : MultinomialTree) (ph : ℕ) : List ℕ := (t.srcRanks ph).map t.map.getGlobalRank

def getDstTopology (t : MultinomialTree) (ph : ℕ) : List ℕ := (t.dstRanks ph).map t.map.getGlobalRank

section Partners

variable {t : MultinomialTree} {parent : Bool} {ph : ℕ}

theorem partnerRanks_aux (h : t.auxph parent = phase ph) :
    t.partnerRanks parent ph = if t.map.isAuxProc then [t.map.getPeerForAux]
      else if t.map.isPeerProc then t.map.getAuxForPeer else [] := by
  have hcond : (t.context.auxsendph=phase ph ∧ parent=false) ∨
      (t.context.auxrecvph=phase ph ∧ parent=true) := by
    cases parent with
    | false => exact .inl ⟨h,rfl⟩
    | true => exact .inr ⟨h,rfl⟩
  rw [partnerRanks,if_pos (.inr h),nextNodes,if_pos hcond]

theorem partnerRanks_bino (h : t.Communicates parent ph) (haux : t.auxph parent ≠ phase ph)
    (haux' : t.auxph (!parent) ≠ phase ph) :
    t.partnerRanks parent ph = bino t.map.getMyRank (ph-1) t.radix t.logradix := by
  rw [partnerRanks,if_pos (.inl h),nextNodes]
  cases parent with
  | false =>
    have h1 : t.context.auxsendph≠phase ph := haux
    have h2 : t.context.auxrecvph≠phase ph := haux'
    rw [if_neg (by simp [h1]),if_pos ⟨h2,h1⟩]
  | true =>
    have h1 : t.context.auxrecvph≠phase ph := haux
    have h2 : t.context.auxsendph≠phase ph := haux'
    rw [if_neg (by simp [h1]),if_pos ⟨h1,h2⟩]

theorem partnerRanks_nil (h : ¬ t.Communicates parent ph) (haux : t.auxph parent ≠ phase ph) :
    t.partnerRanks parent ph = [] := by
  rw [partnerRanks,if_neg (fun hor => hor.elim h haux)]

end Partners

end MultinomialTree

end PAMI.Schedule

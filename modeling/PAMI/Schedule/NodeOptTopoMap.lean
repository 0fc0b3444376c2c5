import PAMI.Schedule.Collectives

namespace PAMI.Schedule

open CollectiveOperation PhaseCode PAMI.Math

/-- What a tree asks its map: the interface `MultinomialMap`. -/
structure MultinomialMap where
  hasAuxPhases : Bool
  isAuxProc : Bool
  isPeerProc : Bool
  getAuxForPeer : List ℕ
  getPeerForAux : ℕ
  getGlobalRank : ℕ → ℕ
  getMyRank : ℕ
  getNumRanks : ℕ

def TopologyMap.toMap (m : TopologyMap) : MultinomialMap where
  hasAuxPhases := m.hasAuxPhases
  isAuxProc := m.isAuxProc
  isPeerProc := m.isPeerProc
  getAuxForPeer := m.getAuxForPeer
  getPeerForAux := m.getPeerForAux
  getGlobalRank := m.getGlobalRank
  getMyRank := m.getMyRank
  getNumRanks := m.getNumRanks

/-- What `PAMI_ENDPOINT_INFO` of a platform finds in an endpoint: the task, which is never above
the endpoint. -/
structure Platform where
  task : ℕ → ℕ
  task_le : ∀ e, task e ≤ e

namespace Platform

def bgq : Platform where
  task e := e &&& 0x007fffff
  task_le _ := Nat.and_le_left

def lapiunix (endpointsShift : ℕ) : Platform where
  task e := e >>> endpointsShift
  task_le e := by
    rw [Nat.shiftRight_eq_div_pow]
    exact Nat.div_le_self _ _

end Platform

def Topology.index2Rank (platform : Platform) (t : Topology) (i : ℕ) : ℕ := platform.task (t.index2Endpoint i)

/-- A `NodeOptTopoMap`: the first endpoint of a node is its master, and the masters make the power
of two part. -/
structure NodeOptTopoMap where
  platform : Platform
  myendpoint : ℕ
  masterIndex : ℕ
  localMaster : ℕ
  allTopology : Topology
  masterTopology : Topology
  localTopology : Topology

namespace NodeOptTopoMap

/-- The constructor. It asserts that the number of masters is a power of two. -/
def new (platform : Platform) (myendpoint : ℕ) (all loc master : Topology) : NodeOptTopoMap where
  platform := platform
  myendpoint := myendpoint
  localMaster := loc.index2Endpoint 0
  masterIndex := master.endpoint2Index (loc.index2Endpoint 0)
  allTopology := all
  masterTopology := master
  localTopology := loc

def hasAuxPhases (m : NodeOptTopoMap) : Bool := m.masterTopology.size ≠ m.allTopology.size

def isAuxProc (m : NodeOptTopoMap) : Bool := m.myendpoint ≠ m.localMaster

def isPeerProc (m : NodeOptTopoMap) : Bool := m.myendpoint = m.localMaster ∧ 1 < m.localTopology.size

def getAuxForPeer (m : NodeOptTopoMap) : List ℕ :=
  (List.range' 1 (m.localTopology.size - 1)).map fun i => m.masterTopology.size + i

def getPeerForAux (m : NodeOptTopoMap) : ℕ := m.masterIndex

/-- A rank below the number of masters is a master, one above it counts in the own node. -/
def getGlobalRank (m : NodeOptTopoMap) (relrank : ℕ) : ℕ :=
  if relrank < m.masterTopology.size then m.masterTopology.index2Rank m.platform relrank
  else m.localTopology.index2Rank m.platform (relrank - m.masterTopology.size)

def getMyRank (m : NodeOptTopoMap) : ℕ := m.masterIndex

def getNumRanks (m : NodeOptTopoMap) : ℕ := m.masterTopology.size

def toMap (m : NodeOptTopoMap) : MultinomialMap where
  hasAuxPhases := m.hasAuxPhases
  isAuxProc := m.isAuxProc
  isPeerProc := m.isPeerProc
  getAuxForPeer := m.getAuxForPeer
  getPeerForAux := m.getPeerForAux
  getGlobalRank := m.getGlobalRank
  getMyRank := m.getMyRank
  getNumRanks := m.getNumRanks

end NodeOptTopoMap

/-- `MultinomialTreeT<M, T_MaxRadix>` over any map. -/
structure MultinomialTreeT where
  map : MultinomialMap
  radix : ℕ
  logradix : ℕ
  nphbino : ℕ
  maxphases : ℕ
  context : Context

namespace MultinomialTreeT

open MultinomialTree (getRadix getBinoPhases getMaxPhases getLogRadix setupPeer setupAux setupBino)

def setupContext (op : CollectiveOperation) (map : MultinomialMap) (radix nphbino maxphases : ℕ) :
    Context :=
  let c := setupPeer op map.isPeerProc nphbino maxphases
  if map.isAuxProc then setupAux op maxphases c else setupBino op map.getMyRank radix c

/-- `initBinoSched` and `init`, for a map whose root is already set. -/
def init (maxRadix : ℕ) (map : MultinomialMap) (op : CollectiveOperation) : MultinomialTreeT :=
  let nranks := map.getNumRanks
  let radix := getRadix maxRadix nranks
  let nphbino := getBinoPhases maxRadix nranks
  let maxphases := getMaxPhases maxRadix nranks + map.hasAuxPhases.toNat
  ⟨map, radix, getLogRadix radix, nphbino, maxphases, setupContext op map radix nphbino maxphases⟩

/-- The phases `[start, start + nphases)` that `init` reports to the rank. -/
def Active (t : MultinomialTreeT) (ph : ℕ) : Prop := t.context.st ≤ ph ∧ ph < t.context.st + t.context.np

instance (t : MultinomialTreeT) (ph : ℕ) : Decidable (t.Active ph) := inferInstanceAs (Decidable (_ ∧ _))

def nextNodes (t : MultinomialTreeT) (parent : Bool) (ph : ℕ) : List ℕ :=
  if (t.context.auxsendph = phase ph ∧ parent = false) ∨ (t.context.auxrecvph = phase ph ∧ parent = true) then
    if t.map.isAuxProc then [t.map.getPeerForAux]
    else if t.map.isPeerProc then t.map.getAuxForPeer
    else []
  else if t.context.auxrecvph ≠ phase ph ∧ t.context.auxsendph ≠ phase ph then
    bino t.map.getMyRank (ph - 1) t.radix t.logradix
  else []

def mainph (t : MultinomialTreeT) (parent : Bool) : PhaseCode :=
  if parent then t.context.recvph else t.context.sendph

def auxph (t : MultinomialTreeT) (parent : Bool) : PhaseCode :=
  if parent then t.context.auxrecvph else t.context.auxsendph

/-- The rank takes part in this phase of the power of two part. -/
def Communicates (t : MultinomialTreeT) (parent : Bool) (ph : ℕ) : Prop :=
  1 ≤ ph ∧ ph ≤ t.nphbino ∧ (t.mainph parent = ALL_PHASES ∨
    (t.mainph parent = NOT_OTHER_PHASE ∧ t.mainph (!parent) ≠ phase ph) ∨
    t.mainph parent = phase ph)

instance (t : MultinomialTreeT) (parent : Bool) (ph : ℕ) : Decidable (t.Communicates parent ph) :=
  inferInstanceAs (Decidable (_ ∧ _))

/-- What `getSrcTopology` and `getDstTopology` find before they convert it. -/
def partnerRanks (t : MultinomialTreeT) (parent : Bool) (ph : ℕ) : List ℕ :=
  if t.Communicates parent ph ∨ t.auxph parent = phase ph then t.nextNodes parent ph else []

def getSrcTopology (t : MultinomialTreeT) (ph : ℕ) : List ℕ := (t.partnerRanks true ph).map t.map.getGlobalRank

def getDstTopology (t : MultinomialTreeT) (ph : ℕ) : List ℕ := (t.partnerRanks false ph).map t.map.getGlobalRank

/-- What comes in a phase is combined, up to the phase `getLastReducePhase` gives. -/
def Reduces (t : MultinomialTreeT) (p : ℕ) : Prop :=
  match t.context.lastrdcph with
  | phase q => p ≤ q
  | _ => True

instance (t : MultinomialTreeT) (p : ℕ) : Decidable (t.Reduces p) := by
  unfold Reduces
  split
  · infer_instance
  · infer_instance

section Partners

variable {t : MultinomialTreeT} {parent : Bool} {ph : ℕ}

theorem partnerRanks_of_aux (h : t.auxph parent = phase ph) :
    t.partnerRanks parent ph = if t.map.isAuxProc then [t.map.getPeerForAux]
      else if t.map.isPeerProc then t.map.getAuxForPeer else [] := by
  have hnx : (t.context.auxsendph=phase ph ∧ parent=false) ∨
      (t.context.auxrecvph=phase ph ∧ parent=true) := by
    cases parent with
    | false => exact .inl ⟨h,rfl⟩
    | true => exact .inr ⟨h,rfl⟩
  rw [partnerRanks,if_pos (.inr h),nextNodes,if_pos hnx]

theorem partnerRanks_of_bino (h : t.Communicates parent ph)
    (haux : ∀ parent, t.auxph parent ≠ phase ph) :
    t.partnerRanks parent ph = bino t.map.getMyRank (ph-1) t.radix t.logradix := by
  have hsd : t.context.auxsendph≠phase ph := haux false
  have hrecv : t.context.auxrecvph≠phase ph := haux true
  rw [partnerRanks,if_pos (.inl h),nextNodes,if_neg (by simp [hsd,hrecv]),if_pos ⟨hrecv,hsd⟩]

theorem partnerRanks_of_neither (h : ¬ t.Communicates parent ph) (haux : t.auxph parent ≠ phase ph) :
    t.partnerRanks parent ph = [] :=
  if_neg (fun hor => hor.elim h haux)

end Partners

end MultinomialTreeT

end PAMI.Schedule

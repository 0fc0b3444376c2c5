import PAMI.Executor.PartnerExec
import PAMI.Schedule.SingleTree

namespace PAMI.Executor

open PAMI.Schedule

/-- What `setSchedule` keeps of the schedule of a rank: its phases, and in a phase its children with the sizes of their
subtrees. -/
structure ScatterSchedule where
  startphase : ℕ
  nphases : ℕ
  children : ℕ → List (ℕ × ℕ)

/-- The executor of a rank. The buffers are in blocks of `_bufcnt` elements. For the statements: whether it has begun to
send, the phases whose sends are posted, the calls of the done callback, and whether an assertion failed or a message
did not fit. -/
structure ScatterExec (V : Type*) where
  curphase : ℕ
  donecount : ℤ
  tmpbuf : ℕ → V
  rbuf : V
  begun : Bool
  posted : ℕ → Bool
  dones : ℕ
  failed : Bool

namespace ScatterExec

def maxConcurrent : ℕ := 32

/-- `setSchedule`; `none` if its assertion fails. -/
def setSchedule (ports : ℕ) (topo : Topology) (root me : ℕ) : Option GenericTreeSchedule :=
  (GenericTreeSchedule.init (knomial ports) topo root me).bind fun s => if ports ≤ maxConcurrent then some s else none

def schedule (ports : ℕ) (topo : Topology) (root me : ℕ) : ScatterSchedule :=
  (setSchedule ports topo root me).elim ⟨0, 0, fun _ => []⟩ fun s =>
    { startphase := s.lstartph.toNat
      nphases := s.mynphs.toNat
      children := fun p => (s.getRList p).zip (s.getRLens p) }

/-- A rank is sent something by another, in one of its phases. -/
def IsChild (ports : ℕ) (topo : Topology) (root a b : ℕ) : Prop :=
  ∃ p, (schedule ports topo root a).startphase ≤ p ∧
    p < (schedule ports topo root a).startphase + (schedule ports topo root a).nphases ∧
    b ∈ ((schedule ports topo root a).children p).map Prod.fst

/-- The subtree of a rank: itself, its children, theirs, and so on. -/
def InSubtree (ports : ℕ) (topo : Topology) (root : ℕ) : ℕ → ℕ → Prop :=
  Relation.ReflTransGen (IsChild ports topo root)

variable {V : Type*}

/-- The constructor, with what is in the buffers. -/
def new (tmpbuf : ℕ → V) (rbuf : V) : ScatterExec V where
  curphase := 0
  donecount := 0
  tmpbuf := tmpbuf
  rbuf := rbuf
  begun := false
  posted := fun _ => false
  dones := 0
  failed := false

section

variable (topo : Topology) (root me : ℕ) (S : ScatterSchedule) (sbuf : ℕ → V)

/-- `setBuffers`: the root sends from the send buffer, or from a copy that begins with its own block. -/
def setBuffers (x : ScatterExec V) : ScatterExec V :=
  let myindex := topo.endpoint2Index me
  if me = root then
    { x with tmpbuf :=
        if S.nphases = topo.size - 1 ∨ root = 0 then sbuf
        else fun i => if i < topo.size - myindex then sbuf (myindex + i) else sbuf (i - (topo.size - myindex)) }
  else x

/-- The blocks of the buffer that a child is sent. -/
def window (dst : ℕ × ℕ) : Window :=
  let dstindex := topo.endpoint2Index dst.1
  if S.nphases = topo.size - 1 then ⟨dstindex, 1⟩
  else ⟨(dstindex + topo.size - topo.endpoint2Index me) % topo.size, dst.2⟩

def sendNext (x : ScatterExec V) : ScatterExec V :=
  if x.curphase < S.startphase then { x with failed := true }
  else if x.curphase = S.startphase + S.nphases then
    { x with
      rbuf := if me = root then sbuf (topo.endpoint2Index me) else if 1 < S.nphases then x.tmpbuf 0 else x.rbuf
      dones := x.dones + 1 }
  else
    { x with
      donecount := (S.children x.curphase).length
      posted := Function.update x.posted x.curphase true
      failed := x.failed || decide (x.donecount ≠ 0) }

/-- `start`, which the callers do at the root. -/
def start (x : ScatterExec V) : ScatterExec V :=
  let y := { x with curphase := 0, begun := true }
  if me = root then sendNext topo root me S sbuf y else y

def notifySendDone (x : ScatterExec V) : ScatterExec V :=
  sendNext topo root me S sbuf { x with donecount := x.donecount - 1, curphase := x.curphase + 1 }

/-- What comes in after `notifyRecv`: a rank that sends on gets it in the temporary buffer, which is as large as the send
buffer of the root, and another one in its receive buffer. -/
def receive (m : List V) (x : ScatterExec V) : ScatterExec V :=
  if 1 < S.nphases then
    { x with
      tmpbuf := fun i => (m[i]?).getD (x.tmpbuf i)
      failed := x.failed || decide (topo.size < m.length) }
  else
    { x with
      rbuf := m.head?.getD x.rbuf
      failed := x.failed || decide (1 < m.length) }

/-- The callback that `notifyRecv` gives: `notifyRecvDone`, or the done callback. -/
def received (x : ScatterExec V) : ScatterExec V :=
  if 1 < S.nphases then sendNext topo root me S sbuf { x with curphase := S.startphase + 1, begun := true }
  else { x with begun := true, dones := x.dones + 1 }

end

end ScatterExec

/-- All ranks, and their messages, by sender, phase and child. -/
structure ScatterSystem (V : Type*) where
  rank : ℕ → ScatterExec V
  message : ℕ → ℕ → ℕ → Transfer V

namespace ScatterSystem

open ScatterExec

variable {V : Type*} (ports : ℕ) (topo : Topology) (root : ℕ) (sbuf : ℕ → V)

/-- Before the start of the root, with what is in the buffers. -/
def new (tmpbuf : ℕ → ℕ → V) (rbuf : ℕ → V) : ScatterSystem V where
  rank := fun r => setBuffers topo root r (schedule ports topo root r) sbuf (ScatterExec.new (tmpbuf r) (rbuf r))
  message := fun _ _ _ => ⟨none, false, false, false⟩

def setRank (s : ScatterSystem V) (r : ℕ) (x : ScatterExec V) : ScatterSystem V :=
  { s with rank := Function.update s.rank r x }

def setMessage (s : ScatterSystem V) (a p i : ℕ) (m : Transfer V) : ScatterSystem V :=
  { s with message := fun a' p' i' => if a' = a ∧ p' = p ∧ i' = i then m else s.message a' p' i' }

/-- The receiver of a message, and the size of its subtree. -/
def dest (a p i : ℕ) : Option (ℕ × ℕ) := ((schedule ports topo root a).children p)[i]?

def start (s : ScatterSystem V) (r : ℕ) : Option (ScatterSystem V) :=
  if (s.rank r).begun then none
  else some (s.setRank r ((s.rank r).start topo root r (schedule ports topo root r) sbuf))

def transmit (s : ScatterSystem V) (a p i : ℕ) : Option (ScatterSystem V) :=
  let m := s.message a p i
  if (s.rank a).posted p = true ∧ m.data.isNone then
    (dest ports topo root a p i).map fun q =>
      let w := window topo a (schedule ports topo root a) q
      s.setMessage a p i
        { m with data := some ((List.range w.length).map fun j => (s.rank a).tmpbuf (w.offset + j)) }
  else none

/-- A send completes; it may do so before the call that posted it returns. -/
def sent (s : ScatterSystem V) (a p i : ℕ) : Option (ScatterSystem V) :=
  let m := s.message a p i
  if m.data.isSome ∧ m.sent = false then
    some ((s.setMessage a p i { m with sent := true }).setRank a
      ((s.rank a).notifySendDone topo root a (schedule ports topo root a) sbuf))
  else none

def incoming (s : ScatterSystem V) (a p i : ℕ) : Option (ScatterSystem V) :=
  let m := s.message a p i
  if m.incoming = true then none
  else (dest ports topo root a p i).bind fun q => m.data.map fun x =>
    (s.setMessage a p i { m with incoming := true }).setRank q.1
      ((s.rank q.1).receive topo (schedule ports topo root q.1) x)

def complete (s : ScatterSystem V) (a p i : ℕ) : Option (ScatterSystem V) :=
  let m := s.message a p i
  if m.incoming = true ∧ m.complete = false then
    (dest ports topo root a p i).map fun q => (s.setMessage a p i { m with complete := true }).setRank q.1
        ((s.rank q.1).received topo root q.1 (schedule ports topo root q.1) sbuf)
  else none

def step (s : ScatterSystem V) : PartnerEvent ℕ → Option (ScatterSystem V)
  | .start r => s.start ports topo root sbuf r
  | .transmit a p i => s.transmit ports topo root a p i
  | .sent a p i => s.sent ports topo root sbuf a p i
  | .incoming a p i => s.incoming ports topo root a p i
  | .complete a p i => s.complete ports topo root sbuf a p i

end ScatterSystem

end PAMI.Executor

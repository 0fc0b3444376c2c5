import PAMI.Executor.CreditRuns
import PAMI.TspColl.GatherExchange

namespace PAMI.Executor

open PAMI.Math PAMI.TspColl

/-- What a rank calls an allgatherv with; the source buffer has a type too. -/
structure AllgathervCall (V : Type*) where
  sbuf : ℕ → V
  scell : ℕ → ℕ
  rtype : RecvType
  disps : ℕ → ℕ
  rcvcounts : ℕ → ℕ

/-- A work queue over a part of the receive buffer. -/
structure BlockQueue where
  buffer : ℕ
  bufsize : ℕ

namespace AllgathervCall

variable {V : Type*} {N : ℕ} (c : AllgathervCall V) (myindex : Fin N) (phase : ℕ)

def sendIndex : ℕ := (myindex + N - phase) % N

def recvIndex : ℕ := (myindex + N - phase - 1) % N

def getSendLength : ℕ := c.rcvcounts (sendIndex myindex phase) * c.rtype.dataSize

def getRecvLength : ℕ := c.rcvcounts (recvIndex myindex phase) * c.rtype.dataSize

def getSendPWQLength : ℕ := c.rcvcounts (sendIndex myindex phase) * c.rtype.extent

def getRecvPWQLength : ℕ := c.rcvcounts (recvIndex myindex phase) * c.rtype.extent

def getSendDisp : ℕ := c.disps (sendIndex myindex phase) * c.rtype.extent

def getRecvDisp : ℕ := c.disps (recvIndex myindex phase) * c.rtype.extent

def getSendPWQ : BlockQueue := ⟨c.getSendDisp myindex phase, c.getSendPWQLength myindex phase⟩

def getRecvPWQ : BlockQueue := ⟨c.getRecvDisp myindex phase, c.getRecvPWQLength myindex phase⟩

def queueCell (w : BlockQueue) (q : ℕ) : ℕ := w.buffer + c.rtype.cell q

def cell (i q : ℕ) : ℕ := c.disps i * c.rtype.extent + c.rtype.cell q

def length (i : ℕ) : ℕ := c.rcvcounts i * c.rtype.dataSize

def source (q : ℕ) : V := c.sbuf (c.scell q)

end AllgathervCall

/-- Where a call of `sendNext` waits for a multicast to return. -/
inductive AllgathervFrame where
  | avail
  | data
  deriving DecidableEq, Repr

/-- The executor of a rank, for the types with vectors, with its calls of `sendNext` that are under way, the innermost first. For the statements: the
calls of the done callback, and whether an assertion failed. -/
structure AllgathervExec where
  curphase : ℤ
  lphase : ℤ
  rphase : ℤ
  senddone : Bool
  recvdone : Bool
  inSendNext : Bool
  frames : List AllgathervFrame
  dones : ℕ
  failed : Bool

namespace AllgathervExec

def startphase : ℤ := 0

/-- The constructor with `setSchedule`. -/
def new : AllgathervExec where
  curphase := -1
  lphase := 0
  rphase := -1
  senddone := false
  recvdone := false
  inSendNext := false
  frames := []
  dones := 0
  failed := false

def nphases (N : ℕ) : ℤ := N - 1

def dst {N : ℕ} (r : Fin N) : Fin N := forward 1 r

def src {N : ℕ} (r : Fin N) : Fin N := backward 1 r

/-- The end of `sendNext`: the data, if the buffer at the right neighbor is available. -/
def sendData (x : AllgathervExec) : AllgathervExec × Option Multicast :=
  if x.rphase = x.curphase + 1 then
    ({ x with frames := .data :: x.frames }, some (.data x.curphase.toNat))
  else ({ x with inSendNext := false }, none)

variable (N : ℕ)

/-- `sendNext`, up to its first multicast. -/
def sendNext (x : AllgathervExec) : AllgathervExec × Option Multicast :=
  if x.curphase = startphase + nphases N then ({ x with dones := x.dones + 1 }, none)
  else if x.lphase = x.curphase then
    ({ x with inSendNext := true, lphase := x.lphase + 1, frames := .avail :: x.frames },
      some (.avail x.curphase.toNat))
  else sendData { x with inSendNext := true }

/-- `sendNext` goes on behind its innermost multicast. -/
def resume (x : AllgathervExec) : Option (AllgathervExec × Option Multicast) :=
  match x.frames with
  | [] => none
  | .avail :: fs => some (sendData { x with frames := fs })
  | .data :: fs => some ({ x with frames := fs, inSendNext := false }, none)

def start (x : AllgathervExec) : AllgathervExec × Option Multicast := sendNext N { x with
    curphase := startphase
    rphase := if x.rphase = -1 then startphase else x.rphase + 1 }

def notifySendDone (x : AllgathervExec) : AllgathervExec × Option Multicast :=
  if x.recvdone = true then
    sendNext N { x with recvdone := false, senddone := false, curphase := x.curphase + 1 }
  else ({ x with senddone := true }, none)

def notifyRecvDone (x : AllgathervExec) : AllgathervExec × Option Multicast :=
  if x.senddone = true then
    sendNext N { x with recvdone := false, senddone := false, curphase := x.curphase + 1 }
  else ({ x with recvdone := true }, none)

def notifyAvailRecvDone (x : AllgathervExec) : AllgathervExec × Option Multicast :=
  let y := { x with rphase := x.rphase + 1 }
  if startphase ≤ y.curphase ∧ y.inSendNext = false then sendNext N y else (y, none)

variable {N}

/-- `notifyRecv` of a message that a buffer is available, with the phase of its header. -/
def notifyRecvAvail (r from_ : Fin N) (phase : ℤ) (x : AllgathervExec) : AllgathervExec :=
  { x with failed := x.failed || decide (from_ ≠ dst r) ||
      if x.rphase = x.curphase ∧ startphase ≤ x.curphase then decide (phase ≠ x.curphase + 1)
      else if x.rphase = x.curphase + 1 ∨ x.curphase < startphase then decide (phase ≠ x.curphase + 2)
      else true }

/-- `notifyRecv` of data. -/
def notifyRecvData (r from_ : Fin N) (phase : ℤ) (x : AllgathervExec) : AllgathervExec :=
  { x with failed := x.failed || decide (from_ ≠ src r) || decide (phase ≠ x.curphase) }

variable (N)

def program : CreditProgram (Fin N) AllgathervExec where
  entered := fun x => (x.curphase + 1).toNat
  availDone := false
  place := fun x => x.curphase.toNat
  start := fun _ x => start N x
  resume := fun _ x => resume x
  notifySendDone := fun _ x => notifySendDone N x
  notifyRecvDone := fun _ x => notifyRecvDone N x
  notifyAvailRecvDone := fun _ x => notifyAvailRecvDone N x
  notifyAvailSendDone := fun _ x => (x, none)
  notifyRecvAvail := fun r a p x => notifyRecvAvail r a (p + 1) x
  notifyRecvData := fun r a p x => notifyRecvData r a p x

def neighbors : RoundTables (Fin N) where
  rounds := N - 1
  dest := fun r p => if p < N - 1 then some (dst r) else none
  source := fun r p => if p < N - 1 then some (src r) else none
  matched := fun a b p => by
    split
    case isFalse => exact iff_of_false nofun nofun
    case isTrue =>
      rw [Option.some.injEq, Option.some.injEq]
      exact forward_iff_backward
  bounded := fun a b p h => by
    by_contra hp
    rw [if_neg hp] at h
    contradiction

variable {V : Type*} {N}

/-- The copy of the own block at the start, and the work queues of the messages. -/
def client (call : Fin N → AllgathervCall V) : CreditClient (Fin N) (ℕ → V) (List V) where
  start := fun r rbuf => write ((call r).cell r) ((List.range ((call r).length r)).map (call r).source) rbuf
  payload := fun r p rbuf => (List.range ((call r).getSendLength r p)).map fun q =>
    rbuf ((call r).queueCell ((call r).getSendPWQ r p) q)
  deliver := fun r p m rbuf => write ((call r).queueCell ((call r).getRecvPWQ r p)) m rbuf

end AllgathervExec

end PAMI.Executor

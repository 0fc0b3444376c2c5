import Mathlib.Data.Nat.Bitwise
import PAMI.Math.Runs

namespace PAMI.Protocol

open Function

/-- The connection managers of asynchronous broadcasts: `CommSeqConnMgr`, which counts the broadcasts of
communicator `comm`, and `RankBasedConnMgr`. -/
inductive ConnMgr
  | commSeq (comm : ℕ)
  | rankBased
  deriving DecidableEq, Repr

namespace ConnMgr

def seqbits : ℕ := 11

def commmask : ℕ := 0x7FF

def seqmask : ℕ := 0x7FF

/-- `getConnectionId` of endpoint `self`. -/
def getConnectionId (mgr : ConnMgr) (self seq : ℕ) : ℕ :=
  match mgr with
  | commSeq comm => ((comm &&& commmask) <<< seqbits) ||| (seq &&& seqmask)
  | rankBased => self

/-- The sequence number after `updateConnectionId`; the other manager has none. -/
def nextSeq (mgr : ConnMgr) (seq : ℕ) : ℕ :=
  match mgr with
  | commSeq _ => (seq + 1) &&& commmask
  | rankBased => seq

/-- `getKey_as` and `getKey`, with the sequence number that they leave; `connid` is `none` for a local
post. -/
def getKey (mgr : ConnMgr) (root : ℕ) (connid : Option ℕ) (seq : ℕ) : ℕ × ℕ :=
  match mgr, connid with
  | commSeq _, some connid => (connid, seq)
  | commSeq comm, none => ((commSeq comm).getConnectionId root ((commSeq comm).nextSeq seq), (commSeq comm).nextSeq seq)
  | rankBased, _ => (root, seq)

end ConnMgr

/-- The broadcast that a task posts, with the packed bytes of its buffer. -/
structure BroadcastXfer (β : Type*) where
  root : ℕ
  typecount : ℕ
  dataSize : ℕ
  buf : List β

def BroadcastXfer.bytes {β : Type*} (xfer : BroadcastXfer β) : ℕ := xfer.typecount*xfer.dataSize

structure AsyncMessage (β : Type*) where
  connId : ℕ
  root : ℕ
  data : List β

/-- The broadcasts of a geometry as one endpoint sees them: what it posts itself, in order, what the root
sends, and which endpoint its data comes from. `ndst` is the number of its destinations in the schedule of
a root. -/
structure AsyncBroadcasts (β : Type*) where
  endpoint : ℕ
  mgr : ConnMgr
  xfer : ℕ → BroadcastXfer β
  payload : ℕ → List β
  peer : ℕ → ℕ
  ndst : ℕ → ℕ

namespace AsyncBroadcasts

variable {β : Type*} (F : AsyncBroadcasts β)

/-- The sequence number before broadcast `n`; all endpoints post the same broadcasts. -/
def seq (n : ℕ) : ℕ := F.mgr.nextSeq^[n] 0

/-- The key that the endpoints give to broadcast `n`. -/
def key (n : ℕ) : ℕ := (F.mgr.getKey (F.xfer n).root none (F.seq n)).1

/-- Message `n` as endpoint `self` sends it. -/
def sentBy (self n : ℕ) : AsyncMessage β where
  connId := F.mgr.getConnectionId self (F.seq (n + 1))
  root := (F.xfer n).root
  data := F.payload n

def message (n : ℕ) : AsyncMessage β := F.sentBy (F.peer n) n

end AsyncBroadcasts

/-- What has made a `CollOpT`: the post of a broadcast or the message of one. The buffer that its executor
works on is the one of the post, or the early arrival buffer of the message. -/
inductive Origin
  | post (n : ℕ)
  | arrival (n : ℕ)
  deriving DecidableEq, Repr

inductive EAFlag
  | started
  | completed
  deriving DecidableEq, Repr

/-- `EADescriptor`; a buffer that has not been set is `none`. -/
structure EADescriptor where
  root : ℕ
  bytes : ℕ
  buf : Option ℕ
  flag : EAFlag
  deriving DecidableEq, Repr

/-- An early arrival buffer: whether it is from the allocator of small buffers, and what has been written. -/
structure EABuffer (β : Type*) where
  pooled : Bool
  data : Option (List β)

/-- A `CollOpT` with its `BroadcastExec`: the root, the buffer and the connection of the executor, and
the message that is coming in. -/
structure CollOp (β : Type*) where
  xfer : Option ℕ
  localPosted : Bool
  earlyArrival : Bool
  eaq : List ℕ
  root : ℕ
  buffer : Origin
  connId : ℕ
  receiving : Option (List β)
  sending : Bool

/-- An element of the queues of the geometry. -/
structure AsyncElem where
  key : ℕ
  op : Origin
  deriving DecidableEq, Repr

/-- `findAndDelete`: the first element that has the key, and the other ones. -/
def findAndDelete (q : List AsyncElem) (key : ℕ) : Option (Origin × List AsyncElem) :=
  (q.find? fun e => e.key = key).map fun e => (e.op, q.eraseP fun e => e.key = key)

/-- How often something was allocated and freed. -/
structure Ledger where
  allocated : ℕ
  freed : ℕ
  deriving DecidableEq, Repr

/-- `AsyncBroadcastFactoryT` of one endpoint. Descriptors and buffers have the number of the message they were made for;
`matched`, `written` and `dones` are what happened to each broadcast. -/
structure AsyncState (β : Type*) where
  seq : ℕ
  posted : ℕ
  arrived : ℕ → Bool
  postQ : List AsyncElem
  unexpQ : List AsyncElem
  op : Origin → Option (CollOp β)
  ead : ℕ → Option EADescriptor
  eab : ℕ → Option (EABuffer β)
  user : ℕ → List β
  matched : List (ℕ × ℕ)
  multicasts : List (AsyncMessage β)
  written : ℕ → ℕ
  dones : ℕ → ℕ
  eads : ℕ → Ledger
  eabs : ℕ → Ledger
  failed : Bool

inductive AsyncEvent
  | generate
  | cbAsync (n : ℕ)
  | received (o : Origin)
  | sent (o : Origin)
  deriving DecidableEq, Repr

namespace AsyncState

variable {β : Type*} (F : AsyncBroadcasts β)

def start : AsyncState β where
  seq := 0
  posted := 0
  arrived _ := false
  postQ := []
  unexpQ := []
  op _ := none
  ead _ := none
  eab _ := none
  user n := (F.xfer n).buf
  matched := []
  multicasts := []
  written _ := 0
  dones _ := 0
  eads _ := ⟨0, 0⟩
  eabs _ := ⟨0, 0⟩
  failed := false

variable (s : AsyncState β)

/-- An assertion that fails, or an access to memory that is not allocated. -/
def fail : AsyncState β := { s with failed := true }

def setOp (o : Origin) (c : Option (CollOp β)) : AsyncState β := { s with op := update s.op o c }

/-- The call of `cb_done`. -/
def cbDone (n : ℕ) : AsyncState β := { s with dones := update s.dones n (s.dones n + 1) }

def allocateBuffer (n size : ℕ) : AsyncState β where
  __ := s
  eab := update s.eab n (some ⟨size ≤ 32768, none⟩)
  eabs := update s.eabs n { s.eabs n with allocated := (s.eabs n).allocated + 1 }

/-- `freeBuffer`. A buffer goes back to where its size says. -/
def freeBuffer (size n : ℕ) : AsyncState β :=
  match s.eab n with
  | none => s.fail
  | some b =>
    if b.pooled = decide (size ≤ 32768) then
      { s with
        eab := update s.eab n none
        eabs := update s.eabs n { s.eabs n with freed := (s.eabs n).freed + 1 } }
    else s.fail

/-- The `returnObject` of a descriptor. -/
def returnEad (n : ℕ) : AsyncState β :=
  if (s.ead n).isNone then s.fail else
    { s with
      ead := update s.ead n none
      eads := update s.eads n { s.eads n with freed := (s.eads n).freed + 1 } }

/-- The data of an early arrival is copied to the buffer of broadcast `n`, and its buffer is freed. -/
def copyEarly (n : ℕ) (ead : EADescriptor) : AsyncState β :=
  if (F.xfer n).typecount = 0 then s else
    match ead.buf with
    | none => s.fail
    | some m =>
      match (s.eab m).bind EABuffer.data with
      | none => s.fail
      | some data =>
        { s with
          user := update s.user n (data.take (F.xfer n).bytes)
          written := update s.written n (s.written n + 1) }.freeBuffer (F.xfer n).bytes m

@[grind =] def contents : Origin → List β
  | .post n => s.user n
  | .arrival n => ((s.eab n).bind EABuffer.data).getD []

def sendNext (o : Origin) : AsyncState β :=
  match s.op o with
  | none => s.fail
  | some c =>
    if F.ndst c.root = 0 then s else
      { s.setOp o (some { c with sending := true }) with
        multicasts := s.multicasts ++ [⟨c.connId, c.root, s.contents c.buffer⟩] }

def execDone (o : Origin) : AsyncState β :=
  match s.op o with
  | none => s.fail
  | some c =>
    match c.localPosted, c.earlyArrival with
    | true, early =>
      match c.xfer, early, c.eaq.getLast? with
      | some n, true, some m =>
        match s.ead m with
        | none => s.fail
        | some ead => (((s.copyEarly F n ead).returnEad m).cbDone n).setOp o none
      | some n, false, none => (s.cbDone n).setOp o none
      | _, _, _ => s.fail
    | false, true =>
      match c.eaq.getLast?.bind s.ead, c.eaq.getLast? with
      | some ead, some m => { s with ead := update s.ead m (some { ead with flag := .completed }) }
      | _, _ => s.fail
    | false, false => s.fail

/-- `notifyRecv`: the data of a message begins to come in. -/
def notifyRecv (o : Origin) (data : List β) : AsyncState β :=
  match s.op o with
  | none => s.fail
  | some c => s.setOp o (some { c with receiving := some data })

/-- The branch of `generate` for a broadcast whose message has come before. -/
def generateEarly (n : ℕ) (o : Origin) : AsyncState β :=
  match s.op o with
  | none => s.fail
  | some c =>
    match c.eaq.getLast? with
    | none => s.fail
    | some m =>
      match s.ead m with
      | none => s.fail
      | some ead =>
        let s := { s with matched := s.matched ++ [(n, m)] }
        if c.earlyArrival ∧ ead.bytes = (F.xfer n).bytes ∧ ead.root = (F.xfer n).root then
          if ead.flag = .completed then
            (((s.copyEarly F n ead).returnEad m).cbDone n).setOp o none
          else s.setOp o (some { c with xfer := some n, localPosted := true })
        else s.fail

def postedOp (n seq : ℕ) : CollOp β where
  xfer := some n
  localPosted := true
  earlyArrival := false
  eaq := []
  root := (F.xfer n).root
  buffer := .post n
  connId := F.mgr.getConnectionId F.endpoint seq
  receiving := none
  sending := false

/-- `generate`, for the next broadcast of the endpoint. -/
def generate : AsyncState β :=
  let n := s.posted
  let (key, seq) := F.mgr.getKey (F.xfer n).root none s.seq
  let s := { s with posted := n + 1, seq := seq }
  if F.endpoint = (F.xfer n).root then
    (s.setOp (.post n) (some (postedOp F n seq))).sendNext F (.post n)
  else
    match findAndDelete s.unexpQ key with
    | some (o, unexpQ) => { s with unexpQ := unexpQ }.generateEarly F n o
    | none => { s.setOp (.post n) (some (postedOp F n seq)) with postQ := s.postQ ++ [⟨key, .post n⟩] }

/-- The operation of an early arrival. With a sequence number, its connection is the key. -/
def earlyOp (n : ℕ) (message : AsyncMessage β) (key seq : ℕ) : CollOp β where
  xfer := none
  localPosted := false
  earlyArrival := true
  eaq := [n]
  root := message.root
  buffer := .arrival n
  connId :=
    match F.mgr with
    | .commSeq _ => key
    | .rankBased => F.mgr.getConnectionId F.endpoint seq
  receiving := none
  sending := false

/-- `cb_async`, for message `n`. -/
def cbAsync (n : ℕ) : AsyncState β :=
  let message := F.message n
  let (key, seq) := F.mgr.getKey message.root (some message.connId) s.seq
  let s := { s with seq := seq, arrived := update s.arrived n true }
  match findAndDelete s.postQ key with
  | none =>
    let sndlen := message.data.length
    let ead : EADescriptor := ⟨message.root, sndlen, if sndlen = 0 then none else some n, .started⟩
    let s := if sndlen = 0 then s else s.allocateBuffer n sndlen
    let s : AsyncState β :=
      { s with
        ead := update s.ead n (some ead)
        eads := update s.eads n { s.eads n with allocated := (s.eads n).allocated + 1 }
        unexpQ := s.unexpQ ++ [⟨key, .arrival n⟩] }
    (s.setOp (.arrival n) (some (earlyOp F n message key seq))).notifyRecv (.arrival n) message.data
  | some (o, postQ) =>
    match (s.op o).bind CollOp.xfer with
    | none => s.fail
    | some m =>
      let s := { s with postQ := postQ, matched := s.matched ++ [(m, n)] }
      if (F.xfer m).bytes = message.data.length then s.notifyRecv o message.data else s.fail

/-- The data of a message is written to the buffer of its executor. -/
@[grind =] def write (data : List β) : Origin → AsyncState β
  | .post n => if data = [] then s else
      { s with
        user := update s.user n data
        written := update s.written n (s.written n + 1) }
  | .arrival n => if data = [] then s else
      match s.eab n with
      | none => s.fail
      | some b => { s with eab := update s.eab n (some { b with data := some data }) }

/-- The data of an operation is complete: `notifyRecvDone`, or `exec_done` at once where there is nobody to
send it to. -/
def received (o : Origin) (c : CollOp β) (data : List β) : AsyncState β :=
  let s := (s.write data c.buffer).setOp o (some { c with receiving := none })
  if F.ndst c.root = 0 then s.execDone F o else s.sendNext F o

def step : AsyncEvent → Option (AsyncState β)
  | .generate => some (s.generate F)
  | .cbAsync n => if s.arrived n ∨ (F.xfer n).root = F.endpoint then none else some (s.cbAsync F n)
  | .received o => (s.op o).bind fun c => c.receiving.map fun data => s.received F o c data
  | .sent o => (s.op o).bind fun c =>
      if c.sending then some ((s.setOp o (some { c with sending := false })).execDone F o) else none

end AsyncState

end PAMI.Protocol

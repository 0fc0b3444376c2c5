import PAMI.Math.NestedMap
import PAMI.Pwq.MatchQueue
import PAMI.Pwq.RecvPWQ
import PAMI.Pwq.SendPWQ

namespace PAMI.Pwq

open PAMI.Math

/-- The key that `dispatch_send_pwq` and `dispatch_mcast` look a message up by. -/
def searchKey (connectionId msgId : BitVec 32) : BitVec 64 :=
  connectionId.setWidth 64 <<< 4 ||| (msgId.setWidth 64 &&& 0x00000000FFFFFFFF#64)

/-- Which message a chunk is part of. -/
structure MsgId where
  origin : ℕ
  dispatchId : ℕ
  connectionId : BitVec 32
  pwqMsgId : BitVec 32
  deriving DecidableEq, Repr

/-- What a dispatch comes with: the data, or a `recv` for data that arrives later, into a buffer of the
given contents, or neither. -/
inductive Payload (β : Type*) where
  | data (bytes : List β)
  | recv (buffer : List β)
  | neither

def Payload.size {β : Type*} : Payload β → ℕ
  | data bytes => bytes.length
  | recv buffer => buffer.length
  | neither => 0

/-- What the user's dispatch function fills in; the receive queue by the bytes it has available. -/
structure LocalRecv where
  totalRcvln : ℕ
  rcvpwq : Option ℕ

/-- A `PWQMessage` with what it is found by. For which message it was created, its length, and the chunks
it got, are for the statements. -/
structure Message (β : Type*) where
  pwq : PWQMessage β
  searchKey : BitVec 64
  myMap : Bool
  created : MsgId
  length : ℕ
  attached : List MsgId
  deriving DecidableEq, Repr

/-- A receive straight into the receive queue: its size, what is written, and the calls of `cb_done`. -/
structure DirectRecv (β : Type*) where
  id : MsgId
  size : ℕ
  written : List β
  done : ℕ
  deriving DecidableEq, Repr

/-- The target side of a native interface. -/
structure NativeInterface (β : Type*) where
  sendPwqDispatch : ℕ
  mcastDispatch : ℕ
  pwqRanksMap : NestedMap ℕ ℕ MatchQueue
  messages : List (Message β)
  direct : List (DirectRecv β)

/-- A dispatch of a chunk, data that arrives for a packet or for a direct receive, or a run of the work
function of a message. -/
inductive DispatchEvent (β : Type*) where
  | sendPwq (origin : ℕ) (h : PwqHeader) (p : Payload β) (l : LocalRecv) (offers : List ℕ)
  | mcast (origin : ℕ) (h : PwqHeader) (p : Payload β) (l : LocalRecv) (offers : List ℕ)
  | arrive (i chunk : ℕ) (data : List β) (offers : List ℕ)
  | arriveDirect (k : ℕ) (data : List β)
  | work (i : ℕ) (offers : List ℕ)

def PwqHeader.contig (h : PwqHeader) : BitVec 32 := h.pwqSeqNo &&& 0xF0000000#32

def PwqHeader.seqNo (h : PwqHeader) : BitVec 32 := h.pwqSeqNo &&& 0x0FFFFFFF#32

/-- A chunk is enqueued with its data, and `RecvPWQ` is called; or a buffer is; or `RecvPWQ` is called. -/
def PWQMessage.receive {β : Type*} (pwq : PWQMessage β) (seqNo : BitVec 32) (p : Payload β)
    (offers : List ℕ) : Option (PWQMessage β) :=
  match p with
  | .data bytes => (pwq.enqueuePacket seqNo.toNat bytes true).recv offers
  | .recv buffer => some (pwq.enqueuePacket seqNo.toNat buffer false)
  | .neither => pwq.recv offers

namespace NativeInterface

variable {β : Type*}

def new (sendPwqDispatch mcastDispatch : ℕ) : NativeInterface β where
  sendPwqDispatch := sendPwqDispatch
  mcastDispatch := mcastDispatch
  pwqRanksMap := .empty
  messages := []
  direct := []

/-- The match queue of an origin and a dispatch, in maps that are created when they are missing. -/
def matchQueue (ni : NativeInterface β) (origin dispatchId : ℕ) : MatchQueue :=
  (ni.pwqRanksMap.get origin dispatchId).getD .empty

/-- The maps after `cleanupMsg`: a queue, and a map, that is left empty goes. There is no result when the
maps do not have the queue. -/
def cleanupMaps (ni : NativeInterface β) (i : ℕ) (m : Message β) : Option (NestedMap ℕ ℕ MatchQueue) :=
  if m.myMap then
    (ni.pwqRanksMap.get m.created.origin m.created.dispatchId).map fun queue =>
      let queue := queue.deleteElem ⟨m.searchKey, i⟩
      if queue.size = 0 then ni.pwqRanksMap.drop m.created.origin m.created.dispatchId
      else ni.pwqRanksMap.set m.created.origin m.created.dispatchId queue
  else some ni.pwqRanksMap

/-- A message after a call that may have cleaned it up. -/
def update (ni : NativeInterface β) (i : ℕ) (m : Message β) (pwq : PWQMessage β) :
    Option (NativeInterface β) :=
  (if m.pwq.allocated ∧ ¬ pwq.allocated then ni.cleanupMaps i m else some ni.pwqRanksMap).map
    fun maps => { ni with pwqRanksMap := maps, messages := ni.messages.set i { m with pwq := pwq } }

/-- `recvPWQ_work_function`, of a message that is on the device. -/
def work (ni : NativeInterface β) (i : ℕ) (offers : List ℕ) : Option (NativeInterface β) :=
  ni.messages[i]?.bind fun m =>
    if m.pwq.onDevice then (m.pwq.work offers).bind (ni.update i m) else none

def attach (ni : NativeInterface β) (i : ℕ) (id : MsgId) (seqNo : BitVec 32) (p : Payload β)
    (offers : List ℕ) : Option (NativeInterface β) :=
  ni.messages[i]?.bind fun m =>
    (m.pwq.receive seqNo p offers).bind (ni.update i { m with attached := m.attached ++ [id] })

def newMessage (ni : NativeInterface β) (id : MsgId) (l : LocalRecv) (myMap : Bool) :
    NativeInterface β :=
  { ni with messages := ni.messages ++
      [⟨.new l.totalRcvln, searchKey id.connectionId id.pwqMsgId, myMap, id, l.totalRcvln, []⟩] }

/-- The message that a chunk belongs to is found by its key, or created. -/
def findMessage (ni : NativeInterface β) (id : MsgId) (l : LocalRecv) : NativeInterface β × ℕ :=
  let key := searchKey id.connectionId id.pwqMsgId
  let queue := ni.matchQueue id.origin id.dispatchId
  match queue.find key with
  | some e => (ni, e.msg)
  | none =>
    ({ ni.newMessage id l true with
        pwqRanksMap := ni.pwqRanksMap.set id.origin id.dispatchId
          (queue.pushTail ⟨key, ni.messages.length⟩) }, ni.messages.length)

/-- The path of a chunk of a message that is not contiguous. -/
def receiveChunk (ni : NativeInterface β) (id : MsgId) (seqNo : BitVec 32) (p : Payload β)
    (l : LocalRecv) (offers : List ℕ) : Option (NativeInterface β) :=
  (ni.findMessage id l).1.attach (ni.findMessage id l).2 id seqNo p offers

/-- The path of a contiguous message; there is no result when its assertion fails, or there is no receive
queue. -/
def receiveContig (ni : NativeInterface β) (id : MsgId) (p : Payload β) (l : LocalRecv) :
    Option (NativeInterface β) :=
  match p with
  | .data [] => some { ni with direct := ni.direct ++ [⟨id, 0, [], 1⟩] }
  | .data (b :: bytes) => l.rcvpwq.bind fun avail =>
    if (b :: bytes).length ≤ avail then
      some { ni with direct := ni.direct ++ [⟨id, (b :: bytes).length, b :: bytes, 1⟩] }
    else none
  | .recv buffer => l.rcvpwq.bind fun avail =>
    if buffer.length ≤ avail then
      some { ni with direct := ni.direct ++ [⟨id, buffer.length, [], 0⟩] }
    else none
  | .neither => some { ni with direct := ni.direct ++ [⟨id, 0, [], 1⟩] }

def dispatchSendPwq (ni : NativeInterface β) (origin : ℕ) (h : PwqHeader) (p : Payload β)
    (l : LocalRecv) (offers : List ℕ) : Option (NativeInterface β) :=
  let id : MsgId := ⟨origin, ni.sendPwqDispatch, h.connectionId, h.pwqMsgId⟩
  if h.contig ≠ 0 then ni.receiveContig id p l else ni.receiveChunk id h.seqNo p l offers

/-- A contiguous message that the receive queue has no contiguous space for is received like one chunk,
with a message that is in no match queue. -/
def dispatchMcast (ni : NativeInterface β) (origin : ℕ) (h : PwqHeader) (p : Payload β)
    (l : LocalRecv) (offers : List ℕ) : Option (NativeInterface β) :=
  let id : MsgId := ⟨origin, ni.mcastDispatch, h.connectionId, h.pwqMsgId⟩
  if h.contig ≠ 0 then
    if ∃ avail ∈ l.rcvpwq, avail < p.size then
      match p with
      | .neither => some (ni.newMessage id l false)
      | p => (ni.newMessage id l false).attach ni.messages.length id h.seqNo p offers
    else ni.receiveContig id p l
  else ni.receiveChunk id h.seqNo p l offers

/-- The data of a packet arrives, and `RecvPWQ` is called. -/
def arrive (ni : NativeInterface β) (i chunk : ℕ) (data : List β) (offers : List ℕ) :
    Option (NativeInterface β) :=
  ni.messages[i]?.bind fun m => (m.pwq.arriveData chunk data).bind fun pwq => (pwq.recv offers).bind (ni.update i m)

def arriveDirect (ni : NativeInterface β) (k : ℕ) (data : List β) : Option (NativeInterface β) :=
  ni.direct[k]?.bind fun d =>
    if d.done = 0 ∧ data.length = d.size then
      some { ni with direct := ni.direct.set k { d with written := data, done := 1 } }
    else none

def step (ni : NativeInterface β) : DispatchEvent β → Option (NativeInterface β)
  | .sendPwq origin h p l offers => ni.dispatchSendPwq origin h p l offers
  | .mcast origin h p l offers => ni.dispatchMcast origin h p l offers
  | .arrive i chunk data offers => ni.arrive i chunk data offers
  | .arriveDirect k data => ni.arriveDirect k data
  | .work i offers => ni.work i offers

end NativeInterface

end PAMI.Pwq

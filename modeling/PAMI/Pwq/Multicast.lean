import PAMI.Pwq.Transfer

namespace PAMI.Pwq

open PAMI.Math

/-- What a multicast is posted with: its length, how many destinations it has, the limit of immediate
sends, the length of its header, and what its chunks are found by. -/
structure McastParams where
  bytes : ℕ
  ndestinations : ℕ
  immSendSize : ℕ
  headerLength : ℕ
  connectionId : BitVec 32
  pwqMsgId : BitVec 32
  deriving DecidableEq, Repr

/-- The state of a multicast at its origin; `mcast` is whether no header for chunks is allocated. The open sends, the chunks,
the bytes consumed and the calls of the done callback are for the statements. -/
structure McastSend (β : Type*) where
  header : PwqHeader
  mcast : Bool
  pwq : List (List β)
  totalSndln : ℕ
  participants : ℕ
  workPosted : Bool
  doneCountDown : BitVec 32
  posted : Bool
  outstanding : ℕ
  sends : List (Chunk β)
  consumed : ℕ
  done : ℕ
  deriving DecidableEq, Repr

/-- A receive of a multicast at a destination: straight into the receive queue, with the bytes that are
produced and the calls of `cb_done`, or as a message, which may be in a match queue. -/
inductive McastReceive (β : Type*) where
  | direct (totalRcvln produced done : ℕ)
  | message (pwq : PWQMessage β) (myMap : Bool)
  deriving DecidableEq, Repr

/-- A destination: how many chunks have been dispatched, and the receives. -/
structure McastTarget (β : Type*) where
  dispatched : ℕ
  receives : List (McastReceive β)
  deriving DecidableEq, Repr

structure Multicast (β : Type*) where
  send : McastSend β
  targets : List (McastTarget β)
  deriving DecidableEq, Repr

/-- At the origin bytes are produced, the multicast is posted, a simple send completes, or the work function runs. At a
destination the next chunk is dispatched, its data or a packet arrives, or the work function of a message runs. -/
inductive McastEvent (β : Type*) where
  | produce (data : List β) (joined : Bool)
  | post
  | complete
  | work
  | dispatch (i : ℕ) (d : Delivery β) (avail : Option ℕ) (offers : List ℕ)
  | arriveDirect (i k : ℕ)
  | arrive (i k chunk : ℕ) (data : List β) (offers : List ℕ)
  | recvWork (i k : ℕ) (offers : List ℕ)

section Source

variable {β : Type*}

def produceBytes (data : List β) (joined : Bool) : List (List β) → List (List β)
  | [] => [data]
  | [b] => if joined then [b ++ data] else [b, data]
  | b :: c :: q => b :: produceBytes data joined (c :: q)

def consumeBytes : ℕ → List (List β) → List (List β)
  | _, [] => []
  | n, b :: q => if n < b.length then b.drop n :: q else consumeBytes (n - b.length) q

end Source

namespace McastSend

variable {β : Type*} (p : McastParams)

/-- The state before the call of `simplePWQ` in `postMulticast_impl`. -/
def new (pwq : List (List β)) : McastSend β where
  header := ⟨p.connectionId, p.pwqMsgId, 0⟩
  mcast := true
  pwq := pwq
  totalSndln := p.bytes
  participants := 0
  workPosted := false
  doneCountDown := BitVec.ofNat 32 p.ndestinations
  posted := false
  outstanding := 0
  sends := []
  consumed := 0
  done := 0

/-- `ni_client_done`, which consumes the bytes of the whole message. -/
def clientDone (s : McastSend β) : McastSend β :=
  { s with
    pwq := consumeBytes p.bytes s.pwq
    consumed := s.consumed + p.bytes
    done := s.done + 1 }

/-- `sendMcastDone` -/
def mcastDone (s : McastSend β) : McastSend β :=
  let s := { s with doneCountDown := s.doneCountDown - 1 }
  if s.doneCountDown = 0 then s.clientDone p else s

/-- A simple send to each destination, or one when there is none. -/
def simple (s : McastSend β) (inTmpbuf : Bool) (data : List β) : McastSend β :=
  { s with
    outstanding := s.outstanding + max p.ndestinations 1
    sends := s.sends ++ [⟨s.header, inTmpbuf, data⟩] }

/-- All that is left goes out in one piece, with a header of its own unless chunks have gone out before. -/
def sendPiece (s : McastSend β) : McastSend β :=
  let data := (bufferToConsume s.pwq).take s.totalSndln
  if s.mcast then
    let header := { s.header with pwqSeqNo := contigFlag }
    if bytesAvailableToConsume s.pwq + (p.headerLength + 12) ≤ p.immSendSize then
      (mcastDone p)^[p.ndestinations] { s with sends := s.sends ++ [⟨header, false, data⟩] }
    else
      { s with
        header := header
        participants := p.ndestinations
        totalSndln := 0
        workPosted := false }.simple p false data
  else { s with totalSndln := 0, workPosted := false }.simple p false data

/-- A chunk goes through the temporary buffer, which consumes its bytes. -/
def sendBuffer (s : McastSend β) : McastSend β :=
  let copied := copyLoop (min s.totalSndln tmpbufSize) [] s.pwq
  let s := { s with
    mcast := false
    pwq := copied.2
    consumed := s.consumed + copied.1.length
    totalSndln := s.totalSndln - copied.1.length
    participants := p.ndestinations }
  if bytesAvailableToConsume copied.2 = 0 ∧ copied.1.length = 0 then { s with workPosted := true }
  else { s with workPosted := false }.simple p true copied.1

/-- `simplePWQ` of a state. -/
def simplePWQ (s : McastSend β) : McastSend β :=
  if s.totalSndln ≤ bytesAvailableToConsume s.pwq then s.sendPiece p else s.sendBuffer p

def post (s : McastSend β) : Option (McastSend β) :=
  if s.posted then none else some ({ s with posted := true }.simplePWQ p)

/-- A simple send to one of the destinations completes. -/
def completeOne (s : McastSend β) : McastSend β :=
  { s with outstanding := s.outstanding - 1, participants := s.participants - 1 }

def nextNumber (s : McastSend β) : McastSend β :=
  { s with header := { s.header with pwqSeqNo := s.header.pwqSeqNo + 1 } }

/-- `sendPWQChunkDone`; there is no result when the state is given back already. -/
def chunkDone (s : McastSend β) : Option (McastSend β) :=
  if s.outstanding = 0 ∨ s.done ≠ 0 then none
  else if s.completeOne.participants = 0 then
    if s.totalSndln = 0 then some ((mcastDone p)^[max p.ndestinations 1] s.completeOne.nextNumber)
    else some (s.completeOne.nextNumber.simplePWQ p)
  else some s.completeOne

def work (s : McastSend β) : Option (McastSend β) :=
  if s.workPosted then some (s.simplePWQ p) else none

/-- The bytes that went out through the temporary buffer. -/
def copied (s : McastSend β) : ℕ := ((s.sends.filter fun c => c.inTmpbuf).map fun c => c.data.length).sum

end McastSend

namespace McastReceive

variable {β : Type*}

@[grind =] def produced : McastReceive β → ℕ
  | direct _ produced _ => produced
  | message pwq _ => pwq.produced.length

@[grind =] def done : McastReceive β → ℕ
  | direct _ _ done => done
  | message pwq _ => pwq.done

@[grind =] def found : McastReceive β → Bool
  | direct _ _ _ => false
  | message pwq myMap => myMap && pwq.allocated

/-- A contiguous message into a contiguous part of the receive queue; there is no result when an assertion
fails, or there is no receive queue. -/
def contig (totalRcvln : ℕ) (avail : Option ℕ) : Payload β → Option (McastReceive β)
  | .data [] => some (.direct totalRcvln 0 1)
  | .data (b :: bytes) => avail.bind fun a =>
    if (b :: bytes).length ≤ a then some (.direct totalRcvln (b :: bytes).length 1) else none
  | .recv buffer => avail.bind fun a => if buffer.length ≤ a then some (.direct totalRcvln 0 0) else none
  | .neither => some (.direct totalRcvln 0 1)

/-- The data of a direct receive arrives, and `ni_client_done` produces the length that it was created
with. -/
def arriveDirect : McastReceive β → Option (McastReceive β)
  | direct totalRcvln produced done =>
    if done = 0 then some (.direct totalRcvln (produced + totalRcvln) (done + 1)) else none
  | message _ _ => none

def modify (f : PWQMessage β → Option (PWQMessage β)) : McastReceive β → Option (McastReceive β)
  | direct _ _ _ => none
  | message pwq myMap => (f pwq).map fun pwq => .message pwq myMap

end McastReceive

namespace McastTarget

variable {β : Type*}

def dispatchMcast (bytes : ℕ) (t : McastTarget β) (c : Chunk β) (p : Payload β) (avail : Option ℕ)
    (offers : List ℕ) : Option (McastTarget β) :=
  let receive := fun pwq : PWQMessage β => pwq.receive c.header.seqNo p offers
  let append := fun r => { t with dispatched := t.dispatched + 1, receives := t.receives ++ [r] }
  if c.header.contig ≠ 0 then
    if ∃ a ∈ avail, a < p.size then (receive (.new bytes)).map fun pwq => append (.message pwq false)
    else (McastReceive.contig bytes avail p).map append
  else match t.receives.findIdx? McastReceive.found with
    | none => (receive (.new bytes)).map fun pwq => append (.message pwq true)
    | some k => (t.receives[k]?.bind (McastReceive.modify receive)).map fun r =>
      { t with dispatched := t.dispatched + 1, receives := t.receives.set k r }

def update (t : McastTarget β) (k : ℕ) (f : McastReceive β → Option (McastReceive β)) :
    Option (McastTarget β) :=
  (t.receives[k]?.bind f).map fun r => { t with receives := t.receives.set k r }

end McastTarget

namespace Multicast

variable {β : Type*} (p : McastParams)

def start (pwq : List (List β)) : Multicast β := ⟨.new p pwq, List.replicate p.ndestinations ⟨0, []⟩⟩

def target (m : Multicast β) (i : ℕ) (f : McastTarget β → Option (McastTarget β)) :
    Option (Multicast β) :=
  (m.targets[i]?.bind f).map fun t => { m with targets := m.targets.set i t }

def step (m : Multicast β) : McastEvent β → Option (Multicast β)
  | .produce data joined => if data = [] then none
    else some { m with send := { m.send with pwq := produceBytes data joined m.send.pwq } }
  | .post => (m.send.post p).map fun s => { m with send := s }
  | .complete => (m.send.chunkDone p).map fun s => { m with send := s }
  | .work => (m.send.work p).map fun s => { m with send := s }
  | .dispatch i d avail offers => m.target i fun t => m.send.sends[t.dispatched]?.bind fun c =>
    (d.payload c.data).bind fun payload => t.dispatchMcast p.bytes c payload avail offers
  | .arriveDirect i k => m.target i fun t => t.update k McastReceive.arriveDirect
  | .arrive i k chunk data offers => m.target i fun t => t.update k <| McastReceive.modify fun pwq =>
    if ∀ q ∈ pwq.packetQueue, q.chunk = chunk → q.data.length = data.length then
      (pwq.arriveData chunk data).bind fun pwq => pwq.recv offers
    else none
  | .recvWork i k offers => m.target i fun t => t.update k <| McastReceive.modify fun pwq =>
    if pwq.onDevice then pwq.work offers else none

def Uncopied (s : McastSend β) : Prop :=
  bytesAvailableToConsume s.pwq = 0 ∨ s.totalSndln ≤ bytesAvailableToConsume s.pwq ∨
    tmpbufSize < bytesAvailableToConsume s.pwq

instance (s : McastSend β) : Decidable (Uncopied s) := inferInstanceAs (Decidable (_ ∨ _ ∨ _))

/-- Each call of `simplePWQ` finds the source queue in that way. -/
def Clean (m : Multicast β) : McastEvent β → Prop
  | .post | .work => Uncopied m.send
  | .complete => m.send.participants ≤ 1 → Uncopied m.send
  | _ => True

instance (m : Multicast β) (e : McastEvent β) : Decidable (m.Clean e) :=
  match e with
  | .produce _ _ | .dispatch _ _ _ _ | .arriveDirect _ _ | .arrive _ _ _ _ _ | .recvWork _ _ _ =>
    inferInstanceAs (Decidable True)
  | .post | .work => inferInstanceAs (Decidable (Uncopied m.send))
  | .complete => inferInstanceAs (Decidable (m.send.participants ≤ 1 → Uncopied m.send))

/-- The receives with a callback that ran have all bytes. -/
def Produced (m : Multicast β) : Prop := ∀ t ∈ m.targets, ∀ r ∈ t.receives, 0 < r.done → r.produced = p.bytes

end Multicast

end PAMI.Pwq

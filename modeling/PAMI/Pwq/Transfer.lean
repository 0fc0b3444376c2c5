import PAMI.Pwq.Dispatch

namespace PAMI.Pwq

open PAMI.Math Option

/-- The contiguous bytes that a receive queue of blocks has available after a number of bytes. -/
def availableAt : List ℕ → ℕ → ℕ
  | [], _ => 0
  | b :: layout, n => if n < b then b - n else availableAt layout (n - b)

/-- Whether the offers in a call are what a receive queue of blocks answers, while the copy loop goes on
with the packet at a place of the queue. -/
def answered {β : Type*} (layout : List ℕ) : List ℕ → PWQMessage β → ℕ → Bool
  | [], m, _ => availableAt layout m.produced.length == 0
  | o :: offers, m, i => o == availableAt layout m.produced.length &&
    match m.copyPacket i (toInt o) with
    | some (.next m i) => answered layout offers m i
    | _ => offers.isEmpty

def asked {β : Type*} (layout : List ℕ) (m : PWQMessage β) (offers : List ℕ) : Bool :=
  match m.packetQueue.findIdx? fun p => p.seqNo = m.seqNo with
  | none => offers == [availableAt layout m.produced.length]
  | some i => answered layout offers m i

/-- The data of a chunk comes in its dispatch, or later into a buffer of the given contents; an empty chunk
may also come without a pointer. -/
inductive Delivery (β : Type*) where
  | inside
  | later (buffer : List β)
  | null

def Delivery.payload {β : Type*} (data : List β) : Delivery β → Option (Payload β)
  | inside => some (.data data)
  | later buffer => if buffer.length = data.length then some (.recv buffer) else none
  | null => if data.isEmpty then some .neither else none

/-- What data that arrives later is for. -/
inductive Cookie where
  | packet (i chunk : ℕ)
  | direct (k : ℕ)
  deriving DecidableEq, Repr

/-- A message on its way from the source queue of an endpoint to the receive queue of another one: the
sender, the target, how many chunks have been dispatched, and the data of the last one, while it is to
arrive. -/
structure Transfer (β : Type*) where
  sender : SendPWQ β
  target : NativeInterface β
  dispatched : ℕ
  awaiting : Option (Cookie × List β)

/-- An event at the sender; the next chunk is dispatched; its data arrives; or the work function of a
message runs at the target. -/
inductive TransferEvent (β : Type*) where
  | send (e : SendEvent)
  | dispatch (d : Delivery β) (offers : List ℕ)
  | arrive (offers : List ℕ)
  | work (i : ℕ) (offers : List ℕ)

namespace Transfer

variable {β : Type*}

def sendPWQ (immSendSize headerLength : ℕ) (connectionId pwqMsgId : BitVec 32) (queue : List (List β))
    (sendPwqDispatch mcastDispatch : ℕ) : Transfer β where
  sender := SendPWQ.simplePWQ immSendSize headerLength connectionId pwqMsgId queue.flatten.length queue
  target := .new sendPwqDispatch mcastDispatch
  dispatched := 0
  awaiting := none

variable (layout : List ℕ) (origin : ℕ)

/-- What the user's dispatch function fills in: the length, and a receive queue of blocks. -/
def localRecv : LocalRecv := ⟨layout.sum, some (availableAt layout 0)⟩

def msgId (t : Transfer β) (c : Chunk β) : MsgId :=
  ⟨origin, t.target.sendPwqDispatch, c.header.connectionId, c.header.pwqMsgId⟩

/-- Where a chunk that is not of a contiguous message comes to. -/
def found (t : Transfer β) (c : Chunk β) : NativeInterface β × ℕ :=
  t.target.findMessage (t.msgId origin c) (localRecv layout)

/-- In a dispatch the receive queue answers for the message of the chunk, with the chunk enqueued. -/
def askedInDispatch (t : Transfer β) (c : Chunk β) (p : Payload β) (offers : List ℕ) : Bool :=
  (t.found layout origin c).1.messages[(t.found layout origin c).2]?.all fun m => match p with
    | .data bytes => asked layout (m.pwq.enqueuePacket c.header.seqNo.toNat bytes true) offers
    | .recv _ => offers.isEmpty
    | .neither => asked layout m.pwq offers

def awaits (t : Transfer β) (c : Chunk β) : Payload β → Option (Cookie × List β)
  | .recv _ =>
    if c.header.contig ≠ 0 then some (.direct t.target.direct.length, c.data)
    else some (.packet (t.found layout origin c).2 c.header.seqNo.toNat, c.data)
  | _ => none

/-- The next chunk is dispatched, when nothing is awaited of the one before: the protocol is ordered. -/
def dispatch (t : Transfer β) (d : Delivery β) (offers : List ℕ) : Option (Transfer β) :=
  if t.awaiting.isSome then none
  else t.sender.chunks[t.dispatched]?.bind fun c => (d.payload c.data).bind fun p =>
    if c.header.contig = 0 ∧ ¬ t.askedInDispatch layout origin c p offers then none
    else (t.target.step (.sendPwq origin c.header p (localRecv layout) offers)).map fun target =>
      { t with
        target := target
        dispatched := t.dispatched + 1
        awaiting := t.awaits layout origin c p }

def arrive (t : Transfer β) (offers : List ℕ) : Option (Transfer β) :=
  match t.awaiting with
  | none => none
  | some (.direct k, data) => (t.target.step (.arriveDirect k data)).map fun target =>
    { t with target := target, awaiting := none }
  | some (.packet i chunk, data) =>
    if t.target.messages[i]?.all fun m => (m.pwq.arriveData chunk data).all fun pwq => asked layout pwq offers then
      (t.target.step (.arrive i chunk data offers)).map fun target =>
        { t with target := target, awaiting := none }
    else none

def work (t : Transfer β) (i : ℕ) (offers : List ℕ) : Option (Transfer β) :=
  if t.target.messages[i]?.all fun m => asked layout m.pwq offers then
    (t.target.step (.work i offers)).map fun target => { t with target := target }
  else none

def step (t : Transfer β) : TransferEvent β → Option (Transfer β)
  | .send e => (t.sender.step e).map fun sender => { t with sender := sender }
  | .dispatch d offers => t.dispatch layout origin d offers
  | .arrive offers => t.arrive layout offers
  | .work i offers => t.work layout i offers

/-- The bytes that are written to the cells of the receive queue, from the first one on. -/
def written (t : Transfer β) : List β :=
  (t.target.messages.map fun m => m.pwq.produced).flatten ++ (t.target.direct.map DirectRecv.written).flatten

/-- The calls of the receive completion callback. -/
def done (t : Transfer β) : ℕ :=
  (t.target.messages.map fun m => m.pwq.done).sum + (t.target.direct.map DirectRecv.done).sum

def Ended (t : Transfer β) : Prop :=
  t.sender.unfinished = none ∧ t.dispatched = t.sender.chunks.length ∧ t.awaiting = none

/-- What a state says: the target has one receive, it has written the beginning of the message, its callback runs once, after
the last byte, and no assertion fires. At the end all is received. -/
structure Delivered (message : List β) (t : Transfer β) : Prop where
  single : t.target.messages.length + t.target.direct.length ≤ 1
  written : t.written <+: message
  once : t.done ≤ 1
  done : t.done = 1 → t.written = message
  dispatches : t.awaiting = none → ∀ c ∈ t.sender.chunks[t.dispatched]?, ∀ d : Delivery β,
    (d.payload c.data).isSome → ∃ offers t', t.step layout origin (.dispatch d offers) = some t'
  arrives : t.awaiting.isSome → ∃ offers t', t.step layout origin (.arrive offers) = some t'
  works : ∀ i, ∀ m ∈ t.target.messages[i]?, m.pwq.onDevice = true →
    ∃ offers t', t.step layout origin (.work i offers) = some t'
  complete : t.Ended → t.written = message ∧ t.done = 1

/-- In every run all states are right, and the end can be reached from there. -/
def Transfers (message : List β) (start : Transfer β) : Prop :=
  ∀ t, Run (step layout origin) (fun _ _ => True) start t → t.Delivered layout origin message ∧
    ∃ t', Run (step layout origin) (fun _ _ => True) t t' ∧ t'.Ended

section Dispatch

variable {layout : List ℕ} {origin : ℕ} {t t' : Transfer β} {d : Delivery β} {offers : List ℕ}

theorem dispatch_some (hs : t.dispatch layout origin d offers = some t') :
    t.awaiting=none ∧ ∃ c p target, t.sender.chunks[t.dispatched]? = some c ∧ d.payload c.data = some p ∧
      (c.header.contig=0 → t.askedInDispatch layout origin c p offers = true) ∧
      t.target.step (.sendPwq origin c.header p (localRecv layout) offers) = some target ∧
      t' = { t with
        target := target
        dispatched := t.dispatched+1
        awaiting := t.awaits layout origin c p } := by
  obtain ⟨hso,hs⟩ := ite_none_left_eq_some.mp hs
  obtain ⟨c,hc,hs⟩ := bind_eq_some_iff.mp hs
  obtain ⟨p,hp,hs⟩ := bind_eq_some_iff.mp hs
  obtain ⟨hgua,hs⟩ := ite_none_left_eq_some.mp hs
  obtain ⟨target,htar,rfl⟩ := map_eq_some_iff.mp hs
  refine ⟨by simpa using hso,c,p,target,hc,hp,fun hcon => ?_,htar,rfl⟩
  simpa [hcon] using hgua

end Dispatch

end Transfer

end PAMI.Pwq

import PAMI.Math.Blockwise
import PAMI.WorkQueue.Fifo

namespace PAMI.WorkQueue

open PAMI.Math Function

variable {β : Type*}

/-- One reduce, as `pami_multicombine_t` has it: the index of the root, the shift and the function of the datatype and the
operation, and what the participants put into their input queues. -/
structure Multicombine (β : Type*) where
  root : ℕ
  count : ℕ
  shift : ℕ
  func : List β → List β → List β
  input : ℕ → List β

def Multicombine.bytes (c : Multicombine β) : ℕ := c.count * 2 ^ c.shift

/-- The reduces that are made one after another by the data participants, who are known by their indices. -/
structure RingCalls (β : Type*) where
  size : ℕ
  call : ℕ → Multicombine β
  root_lt : ∀ j, (call j).root < size
  shift_le : ∀ j, (call j).shift ≤ 5
  input_length : ∀ j, ∀ i < size, ((call j).input i).length = (call j).bytes
  keepsBlocks : ∀ j, KeepsBlocks (2 ^ (call j).shift) (call j).func

/-- The size of the work queues between the ranks. -/
def wqSize : ℕ := 8192

/-- A work queue in shared memory after `configure` and `barrier_reset`. -/
def ringQueue : PipeWorkQueue := ⟨BitVec.ofNat 32 wqSize, 0, BitVec.ofNat 32 (wqSize - 1), 0, 0, none, none⟩

/-- The queues of all ranks, with the buffers between them, and what each rank has posted and completed. The input queues and
the results have flat buffers. -/
structure RingReduce (β : Type*) where
  posted : ℕ → ℕ
  done : ℕ → ℕ
  bytesLeft : ℕ → ℕ
  iproduced : ℕ → ℕ → ℕ
  iconsumed : ℕ → ℕ → ℕ
  wq : ℕ → PipeWorkQueue
  buffer : ℕ → ℕ → β
  rproduced : ℕ → ℕ
  output : ℕ → ℕ → β

namespace RingReduce

inductive Role
  | root
  | head
  | upstream
deriving DecidableEq

def next (size meix : ℕ) : ℕ := if meix + 1 ≥ size then meix + 1 - size else meix + 1

def role (size root meix : ℕ) : Role :=
  if meix = root then .root else if next size meix = root then .head else .upstream

/-- What a rank could produce, in its own queue or in the results. -/
def bytesAvailableToProduce (C : RingCalls β) (s : RingReduce β) (i : ℕ) : ℕ :=
  if role C.size (C.call (s.done i)).root i = .root then (C.call (s.done i)).bytes - s.rproduced (s.done i)
  else ((s.wq i).roomToProduce (s.wq i).producedBytes (s.wq i).consumedBytes).toNat

/-- What a rank could consume of the queue of the next rank. -/
def bytesAvailableToConsume (C : RingCalls β) (s : RingReduce β) (i : ℕ) : ℕ :=
  let swq := s.wq (next C.size i)
  (swq.dataToConsume swq.producedBytes swq.consumedBytes).toNat

/-- The number of bytes that `__advanceThread` moves. -/
def amount (C : RingCalls β) (s : RingReduce β) (i : ℕ) : ℕ :=
  let bytes := min (min (s.bytesLeft i) (s.bytesAvailableToProduce C i))
    (s.iproduced i (s.done i) - s.iconsumed i (s.done i))
  if role C.size (C.call (s.done i)).root i = .head then bytes
  else min bytes (s.bytesAvailableToConsume C i)

/-- What it writes: a copy of the input, or as many combined elements as there are whole ones. -/
def data (C : RingCalls β) (s : RingReduce β) (i : ℕ) : List β :=
  let call := C.call (s.done i)
  let input := ((call.input i).drop (s.iconsumed i (s.done i))).take (s.amount C i)
  if role C.size call.root i = .head then input
  else
    let swq := s.wq (next C.size i)
    let upstream := (List.range (s.amount C i)).map fun x =>
      s.buffer (next C.size i) ((swq.position swq.consumedBytes).toNat + x)
    blockwise (2 ^ call.shift) call.func (s.amount C i / 2 ^ call.shift) input upstream

def setThreads (C : RingCalls β) (s : RingReduce β) (i : ℕ) : RingReduce β :=
  if s.done i < s.posted i then
    { s with bytesLeft := update s.bytesLeft i (C.call (s.done i)).bytes }
  else s

/-- `consumeBytes` of the queue of the next rank, for all but the head. -/
def consumeUpstream (C : RingCalls β) (s : RingReduce β) (i min : ℕ) : RingReduce β :=
  let swq := s.wq (next C.size i)
  if role C.size (C.call (s.done i)).root i = .head then s
  else
    { s with wq := update s.wq (next C.size i)
              { swq with consumedBytes := swq.consumedBytes + BitVec.ofNat 64 min } }

/-- What was combined is written, and `produceBytes` of the queue of the rank or of the results. -/
def produce (C : RingCalls β) (s : RingReduce β) (i min : ℕ) (data : List β) : RingReduce β :=
  let j := s.done i
  if role C.size (C.call j).root i = .root then
    { s with
      output := update s.output j (store (s.output j) (s.rproduced j) data)
      rproduced := update s.rproduced j (s.rproduced j + min) }
  else
    let rwq := s.wq i
    { s with
      buffer := update s.buffer i (store (s.buffer i) (rwq.position rwq.producedBytes).toNat data)
      wq := update s.wq i { rwq with producedBytes := rwq.producedBytes + BitVec.ofNat 64 min } }

/-- The rest of `__advanceThread`. -/
def consumeInput (C : RingCalls β) (s : RingReduce β) (i min : ℕ) : RingReduce β :=
  let j := s.done i
  let s := { s with
    iconsumed := update s.iconsumed i (update (s.iconsumed i) j (s.iconsumed i j + min))
    bytesLeft := update s.bytesLeft i (s.bytesLeft i - min) }
  if s.bytesLeft i = 0 then setThreads C { s with done := update s.done i (j + 1) } i else s

def __advanceThread (C : RingCalls β) (s : RingReduce β) (i : ℕ) : RingReduce β :=
  let min := s.amount C i
  if min = 0 then s
  else consumeInput C (produce C (consumeUpstream C s i min) i min (s.data C i)) i min

inductive Event
  | postMulticombine (i : ℕ)
  | produceInput (i j bytes : ℕ)
  | advance (i : ℕ)

def step (C : RingCalls β) (s : RingReduce β) : Event → Option (RingReduce β)
  | .postMulticombine i =>
    if i < C.size then
      let posted := { s with posted := update s.posted i (s.posted i + 1) }
      some (if s.done i = s.posted i then setThreads C posted i else posted)
    else none
  | .produceInput i j bytes =>
    if i < C.size ∧ s.iproduced i j + bytes ≤ (C.call j).bytes then
      some { s with
        iproduced := update s.iproduced i (update (s.iproduced i) j (s.iproduced i j + bytes)) }
    else none
  | .advance i => if i < C.size ∧ s.done i < s.posted i then some (s.__advanceThread C i) else none

def start (buffer output : ℕ → ℕ → β) : RingReduce β where
  posted := fun _ => 0
  done := fun _ => 0
  bytesLeft := fun _ => 0
  iproduced := fun _ _ => 0
  iconsumed := fun _ _ => 0
  wq := fun _ => ringQueue
  buffer := buffer
  rproduced := fun _ => 0
  output := output

end RingReduce

end PAMI.WorkQueue

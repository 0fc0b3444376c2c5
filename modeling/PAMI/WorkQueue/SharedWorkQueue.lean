import Mathlib.Data.Nat.Bitwise
import PAMI.Math.CircularBuffer
import PAMI.Math.Runs

namespace PAMI.WorkQueue

open PAMI.Math Function

/-- The sizes of a shared work queue, whose buffer is a power of two, and how many processes are at each end. -/
structure SharedSizes where
  workunits : ℕ
  worksize : ℕ
  producers : ℕ
  consumers : ℕ
  qsize_pow : ∃ k < 32, workunits * worksize = 2 ^ k
  producers_pos : 0 < producers
  consumers_pos : 0 < consumers

def SharedSizes.qsize (Q : SharedSizes) : ℕ := Q.workunits * Q.worksize

def SharedSizes.qmask (Q : SharedSizes) : ℕ := Q.qsize - 1

/-- The queue in shared memory, with what each process was last offered, has read of it, and has consumed so far. Of the last
producer there is also all that it has produced. -/
structure SharedWorkQueue (V : Type*) where
  producer : ℕ → ℕ
  consumer : ℕ → ℕ
  buffer : ℕ → V
  room : ℕ → ℕ
  ready : ℕ → ℕ
  reading : ℕ → List V
  consumed : ℕ → List V
  produced : List V

namespace SharedWorkQueue

variable {V : Type*}

/-- A counter as `unsigned`. -/
def toUnsigned (bytes : ℕ) : ℕ := bytes % 2 ^ 32

/-- `MIN` compares an `unsigned` with a whole counter. -/
def min_consumed_bytes (Q : SharedSizes) (s : SharedWorkQueue V) : ℕ :=
  (List.range (Q.consumers - 1)).foldl (fun min_consumed i => toUnsigned (min min_consumed (s.consumer (i + 1))))
    (toUnsigned (s.consumer 0))

def bytesAvailableToProduce (Q : SharedSizes) (s : SharedWorkQueue V) (producer : ℕ) : ℕ :=
  if producer = 0 then
    let produced_bytes := toUnsigned (s.producer 0)
    let head_offset := produced_bytes &&& Q.qmask
    let min_consumed := min_consumed_bytes Q s
    let tail_offset := min_consumed &&& Q.qmask
    if head_offset > tail_offset then min (Q.qsize - head_offset) Q.worksize
    else if head_offset < tail_offset then min (tail_offset - head_offset) Q.worksize
    else if produced_bytes = min_consumed then min (Q.qsize - head_offset) Q.worksize
    else 0
  else
    let bytes := toUnsigned ((s.producer (producer - 1) + 2 ^ 64 - s.producer producer) % 2 ^ 64)
    min bytes Q.worksize

/-- Both counters are moved on if only that of the producer has wrapped around. -/
def bytesAvailableToConsume (Q : SharedSizes) (s : SharedWorkQueue V) (consumer : ℕ) : ℕ :=
  let pbytes := toUnsigned (s.producer (Q.producers - 1))
  let cbytes := toUnsigned (s.consumer consumer)
  let wrapped := pbytes < cbytes ∧ toUnsigned (pbytes + Q.qsize) > toUnsigned (cbytes + Q.qsize)
  let pbytes' := if wrapped then toUnsigned (pbytes + Q.qsize) else pbytes
  let cbytes' := if wrapped then toUnsigned (cbytes + Q.qsize) else cbytes
  let head_offset := pbytes' &&& Q.qmask
  let tail_offset := cbytes' &&& Q.qmask
  if head_offset > tail_offset then min (head_offset - tail_offset) Q.worksize
  else if head_offset < tail_offset then min (Q.qsize - tail_offset) Q.worksize
  else if pbytes' > cbytes' then min (Q.qsize - tail_offset) Q.worksize
  else 0

def bufferToProduce (Q : SharedSizes) (s : SharedWorkQueue V) (producer : ℕ) : ℕ :=
  toUnsigned (s.producer producer) &&& Q.qmask

def bufferToConsume (Q : SharedSizes) (s : SharedWorkQueue V) (consumer : ℕ) : ℕ :=
  toUnsigned (s.consumer consumer) &&& Q.qmask

/-- After `reset`. -/
def start (buffer : ℕ → V) : SharedWorkQueue V :=
  ⟨fun _ => 0, fun _ => 0, buffer, fun _ => 0, fun _ => 0, fun _ => [], fun _ => [], []⟩

/-- What the processes do: ask, access one byte of what they were offered, and update their counters. -/
inductive Event (V : Type*)
  | bytesAvailableToProduce (producer : ℕ)
  | write (producer i : ℕ) (byte : V)
  | produceBytes (producer bytes : ℕ)
  | bytesAvailableToConsume (consumer : ℕ)
  | read (consumer : ℕ)
  | consumeBytes (consumer : ℕ)

def step (Q : SharedSizes) (s : SharedWorkQueue V) : Event V → Option (SharedWorkQueue V)
  | .bytesAvailableToProduce producer =>
    if producer < Q.producers then
      some { s with room := update s.room producer (s.bytesAvailableToProduce Q producer) }
    else none
  | .write producer i byte =>
    if producer < Q.producers ∧ i < s.room producer then
      some { s with buffer := update s.buffer (s.bufferToProduce Q producer + i) byte }
    else none
  | .produceBytes producer bytes =>
    if producer < Q.producers ∧ bytes ≤ s.room producer then
      some { s with
        producer := update s.producer producer ((s.producer producer + bytes) % 2 ^ 64)
        room := update s.room producer (s.room producer - bytes)
        produced :=
          if producer = Q.producers - 1 then
            s.produced ++ (List.range bytes).map fun i => s.buffer (s.bufferToProduce Q producer + i)
          else s.produced }
    else none
  | .bytesAvailableToConsume consumer =>
    if consumer < Q.consumers then
      some { s with ready := update s.ready consumer (s.bytesAvailableToConsume Q consumer) }
    else none
  | .read consumer =>
    if consumer < Q.consumers ∧ (s.reading consumer).length < s.ready consumer then
      some { s with
        reading := update s.reading consumer
          (s.reading consumer ++ [s.buffer (s.bufferToConsume Q consumer + (s.reading consumer).length)]) }
    else none
  | .consumeBytes consumer =>
    if consumer < Q.consumers ∧ (s.reading consumer).length ≤ s.ready consumer then
      some { s with
        consumer := update s.consumer consumer
          ((s.consumer consumer + (s.reading consumer).length) % 2 ^ 64)
        ready := update s.ready consumer (s.ready consumer - (s.reading consumer).length)
        reading := update s.reading consumer []
        consumed := update s.consumed consumer (s.consumed consumer ++ s.reading consumer) }
    else none

end SharedWorkQueue

end PAMI.WorkQueue

import PAMI.Datatype.TypeMachine

namespace PAMI.WorkQueue

open PAMI.Datatype

/-- The size of a buffer and of its parts, an `unsigned`. -/
abbrev Unsigned := BitVec 32

/-- `PipeWorkQueue`, with the counters that it shares; the buffer itself is not part of it. -/
structure PipeWorkQueue where
  qsize : Unsigned
  isize : Unsigned
  pmask : Unsigned
  producedBytes : Word
  consumedBytes : Word
  prodTm : Option TypeMachine
  consTm : Option TypeMachine

/-- `GetContigBytes`, which leaves the cursor at the copy it finds. -/
def getContigBytes (code : Memory) : ℕ → List Cursor → Option (Word × List Cursor)
  | 0, _ => none
  | _ + 1, [] => none
  | fuel + 1, cursor :: rest =>
    if opcodeOf (code cursor.pc) = Opcode.COPY.code then
      let c := copyAt code cursor.pc
      let left := c.bytes * (c.reps - cursor.repNum) - cursor.repBytes
      if left = 0 then none else some (left, cursor :: rest)
    else (execute code (cursor :: rest)).bind (getContigBytes code fuel)

def getCursorDisp (tm : TypeMachine) : Word := (tm.stack.head?.map Cursor.disp).getD 0

namespace PipeWorkQueue

/-- The position `x & _pmask` in the buffer. -/
def position (q : PipeWorkQueue) (x : Word) : Unsigned := (x &&& q.pmask.setWidth 64).setWidth 32

/-- The space to produce into, of a circular buffer. -/
def roomToProduce (q : PipeWorkQueue) (p c : Word) : Word :=
  let po := q.position p
  let co := q.position c
  if po > co then (q.qsize - po).setWidth 64
  else if po < co then (co - po).setWidth 64
  else if p = c then (q.qsize - po).setWidth 64
  else 0

/-- The bytes to consume, of a circular buffer; both counters are moved on if only one of them has
wrapped around. -/
def dataToConsume (q : PipeWorkQueue) (p c : Word) : Word :=
  let (p, c) :=
    if p < c ∧ p + q.qsize.setWidth 64 > c + q.qsize.setWidth 64 then
      (p + q.qsize.setWidth 64, c + q.qsize.setWidth 64)
    else (p, c)
  let po := q.position p
  let co := q.position c
  if po > co then (po - co).setWidth 64
  else if po < co then (q.qsize - co).setWidth 64
  else if p > c then (q.qsize - co).setWidth 64
  else 0

/-- What a datatype lets a client access, of `a` bytes. -/
def contiguous (fuel : ℕ) (a : Word) (tm : TypeMachine) : Option (Word × TypeMachine) :=
  (getContigBytes tm.type.code fuel tm.stack).map fun r =>
    (if r.1 < a then r.1 else a, ⟨tm.type, r.2⟩)

/-- `bytesAvailableToProduce`; the machine of a datatype moves to its next copy. -/
def bytesAvailableToProduce (fuel : ℕ) (q : PipeWorkQueue) : Option (Word × PipeWorkQueue) :=
  if q.pmask = 0 then some (q.qsize.setWidth 64 - q.producedBytes, q)
  else match q.prodTm with
    | some tm => (contiguous fuel (q.qsize.setWidth 64 - q.producedBytes) tm).map fun r =>
        (r.1, { q with prodTm := some r.2 })
    | none => some (q.roomToProduce q.producedBytes q.consumedBytes, q)

def bytesAvailableToConsume (fuel : ℕ) (q : PipeWorkQueue) : Option (Word × PipeWorkQueue) :=
  if q.pmask = 0 then some (q.producedBytes - q.consumedBytes, q)
  else match q.consTm with
    | some tm => (contiguous fuel (q.producedBytes - q.consumedBytes) tm).map fun r =>
        (r.1, { q with consTm := some r.2 })
    | none => some (q.dataToConsume q.producedBytes q.consumedBytes, q)

/-- `bufferToProduce`, as a displacement in the buffer. -/
def bufferToProduce (q : PipeWorkQueue) : Word :=
  if q.pmask = 0 then q.producedBytes
  else match q.prodTm with
    | some tm => getCursorDisp tm
    | none => (q.position q.producedBytes).setWidth 64

def bufferToConsume (q : PipeWorkQueue) : Word :=
  if q.pmask = 0 then q.consumedBytes
  else match q.consTm with
    | some tm => getCursorDisp tm
    | none => (q.position q.consumedBytes).setWidth 64

/-- `MoveCursor` on the machine of a datatype, if there is one. -/
def moveTo (fuel : ℕ) (offset : Word) : Option TypeMachine → Option (Option TypeMachine)
  | none => some none
  | some tm => (tm.moveCursor fuel offset).map some

def produceBytes (fuel : ℕ) (bytes : Word) (q : PipeWorkQueue) : Option PipeWorkQueue :=
  (moveTo fuel (q.producedBytes + bytes) q.prodTm).map fun tm =>
    { q with producedBytes := q.producedBytes + bytes, prodTm := tm }

def consumeBytes (fuel : ℕ) (bytes : Word) (q : PipeWorkQueue) : Option PipeWorkQueue :=
  (moveTo fuel (q.consumedBytes + bytes) q.consTm).map fun tm =>
    { q with consumedBytes := q.consumedBytes + bytes, consTm := tm }

def new : PipeWorkQueue := ⟨0, 0, 0, 0, 0, none, none⟩

/-- `configure` for a circular buffer in shared memory, with the assertion on its size. -/
def configureCircular (bufsize : Word) (q : PipeWorkQueue) : Option PipeWorkQueue :=
  let qsize := bufsize.setWidth 32
  if qsize &&& (qsize - 1) = 0 then
    some { q with
      qsize := qsize, pmask := qsize - 1, producedBytes := q.isize.setWidth 64, consumedBytes := 0 }
  else none

/-- `configure` for a circular buffer of the user. -/
def configureUser (bufsize : Word) (q : PipeWorkQueue) : Option PipeWorkQueue :=
  let qsize := bufsize.setWidth 32
  if qsize &&& (qsize - 1) = 0 then some { q with qsize := qsize, pmask := qsize - 1 } else none

/-- What a datatype makes of the configuration of a flat buffer, with the assertions on the sizes;
the sizes become those of the packed data. -/
def configureView (contigMax : TypeCode) (bufsize bufinit : Word) (q : PipeWorkQueue) :
    Option TypeCode → Option (PipeWorkQueue × Option TypeMachine)
  | none => some (q, none)
  | some dt =>
    if dt.isContiguous then some (q, none)
    else if dt.getExtent = 0 then none
    else if bufsize = bufsize / dt.getExtent * dt.getExtent ∧ bufinit = bufinit / dt.getExtent * dt.getExtent then
      some ({ q with
        pmask := BitVec.allOnes 32
        qsize := (bufsize / dt.getExtent * dt.getDataSize).setWidth 32
        isize := (bufinit / dt.getExtent * dt.getDataSize).setWidth 32 },
        some (TypeMachine.new contigMax dt))
    else none

/-- `configure` for a flat buffer, with a datatype for the producer and one for the consumer. -/
def configureFlat (contigMax : TypeCode) (fuel : ℕ) (bufsize bufinit : Word)
    (prodDt consDt : Option TypeCode) (q : PipeWorkQueue) : Option PipeWorkQueue :=
  (configureView contigMax bufsize bufinit
    { q with qsize := bufsize.setWidth 32, isize := bufinit.setWidth 32, pmask := 0 } prodDt).bind
    fun (q, prodTm) => (configureView contigMax bufsize bufinit q consDt).bind fun (q, consTm) =>
      (moveTo fuel (q.isize.setWidth 64) prodTm).bind fun prodTm => (moveTo fuel 0 consTm).map fun consTm =>
          { q with producedBytes := q.isize.setWidth 64, consumedBytes := 0, prodTm := prodTm,
                   consTm := consTm }

def reset (fuel : ℕ) (q : PipeWorkQueue) : Option PipeWorkQueue :=
  (moveTo fuel (q.isize.setWidth 64) q.prodTm).bind fun prodTm => (moveTo fuel 0 q.consTm).map fun consTm =>
      { q with producedBytes := q.isize.setWidth 64, consumedBytes := 0, prodTm := prodTm,
               consTm := consTm }

end PipeWorkQueue

end PAMI.WorkQueue

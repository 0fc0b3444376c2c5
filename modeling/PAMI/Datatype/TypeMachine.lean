import PAMI.Datatype.Compilation

namespace PAMI.Datatype

open PAMI.Math (Layout)

structure Cursor where
  pc : ℕ
  disp : Word
  offset : Word
  repNum : Word
  repBytes : Word
  deriving DecidableEq

/-- One `MemCopy`: so many bytes at a displacement of the user's buffer, against the packed bytes
from `target` on. -/
structure Move where
  target : ℕ
  extent : Layout.Extent Word
  deriving DecidableEq

section Execute

variable (code : Memory)

/-- `ExecuteCall`, on the cursor at the top of the stack. -/
def executeCall (cursor : Cursor) (rest : List Cursor) : List Cursor :=
  ⟨cursor.pc + (code (cursor.pc + 8)).toNat + 64, cursor.disp, cursor.offset, 0, 0⟩ :: cursor :: rest

def executeShift (cursor : Cursor) (rest : List Cursor) : List Cursor :=
  { cursor with pc := cursor.pc + 16, disp := cursor.disp + code (cursor.pc + 8) } :: rest

def executeEnd (cursor : Cursor) : List Cursor → List Cursor
  -- repeat the type, keeping current displacement and offset
  | [] => [{ cursor with pc := 64, repNum := 0, repBytes := 0 }]
  -- return from the sub type
  | old :: rest =>
    let stride := code (old.pc + 16)
    let reps := code (old.pc + 24)
    let old := { old with
      disp := old.disp + stride
      offset := cursor.offset
      repNum := old.repNum + 1
      repBytes := 0 }
    (if old.repNum = reps then { old with pc := old.pc + 32, repNum := 0 } else old) :: rest

/-- The operations other than `COPY`, which `Run` and `EnumerateBlocks` execute alike; `none` for
a `COPY` or a bogus opcode. -/
def execute : List Cursor → Option (List Cursor)
  | [] => none
  | cursor :: rest =>
    if opcodeOf (code cursor.pc) = Opcode.CALL.code then some (executeCall code cursor rest)
    else if opcodeOf (code cursor.pc) = Opcode.SHIFT.code then
      some (executeShift code cursor rest)
    else if opcodeOf (code cursor.pc) = Opcode.END.code then some (executeEnd code cursor rest)
    else none

/-- The operands of the `COPY` at an offset. -/
def copyAt (pc : ℕ) : Copy := ⟨code (pc + 8), code (pc + 16), code (pc + 24)⟩

end Execute

section Copy

variable (c : Copy)

/-- The loop of `Copy` over whole repetitions: the moves, and what is left of the target, the
bytes and the cursor. -/
def copyReps : ℕ → ℕ → ℕ → Cursor → Option (List Move × ℕ × ℕ × Cursor)
  | 0, _, _, _ => none
  | fuel + 1, target, bytes, cursor =>
    if c.bytes.toNat < bytes then
      (copyReps fuel (target + c.bytes.toNat) (bytes - c.bytes.toNat)
        { cursor with
          disp := cursor.disp + c.stride
          offset := cursor.offset + c.bytes
          repNum := cursor.repNum + 1 }).map
        fun r => (⟨target, ⟨cursor.disp, c.bytes.toNat⟩⟩ :: r.1, r.2)
    else some ([], target, bytes, cursor)

/-- The end of `Copy`: no more than one repetition's data. -/
def copyLast (target bytes : ℕ) (cursor : Cursor) : Option (Move × Cursor) :=
  if bytes ≤ (c.bytes - cursor.repBytes).toNat then
    let move : Move := ⟨target, ⟨cursor.disp + cursor.repBytes, bytes⟩⟩
    let cursor := { cursor with
      offset := cursor.offset + BitVec.ofNat 64 bytes
      repBytes := cursor.repBytes + BitVec.ofNat 64 bytes }
    if cursor.repBytes = c.bytes then
      -- move to next rep
      let cursor := { cursor with
        disp := cursor.disp + c.stride
        repNum := cursor.repNum + 1
        repBytes := 0 }
      some (move, if cursor.repNum = c.reps then { cursor with pc := cursor.pc + 32, repNum := 0 } else cursor)
    else some (move, cursor)
  else none

/-- `Copy`, with its assertions. -/
def Copy.exec (target bytes : ℕ) (cursor : Cursor) : Option (List Move × Cursor) :=
  -- this copy op must provide enough data
  if bytes ≤ (c.bytes * (c.reps - cursor.repNum) - cursor.repBytes).toNat then
    let left := (c.bytes - cursor.repBytes).toNat
    if left < bytes then
      -- copy leftover of current rep
      let first : Move := ⟨target, ⟨cursor.disp + cursor.repBytes, left⟩⟩
      let cursor := { cursor with
        disp := cursor.disp + c.stride
        offset := cursor.offset + BitVec.ofNat 64 left
        repNum := cursor.repNum + 1
        repBytes := 0 }
      (copyReps c bytes (target + left) (bytes - left) cursor).bind
        fun (moves, target, bytes, cursor) =>
          if cursor.repNum < c.reps then
            (copyLast c target bytes cursor).map fun (move, cursor) => (first :: (moves ++ [move]), cursor)
          else none
    else (copyLast c target bytes cursor).map fun (move, cursor) => ([move], cursor)
  else none

end Copy

section Machine

variable (code : Memory)

/-- `Run`: the moves that transfer the next `bytes` bytes, and the stack afterwards. -/
def run : ℕ → ℕ → ℕ → List Cursor → Option (List Move × List Cursor)
  | 0, _, _, _ => none
  | fuel + 1, target, bytes, stack =>
    if bytes = 0 then some ([], stack)
    else match stack with
      | [] => none
      | cursor :: rest =>
        if opcodeOf (code cursor.pc) = Opcode.COPY.code then
          let c := copyAt code cursor.pc
          let left := (c.bytes * (c.reps - cursor.repNum) - cursor.repBytes).toNat
          if left = 0 then none
          else
            (c.exec target (min left bytes) cursor).bind fun (moves, cursor) =>
              (run fuel (target + min left bytes) (bytes - min left bytes) (cursor :: rest)).map
                fun r => (moves ++ r.1, r.2)
        else (execute code (cursor :: rest)).bind (run fuel target bytes)

/-- The blocks of the next `n` repetitions of a copy. -/
def repBlocks (c : Copy) (disp : Word) (n : ℕ) : List (Layout.Extent Word) :=
  (List.range n).map fun i => ⟨disp + i • c.stride, c.bytes.toNat⟩

/-- The loop of `EnumerateBlocks`. -/
def enumerateLoop : ℕ → ℕ → List Cursor → Option (List (Layout.Extent Word) × List Cursor)
  | 0, _, _ => none
  | fuel + 1, count, stack =>
    if count = 0 then some ([], stack)
    else match stack with
      | [] => none
      | cursor :: rest =>
        if cursor.repBytes ≠ 0 then none
        else if opcodeOf (code cursor.pc) = Opcode.COPY.code then
          let c := copyAt code cursor.pc
          let left := (c.reps - cursor.repNum).toNat
          if left = 0 then none
          else
            let n := min left count
            let cursor' := { cursor with
              disp := cursor.disp + n • c.stride
              offset := cursor.offset + c.bytes * BitVec.ofNat 64 n
              repNum := cursor.repNum + BitVec.ofNat 64 n }
            let cursor' := if cursor'.repNum = c.reps then
              { cursor' with pc := cursor'.pc + 32, repNum := 0 } else cursor'
            (enumerateLoop fuel (count - n) (cursor' :: rest)).map
              fun r => (repBlocks c cursor.disp n ++ r.1, r.2)
        else (execute code (cursor :: rest)).bind (enumerateLoop fuel count)

/-- `EnumerateBlocks`: its `int index` counts the blocks, so there are less than `2^31`. -/
def enumerateBlocks (fuel count : ℕ) (stack : List Cursor) :
    Option (List (Layout.Extent Word) × List Cursor) :=
  if count < 2^31 then enumerateLoop code fuel count stack else none

/-- The loop of `MoveCursor`; `none` for a bogus opcode or a division by zero. -/
def moveLoop (newOffset : Word) : ℕ → ℕ → Word → Word → List Cursor → Option (List Cursor)
  | 0, _, _, _, _ => none
  | fuel + 1, pc, disp, offset, stack =>
    if opcodeOf (code pc) = Opcode.COPY.code then
      let c := copyAt code pc
      let copySize := c.bytes * c.reps
      if newOffset < offset + copySize then
        if c.bytes = 0 then none
        else
          let diffSize := newOffset - offset
          let repNum := diffSize / c.bytes
          some (⟨pc, disp + c.stride * repNum, newOffset, repNum, diffSize - c.bytes * repNum⟩ :: stack)
      else moveLoop newOffset fuel (pc + 32) (disp + c.stride * c.reps) (offset + copySize) stack
    else if opcodeOf (code pc) = Opcode.CALL.code then
      let sub := pc + (code (pc + 8)).toNat
      let stride := code (pc + 16)
      let reps := code (pc + 24)
      let subBytes := code (sub + 24)
      let copySize := subBytes * reps
      if newOffset < offset + copySize then
        if subBytes = 0 then none
        else
          let diffSize := newOffset - offset
          let repNum := diffSize / subBytes
          let repBytes := diffSize - subBytes * repNum
          moveLoop newOffset fuel (sub + 64) (disp + stride * repNum) (newOffset - repBytes)
            (⟨pc, disp + stride * repNum, newOffset - repBytes, repNum, 0⟩ :: stack)
      else moveLoop newOffset fuel (pc + 32) (disp + stride * reps) (offset + copySize) stack
    else if opcodeOf (code pc) = Opcode.SHIFT.code then
      moveLoop newOffset fuel (pc + 16) (disp + code (pc + 8)) offset stack
    else if opcodeOf (code pc) = Opcode.END.code then
      moveLoop newOffset fuel 64 disp offset stack
    else none

end Machine

/-- A `TypeMachine`: the type it runs and its stack of cursors, the top one first. -/
structure TypeMachine where
  type : TypeCode
  stack : List Cursor

namespace TypeMachine

/-- `TypeMachine(type)`: a contiguous type is changed to the maximal contiguous type. -/
def new (contigMax type : TypeCode) : TypeMachine :=
  ⟨if type.isContiguous then contigMax else type, [⟨64, 0, 0, 0, 0⟩]⟩

def getCursor (tm : TypeMachine) : Word := (tm.stack.head?.map Cursor.offset).getD 0

/-- The transfer behind `Pack` and `Unpack`. -/
def transfer (fuel target bytes : ℕ) (tm : TypeMachine) : Option (List Move × TypeMachine) :=
  (run tm.type.code fuel target bytes tm.stack).map fun r => (r.1, ⟨tm.type, r.2⟩)

/-- `EnumerateBlocks`. -/
def enumerate (fuel count : ℕ) (tm : TypeMachine) :
    Option (List (Layout.Extent Word) × TypeMachine) :=
  (enumerateBlocks tm.type.code fuel count tm.stack).map fun r => (r.1, ⟨tm.type, r.2⟩)

/-- `MoveCursor`; `none` also where it divides by a data size of zero. -/
def moveCursor (fuel : ℕ) (newOffset : Word) (tm : TypeMachine) : Option TypeMachine :=
  if tm.getCursor = newOffset then some tm
  else if tm.type.getDataSize = 0 then none
  else
    let skipReps := newOffset / tm.type.getDataSize
    (moveLoop tm.type.code newOffset fuel 64 (skipReps * tm.type.getExtent)
      (skipReps * tm.type.getDataSize) []).map fun stack => ⟨tm.type, stack⟩

end TypeMachine

end PAMI.Datatype

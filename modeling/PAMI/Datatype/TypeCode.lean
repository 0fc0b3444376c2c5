import Mathlib.Data.BitVec

namespace PAMI.Datatype

open BitVec

/-- `size_t`: byte counts, strides and displacements, wrapping at 64 bits. -/
abbrev Word := BitVec 64

/-- `TypeCode::Opcode`, in the order of the enumeration. -/
inductive Opcode where
  | BEGIN | COPY | CALL | SHIFT | END
  deriving DecidableEq

def Opcode.code : Opcode → BitVec 32
  | .BEGIN => 0
  | .COPY => 1
  | .CALL => 2
  | .SHIFT => 3
  | .END => 4

/-- `op_size[]` of `Pop`: the sizes of `Begin`, `Copy`, `Call`, `Shift` and `End`. -/
def opSize (c : BitVec 32) : ℕ := [64, 32, 32, 16, 8].getD c.toNat 0

/-- The first word of an `Op`: `opcode` in the low half, `prev_opcode` in the high half. -/
def opWord (opcode prev : BitVec 32) : Word := BitVec.ofNat 64 (opcode.toNat + 2^32 * prev.toNat)

def opcodeOf (w : Word) : BitVec 32 := BitVec.ofNat 32 w.toNat

def prevOf (w : Word) : BitVec 32 := BitVec.ofNat 32 (w.toNat / 2^32)

@[simp] theorem opcodeOf_opWord (o p : BitVec 32) : opcodeOf (opWord o p) = o := by
  apply eq_of_toNat_eq
  have ho := o.isLt
  have hp := p.isLt
  simp only [opcodeOf,opWord,toNat_ofNat]
  omega

@[simp] theorem prevOf_opWord (o p : BitVec 32) : prevOf (opWord o p) = p := by
  apply eq_of_toNat_eq
  have ho := o.isLt
  have hp := p.isLt
  simp only [prevOf,opWord,toNat_ofNat]
  omega

theorem Opcode.code_injective : Function.Injective Opcode.code := by
  intro a b h
  cases a <;> cases b <;> first | rfl | exact absurd h (by decide)

/-- The bit fields and `depth` of `Begin`, which share one word. -/
@[ext] structure Flags where
  contiguous : Bool
  simple : Bool
  primitive : BitVec 6
  depth : BitVec 32
  deriving DecidableEq

def Flags.pack (f : Flags) : Word := BitVec.ofNat 64 (f.contiguous.toNat + 2 * f.simple.toNat + 4 * f.primitive.toNat +
    2^32 * f.depth.toNat)

def Flags.unpack (w : Word) : Flags := ⟨w.toNat % 2 = 1, w.toNat / 2 % 2 = 1, BitVec.ofNat 6 (w.toNat / 4),
    BitVec.ofNat 32 (w.toNat / 2^32)⟩

@[simp] theorem Flags.unpack_pack (f : Flags) : Flags.unpack f.pack = f := by
  obtain ⟨c,s,p,d⟩ := f
  have hp := p.isLt
  have hd := d.isLt
  simp only [Flags.unpack,Flags.pack,toNat_ofNat,Flags.mk.injEq]
  refine ⟨?_,?_,?_,?_⟩
  · cases c <;> cases s <;> simp <;> omega
  · cases c <;> cases s <;> simp <;> omega
  all_goals
    apply eq_of_toNat_eq
    cases c <;> cases s <;> simp <;> omega

/-- Operands of a `COPY`: `reps` blocks of `bytes`, one every `stride`. -/
structure Copy where
  bytes : Word
  stride : Word
  reps : Word
  deriving DecidableEq

/-- Operands of a `CALL`; `subType` is an address until `Complete` makes it an offset. -/
structure Call where
  subType : Word
  stride : Word
  reps : Word
  deriving DecidableEq

/-- The instructions a type is built from. -/
inductive Instr where
  | copy (c : Copy)
  | call (c : Call)
  | shift (s : Word)
  deriving DecidableEq

namespace Instr

def opcode : Instr → Opcode
  | copy _ => .COPY
  | call _ => .CALL
  | shift _ => .SHIFT

def operands : Instr → List Word
  | copy c => [c.bytes, c.stride, c.reps]
  | call c => [c.subType, c.stride, c.reps]
  | shift s => [s]

/-- `sizeof` of the instruction. -/
def size (i : Instr) : ℕ := 8 + 8 * i.operands.length

theorem size_eq_opSize (i : Instr) : opSize i.opcode.code = i.size := by
  cases i <;> rfl

theorem size_bounds (i : Instr) : 16 ≤ i.size ∧ i.size≤32 := by
  cases i <;> simp [size,operands]

end Instr

/-- Storage as the words found at byte offsets; every field of the code is word aligned. -/
abbrev Memory := ℕ → Word

/-- Writes consecutive words from `off` on. -/
@[grind =] def store (m : Memory) (off : ℕ) : List Word → Memory
  | [] => m
  | w :: ws => store (Function.update m off w) (off + 8) ws

/-- The words of consecutive fields from `off` on. -/
@[grind =] def fields (m : Memory) (off : ℕ) : ℕ → List Word
  | 0 => []
  | n + 1 => m off :: fields m (off + 8) n

theorem store_below (ws : List Word) (m : Memory) (off i : ℕ) (h : i<off) :
    store m off ws i = m i := by
  induction ws generalizing m off with
  | nil => rfl
  | cons w ws ih => rw [store,ih _ _ (by omega),Function.update_of_ne (by omega)]

theorem fields_store (ws : List Word) (m : Memory) (off : ℕ) :
    fields (store m off ws) off ws.length = ws := by
  induction ws generalizing m off with
  | nil => rfl
  | cons w ws ih => rw [List.length_cons,fields,store,ih,store_below _ _ _ _ (by omega),Function.update_self]

theorem fields_congr (m m' : Memory) (off n : ℕ)
    (h : ∀ i, off ≤ i → i<off+8*n → m' i = m i) : fields m' off n = fields m off n := by
  induction n generalizing off with
  | zero => rfl
  | succ n ih =>
    rw [fields,fields,h off (by omega) (by omega),ih (off+8) (fun i hl hu => h i (by omega) (by omega))]

/-- A `TypeCode` object. `allocs` counts the buffers it has been given so far: the contents of
the next one are whatever the allocator left there. -/
structure TypeCode where
  code : Memory
  codeBufSize : ℕ
  codeCursor : ℕ
  completed : Bool
  allocs : ℕ

namespace TypeCode

def flags (t : TypeCode) : Flags := Flags.unpack (t.code 8)
def isContiguous (t : TypeCode) : Bool := t.flags.contiguous
def isSimple (t : TypeCode) : Bool := t.flags.simple
def getPrimitive (t : TypeCode) : BitVec 6 := t.flags.primitive
def getDepth (t : TypeCode) : BitVec 32 := t.flags.depth
def getCodeSize (t : TypeCode) : Word := t.code 16
def getDataSize (t : TypeCode) : Word := t.code 24
def getExtent (t : TypeCode) : Word := t.code 32
def getNumBlocks (t : TypeCode) : Word := t.code 40
def getUnit (t : TypeCode) : Word := t.code 48
def getAtomSize (t : TypeCode) : Word := t.code 56

def put (t : TypeCode) (off : ℕ) (w : Word) : TypeCode :=
  { t with code := Function.update t.code off w }

def setFlags (t : TypeCode) (f : Flags) : TypeCode := t.put 8 f.pack
def setSimple (t : TypeCode) (b : Bool) : TypeCode := t.setFlags { t.flags with simple := b }
def setContiguous (t : TypeCode) (b : Bool) : TypeCode := t.setFlags { t.flags with contiguous := b }
def setPrimitive (t : TypeCode) (p : BitVec 6) : TypeCode := t.setFlags { t.flags with primitive := p }
def addCodeSize (t : TypeCode) (inc : Word) : TypeCode := t.put 16 (t.getCodeSize + inc)
def addDataSize (t : TypeCode) (inc : Word) : TypeCode := t.put 24 (t.getDataSize + inc)
def addExtent (t : TypeCode) (inc : Word) : TypeCode := t.put 32 (t.getExtent + inc)
def addNumBlocks (t : TypeCode) (inc : Word) : TypeCode := t.put 40 (t.getNumBlocks + inc)

def updateDepth (t : TypeCode) (callDepth : BitVec 32) : TypeCode :=
  if t.getDepth < callDepth then t.setFlags { t.flags with depth := callDepth } else t

/-- `Math::GCD` is the Euclidean algorithm on `size_t`. -/
def updateUnit (t : TypeCode) (newUnit : Word) : TypeCode :=
  if t.getUnit = 0 then t.put 48 newUnit
  else t.put 48 (BitVec.ofNat 64 (Nat.gcd t.getUnit.toNat newUnit.toNat))

variable (fresh : ℕ → Memory)

/-- `ResizeCodeBuffer`: only the first `code_cursor` bytes are copied to the new buffer, the
rest of which holds what `new char[]` returned. -/
def resizeCodeBuffer (t : TypeCode) (newSize : ℕ) : TypeCode :=
  if newSize ≤ t.codeBufSize then t
  else { t with
    code := fun off => if off < t.codeCursor then t.code off else fresh t.allocs off
    codeBufSize := newSize
    allocs := t.allocs + 1 }

def checkCodeBuffer (t : TypeCode) (inc : ℕ) : TypeCode :=
  if t.codeBufSize < t.codeCursor + inc then resizeCodeBuffer fresh t (t.codeBufSize * 2) else t

/-- `Push`: the `prev_opcode` already stored in the slot is kept, and the opcode pushed is left
as the `prev_opcode` of the next slot. -/
def push (t : TypeCode) (op : Opcode) (operands : List Word) : TypeCode :=
  let size := 8 + 8 * operands.length
  let t := checkCodeBuffer fresh t (size + 8)
  let prev := prevOf (t.code t.codeCursor)
  let body := store t.code t.codeCursor (opWord op.code prev :: operands)
  let next := t.codeCursor + size
  let t := { t with
    code := Function.update body next (opWord (opcodeOf (body next)) op.code)
    codeCursor := next }
  t.addCodeSize (BitVec.ofNat 64 size)

/-- `Top`: the operands before the cursor, if the slot at the cursor says they are an `op`. -/
def top (t : TypeCode) (op : Opcode) (n : ℕ) : Option (List Word) :=
  if prevOf (t.code t.codeCursor) = op.code then some (fields t.code (t.codeCursor - 8 * n) n)
  else none

/-- `Pop`: drops the instruction the slot at the cursor says is before it. -/
def pop (t : TypeCode) : Option TypeCode :=
  if 0 < t.codeCursor then
    let size := opSize (prevOf (t.code t.codeCursor))
    some ({ t with codeCursor := t.codeCursor - size }.addCodeSize (0 - BitVec.ofNat 64 size))
  else none

/-- `PRIMITIVE_TYPE_COUNT` and `PRIMITIVE_TYPE_UNDEFINED`. -/
def primitiveCount : BitVec 6 := 28
def primitiveUndefined : BitVec 6 := 29

/-- `Begin()`, whose `primitive` the constructor of `TypeCode` sets at once. -/
def beginOperands : List Word := [(⟨true, true, 0, 1⟩ : Flags).pack, 0, 0, 0, 0, 0, 0]

/-- `TypeCode()`. -/
def init : TypeCode :=
  let t : TypeCode := ⟨fresh 0, 0, 0, false, 0⟩
  let t := resizeCodeBuffer fresh t (64 + 32 * 4)
  let t := push fresh t .BEGIN beginOperands
  t.setPrimitive primitiveUndefined

end TypeCode

/-- What the peephole rewrites need of the instruction buffer: `Push`, `Top`, `Pop` and the
cursor. The code buffer and a plain list of instructions both provide it. -/
structure InstrStack (S : Type*) where
  push : S → Instr → S
  topShift : S → Option Word
  topCopy : S → Option Copy
  topCall : S → Option Call
  pop : S → Option S
  cursor : S → ℕ

section Rewrites

variable {S : Type*} (ops : InstrStack S)

/-- Recursion depth that no cascade of rewrites reaches: at least every third one pops. -/
def InstrStack.fuel (st : S) : ℕ := ops.cursor st

mutual

def addShift : ℕ → S → Word → Option S
  | 0, _, _ => none
  | fuel + 1, st, shift =>
    -- SHIFT 0 is a no-op
    if shift = 0 then some st
    else match ops.topShift st with
      | some prev => (ops.pop st).bind fun st => addShift fuel st (prev + shift)
      | none => match ops.topCopy st with
        | some prev =>
          if prev.reps = 1 then
            (ops.pop st).bind fun st => addSimpleInternal fuel st prev.bytes (prev.stride + shift) 1
          else some (ops.push st (.shift shift))
        | none => some (ops.push st (.shift shift))

def addSimpleInternal : ℕ → S → Word → Word → Word → Option S
  | 0, _, _, _, _ => none
  | fuel + 1, st, bytes, stride, reps =>
    if reps = 0 then some st
    else if bytes = 0 then addShift fuel st (stride * reps)
    else if bytes = stride ∧ 1 < reps then
      addSimpleInternal fuel st (bytes * reps) (stride * reps) 1
    else match ops.topCopy st with
      | some prev =>
        if prev.bytes = prev.stride ∧ reps = 1 then
          (ops.pop st).bind fun st => addSimpleInternal fuel st (prev.bytes + bytes) (prev.stride + stride) 1
        else if prev.bytes = bytes ∧ prev.stride = stride then
          (ops.pop st).bind fun st => addSimpleInternal fuel st bytes stride (prev.reps + reps)
        else some (ops.push st (.copy ⟨bytes, stride, reps⟩))
      | none => some (ops.push st (.copy ⟨bytes, stride, reps⟩))

end

/-- The copy instruction a simple type consists of. -/
def TypeCode.singleCopy (t : TypeCode) : Copy := ⟨t.code 72, t.code 80, t.code 88⟩

variable (heap : Word → TypeCode)

/-- `AddTypedInternal`; `heap` gives the type code a `TypeCode *` points to. -/
def addTypedInternal : ℕ → S → Word → Word → Word → Option S
  | 0, _, _, _, _ => none
  | fuel + 1, st, sub, stride, reps =>
    let subType := heap sub
    let subCopy := subType.singleCopy
    if reps = 0 then some st
    else if subType.isContiguous then
      addSimpleInternal ops fuel st subType.getDataSize stride reps
    -- PAMI_assert(COPY == ((Op *)(sub_type->code+sizeof(Begin)))->opcode)
    else if subType.isSimple ∧ opcodeOf (subType.code 64) ≠ Opcode.COPY.code then none
    else if subType.isSimple ∧ stride = subType.getExtent then
      addSimpleInternal ops fuel st subCopy.bytes subCopy.stride (subCopy.reps * reps)
    else if subType.isSimple ∧ subCopy.reps = 1 then
      addSimpleInternal ops fuel st subCopy.bytes stride reps
    else match ops.topCall st with
      | some prev =>
        if prev.subType = sub ∧ prev.stride = stride then
          (ops.pop st).bind fun st => addTypedInternal fuel st sub stride (prev.reps + reps)
        else some (ops.push st (.call ⟨sub, stride, reps⟩))
      | none => some (ops.push st (.call ⟨sub, stride, reps⟩))

end Rewrites

/-- A call of the public interface of an incomplete type. -/
inductive AddCall where
  | shift (shift : Word)
  | simple (bytes stride reps : Word)
  | typed (sub stride reps : Word)
  deriving DecidableEq

/-- The rewrites a call performs on the instruction stack. -/
def AddCall.exec {S : Type*} (ops : InstrStack S) (heap : Word → TypeCode) (st : S) :
    AddCall → Option S
  | shift s => addShift ops (ops.fuel st) st s
  | simple bytes stride reps => addSimpleInternal ops (ops.fuel st) st bytes stride reps
  | typed sub stride reps => addTypedInternal ops heap (ops.fuel st) st sub stride reps

/-- A plain stack of instructions, the last one first. -/
abbrev Stack := List Instr

namespace Stack

/-- The size of `Begin` and the instructions, so the offset of the next one. -/
@[grind =] def codeSize : Stack → ℕ
  | [] => 64
  | i :: st => codeSize st + i.size

/-- The opcode of the last instruction, `Begin` being the first of all. -/
def topOpcode : Stack → Opcode
  | [] => .BEGIN
  | i :: _ => i.opcode

/-- The specification of the instruction buffer: a list. -/
def ops : InstrStack Stack where
  push st i := i :: st
  topShift
    | .shift s :: _ => some s
    | _ => none
  topCopy
    | .copy c :: _ => some c
    | _ => none
  topCall
    | .call c :: _ => some c
    | _ => none
  pop
    | _ :: st => some st
    | [] => none
  cursor := codeSize

/-- The plain stack after a sequence of calls on a fresh type. -/
def run (heap : Word → TypeCode) (calls : List AddCall) : Option Stack :=
  calls.foldlM (fun st c => c.exec ops heap st) []

end Stack

namespace TypeCode

variable (fresh : ℕ → Memory) (heap : Word → TypeCode)

def ops : InstrStack TypeCode where
  push t i := push fresh t i.opcode i.operands
  topShift t := (top t .SHIFT 1).bind fun
    | [s] => some s
    | _ => none
  topCopy t := (top t .COPY 3).bind fun
    | [bytes, stride, reps] => some ⟨bytes, stride, reps⟩
    | _ => none
  topCall t := (top t .CALL 3).bind fun
    | [sub, stride, reps] => some ⟨sub, stride, reps⟩
    | _ => none
  pop := pop
  cursor := codeCursor

/-- `AddShift`, `AddSimple` and `AddTyped`, with their assertions and what they do to the
primitive type. -/
def add (t : TypeCode) (c : AddCall) : Option TypeCode :=
  if t.completed then none
  else match c with
    | .shift _ => c.exec (ops fresh) heap t
    | .simple bytes _ _ => c.exec (ops fresh) heap (if bytes = 0 then t else t.setPrimitive primitiveCount)
    | .typed sub _ _ =>
      let prim := (heap sub).getPrimitive
      if (heap sub).completed then
        let t := if t.getPrimitive = primitiveUndefined then t.setPrimitive prim else t
        (c.exec (ops fresh) heap t).map fun t =>
          if prim = t.getPrimitive then t else t.setPrimitive primitiveCount
      else none

/-- The builder after a sequence of calls on a fresh type. -/
def build (calls : List AddCall) : Option TypeCode := calls.foldlM (add fresh heap) (init fresh)

end TypeCode

end PAMI.Datatype

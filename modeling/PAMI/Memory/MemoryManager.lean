import Mathlib.Algebra.GroupWithZero.Nat
import Mathlib.Data.List.Basic

namespace PAMI.Memory

/-- `size_t`, also an address. -/
abbrev Size := BitVec 64

/-- The characters of a string, without the end mark. -/
abbrev Key := List Char

def MMKEYSIZE : ℕ := 128

def MMMAX_N_META : ℕ := 4

/-- `MM_META_NUM`: meta[0] has 8, meta[1] has 32, meta[2] has 128, etc. -/
def metaNum (x : ℕ) : ℕ := (8 <<< x) <<< x

/-- The index `z` of the first entry of a block. -/
def metaStart (x : ℕ) : ℕ := ((List.range x).map metaNum).sum

def getPadding (base off align : Size) : Size := ((base + off + (align - 1)) &&& ~~~(align - 1)) - base

/-- The meta-data of an allocation. -/
structure MemoryManagerAlloc where
  key : Key
  refCount : ℤ
  offset : Size
  userSize : Size
  rawSize : Size

def MemoryManagerAlloc.isFree (m : MemoryManagerAlloc) : Bool := m.key.isEmpty

/-- What a process keeps of its own: the blocks of meta-data it has mapped, its marks and the entry
it has looked up last. -/
structure Process where
  attached : ℕ → Bool
  marks : ℕ → Bool
  lastZ : ℕ

/-- The region: its size, and what the processes know of it that does not change. -/
structure Region (ι : Type*) where
  size : Size
  base : ι → Size
  alignment : ι → Size
  pid : ι → ℕ
  slotAddr : ι → ℕ → ℕ

/-- The meta-data area with all processes that share it. -/
structure Area (ι : Type*) where
  offset : Size
  nmetas : ℕ
  metas : ℕ → MemoryManagerAlloc
  procs : ι → Process

section Keys

variable {ι : Type*} (r : Region ι)

/-- The key of an allocation that was asked for without one. -/
def privateKey (p : ι) (z : ℕ) : Key :=
  ['/', 'p', 'a', 'm', 'i', '-'] ++ Nat.toDigits 10 (r.pid p) ++ ['-', '0', 'x'] ++ Nat.toDigits 16 (r.slotAddr p z)

/-- The key that is chosen for a caller who wants to know it. -/
def chosenKey (p : ι) (memptr : ℕ) : Key := ['/'] ++ Nat.toDigits 10 (r.pid p) ++ ['-'] ++ Nat.toDigits 16 memptr

end Keys

namespace Area

variable {ι : Type*} [DecidableEq ι]

def setProc (s : Area ι) (p : ι) (q : Process) : Area ι :=
  { s with procs := Function.update s.procs p q }

def setAlloc (s : Area ι) (z : ℕ) (m : MemoryManagerAlloc) : Area ι :=
  { s with metas := Function.update s.metas z m }

def mark (s : Area ι) (p : ι) (z : ℕ) : Area ι :=
  s.setProc p { s.procs p with marks := Function.update (s.procs p).marks z true }

def unMark (s : Area ι) (p : ι) (z : ℕ) : Area ι :=
  s.setProc p { s.procs p with marks := Function.update (s.procs p).marks z false }

def addRef (s : Area ι) (z : ℕ) : Area ι := s.setAlloc z { s.metas z with refCount := (s.metas z).refCount + 1 }

/-- `_getMeta`; `metaAlloc` tells whether the manager of the meta-data has the block. -/
def getMeta (metaAlloc : ℕ → Bool) (p : ι) (x : ℕ) (s : Area ι) : Option (Area ι) :=
  if (s.procs p).attached x then some s
  else if metaAlloc x then
    some { s.setProc p { s.procs p with attached := Function.update (s.procs p).attached x true } with
      nmetas := if s.nmetas ≤ x then x + 1 else s.nmetas }
  else none

/-- `__locateOne` with `fill`, called until its result passes the test of the caller. -/
def locate (metaAlloc : ℕ → Bool) (p : ι) (test : MemoryManagerAlloc → Bool) :
    List ℕ → Area ι → Area ι × Option ℕ
  | [], s => (s, none)
  | x :: xs, s =>
    match s.getMeta metaAlloc p x with
    | none => (s, none)
    | some s =>
      match (List.range' (metaStart x) (metaNum x)).find? fun z => test (s.metas z) with
      | some z => (s, some z)
      | none => locate metaAlloc p test xs s

/-- `find` of a key. -/
def find (metaAlloc : ℕ → Bool) (p : ι) (key : Key) (s : Area ι) : Area ι × Option ℕ :=
  match s.locate metaAlloc p (fun m => !m.isFree && m.key == key) (List.range s.nmetas) with
  | (s, none) => (s, none)
  | (s, some z) => ((s.setProc p { s.procs p with lastZ := z }).addRef z |>.mark p z, some z)

/-- `findFree`; the key that `key(NULL)` makes depends on the entry. -/
def findFree (r : Region ι) (metaAlloc : ℕ → Bool) (p : ι) (len aln : Size) (key : ℕ → Key)
    (s : Area ι) : Area ι × Option ℕ :=
  let off := getPadding (r.base p) s.offset aln
  let pad := off - s.offset
  match s.locate metaAlloc p MemoryManagerAlloc.isFree (List.range MMMAX_N_META) with
  | (s, none) => (s, none)
  | (s, some z) =>
    let s := s.setAlloc z { s.metas z with userSize := len, offset := off, rawSize := len + pad }
    if r.size < off + len then (s, none)
    else
      let s := { s with offset := off + len }
      ((s.setAlloc z { s.metas z with key := key z }).addRef z |>.mark p z, some z)

end Area

/-- The result of `memalign`; with the address, the entry and whether it was there before. -/
inductive Result
  | INVAL
  | ERROR
  | SUCCESS (mem : Size) (z : ℕ) (found : Bool)

namespace Area

variable {ι : Type*} [DecidableEq ι]

/-- An allocation of its own, in `memalign`. -/
def allocate (r : Region ι) (metaAlloc : ℕ → Bool) (p : ι) (alignment bytes : Size)
    (key : ℕ → Key) (s : Area ι) : Area ι × Result :=
  match s.findFree r metaAlloc p bytes alignment key with
  | (s, none) => (s, .ERROR)
  | (s, some z) => (s, .SUCCESS (r.base p + (s.metas z).offset) z false)

/-- `memalign` of `GenMemoryManager`, called by process `p`. -/
def memalign (r : Region ι) (metaAlloc : ℕ → Bool) (p : ι) (memptr : ℕ) (alignment bytes : Size)
    (key : Option Key) (s : Area ι) : Area ι × Result :=
  let alignment := if alignment < r.alignment p then r.alignment p else alignment
  match key with
  | none => s.allocate r metaAlloc p alignment bytes fun z => privateKey r p z
  | some [] => s.allocate r metaAlloc p alignment bytes fun _ => chosenKey r p memptr
  | some (c :: cs) =>
    if MMKEYSIZE ≤ (c :: cs).length then (s, .INVAL)
    else match s.find metaAlloc p (c :: cs) with
      | (s, some z) => (s, .SUCCESS (r.base p + (s.metas z).offset) z true)
      | (s, none) => s.allocate r metaAlloc p alignment bytes fun _ => c :: cs

/-- `free` of an entry, for `_freeAll`: the mark it removes is that of the entry that was looked up
last. -/
def freeMeta (p : ι) (z : ℕ) (s : Area ι) : Area ι × Bool :=
  let last := (s.metas z).refCount == 1
  let s := s.unMark p (s.procs p).lastZ
  (s.setAlloc z { s.metas z with
    refCount := (s.metas z).refCount - 1, key := if last then [] else (s.metas z).key }, last)

/-- One entry in `_freeAll`, with the number of those not freed. -/
def freeOne (p : ι) (sn : Area ι × ℕ) (z : ℕ) : Area ι × ℕ :=
  if (sn.1.metas z).isFree then sn
  else if (sn.1.procs p).marks z then
    match sn.1.freeMeta p z with
    | (s, true) => (s, sn.2)
    | (s, false) => (s, sn.2 + 1)
  else (sn.1, sn.2 + 1)

/-- The entries `__locateOne` finds without `fill`: those of the blocks up to the first that the
process has not mapped. -/
def visible (s : Area ι) (p : ι) : List ℕ := ((List.range s.nmetas).takeWhile (s.procs p).attached).flatMap fun x =>
    List.range' (metaStart x) (metaNum x)

def freeAll (p : ι) (s : Area ι) : Area ι :=
  let sn := (s.visible p).foldl (freeOne p) (s, 0)
  if sn.2 = 0 then { sn.1 with offset := 0 } else sn.1

/-- `reset`; its result says whether the region is empty. -/
def reset (p : ι) (s : Area ι) : Area ι × Bool := (s.freeAll p, (s.freeAll p).offset == 0)

/-- `find` of an offset. -/
def findOffset (p : ι) (off : Size) (s : Area ι) : Area ι × Option ℕ :=
  match (s.visible p).find? fun z => !(s.metas z).isFree && (s.metas z).offset == off with
  | some z => (s.setProc p { s.procs p with lastZ := z }, some z)
  | none => (s, none)

/-- `free` of `GenMemoryManager`: it finds the allocation and keeps it. -/
def free (r : Region ι) (p : ι) (mem : Size) (s : Area ι) : Area ι := (s.findOffset p (mem - r.base p)).1

end Area

end PAMI.Memory

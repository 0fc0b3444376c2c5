import PAMI.Math.Links
import PAMI.Math.Runs

namespace PAMI.Cshmem

open PAMI.Math Function

def cacheBlockSz : ℕ := 128

/-- The three pools of the shared region, in the order in which they lie there. -/
inductive Kind where
  | ctrl
  | large
  | data
  deriving DecidableEq, Repr

/-- The template's counts and sizes. -/
structure Params where
  cnt : Kind → ℕ
  sz : Kind → ℕ
  cnt_pos : ∀ k, 0 < cnt k

namespace Params

variable (P : Params)

/-- `_size`, which is also the null offset. -/
def size : ℕ := cacheBlockSz + P.cnt .ctrl * P.sz .ctrl + P.cnt .data * P.sz .data + P.cnt .large * P.sz .large

/-- `sizeof` of the union with the link, which is aligned to a cache block. -/
def sizeOf (k : Kind) : ℕ := (max (P.sz k) 8 + (cacheBlockSz - 1)) / cacheBlockSz * cacheBlockSz

/-- Where the pool starts before anything is taken from it. -/
def poolStart : Kind → ℕ
  | .ctrl => cacheBlockSz
  | .large => cacheBlockSz + P.cnt .ctrl * P.sizeOf .ctrl
  | .data => cacheBlockSz + P.cnt .ctrl * P.sizeOf .ctrl + P.cnt .large * P.sizeOf .large

end Params

/-- The shared region: the first word of each buffer, which is its link, and the offsets of the
pools and of the list heads. -/
structure CollShm where
  word : ℕ → ℕ
  pool : Kind → ℕ
  list : Kind → ℕ

namespace CollShm

variable (P : Params) (s : CollShm) (k : Kind)

/-- `next_offset` of a buffer, or of the list head; none for the null offset. -/
def next (a : ℕ) : Option ℕ := if s.word a = P.size then none else some (s.word a)

def fetch : ℕ := s.word (s.list k)

def store (a v : ℕ) : CollShm := { s with word := update s.word a v }

/-- Where the pool is taken to end. The last two are the offsets at which the next pool goes on. -/
def poolEnd : Kind → ℕ
  | .data => P.size
  | .ctrl => s.pool .large
  | .large => s.pool .data

def fits : Prop := s.pool k + P.cnt k * P.sizeOf k ≤ s.poolEnd P k

instance : Decidable (s.fits P k) := inferInstanceAs (Decidable (_ ≤ _))

/-- The loop that links the first buffers of a chunk at `a`, each to the next one. -/
def chain (a : ℕ) : ℕ → CollShm
  | 0 => s
  | i + 1 => (chain a i).store (a + i * P.sizeOf k) (a + (i + 1) * P.sizeOf k)

/-- `_get_ctrl_str_from_pool` and its two siblings, without what they do when the pool is used up. -/
def takeChunk : Option (ℕ × CollShm) :=
  if s.fits P k then
    let a := s.pool k
    let s := (s.chain P k a (P.cnt k - 1)).store (a + (P.cnt k - 1) * P.sizeOf k) P.size
    some (a, { s with pool := update s.pool k (a + P.cnt k * P.sizeOf k) })
  else none

/-- The loop of `getCtrlStr` and its two siblings, with the number of buffers still to get, where nobody else writes before
the compare-and-swap. When a pool is used up an assertion fails, or a large buffer is null. -/
def getLoop (s : CollShm) : ℕ → ℕ → Option (ℕ × CollShm)
  | 0, buffers => some (buffers, s)
  | r + 1, buffers =>
    let cur := s.fetch k
    if cur = P.size then
      match s.takeChunk P k with
      | none => if k = .large then some (P.size, s) else none
      | some (tmp, s) =>
        let cur := tmp + r * P.sizeOf k
        let next := s.word cur
        let s := s.store cur buffers
        let last := tmp + (P.cnt k - 1) * P.sizeOf k
        let s := s.store last (s.fetch k)
        some (tmp, s.store (s.list k) next)
    else
      let s := s.store (s.list k) (s.word cur)
      getLoop (s.store cur buffers) r cur

/-- The last buffer of a list and the number of links to it, within `n` links. -/
def lastOf : ℕ → ℕ → Option (ℕ × ℕ)
  | 0, _ => none
  | n + 1, tmp =>
    match s.next P tmp with
    | none => some (tmp, 0)
    | some tmp' => (lastOf n tmp').map fun r => (r.1, r.2 + 1)

/-- The second loop of `returnCtrlStr`, over `n` control structures. -/
def pushEach (s : CollShm) : ℕ → ℕ → CollShm
  | 0, _ => s
  | n + 1, cur =>
    let next := s.word cur
    let s := s.store cur 0
    let s := s.store cur (s.fetch .ctrl)
    pushEach (s.store (s.list .ctrl) cur) n next

end CollShm

/-- A manager: the shared region and the numbers in use. -/
structure Manager where
  shm : CollShm
  inUse : Kind → ℤ

namespace Manager

variable (P : Params) (m : Manager) (k : Kind)

/-- `getCtrlStr`, `getLargeDataBuffer` and `getDataBuffer`. -/
def get (count : ℕ) : Option (ℕ × Manager) :=
  if count ≤ P.cnt k then
    (m.shm.getLoop P k count P.size).map fun r => (r.1, ⟨r.2, if r.1 = P.size then m.inUse
        else update m.inUse k (m.inUse k + count)⟩)
  else none

/-- `returnLargeDataBuffer` and `returnDataBuffer`. -/
def returnBuffer (buf : ℕ) : Option Manager :=
  if buf = P.size then none
  else (m.shm.lastOf P (P.cnt k) buf).map fun r =>
    let s := m.shm.store r.1 (m.shm.fetch k)
    ⟨s.store (s.list k) r.1, update m.inUse k (m.inUse k - r.2)⟩

def returnCtrlStr (ctlstr : ℕ) : Option Manager :=
  if ctlstr = P.size then none
  else (m.shm.lastOf P (P.cnt .ctrl) ctlstr).map fun r =>
    ⟨m.shm.pushEach (r.2 + 1) ctlstr, update m.inUse .ctrl (m.inUse .ctrl - (r.2 + 1))⟩

def ret (buf : ℕ) : Option Manager :=
  match k with
  | .ctrl => m.returnCtrlStr P buf
  | .large => m.returnBuffer P .large buf
  | .data => m.returnBuffer P .data buf

/-- `__collshminit` on a cleared region: each list head is placed in the first buffer of the pool's
only chunk, and its constructor leaves the link there. -/
def init : Option Manager :=
  let s : CollShm := ⟨fun _ => 0, P.poolStart, fun _ => 0⟩
  (s.takeChunk P .ctrl).bind fun r =>
    let s : CollShm := { r.2 with list := update r.2.list .ctrl r.1 }
    (s.takeChunk P .data).bind fun r =>
      let s : CollShm := { r.2 with list := update r.2.list .data r.1 }
      (s.takeChunk P .large).map fun r => ⟨{ r.2 with list := update r.2.list .large r.1 }, fun _ => 0⟩

end Manager

end PAMI.Cshmem

import Mathlib.Algebra.Ring.Nat
import PAMI.Math.Placed

namespace PAMI.TspColl

open PAMI.Math

/-- The count and the contiguous types of an allreduce. -/
structure Reduction where
  nelems : ℕ
  rdataWidth : ℕ
  sdataWidth : ℕ

def Reduction.bytes (o : Reduction) : ℕ := o.nelems * o.rdataWidth

/-- `_nelems`, in elements of the send type. -/
def Reduction.count (o : Reduction) : ℕ := o.bytes / o.sdataWidth

/-- The count and the types of a reduction, with the cells of a buffer that their elements are in. Those of the receive
buffer are different ones; the cells from `count` on are not those of an element. -/
structure TypedReduction extends Reduction where
  rdataExtent : ℕ
  sdataExtent : ℕ
  rcell : ℕ → ℕ
  scell : ℕ → ℕ
  injective : rcell.Injective

def TypedReduction.packed (n : ℕ) : TypedReduction where
  nelems := n
  rdataWidth := 1
  sdataWidth := 1
  rdataExtent := 1
  sdataExtent := 1
  rcell := id
  scell := id
  injective := Function.injective_id

/-- Whether `_contig` stays set. -/
def TypedReduction.contig (o : TypedReduction) : Bool :=
  !decide (o.rdataExtent ≠ o.rdataWidth ∨ o.sdataWidth ≠ o.sdataExtent)

/-- Where `_contig` has stayed set in all reductions so far, the elements of the receive type are in the order of the
memory: a type that extends over as many bytes as it has may still permute them. -/
def InOrder (op : ℕ → TypedReduction) (n : ℕ) : Prop :=
  (∀ m, 0 < m → m ≤ n → (op m).contig = true) → ∀ i < (op n).count, (op n).rcell i = i

/-- The buffers that a rank calls a collective with, as elements; `inPlace` is that they are the same. -/
structure Buffers (β : Type*) where
  sbuf : ℕ → β
  dbuf : ℕ → β
  inPlace : Bool

section Elements

variable {β : Type*}

def Buffers.contribution (c : Buffers β) : ℕ → β := if c.inPlace then c.dbuf else c.sbuf

def copyElements (count : ℕ) (src dst : ℕ → β) : ℕ → β := fun i => if i < count then src i else dst i

/-- `math_func (dst, {dst, src}, 2, count)` -/
def combine [Add β] (count : ℕ) (dst src : ℕ → β) : ℕ → β := fun i => if i < count then dst i + src i else dst i

/-- The reduction of what was received into a buffer with a type, which is packed for that unless the types are
contiguous; and the packing buffer. -/
def reduceInto [Add β] (contig : Bool) (nelems : ℕ) (rcell : ℕ → ℕ) (received tmpredbuf dbuf : ℕ → β) :
    (ℕ → β) × (ℕ → β) :=
  if contig then (combine nelems dbuf received, tmpredbuf)
  else
    let reduced := combine nelems (copyElements nelems (fun i => dbuf (rcell i)) tmpredbuf) received
    (place rcell reduced dbuf nelems, reduced)

section ReduceInto

variable [Add β] {contig : Bool} {nelems i k : ℕ} {rcell : ℕ → ℕ} {received tmpredbuf dbuf : ℕ → β}

theorem reduceInto_cell (hcell : rcell.Injective) (hcon : contig=true → ∀ i<nelems, rcell i = i) (hi : i<nelems) :
    (reduceInto contig nelems rcell received tmpredbuf dbuf).1 (rcell i) = dbuf (rcell i)+received i := by
  rw [reduceInto]
  split
  case isTrue h =>
    rw [hcon h i hi]
    exact if_pos hi
  case isFalse =>
    refine (place_cell hcell.injOn hi).trans ?_
    rw [combine,if_pos hi,copyElements,if_pos hi]

theorem reduceInto_of_ne (hcon : contig=true → ∀ i<nelems, rcell i = i) (hk : ∀ i<nelems, rcell i ≠ k) :
    (reduceInto contig nelems rcell received tmpredbuf dbuf).1 k = dbuf k := by
  rw [reduceInto]
  split
  case isTrue h => exact if_neg fun hlt => hk k hlt (hcon h k hlt)
  case isFalse => exact place_of_ne hk

end ReduceInto

/-- What the elements of a buffer are, in the order of the types. -/
def Buffers.packed (o : TypedReduction) (c : Buffers β) : Buffers β where
  sbuf := fun i => c.sbuf (o.scell i)
  dbuf := fun i => c.dbuf (o.rcell i)
  inPlace := c.inPlace

/-- The destination buffer, after the source is copied to it unless they are the same. -/
def Buffers.copied (o : TypedReduction) (c : Buffers β) : ℕ → β :=
  if c.inPlace then c.dbuf else place o.rcell (fun i => c.sbuf (o.scell i)) c.dbuf o.count

def packedCalls {ι : Type*} (op : ℕ → TypedReduction) (call : ι → ℕ → Buffers β) (r : ι) (n : ℕ) : Buffers β :=
  (call r n).packed (op n)

variable {o : TypedReduction} {c : Buffers β} {i k : ℕ}

theorem Buffers.copied_cell (hi : i<o.count) : c.copied o (o.rcell i) = (c.packed o).contribution i := by
  cases hpla : c.inPlace with
  | true => simp only [copied,packed,contribution,hpla,if_pos]
  | false =>
    simp only [copied,packed,contribution,hpla,Bool.false_eq_true,if_false]
    exact place_cell o.injective.injOn hi

theorem Buffers.copied_of_ne (hk : ∀ i<o.count, o.rcell i ≠ k) : c.copied o k = c.dbuf k := by
  rw [copied]
  split
  case isTrue => rfl
  case isFalse => exact place_of_ne hk

end Elements

/-- A message with its length. -/
structure LengthMessage (β : Type*) where
  bytes : ℕ
  value : ℕ → β

section Contributions

variable {β : Type*} {N : ℕ} [Zero β]

/-- What the ranks take part with in an execution, by rank. -/
def contributions (call : Fin N → ℕ → Buffers β) (n i r : ℕ) : β :=
  if h : r < N then (call ⟨r, h⟩ n).contribution i else 0

theorem contributions_rank (call : Fin N → ℕ → Buffers β) (n i : ℕ) (r : Fin N) :
    contributions call n i r = (call r n).contribution i := dif_pos r.isLt

end Contributions

end PAMI.TspColl

import PAMI.Math.Placed
import PAMI.TspColl.ExchangeRuns

namespace PAMI.TspColl

open PAMI.Math Exchanges List Nat

/-- A receive type: the bytes that it has, its extent, and the cells of its bytes. -/
structure RecvType where
  dataSize : ℕ
  extent : ℕ
  disp : ℕ → ℕ

/-- The cell of a byte of a sequence of elements. -/
def RecvType.cell (t : RecvType) (o : ℕ) : ℕ := o / t.dataSize * t.extent + t.disp (o % t.dataSize)

theorem RecvType.cell_mul_add (t : RecvType) (ht : 0<t.dataSize) (k q : ℕ) :
    t.cell (k*t.dataSize+q) = k*t.extent+t.cell q := by
  have hdiv : (k*t.dataSize+q)/t.dataSize=k+q/t.dataSize := by
    rw [add_comm,add_mul_div_right _ _ ht,add_comm]
  have hmod : (k*t.dataSize+q)%t.dataSize=q%t.dataSize := by rw [add_comm,add_mul_mod_self_right]
  rw [cell,cell,hdiv,hmod,add_mul,add_assoc]

theorem mem_block_iff {size k o : ℕ} (hsi : 0 < size) :
    (k*size≤o ∧ o<k*size+size) ↔ o/size=k := by
  rw [Nat.div_eq_iff hsi,Nat.add_sub_assoc (succ_le_of_lt hsi)]
  omega

theorem mem_blocks_iff {size first count o : ℕ} (hsi : 0 < size) :
    (first*size≤o ∧ o<first*size+size*count) ↔ first≤o/size ∧ o/size<first+count := by
  have hend : first*size+size*count=(first+count)*size := by rw [add_mul,mul_comm size count]
  rw [hend,Nat.le_div_iff_mul_le hsi,Nat.div_lt_iff_lt_mul hsi]

/-- The buffers that a rank calls a gather with; the source buffer has a type too. -/
structure GatherCall (β : Type*) where
  sbuf : ℕ → β
  scell : ℕ → ℕ
  dbuf : ℕ → β

def GatherCall.source {β : Type*} (c : GatherCall β) (q : ℕ) : β := c.sbuf (c.scell q)

/-- What the resets of a gather set: the receive type, where the rank's own bytes go, and for each phase with data the
offsets of `_sbuf` and `_rbuf` and the lengths. -/
structure GatherPlan (N : ℕ) where
  rtype : ℕ → RecvType
  own : Fin N → ℕ → ℕ → ℕ
  ownln : Fin N → ℕ → ℕ
  soff : Fin N → ℕ → ℕ → ℕ
  roff : Fin N → ℕ → ℕ → ℕ
  sbufln : Fin N → ℕ → ℕ → ℕ
  rbufln : Fin N → ℕ → ℕ → ℕ

/-- The destination buffer of a rank, and the execution that it is for. -/
structure Gathered (β : Type*) where
  dbuf : ℕ → β
  counter : ℕ

variable {β : Type*} {N : ℕ}

/-- What the ranks do in a sequence of gathers; the messages of the barrier have no data. -/
def GatherPlan.client (P : GatherPlan N) (call : Fin N → ℕ → GatherCall β) :
    PhaseClient (Fin N) (Gathered β) (List β) where
  start := fun r n _ => ⟨write (P.own r n) ((List.range (P.ownln r n)).map (call r n).source) (call r n).dbuf, n⟩
  payload := fun a n p x =>
    if p < doublings N then []
    else (List.range (P.sbufln a n p)).map fun q => x.dbuf (P.soff a n p + (P.rtype n).cell q)
  deliver := fun b _ p m x =>
    if p < doublings N then x
    else { x with dbuf := write (fun q => P.roff b x.counter p + (P.rtype x.counter).cell q) m x.dbuf }
  postrcv := fun _ _ _ x => x

/-- The blocks of a plan in the sequence of all bytes, which is packed: where the block of each rank begins, and the first
byte of each message. What is sent is what is expected, and goes to the same place; the cells of the blocks are different
ones. -/
structure GatherLayout (P : GatherPlan N) where
  position : Fin N → ℕ → ℕ
  first : Fin N → ℕ → ℕ → ℕ
  distinct : ∀ n, 0 < n → Set.InjOn (P.rtype n).cell {o | ∃ b, position b n ≤ o ∧ o < position b n + P.ownln b n}
  own_cell : ∀ r n q, 0 < n → q < P.ownln r n → P.own r n q = (P.rtype n).cell (position r n + q)
  disjoint : ∀ a b n i j, 0 < n → i < P.ownln a n → j < P.ownln b n → position a n + i = position b n + j → a = b
  agree : ∀ a b n p, 0 < n → doublings N ≤ p → ringDest a p = some b →
    P.sbufln a n p = P.rbufln b n p ∧ ∀ q < P.sbufln a n p,
      P.soff a n p + (P.rtype n).cell q = (P.rtype n).cell (first a n p + q) ∧
        P.roff b n p + (P.rtype n).cell q = (P.rtype n).cell (first a n p + q)
  halves : ∀ a n i, 0 < n → i < doublings N → ∀ o, ((first a n (doublings N + 2 * i) ≤ o ∧
          o < first a n (doublings N + 2 * i) + P.sbufln a n (doublings N + 2 * i)) ∨
        (first a n (doublings N + 2 * i + 1) ≤ o ∧
          o < first a n (doublings N + 2 * i + 1) + P.sbufln a n (doublings N + 2 * i + 1))) ↔
      ∃ d < 2 ^ i, position (forward d a) n ≤ o ∧ o < position (forward d a) n + P.ownln (forward d a) n

namespace GatherLayout

variable {P : GatherPlan N} (L : GatherLayout P)

def block (b : Fin N) (n : ℕ) : Set ℕ := {o | L.position b n ≤ o ∧ o < L.position b n + P.ownln b n}

def ring : RingContent N ℕ where
  block := L.block
  content := fun a n p => {o | L.first a n p ≤ o ∧ o < L.first a n p + P.sbufln a n p}
  halves := fun a n i hn hi o => L.halves a n i hn hi o

/-- A byte of the sequence. -/
noncomputable def value (call : Fin N → ℕ → GatherCall β) (r : Fin N) (n o : ℕ) : β := by
  classical
  exact if h : ∃ b, o ∈ L.block b n then (call h.choose n).source (o - L.position h.choose n) else (call r n).dbuf 0

variable {L} {call : Fin N → ℕ → GatherCall β} {r a b : Fin N} {n o p : ℕ}

variable (L)

/-- What a rank has of the sequence of all bytes. -/
structure Holds (call : Fin N → ℕ → GatherCall β) (r : Fin N) (n : ℕ) (K : Set ℕ) (x : Gathered β) : Prop where
  counter : x.counter = n
  bytes : 0 < n → ∀ o ∈ K, (∃ b, o ∈ L.block b n) → x.dbuf ((P.rtype n).cell o) = L.value call r n o
  frame : 0 < n → ∀ c, (∀ b, ∀ o ∈ L.block b n, (P.rtype n).cell o ≠ c) → x.dbuf c = (call r n).dbuf c

/-- What a rank sends in a phase. -/
noncomputable def sendValue (call : Fin N → ℕ → GatherCall β) (a : Fin N) (n p : ℕ) : List β :=
  if p < doublings N then []
  else (List.range (P.sbufln a n p)).map fun q => L.value call a n (L.first a n p + q)

variable {L}

end GatherLayout

end PAMI.TspColl

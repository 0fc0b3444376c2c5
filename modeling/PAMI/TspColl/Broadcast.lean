import Mathlib.Data.Int.Bitwise
import PAMI.Math.BinomialTree
import PAMI.TspColl.Allgather
import PAMI.TspColl.Reduction

namespace PAMI.TspColl

open PAMI.Math Exchanges Option Nat

/-- The root, the type and the count of a broadcast, whose bytes have cells of their own. -/
structure Bcast (N : ℕ) where
  rootindex : Fin N
  type : RecvType
  typecount : ℕ
  distinct : Set.InjOn type.cell (Set.Iio (type.dataSize * typecount))

def Bcast.nbytes {N : ℕ} (o : Bcast N) : ℕ := o.type.dataSize * o.typecount

/-- The data of a rank: its buffer and the execution that it is in; and, for the statements, whether a message of another
execution came to the buffer. -/
structure BcastData (β : Type*) where
  dbuf : ℕ → β
  counter : ℕ
  early : Bool

namespace Broadcast

variable {β : Type*} {N : ℕ} {i p : ℕ} {root r : Fin N}

def myrelrank (root r : Fin N) : ℕ := (r + N - root) % N

def dist (N i : ℕ) : ℕ := 2 ^ (numphases N - 1 - i)

def sendmask (N i : ℕ) : ℕ := 2 ^ (numphases N - i) - 1

def destrelrank (root r : Fin N) (i : ℕ) : ℕ := myrelrank root r + dist N i

def srcrelrank (root r : Fin N) (i : ℕ) : ℤ := (myrelrank root r : ℤ) - dist N i

def dosend (root r : Fin N) (i : ℕ) : Prop := myrelrank root r &&& sendmask N i = 0 ∧ destrelrank root r i < N

def dorecv (root r : Fin N) (i : ℕ) : Prop :=
  Int.land (srcrelrank root r i) (sendmask N i) = 0 ∧ 0 ≤ srcrelrank root r i

instance (root r : Fin N) (i : ℕ) : Decidable (dosend root r i) := inferInstanceAs (Decidable (_ ∧ _))

theorem dorecv_toNat :
    0 ≤ srcrelrank root r i ∧ (srcrelrank root r i).toNat &&& sendmask N i = 0 ↔ dorecv root r i := by
  rw [dorecv,and_comm (b := 0 ≤ _)]
  refine and_congr_right fun h => ?_
  obtain ⟨k,hk⟩ := Int.eq_ofNat_of_zero_le h
  have hmask : Int.land k (sendmask N i)=((k &&& sendmask N i : ℕ) : ℤ) := rfl
  rw [hk,hmask,Int.toNat_natCast,cast_eq_zero]

instance (root r : Fin N) (i : ℕ) : Decidable (dorecv root r i) := decidable_of_iff _ dorecv_toNat

def index (root : Fin N) (k : ℕ) : Fin N := ⟨(k + root) % N, mod_lt _ root.pos⟩

def destindex (root r : Fin N) (i : ℕ) : Fin N := index root (destrelrank root r i)

def srcindex (root r : Fin N) (i : ℕ) : Fin N := index root (srcrelrank root r i).toNat

/-- To whom a rank sends in a phase of the barrier. -/
def barrierDest (r : Fin N) (i : ℕ) : Fin N := ⟨Allgather.previndex r i, mod_lt _ r.pos⟩

/-- `_sbufln` and `_rbufln` of the phases with data. -/
def sbufln (o : Bcast N) (r : Fin N) (i : ℕ) : ℕ := if dosend o.rootindex r i then o.nbytes else 0

def rbufln (o : Bcast N) (r : Fin N) (i : ℕ) : ℕ := if dorecv o.rootindex r i then o.nbytes else 0

def dest (root r : Fin N) (p : ℕ) : Option (Fin N) :=
  if p < numphases N then some (barrierDest r p)
  else if p < 2 * numphases N ∧ dosend root r (p - numphases N) then some (destindex root r (p - numphases N))
  else none

def source (root r : Fin N) (p : ℕ) : Option (Fin N) :=
  if p < numphases N then some (forward (2 ^ p) r)
  else if p < 2 * numphases N ∧ dorecv root r (p - numphases N) then some (srcindex root r (p - numphases N))
  else none

def rootData (op : ℕ → Bcast N) (call : Fin N → ℕ → Buffers β) (n q : ℕ) : β :=
  (call (op n).rootindex n).contribution ((op n).type.cell q)

def reset (o : Bcast N) (r : Fin N) (n : ℕ) (c : Buffers β) (x : BcastData β) : BcastData β :=
  { x with
    dbuf := if r = o.rootindex ∧ c.inPlace = false then
        write o.type.cell ((List.range o.nbytes).map fun q => c.sbuf (o.type.cell q)) c.dbuf
      else c.dbuf
    counter := n }

/-- What the ranks do in a sequence of broadcasts; the messages of the barrier have no data. -/
def client (op : ℕ → Bcast N) (call : Fin N → ℕ → Buffers β) : PhaseClient (Fin N) (BcastData β) (List β) where
  start := fun r n x => reset (op n) r n (call r n) x
  payload := fun a n p x =>
    if p < numphases N then []
    else (List.range (sbufln (op n) a (p - numphases N))).map fun q => x.dbuf ((op n).type.cell q)
  deliver := fun _ n p m x =>
    if p < numphases N then x
    else { x with
      dbuf := write (op x.counter).type.cell m x.dbuf
      early := x.early || decide (x.counter ≠ n) }
  postrcv := fun _ _ _ x => x

theorem myrelrank_lt (root r : Fin N) : myrelrank root r < N := mod_lt _ root.pos

theorem index_eq_forward (root : Fin N) (k : ℕ) : index root k = forward k root :=
  Fin.ext (congrArg (· % N) (add_comm k root))

theorem index_myrelrank (root r : Fin N) : index root (myrelrank root r) = r := by
  rw [index_eq_forward]
  exact forward_offset root r

theorem index_eq_iff {k : ℕ} (hk : k<N) : index root k = r ↔ myrelrank root r = k := by
  rw [index_eq_forward]
  exact (offset_eq_iff hk).symm

theorem dosend_iff :
    dosend root r i ↔ 2^(numphases N-i) ∣ myrelrank root r ∧ myrelrank root r+dist N i < N := by
  rw [dosend,sendmask,and_two_pow_sub_one_eq_mod,dvd_iff_mod_eq_zero,destrelrank]

theorem srcrelrank_toNat (root r : Fin N) (i : ℕ) : (srcrelrank root r i).toNat = myrelrank root r-dist N i :=
  Int.toNat_sub _ _

theorem dorecv_iff (hi : i < numphases N) :
    dorecv root r i ↔ Receives (numphases N) i (myrelrank root r) := by
  have hle : 0 ≤ srcrelrank root r i ↔ dist N i ≤ myrelrank root r := by rw [srcrelrank,Int.sub_nonneg,Int.ofNat_le]
  rw [receives_iff hi,← dorecv_toNat,hle,srcrelrank_toNat,sendmask,and_two_pow_sub_one_eq_mod,
    ← dvd_iff_mod_eq_zero]
  rfl

theorem sends_iff {a b : Fin N} (hi : i < numphases N) :
    (dosend root a i ∧ destindex root a i = b) ↔ (dorecv root b i ∧ srcindex root b i = a) := by
  have hb := myrelrank_lt root b
  rw [dosend_iff,dorecv_iff hi,receives_iff hi,destindex,srcindex,srcrelrank_toNat,destrelrank]
  constructor
  · rintro ⟨⟨hdvd,hlt⟩,hds⟩
    have hrel := (index_eq_iff hlt).mp hds
    have hback : myrelrank root b-dist N i = myrelrank root a := by omega
    refine ⟨⟨hrel ▸ Nat.le_add_left _ _,hback.symm ▸ hdvd⟩,?_⟩
    rw [hback,index_myrelrank]
  · rintro ⟨⟨hle,hdvd⟩,hsou⟩
    have hle : dist N i ≤ myrelrank root b := hle
    have hrel := (index_eq_iff (by omega)).mp hsou
    have hsum : myrelrank root a+dist N i = myrelrank root b := by omega
    refine ⟨⟨hrel ▸ hdvd,hsum ▸ hb⟩,?_⟩
    rw [hsum,index_myrelrank]

theorem barrierDest_eq (hi : i < numphases N) : barrierDest r i = backward (2^i) r := by
  have hlt := two_pow_lt_of_lt_doublings hi
  refine (backward_eq_iff.mpr ?_).symm
  calc (barrierDest r i+2^i : ℕ) ≡ r+2*N-2^i+2^i [MOD N] := (mod_modEq _ N).add_right _
    _ = r+N*2 := by omega
    _ ≡ r [MOD N] := add_mul_mod_self_left _ _ _

theorem dest_iff {a b : Fin N} : dest root a p = some b ↔ source root b p = some a := by
  rw [dest,source]
  split
  case isTrue hp => rw [some_inj,some_inj,barrierDest_eq hp,forward_iff_backward]
  case isFalse hp =>
    rw [ite_none_right_eq_some,ite_none_right_eq_some,some_inj,some_inj,and_assoc,and_assoc]
    refine and_congr_right fun hlt => ?_
    exact sends_iff (by omega)

theorem lt_of_dest {a b : Fin N} (h : dest root a p = some b) : p < 2*numphases N := by
  rw [dest] at h
  split at h
  case isTrue => omega
  case isFalse => exact (ite_none_right_eq_some.mp h).1.1

/-- What the constructor and `reset` set. -/
def tables (op : ℕ → Bcast N) : PhaseTables (Fin N) where
  numphases := fun _ => 2 * numphases N
  dest := fun a n p => dest (op n).rootindex a p
  source := fun b n p => source (op n).rootindex b p
  matched := fun _ _ _ _ => dest_iff
  bounded := fun _ _ _ _ h => ⟨lt_of_dest h, lt_of_dest h⟩

theorem disseminates (op : ℕ → Bcast N) : Disseminates (tables op) (numphases N) backward where
  zero := backward_zero
  add := backward_add
  dest := fun _ _ _ hp => (if_pos hp).trans (congrArg some (barrierDest_eq hp))
  cover := by
    intro a b
    obtain ⟨k,hk,hab⟩ := exists_backward a b
    exact ⟨k,hk.trans_le (le_two_pow_doublings N),hab⟩

theorem myrelrank_eq_zero : myrelrank root r = 0 ↔ r=root := offset_eq_zero

theorem received (hi : i ≤ numphases N) (hdvd : 2^(numphases N-i) ∣ myrelrank root r) :
    r=root ∨ ∃ j < i, dorecv root r j := by
  obtain hzr | hpos := Nat.eq_zero_or_pos (myrelrank root r)
  · exact .inl (myrelrank_eq_zero.mp hzr)
  · have hlt := (myrelrank_lt root r).trans_le (le_two_pow_doublings N)
    obtain ⟨j,hj,hrec⟩ := exists_receives hpos hlt hi hdvd
    exact .inr ⟨j,hj,(dorecv_iff (hj.trans_le hi)).mpr hrec⟩

end Broadcast

end PAMI.TspColl

namespace PAMI.TspColl.Broadcast

open PAMI.Math Exchanges Option

variable {β : Type*} {N : ℕ} {op : ℕ → Bcast N} {call : Fin N → ℕ → Buffers β} {r a b : Fin N} {n p : ℕ}
  {K : Set Unit} {x : BcastData β}

/-- What is in the buffer of a rank, which has the data of the root or not yet. -/
structure Holds (op : ℕ → Bcast N) (call : Fin N → ℕ → Buffers β) (r : Fin N) (n : ℕ) (K : Set Unit) (x : BcastData β) :
    Prop where
  counter : x.counter = n
  early : x.early = false
  bytes : 0 < n → () ∈ K → ∀ q < (op n).nbytes, x.dbuf ((op n).type.cell q) = rootData op call n q
  frame : 0 < n → ∀ c, (∀ q < (op n).nbytes, (op n).type.cell q ≠ c) → x.dbuf c = (call r n).dbuf c

def sendData (op : ℕ → Bcast N) (call : Fin N → ℕ → Buffers β) (a : Fin N) (n p : ℕ) : List β :=
  if p < numphases N then [] else (List.range (sbufln (op n) a (p - numphases N))).map (rootData op call n)

theorem holds_reset (hx : x.early=false) :
    Holds op call r n {_u | r=(op n).rootindex} (reset (op n) r n (call r n) x) := by
  refine ⟨rfl,hx,fun _ hrt q hq => ?_,fun _ c hc => ?_⟩
  · obtain rfl : r=(op n).rootindex := hrt
    simp only [reset,true_and,rootData,Buffers.contribution]
    split
    case isTrue hcopy =>
      rw [hcopy]
      exact write_range (op n).distinct hq
    case isFalse hcopy => rw [if_pos (Bool.of_not_eq_false hcopy)]
  · simp only [reset]
    split
    case isTrue => exact write_range_of_ne hc
    case isFalse => rfl

theorem Holds.deliver (h : Holds op call b n K x) (hsd : dosend (op n).rootindex a (p-numphases N))
    (hp : numphases N ≤ p) :
    Holds op call b n (K ∪ Set.univ) { x with
      dbuf := write (op x.counter).type.cell (sendData op call a n p) x.dbuf
      early := x.early || decide (x.counter≠n) } := by
  have hda : sendData op call a n p = (List.range (op n).nbytes).map (rootData op call n) := by
    rw [sendData,if_neg (not_lt.mpr hp),sbufln,if_pos hsd]
  rw [h.counter,hda]
  refine ⟨rfl,?_,fun _ _ q hq => ?_,fun hn c hc => ?_⟩
  · simp only [h.early,ne_eq,not_true_eq_false,decide_false,Bool.or_self]
  · exact write_range (op n).distinct hq
  · exact (write_range_of_ne hc).trans (h.frame hn c hc)

def indices (r : Fin 2) (_ : ℕ) : Buffers ℕ := ⟨fun _ => r, fun _ => 7, false⟩

end PAMI.TspColl.Broadcast

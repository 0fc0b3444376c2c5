import Mathlib.Algebra.BigOperators.Ring.Finset
import PAMI.Math.CyclicPacking
import PAMI.TspColl.Barrier
import PAMI.TspColl.GatherExchange

namespace PAMI.TspColl

open PAMI.Math Exchanges Nat

/-- The receive type and count of an allgather. -/
structure Gather where
  rtype : RecvType
  rtypecount : ℕ

def Gather.nrSize (o : Gather) : ℕ := o.rtype.dataSize * o.rtypecount

def Gather.nrExtent (o : Gather) : ℕ := o.rtype.extent * o.rtypecount

namespace Allgather

variable {β : Type*} {N : ℕ} {a b : Fin N} {p : ℕ}

def step (N p : ℕ) : ℕ := (p - numphases N) / 2

def isFirst (N p : ℕ) : Prop := (p - numphases N) % 2 = 0

instance (N p : ℕ) : Decidable (isFirst N p) := inferInstanceAs (Decidable (_ = _))

/-- The number of blocks, from an index on, in a phase: up to the end of the buffer, and the others from its begin on. -/
def blocks (N index p : ℕ) : ℕ :=
  if N ≤ index + 2 ^ step N p then
    if isFirst N p then N - index else index + 2 ^ step N p - N
  else if isFirst N p then 2 ^ step N p else 0

def previndex (r : Fin N) (i : ℕ) : ℕ := (r + 2 * N - 2 ^ i) % N

def nextindex (r : Fin N) (i : ℕ) : ℕ := (r + 2 ^ i) % N

/-- What the constructor and `reset` set. -/
def plan (op : ℕ → Gather) (N : ℕ) : GatherPlan N where
  rtype := fun n => (op n).rtype
  own := fun r n q => (op n).rtype.cell ((op n).nrSize * r + q)
  ownln := fun _ n => (op n).nrSize
  soff := fun r n p => if isFirst N p then r * (op n).nrExtent else 0
  roff := fun r n p => if isFirst N p then nextindex r (step N p) * (op n).nrExtent else 0
  sbufln := fun r n p => (op n).nrSize * blocks N r p
  rbufln := fun r n p => (op n).nrSize * blocks N (nextindex r (step N p)) p

theorem nextindex_eq (hp : numphases N ≤ p) (h : ringDest a p = some b) :
    nextindex b (step N p) = a := congrArg Fin.val (forward_of_ringDest hp h)

theorem sends_expected (op : ℕ → Gather) {n : ℕ} (hp : numphases N ≤ p) (h : ringDest a p = some b) :
    (plan op N).sbufln a n p = (plan op N).rbufln b n p ∧ (plan op N).soff a n p = (plan op N).roff b n p := by
  have hnx := nextindex_eq hp h
  simp only [plan,hnx,and_self]

theorem cell_block (o : Gather) (ht : 0<o.rtype.dataSize) (k q : ℕ) :
    o.rtype.cell (k*o.nrSize+q) = k*o.nrExtent+o.rtype.cell q := by
  have hsi : k*o.nrSize=k*o.rtypecount*o.rtype.dataSize := by
    rw [Gather.nrSize,mul_comm o.rtype.dataSize,mul_assoc]
  have hext : k*o.nrExtent=k*o.rtypecount*o.rtype.extent := by
    rw [Gather.nrExtent,mul_comm o.rtype.extent,mul_assoc]
  rw [hsi,hext,RecvType.cell_mul_add _ ht]

theorem isFirst_even (N i : ℕ) : isFirst N (doublings N+2*i) ∧ step N (doublings N+2*i) = i := by
  rw [isFirst,step,numphases]
  omega

theorem not_isFirst_odd (N i : ℕ) :
    ¬ isFirst N (doublings N+2*i+1) ∧ step N (doublings N+2*i+1) = i := by
  rw [isFirst,step,numphases]
  omega

theorem blocks_iff {i k : ℕ} (hi : i < doublings N) (hk : k<N) :
    (((a : ℕ)≤k ∧ k < a+blocks N a (doublings N+2*i)) ∨ k < blocks N a (doublings N+2*i+1)) ↔
      ∃ d<2^i, (forward d a : Fin N)=(⟨k,hk⟩ : Fin N) := by
  have hlt := two_pow_lt_of_lt_doublings hi
  have ha := a.isLt
  obtain ⟨hfir,hsp⟩ := isFirst_even N i
  obtain ⟨hsec,hsp'⟩ := not_isFirst_odd N i
  rw [blocks,blocks,hsp,hsp',if_pos hfir,if_pos hfir,if_neg hsec,if_neg hsec]
  constructor
  · intro h
    by_cases hle : (a : ℕ)≤k ∧ k-a<2^i
    · refine ⟨k-a,hle.2,Fin.ext ?_⟩
      have hsum : (a : ℕ)+(k-a)=k := Nat.add_sub_cancel' hle.1
      exact (congrArg (· % N) hsum).trans (mod_eq_of_lt hk)
    · refine ⟨k+N-a,?_,Fin.ext ?_⟩
      · split at h <;> omega
      · have hsum : (a : ℕ)+(k+N-a)=k+N := Nat.add_sub_cancel' (by omega)
        exact (congrArg (· % N) hsum).trans ((add_mod_right k N).trans (mod_eq_of_lt hk))
  · rintro ⟨d,hd,heq⟩
    have hmod : ((a : ℕ)+d)%N=k := congrArg Fin.val heq
    obtain hin | hout := lt_or_ge ((a : ℕ)+d) N
    · rw [mod_eq_of_lt hin] at hmod
      split <;> omega
    · rw [mod_eq_sub_mod hout,mod_eq_of_lt (by omega)] at hmod
      rw [if_pos (by omega),if_pos (by omega)]
      omega

def firstBlock (a : Fin N) (p : ℕ) : ℕ := if isFirst N p then a else 0

theorem halves_iff {op : ℕ → Gather} {n i o : ℕ} (hi : i < doublings N) :
    ((firstBlock a (doublings N+2*i)*(op n).nrSize ≤ o ∧ o < firstBlock a (doublings N+2*i)*(op n).nrSize +
            (op n).nrSize*blocks N a (doublings N+2*i)) ∨
        (firstBlock a (doublings N+2*i+1)*(op n).nrSize ≤ o ∧
          o < firstBlock a (doublings N+2*i+1)*(op n).nrSize +
            (op n).nrSize*blocks N a (doublings N+2*i+1))) ↔
      ∃ d<2^i, (forward d a : Fin N)*(op n).nrSize≤o ∧
        o<(forward d a : Fin N)*(op n).nrSize+(op n).nrSize := by
  obtain hzr | hsi := Nat.eq_zero_or_pos (op n).nrSize
  · simp only [hzr,Nat.mul_zero,Nat.zero_mul,Nat.add_zero]
    refine iff_of_false (by omega) ?_
    rintro ⟨-,-,h⟩
    omega
  · have hfir := (isFirst_even N i).1
    have hsec := (not_isFirst_odd N i).1
    simp only [mem_blocks_iff hsi,mem_block_iff hsi,firstBlock,if_pos hfir,if_neg hsec,Nat.zero_le,
      true_and,Nat.zero_add]
    by_cases hk : o/(op n).nrSize<N
    · rw [blocks_iff hi hk]
      refine exists_congr fun d => and_congr_right fun _ => ?_
      rw [Fin.ext_iff,eq_comm]
    · have ha := a.isLt
      have hlt := two_pow_lt_of_lt_doublings hi
      refine iff_of_false ?_ ?_
      · rw [blocks,blocks,(isFirst_even N i).2,(not_isFirst_odd N i).2,if_pos hfir,if_pos hfir,
          if_neg hsec,if_neg hsec]
        split <;> omega
      · rintro ⟨d,-,heq⟩
        exact hk (heq ▸ (forward d a).isLt)

/-- The cells of all blocks of an allgather are different ones. -/
def Distinct (op : ℕ → Gather) (N : ℕ) : Prop :=
  ∀ n, 0 < n → Set.InjOn (op n).rtype.cell (Set.Iio (N * (op n).nrSize))

/-- The blocks of an allgather, one for each rank. -/
def layout (op : ℕ → Gather) (N : ℕ) (hdis : Distinct op N) : GatherLayout (plan op N) where
  position := fun b n => b * (op n).nrSize
  first := fun a n p => firstBlock a p * (op n).nrSize
  distinct := by
    intro n hn
    apply (hdis n hn).mono
    rintro o ⟨b, -, hlt⟩
    have hend : b * (op n).nrSize + (op n).nrSize ≤ N * (op n).nrSize := by
      rw [← Nat.succ_mul]
      exact Nat.mul_le_mul_right _ b.isLt
    exact hlt.trans_le hend
  own_cell := by
    intro r n q _ _
    simp only [plan, Nat.mul_comm]
  disjoint := by
    intro a b n i j _ hi hj h
    have hsi : 0 < (op n).nrSize := Nat.pos_of_ne_zero fun hzr => by
      simp only [plan, hzr] at hi
      exact Nat.not_lt_zero i hi
    have hblo : ∀ (c : Fin N) k, k < (op n).nrSize → (c * (op n).nrSize + k) / (op n).nrSize = c := by
      intro c k hk
      exact (mem_block_iff hsi).mp ⟨Nat.le_add_right _ _, Nat.add_lt_add_left hk _⟩
    exact Fin.ext ((hblo a i hi).symm.trans ((congrArg (· / (op n).nrSize) h).trans (hblo b j hj)))
  agree := by
    intro a b n p _ hp hds
    obtain ⟨hlng, hoft⟩ := sends_expected op (n := n) hp hds
    refine ⟨hlng, fun q hq => ?_⟩
    rw [← hoft, and_self]
    have ht : 0 < (op n).rtype.dataSize := Nat.pos_of_ne_zero fun hzr => by
      simp only [plan, Gather.nrSize, hzr, Nat.zero_mul] at hq
      exact Nat.not_lt_zero q hq
    simp only [plan, firstBlock]
    rw [cell_block _ ht]
    split
    case isTrue => rfl
    case isFalse => rw [Nat.zero_mul]
  halves := fun a n i _ hi o => halves_iff hi

def bytes : RecvType where
  dataSize := 1
  extent := 1
  disp := id

theorem bytes_injective : Function.Injective bytes.cell :=
  fun a b h => by simpa [RecvType.cell,bytes,mod_one] using h

def indices (r : Fin 2) (_ : ℕ) : GatherCall ℕ := ⟨fun _ => r, id, fun _ => 7⟩

end Allgather

open Finset

/-- The receive type of an allgatherv, and the count and the displacement of each rank. -/
structure Gatherv where
  rtype : RecvType
  rtypecounts : ℕ → ℕ
  rdispls : ℕ → ℕ

namespace Gatherv

variable (o : Gatherv) (N : ℕ)

def allsumstride : ℕ := ∑ i ∈ range N, o.rtype.extent * o.rtypecounts i

def allsumbytes : ℕ := ∑ i ∈ range N, o.rtype.dataSize * o.rtypecounts i

def phasesumstride (index i : ℕ) : ℕ := ∑ n ∈ range (2 ^ i), o.rtype.extent * o.rtypecounts ((index + n) % N)

def phasesumbytes (index i : ℕ) : ℕ := ∑ n ∈ range (2 ^ i), o.rtype.dataSize * o.rtypecounts ((index + n) % N)

def turns (index i : ℕ) : Prop := o.allsumstride N ≤ o.rdispls index * o.rtype.extent + o.phasesumstride N index i

instance (index i : ℕ) : Decidable (o.turns N index i) := inferInstanceAs (Decidable (_ ≤ _))

/-- The length of the message of an index in a phase. -/
def length (index p : ℕ) : ℕ :=
  if o.turns N index (Allgather.step N p) then
    if Allgather.isFirst N p then o.allsumbytes N - o.rdispls index * o.rtype.dataSize
    else o.rdispls index * o.rtype.dataSize + o.phasesumbytes N index (Allgather.step N p) - o.allsumbytes N
  else if Allgather.isFirst N p then o.phasesumbytes N index (Allgather.step N p) else 0

/-- The displacements that an allgatherv is right for: there are elements, and the blocks follow each other in the order of
the ranks, around a buffer that has just their size. -/
def Supported : Prop := 0 < o.rtype.extent ∧ CyclicallyPacked N o.rtypecounts o.rdispls

variable {o N} {a index i : ℕ}

theorem allsumstride_eq : o.allsumstride N = o.rtype.extent * ∑ k ∈ range N, o.rtypecounts k := (mul_sum _ _ _).symm

theorem allsumbytes_eq : o.allsumbytes N = o.rtype.dataSize * ∑ k ∈ range N, o.rtypecounts k := (mul_sum _ _ _).symm

theorem phasesumstride_eq :
    o.phasesumstride N index i = o.rtype.extent*cyclicSum N o.rtypecounts index (2^i) :=
  (mul_sum _ _ _).symm

theorem phasesumbytes_eq :
    o.phasesumbytes N index i = o.rtype.dataSize*cyclicSum N o.rtypecounts index (2^i) :=
  (mul_sum _ _ _).symm

theorem turns_iff (h : 0<o.rtype.extent) :
    o.turns N index i ↔
      ∑ k ∈ range N, o.rtypecounts k ≤ o.rdispls index+cyclicSum N o.rtypecounts index (2^i) := by
  rw [turns,allsumstride_eq,phasesumstride_eq,mul_comm (o.rdispls index),← mul_add]
  exact Nat.mul_le_mul_left_iff h

theorem length_eq (h : 0<o.rtype.extent) (p : ℕ) :
    o.length N index p = o.rtype.dataSize *
      (if ∑ k ∈ range N, o.rtypecounts k ≤
            o.rdispls index+cyclicSum N o.rtypecounts index (2^Allgather.step N p) then
        if Allgather.isFirst N p then ∑ k ∈ range N, o.rtypecounts k-o.rdispls index
        else o.rdispls index+cyclicSum N o.rtypecounts index (2^Allgather.step N p) -
          ∑ k ∈ range N, o.rtypecounts k
      else if Allgather.isFirst N p then cyclicSum N o.rtypecounts index (2^Allgather.step N p) else 0) := by
  rw [length,allsumbytes_eq,phasesumbytes_eq,mul_comm (o.rdispls index)]
  simp only [turns_iff h,mul_ite,mul_zero,Nat.mul_sub,mul_add]

end Gatherv

namespace Allgatherv

open Allgather

variable {β : Type*} {N : ℕ} {o : Gatherv} {a b : Fin N} {p q : ℕ}

/-- What the constructor and `reset` set. -/
def plan (op : ℕ → Gatherv) (N : ℕ) : GatherPlan N where
  rtype := fun n => (op n).rtype
  own := fun r n q => (op n).rdispls r * (op n).rtype.extent + (op n).rtype.cell q
  ownln := fun r n => (op n).rtype.dataSize * (op n).rtypecounts r
  soff := fun r n p => if isFirst N p then (op n).rdispls r * (op n).rtype.extent else 0
  roff := fun r n p =>
    if isFirst N p then
      ((op n).rdispls r * (op n).rtype.extent + (op n).phasesumstride N r (step N p)) % (op n).allsumstride N
    else 0
  sbufln := fun r n p => (op n).length N r p
  rbufln := fun r n p => (op n).length N (nextindex r (step N p)) p

def firstByte (op : ℕ → Gatherv) (a : Fin N) (n p : ℕ) : ℕ :=
  if isFirst N p then (op n).rdispls a * (op n).rtype.dataSize else 0

theorem roff_eq (ho : o.Supported N) (hp : numphases N ≤ p) (hds : ringDest a p = some b)
    (hlt : o.rdispls a < ∑ k ∈ range N, o.rtypecounts k) :
    (o.rdispls b*o.rtype.extent+o.phasesumstride N b (step N p))%o.allsumstride N =
      o.rdispls a*o.rtype.extent := by
  have hend := ho.2.end_mod b.isLt (2^step N p)
  have hnx : ((b : ℕ)+2^step N p)%N=a := nextindex_eq hp hds
  rw [hnx,mod_eq_of_lt hlt] at hend
  rw [Gatherv.allsumstride_eq,Gatherv.phasesumstride_eq,mul_comm (o.rdispls b),← mul_add,
    mul_mod_mul_left,hend,mul_comm]

theorem rdispls_lt (ho : o.Supported N) (hfir : isFirst N p) (hq : q < o.length N a p) :
    o.rdispls a < ∑ k ∈ range N, o.rtypecounts k := by
  by_contra hle
  have hle := not_lt.mp hle
  rw [Gatherv.length_eq ho.1,if_pos (hle.trans (Nat.le_add_right _ _)),if_pos hfir,
    Nat.sub_eq_zero_of_le hle,mul_zero] at hq
  exact Nat.not_lt_zero q hq

theorem dataSize_pos {index : ℕ} (h : 0<o.rtype.extent) (hq : q < o.length N index p) :
    0<o.rtype.dataSize := by
  apply pos_of_ne_zero
  intro hzr
  rw [Gatherv.length_eq h,hzr,zero_mul] at hq
  exact Nat.not_lt_zero q hq

section

variable {op : ℕ → Gatherv} {n : ℕ} (ho : (op n).Supported N)
include ho

theorem halves_iff {i : ℕ} (hi : i < doublings N) (e : ℕ) : ((firstByte op a n (doublings N+2*i) ≤ e ∧
          e < firstByte op a n (doublings N+2*i)+(op n).length N a (doublings N+2*i)) ∨
        (firstByte op a n (doublings N+2*i+1) ≤ e ∧
          e < firstByte op a n (doublings N+2*i+1)+(op n).length N a (doublings N+2*i+1))) ↔
      ∃ d<2^i, (op n).rdispls (forward d a : Fin N)*(op n).rtype.dataSize ≤ e ∧
        e < (op n).rdispls (forward d a : Fin N)*(op n).rtype.dataSize +
          (op n).rtype.dataSize*(op n).rtypecounts (forward d a : Fin N) := by
  obtain ⟨hfir,hsp⟩ := isFirst_even N i
  obtain ⟨hsec,hsp'⟩ := not_isFirst_odd N i
  rw [firstByte,firstByte,if_pos hfir,if_neg hsec,Gatherv.length_eq ho.1,Gatherv.length_eq ho.1,hsp,
    hsp',if_pos hfir,if_pos hfir,if_neg hsec,if_neg hsec]
  obtain hzr | hsi := Nat.eq_zero_or_pos (op n).rtype.dataSize
  · simp only [hzr,Nat.mul_zero,Nat.zero_mul,Nat.add_zero]
    refine iff_of_false (by omega) ?_
    rintro ⟨-,-,h⟩
    omega
  · have hpar := ho.2.mem_parts_iff a.isLt (two_pow_lt_of_lt_doublings hi).le (e/(op n).rtype.dataSize)
    have hlow : ∀ count, (0≤e ∧ e<0+(op n).rtype.dataSize*count) ↔ e/(op n).rtype.dataSize < count := by
      intro count
      rw [Nat.div_lt_iff_lt_mul hsi,Nat.mul_comm,Nat.zero_add,and_iff_right (Nat.zero_le e)]
    simp only [mem_blocks_iff hsi,hlow]
    refine Iff.trans ?_ hpar
    have hsta : (op n).rdispls a ≤ ∑ k ∈ range N, (op n).rtypecounts k :=
      (Nat.le_add_right _ _).trans (ho.2.fits a a.isLt)
    by_cases hturn : ∑ k ∈ range N, (op n).rtypecounts k ≤ (op n).rdispls a+cyclicSum N (op n).rtypecounts a (2^i)
    · simp only [if_pos hturn,Nat.add_sub_cancel' hsta]
    · simp only [if_neg hturn,Nat.not_lt_zero,or_false]

theorem sends_expected (hp : numphases N ≤ p) (hds : ringDest a p = some b) :
    (plan op N).sbufln a n p = (plan op N).rbufln b n p ∧
      (0 < (plan op N).sbufln a n p → (plan op N).soff a n p = (plan op N).roff b n p) := by
  refine ⟨?_,fun hpos => ?_⟩
  · simp only [plan,nextindex_eq hp hds]
  · simp only [plan] at hpos ⊢
    split
    case isTrue hfir => exact (roff_eq ho hp hds (rdispls_lt ho hfir hpos)).symm
    case isFalse => rfl

theorem soff_cell (hq : q < (op n).length N a p) :
    (plan op N).soff a n p+(op n).rtype.cell q = (op n).rtype.cell (firstByte op a n p+q) := by
  have ht := dataSize_pos ho.1 hq
  simp only [plan,firstByte]
  split
  case isTrue => exact ((op n).rtype.cell_mul_add ht _ _).symm
  case isFalse => rw [zero_add,zero_add]

end

theorem supported_of_lt {op : ℕ → Gatherv} (hcal : ∀ n, 0<n → N≤1 ∨ (op n).Supported N) {n i : ℕ} (hn : 0<n)
    (hi : i < doublings N) : (op n).Supported N := by
  refine (hcal n hn).resolve_left ?_
  have hlt := two_pow_lt_of_lt_doublings hi
  have hpos : 0<2^i := Nat.two_pow_pos i
  omega

/-- The cells of all blocks of an allgatherv are different ones. -/
def Distinct (op : ℕ → Gatherv) (N : ℕ) : Prop :=
  ∀ n, 0 < n → Set.InjOn (op n).rtype.cell {e | ∃ b : Fin N, (op n).rdispls b * (op n).rtype.dataSize ≤ e ∧
    e < (op n).rdispls b * (op n).rtype.dataSize + (op n).rtype.dataSize * (op n).rtypecounts b}

/-- The blocks of an allgatherv, where the displacements say. -/
def layout (op : ℕ → Gatherv) (hcal : ∀ n, 0 < n → N ≤ 1 ∨ (op n).Supported N) (hdis : Distinct op N) :
    GatherLayout (plan op N) where
  position := fun b n => (op n).rdispls b * (op n).rtype.dataSize
  first := firstByte op
  distinct := hdis
  own_cell := by
    intro r n q _ hq
    have ht : 0 < (op n).rtype.dataSize := Nat.pos_of_mul_pos_right (zero_lt_of_lt hq)
    exact ((op n).rtype.cell_mul_add ht _ _).symm
  disjoint := by
    intro a b n i j hn hi hj h
    obtain hone | ho := hcal n hn
    · have := a.isLt
      have := b.isLt
      exact Fin.ext (by omega)
    · have ht : 0 < (op n).rtype.dataSize := Nat.pos_of_mul_pos_right (zero_lt_of_lt hi)
      have hmem : ∀ (c : Fin N) k, k < (op n).rtype.dataSize * (op n).rtypecounts c →
          (op n).rdispls c ≤ ((op n).rdispls c * (op n).rtype.dataSize + k) / (op n).rtype.dataSize ∧
            ((op n).rdispls c * (op n).rtype.dataSize + k) / (op n).rtype.dataSize <
              (op n).rdispls c + (op n).rtypecounts c := by
        intro c k hk
        exact (mem_blocks_iff ht).mp ⟨Nat.le_add_right _ _, Nat.add_lt_add_left hk _⟩
      exact Fin.ext (ho.2.disjoint a.isLt b.isLt (hmem a i hi) (h ▸ hmem b j hj))
  agree := by
    intro a b n p hn hp hds
    obtain ⟨i, hi, -⟩ := exists_step hp (lt_of_ringDest hds)
    have ho := supported_of_lt hcal hn hi
    obtain ⟨hlng, hoft⟩ := sends_expected (n := n) ho hp hds
    refine ⟨hlng, fun q hq => ?_⟩
    rw [← hoft (zero_lt_of_lt hq), and_self]
    exact soff_cell ho hq
  halves := fun a n i hn hi e => halves_iff (supported_of_lt hcal hn hi) hi e

end Allgatherv

end PAMI.TspColl

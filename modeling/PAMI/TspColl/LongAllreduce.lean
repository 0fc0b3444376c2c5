import Mathlib.Algebra.BigOperators.Fin
import PAMI.TspColl.Barrier
import PAMI.TspColl.Butterfly
import PAMI.TspColl.Reduction

namespace PAMI.TspColl

open PAMI.Math Option Nat

/-- The data of `Allreduce::Long`; `_tmpredbuf` is at the offset `tmpredoff` of `_tmpbuf`. For the statements: whether
`_tmpbuf` has a message that is not combined, lost one, or was written where it must not be. -/
structure Long (β : Type*) where
  dbuf : ℕ → β
  nelems : ℕ
  sdataWidth : ℕ
  rcell : ℕ → ℕ
  contig : Bool
  tmpbuf : ℕ → β
  tmpredbuf : ℕ → β
  tmpbuflen : ℕ
  tmpredoff : ℕ
  waiting : Bool
  overwritten : Bool
  outside : Bool

namespace Long

variable {β : Type*}

/-- The constructor; `_dbuf` and the memory are still unknown. -/
def new (dbuf heap : ℕ → β) : Long β where
  dbuf := dbuf
  nelems := 0
  sdataWidth := 0
  rcell := id
  contig := true
  tmpbuf := heap
  tmpredbuf := heap
  tmpbuflen := 0
  tmpredoff := 0
  waiting := false
  overwritten := false
  outside := false

/-- The allocation of `_tmpbuf`; what the memory has is arbitrary. -/
def allocate (bytes : ℕ) (heap : ℕ → β) (x : Long β) : Long β :=
  if x.tmpbuflen < bytes * 2 then
    { x with
      tmpbuf := heap
      tmpredbuf := fun i => heap (bytes + i)
      tmpbuflen := bytes * 2
      tmpredoff := bytes
      overwritten := x.overwritten || x.waiting }
  else x

section Allocate

variable (bytes : ℕ) (heap : ℕ → β) (x : Long β)

@[simp]
theorem allocate_dbuf : (x.allocate bytes heap).dbuf=x.dbuf := by
  unfold allocate
  split <;> rfl

@[simp]
theorem allocate_nelems : (x.allocate bytes heap).nelems=x.nelems := by
  unfold allocate
  split <;> rfl

@[simp]
theorem allocate_sdataWidth : (x.allocate bytes heap).sdataWidth=x.sdataWidth := by
  unfold allocate
  split <;> rfl

@[simp]
theorem allocate_rcell : (x.allocate bytes heap).rcell=x.rcell := by
  unfold allocate
  split <;> rfl

@[simp]
theorem allocate_contig : (x.allocate bytes heap).contig=x.contig := by
  unfold allocate
  split <;> rfl

@[simp]
theorem allocate_waiting : (x.allocate bytes heap).waiting=x.waiting := by
  unfold allocate
  split <;> rfl

@[simp]
theorem allocate_outside : (x.allocate bytes heap).outside=x.outside := by
  unfold allocate
  split <;> rfl

theorem allocate_tmpbuflen :
    (x.allocate bytes heap).tmpbuflen = if x.tmpbuflen<bytes*2 then bytes*2 else x.tmpbuflen := by
  unfold allocate
  split <;> rfl

variable {bytes heap x}

theorem allocate_tmpredoff (h : x.tmpbuflen=2*x.tmpredoff) :
    (x.allocate bytes heap).tmpbuflen=2*(x.allocate bytes heap).tmpredoff := by
  unfold allocate
  split
  case isTrue => exact mul_comm bytes 2
  case isFalse => exact h

theorem allocate_overwritten (h : x.waiting=false) :
    (x.allocate bytes heap).overwritten=x.overwritten := by
  unfold allocate
  split
  case isTrue => exact (congrArg (x.overwritten || ·) h).trans (Bool.or_false _)
  case isFalse => rfl

end Allocate

/-- What `reset` keeps of its arguments; the source is copied to the destination. -/
def setup (o : TypedReduction) (c : Buffers β) (x : Long β) : Long β :=
  { x with
    contig := x.contig && o.contig
    sdataWidth := o.sdataWidth
    rcell := o.rcell
    dbuf := c.copied o
    nelems := o.count }

def reset (o : TypedReduction) (c : Buffers β) (heap : ℕ → β) (x : Long β) : Long β :=
  (x.setup o c).allocate o.bytes heap

/-- `cb_incoming` in a phase with data: it goes to `_tmpbuf` if the rank combines it, else to `_dbuf`. -/
def cb_incoming {N : ℕ} (r : Fin N) (round : ℕ) (m : LengthMessage β) (x : Long β) : Long β :=
  if combines r round then
    { x with
      tmpbuf := copyElements (m.bytes / x.sdataWidth) m.value x.tmpbuf
      waiting := true
      overwritten := x.overwritten || x.waiting
      outside := x.outside || !decide (m.bytes ≤ x.tmpredoff ∧ m.bytes ≤ x.tmpbuflen) }
  else { x with dbuf := place x.rcell m.value x.dbuf (m.bytes / x.sdataWidth) }

variable [Add β]

def cb_allreduce (x : Long β) : Long β :=
  let reduced := reduceInto x.contig x.nelems x.rcell x.tmpbuf x.tmpredbuf x.dbuf
  { x with
    dbuf := reduced.1
    tmpredbuf := reduced.2
    waiting := false
    outside := x.outside ||
      (!x.contig && !decide (x.tmpredoff + x.nelems * x.sdataWidth ≤ x.tmpbuflen)) }

/-- What the ranks do in a sequence of allreduces; a permission has no data. -/
def client {N : ℕ} (op : ℕ → TypedReduction) (call : Fin N → ℕ → Buffers β) (heap : Fin N → ℕ → ℕ → β) :
    PhaseClient (Fin N) (Long β) (Option (LengthMessage β)) where
  start := fun r n x => x.reset (op n) (call r n) (heap r n)
  payload := fun _ n p x =>
    if p % 2 = 0 then none else some ⟨(op n).bytes, fun i => x.dbuf (x.rcell i)⟩
  deliver := fun b _ p m x => m.elim x fun m => x.cb_incoming b (p / 2) m
  postrcv := fun r _ p x => if p % 2 = 1 ∧ combines r (p / 2) then x.cb_allreduce else x

def roundTables (N : ℕ) : RoundTables (Fin N) where
  rounds := rounds N
  dest := roundDest
  source := roundSource
  matched := fun _ _ _ => roundDest_iff
  bounded := fun _ _ _ => lt_rounds_of_roundDest

/-- The tables of the constructor and of all executions. -/
def tables (N : ℕ) : PhaseTables (Fin N) := (roundTables N).permitted

/-- `_tmpbuflen` after an execution, at all ranks; `_tmpbuf` is NULL as long as it is zero. -/
def allocated (op : ℕ → TypedReduction) : ℕ → ℕ
  | 0 => 0
  | n + 1 => if allocated op n < (op (n + 1)).bytes * 2 then (op (n + 1)).bytes * 2 else allocated op n

end Long

open PhasedState Exchanges

namespace Long

variable {β : Type*} {N : ℕ} {s : PhasedState (Fin N) (Long β) (Option (LengthMessage β))} {r a b : Fin N}
  {n m p j k : ℕ} {op : ℕ → TypedReduction} {call : Fin N → ℕ → Buffers β} {heap : Fin N → ℕ → ℕ → β}

theorem le_allocated (op : ℕ → TypedReduction) (hn : 0<n) : (op n).bytes*2 ≤ allocated op n := by
  cases n with
  | zero => exact absurd hn (lt_irrefl 0)
  | succ n =>
    rw [allocated]
    split
    case isTrue => exact le_rfl
    case isFalse h => exact not_lt.mp h

variable [AddCommMonoid β] {x : Long β} {value : ℕ → β} {came : Prop}

def sendValue (op : ℕ → TypedReduction) (call : Fin N → ℕ → Buffers β) (a : Fin N) (n p : ℕ) :
    Option (LengthMessage β) :=
  if p % 2 = 0 then none
  else some ⟨(op n).bytes, fun i =>
    if i < (op n).count then held N (contributions (packedCalls op call) n i) a (p / 2)
    else (call a n).dbuf ((op n).rcell i)⟩

/-- What a rank has at the begin of a round, and whether the data of the round has come in. -/
structure Holds (op : ℕ → TypedReduction) (call : Fin N → ℕ → Buffers β) (r : Fin N) (n j : ℕ) (came : Prop)
    (x : Long β) : Prop where
  nelems : 0 < n → x.nelems = (op n).count
  sdataWidth : 0 < n → x.sdataWidth = (op n).sdataWidth
  rcell : 0 < n → x.rcell = (op n).rcell
  contig : x.contig = true → ∀ m, 0 < m → m ≤ n → (op m).contig = true
  tmpbuflen : x.tmpbuflen = allocated op n
  tmpredoff : x.tmpbuflen = 2 * x.tmpredoff
  value : 0 < n → ¬ (combineRounds N ≤ j ∧ came) → ∀ i < (op n).count,
    x.dbuf ((op n).rcell i) = held N (contributions (packedCalls op call) n i) r j
  result : combineRounds N ≤ j → came → ∀ i < (op n).count,
    x.dbuf ((op n).rcell i) = held N (contributions (packedCalls op call) n i) r (j + 1)
  frame : 0 < n → ∀ k, (∀ i < (op n).count, (op n).rcell i ≠ k) → x.dbuf k = (call r n).dbuf k
  tmpbuf : j < combineRounds N → came → ∀ a, roundSource r j = some a →
    ∀ i < (op n).count, x.tmpbuf i = held N (contributions (packedCalls op call) n i) a j
  waiting : ¬ (j < combineRounds N ∧ came) → x.waiting = false
  overwritten : x.overwritten = false
  outside : x.outside = false

theorem Holds.le_tmpredoff (h : Holds op call r n j came x) (hn : 0<n) : (op n).bytes≤x.tmpredoff := by
  have hle := le_allocated op hn
  have hlen := h.tmpbuflen
  have hoff := h.tmpredoff
  omega

theorem serves_start (mem : ℕ → β) (h : Holds op call r n (rounds N) False x) :
    Holds op call r (n+1) 0 False (x.reset (op (n+1)) (call r (n+1)) mem) := by
  have hfr := h.waiting fun hno => hno.2
  refine ⟨fun _ => allocate_nelems ..,fun _ => allocate_sdataWidth ..,fun _ => allocate_rcell ..,
    fun hcon m hm hle => ?_,?_,allocate_tmpredoff h.tmpredoff,fun _ _ i hi => ?_,
    fun _ hno => hno.elim,fun _ k hk => ?_,fun _ hno => hno.elim,
    fun _ => (allocate_waiting ..).trans hfr,?_,(allocate_outside ..).trans h.outside⟩
  · rw [reset,allocate_contig,setup,Bool.and_eq_true] at hcon
    obtain rfl | hlt := hle.eq_or_lt
    · exact hcon.2
    · exact h.contig hcon.1 m hm (le_of_lt_succ hlt)
  · rw [reset,allocate_tmpbuflen,setup,h.tmpbuflen,allocated]
  · rw [reset,allocate_dbuf,held_zero,contributions_rank]
    exact Buffers.copied_cell hi
  · rw [reset,allocate_dbuf]
    exact Buffers.copied_of_ne hk
  · rw [reset,allocate_overwritten]
    · exact h.overwritten
    · exact hfr

theorem serves_transmit (hn : 0<n) (hds : roundDest a j = some b)
    (hcm : came → (roundSource a j).isSome=true) (h : Holds op call a n j came x) :
    (⟨(op n).bytes,fun i => x.dbuf (x.rcell i)⟩ : LengthMessage β) = ⟨(op n).bytes,fun i =>
        if i<(op n).count then held N (contributions (packedCalls op call) n i) a j
        else (call a n).dbuf ((op n).rcell i)⟩ := by
  have hno : ¬ (combineRounds N≤j ∧ came) := by
    rintro ⟨hj,hw⟩
    obtain ⟨c,hc⟩ := isSome_iff_exists.mp (hcm hw)
    obtain ⟨hlat,-,hfir⟩ := sent_of_rebroadcast hj hc
    exact absurd (hfir j b hds) hlat.ne'
  refine congrArg (LengthMessage.mk _) (funext fun i => ?_)
  rw [h.rcell hn]
  split
  case isTrue hi => exact h.value hn hno i hi
  case isFalse hi =>
    refine h.frame hn _ fun k hk heq => hi ?_
    rwa [← (op n).injective heq]

theorem serves_tmpbuf (hcom : combines b j) (hsou : roundSource b j = some a) (hn : 0<n)
    (h : Holds op call b n j False x)
    (hval : ∀ i<(op n).count, value i = held N (contributions (packedCalls op call) n i) a j) :
    Holds op call b n j True (x.cb_incoming b j ⟨(op n).bytes,value⟩) := by
  obtain ⟨hj,-⟩ := combines_iff.mp hcom
  have hfr := h.waiting fun hno => hno.2
  have hle := h.le_tmpredoff hn
  have hoff := h.tmpredoff
  have hin : (op n).bytes≤x.tmpredoff ∧ (op n).bytes≤x.tmpbuflen := by omega
  rw [cb_incoming,if_pos hcom]
  refine ⟨h.nelems,h.sdataWidth,h.rcell,h.contig,h.tmpbuflen,h.tmpredoff,
    fun hn _ => h.value hn fun hno => hno.2,fun hlate => absurd hj (not_lt.mpr hlate),h.frame,
    fun _ _ c hc i hi => ?_,fun hno => absurd ⟨hj,trivial⟩ hno,?_,?_⟩
  · obtain rfl := some.inj (hc.symm.trans hsou)
    have hcou : i<(op n).bytes/x.sdataWidth := by
      rw [h.sdataWidth hn]
      exact hi
    simp only [copyElements,if_pos hcou]
    exact hval i hi
  · simp only [h.overwritten,hfr,Bool.or_false]
  · simp only [h.outside,hin,and_self,decide_true,Bool.not_true,Bool.or_false]

theorem serves_result (hj : combineRounds N ≤ j) (hsou : roundSource b j = some a) (hn : 0<n)
    (h : Holds op call b n j False x)
    (hval : ∀ i<(op n).count, value i = held N (contributions (packedCalls op call) n i) a j) :
    Holds op call b n j True (x.cb_incoming b j ⟨(op n).bytes,value⟩) := by
  have hno : ¬ combines b j := fun hcom => absurd (combines_iff.mp hcom).1 (not_lt.mpr hj)
  have hcou : (op n).bytes/x.sdataWidth=(op n).count := by
    rw [h.sdataWidth hn]
    rfl
  rw [cb_incoming,if_neg hno,hcou,h.rcell hn]
  refine ⟨h.nelems,h.sdataWidth,fun _ => rfl,h.contig,h.tmpbuflen,h.tmpredoff,
    fun _ hno => absurd ⟨hj,trivial⟩ hno,fun _ _ i hi => ?_,fun hn k hk => ?_,
    fun hear => absurd hj (not_le.mpr hear),fun _ => h.waiting fun hno => hno.2,h.overwritten,
    h.outside⟩
  · rw [held_rebroadcast _ hj hsou,← hval i hi]
    exact place_cell (op n).injective.injOn hi
  · rw [← h.frame hn k hk]
    exact place_of_ne hk

theorem combines_many (hcom : combines r j) : ¬ N≤1 := by
  rintro hone
  obtain ⟨hj,-⟩ := combines_iff.mp hcom
  obtain rfl : N=1 := le_antisymm hone r.pos
  exact not_lt_zero j hj

theorem serves_combine (hord : N≤1 ∨ InOrder op n) (hcom : combines r j) (hn : 0<n)
    (h : Holds op call r n j True x) : Holds op call r n (j+1) False x.cb_allreduce := by
  obtain ⟨hj,hsou⟩ := combines_iff.mp hcom
  have hcell : x.contig=true → ∀ i<(op n).count, (op n).rcell i=i := fun hcon =>
    (hord.resolve_left (combines_many hcom)) (h.contig hcon)
  obtain ⟨a,ha⟩ := isSome_iff_exists.mp hsou
  have hbyt : (op n).count*(op n).sdataWidth≤(op n).bytes := div_mul_le_self _ _
  have hin : x.tmpredoff+x.nelems*x.sdataWidth≤x.tmpbuflen := by
    have hle := h.le_tmpredoff hn
    have hoff := h.tmpredoff
    rw [h.nelems hn,h.sdataWidth hn]
    omega
  refine ⟨h.nelems,h.sdataWidth,h.rcell,h.contig,h.tmpbuflen,h.tmpredoff,fun _ _ i hi => ?_,
    fun _ hno => hno.elim,fun _ k hk => ?_,fun _ hno => hno.elim,fun _ => rfl,h.overwritten,?_⟩
  · rw [held_combine _ hj ha,← h.value hn (fun hno => absurd hj (not_lt.mpr hno.1)) i hi,
      ← h.tmpbuf hj trivial a ha i hi]
    simp only [cb_allreduce,h.rcell hn,h.nelems hn]
    exact reduceInto_cell (op n).injective hcell hi
  · rw [← h.frame hn k hk]
    simp only [cb_allreduce,h.rcell hn,h.nelems hn]
    exact reduceInto_of_ne hcell hk
  · simp only [cb_allreduce,h.outside,hin,decide_true,Bool.not_true,Bool.and_false,Bool.or_false]

theorem serves_keep (hj : j < rounds N) (hcom : ¬ combines r j)
    (h : Holds op call r n j ((roundSource r j).isSome=true) x) : Holds op call r n (j+1) False x := by
  have hlate : (roundSource r j).isSome=true → combineRounds N≤j := by
    intro hso
    by_contra hear
    exact hcom (combines_iff.mpr ⟨not_le.mp hear,hso⟩)
  refine ⟨h.nelems,h.sdataWidth,h.rcell,h.contig,h.tmpbuflen,h.tmpredoff,fun hn _ i hi => ?_,
    fun _ hno => hno.elim,h.frame,fun _ hno => hno.elim,
    fun _ => h.waiting fun hno => absurd hno.1 (not_lt.mpr (hlate hno.2)),h.overwritten,h.outside⟩
  cases hsou : roundSource r j with
  | none =>
    rw [held_keep _ hj hsou]
    refine h.value hn (fun hno => ?_) i hi
    rw [hsou] at hno
    exact Bool.noConfusion hno.2
  | some a =>
    have hso : (roundSource r j).isSome=true := isSome_of_eq_some hsou
    exact h.result (hlate hso) hso i hi

theorem serves (call : Fin N → ℕ → Buffers β) (heap : Fin N → ℕ → ℕ → β) (hord : ∀ n, 0<n → N≤1 ∨ InOrder op n) :
    Serves (roundTables N) (client op call heap) (sendValue op call) (Holds op call) where
  start := fun r n _ h => serves_start (heap r (n+1)) h
  permission := by
    intro a n j x
    simp only [client,sendValue,mul_mod_right,if_pos]
  permitted := by
    intro a b n j x
    simp only [client,sendValue,mul_mod_right,if_pos,elim_none]
  ready := by
    intro r n j x
    exact if_neg (by omega)
  transmit := by
    intro a b n j came x hn hds hcm h
    have hodd : ¬ (2*j+1)%2=0 := by omega
    simp only [client,sendValue,if_neg hodd,half_odd]
    exact congrArg some (serves_transmit hn hds hcm h)
  incoming := by
    intro a b n j x hn hsou h
    have hodd : ¬ (2*j+1)%2=0 := by omega
    simp only [client,sendValue,if_neg hodd,half_odd,elim_some]
    by_cases hcom : combines b j
    · exact serves_tmpbuf hcom hsou hn h fun i hi => if_pos hi
    · have hlate : combineRounds N≤j := by
        by_contra hear
        exact hcom (combines_iff.mpr ⟨not_le.mp hear,isSome_of_eq_some hsou⟩)
      exact serves_result hlate hsou hn h fun i hi => if_pos hi
  pass := by
    intro r n j x hn hj h
    have hodd : (2*j+1)%2=1 := by omega
    simp only [client,hodd,half_odd,true_and]
    split
    case isTrue hcom =>
      have hso : ((roundSource r j).isSome=true)=True := eq_true (combines_iff.mp hcom).2
      simp only [roundTables,hso] at h
      exact serves_combine (hord n hn) hcom hn h
    case isFalse hcom => exact serves_keep hj hcom h

theorem holds_new (op : ℕ → TypedReduction) (call : Fin N → ℕ → Buffers β) (r : Fin N) (j : ℕ)
    (dbuf heap : ℕ → β) : Holds op call r 0 j False (new dbuf heap) :=
  ⟨fun h => absurd h (lt_irrefl 0),fun h => absurd h (lt_irrefl 0),
    fun h => absurd h (lt_irrefl 0),fun _ _ hm hle => absurd hm (not_lt.mpr hle),rfl,rfl,
    fun h => absurd h (lt_irrefl 0),fun _ h => h.elim,fun h => absurd h (lt_irrefl 0),
    fun _ h => h.elim,fun _ => rfl,rfl,rfl⟩

/-- The sequences of allreduces that `reset` is right for: the first one has something to reduce, and no type that counts
as contiguous permutes its elements. -/
def Supported (op : ℕ → TypedReduction) : Prop := 0 < (op 1).bytes ∧ ∀ n, 0 < n → InOrder op n

/-- Elements without gaps; the first execution has none. -/
def growing (n : ℕ) : TypedReduction := .packed (n - 1)

def ones (_ : Fin 2) (_ : ℕ) : Buffers ℕ := ⟨fun _ => 1, fun _ => 0, false⟩

end Long

end PAMI.TspColl

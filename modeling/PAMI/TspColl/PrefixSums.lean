import PAMI.Math.Scan
import PAMI.TspColl.Butterfly
import PAMI.TspColl.ExchangeRuns
import PAMI.TspColl.Reduction

namespace PAMI.TspColl

open PAMI.Math Option Nat

/-- The count and the types of a scan, of whole elements. -/
structure ScanReduction extends TypedReduction where
  exclusive : Bool
  whole : toTypedReduction.count * sdataWidth = toTypedReduction.bytes

def ScanReduction.tmpbufsize (o : ScanReduction) : ℕ := if o.exclusive then 2 * o.bytes else o.bytes

/-- The memory of `_tmpbuf`: its size, which is zero as long as it is NULL, what `_tmpbuflen` says of it, and the offset
of `_tmpredbuf`. -/
structure Tmpbuf where
  size : ℕ
  tmpbuflen : ℕ
  tmpredoff : ℕ

/-- More memory, if it is needed; `_tmpbuflen` is set in any case. -/
def Tmpbuf.require (tmpbufsize : ℕ) (t : Tmpbuf) : Tmpbuf where
  size := if t.tmpbuflen < tmpbufsize * 2 then tmpbufsize * 2 else t.size
  tmpbuflen := tmpbufsize * 2
  tmpredoff := if t.tmpbuflen < tmpbufsize * 2 then tmpbufsize else t.tmpredoff

/-- The data of `PrefixSums`. Messages come in to `received`, which is `_tmpbuf`, or for an exclusive scan its second half,
where `tmpbuf` is the first one. For the statements: whether a message is not combined, and whether it was lost. -/
structure PrefixSums (β : Type*) where
  dbuf : ℕ → β
  nelems : ℕ
  sdataWidth : ℕ
  rcell : ℕ → ℕ
  contig : Bool
  exclusive : Bool
  tmpbuf : ℕ → β
  received : ℕ → β
  tmpredbuf : ℕ → β
  memory : Tmpbuf
  waiting : Bool
  overwritten : Bool

namespace PrefixSums

variable {β : Type*}

/-- The constructor; the buffers are still unknown. -/
def new (dbuf heap : ℕ → β) : PrefixSums β where
  dbuf := dbuf
  nelems := 0
  sdataWidth := 0
  rcell := id
  contig := true
  exclusive := false
  tmpbuf := heap
  received := heap
  tmpredbuf := heap
  memory := ⟨0, 0, 0⟩
  waiting := false
  overwritten := false

/-- `reset`; what the memory has before is arbitrary. -/
def reset (o : ScanReduction) (c : Buffers β) (heap : ℕ → β) (x : PrefixSums β) : PrefixSums β :=
  { x with
    nelems := o.count
    sdataWidth := o.sdataWidth
    rcell := o.rcell
    contig := x.contig && o.contig
    exclusive := o.exclusive
    memory := x.memory.require o.tmpbufsize
    overwritten := x.overwritten || (x.waiting && decide (x.memory.tmpbuflen < o.tmpbufsize * 2))
    dbuf := if o.exclusive then c.dbuf else c.copied o.toTypedReduction
    tmpbuf :=
      if o.exclusive ∧ c.inPlace = false then copyElements o.count (fun i => c.sbuf (o.scell i)) heap
      else heap }

/-- `cb_incoming` in a phase with data -/
def cb_incoming (m : LengthMessage β) (x : PrefixSums β) : PrefixSums β :=
  { x with
    received := copyElements (m.bytes / x.sdataWidth) m.value x.received
    waiting := true
    overwritten := x.overwritten || x.waiting }

variable [Add β]

/-- For an exclusive scan, what is received first is the destination buffer; the first half of `_tmpbuf` has the inclusive
scan. -/
def cb_prefixsums {N : ℕ} (r : Fin N) (phase : ℕ) (x : PrefixSums β) : PrefixSums β :=
  if x.exclusive = false then
    let reduced := reduceInto x.contig x.nelems x.rcell x.received x.tmpredbuf x.dbuf
    { x with dbuf := reduced.1, tmpredbuf := reduced.2, waiting := false }
  else if 0 < (r : ℕ) then
    let reduced :=
      if phase = 1 then (place x.rcell x.received x.dbuf x.nelems, x.tmpredbuf)
      else reduceInto x.contig x.nelems x.rcell x.received x.tmpredbuf x.dbuf
    { x with
      dbuf := reduced.1
      tmpredbuf := reduced.2
      tmpbuf := combine x.nelems x.tmpbuf x.received
      waiting := false }
  else x

/-- What the ranks do in a sequence of scans; a permission has no data. -/
def client {N : ℕ} (op : ℕ → ScanReduction) (call : Fin N → ℕ → Buffers β) (heap : Fin N → ℕ → ℕ → β) :
    PhaseClient (Fin N) (PrefixSums β) (Option (LengthMessage β)) where
  start := fun r n x => x.reset (op n) (call r n) (heap r n)
  payload := fun _ n p x =>
    if p % 2 = 0 then none
    else some ⟨(op n).bytes, if x.exclusive then x.tmpbuf else fun i => x.dbuf (x.rcell i)⟩
  deliver := fun _ _ _ m x => m.elim x fun m => x.cb_incoming m
  postrcv := fun r _ p x => if p % 2 = 1 ∧ 2 ^ (p / 2) ≤ (r : ℕ) then x.cb_prefixsums r p else x

/-- `_logMaxBF` -/
def steps (size : ℕ) : ℕ := if maxBF size < size then logMaxBF size + 1 else logMaxBF size

theorem le_two_pow_steps (size : ℕ) : size ≤ 2^steps size := by
  rw [steps]
  split
  case isTrue =>
    rw [Nat.pow_succ']
    exact (size_lt_two_mul_maxBF size).le
  case isFalse h => exact not_lt.mp h

def stepDest {N : ℕ} (r : Fin N) (i : ℕ) : Option (Fin N) := rankOf N (r + 2 ^ i)

def stepSource {N : ℕ} (r : Fin N) (i : ℕ) : Option (Fin N) :=
  if 2 ^ i ≤ (r : ℕ) then rankOf N (r - 2 ^ i) else none

theorem stepSource_eq_some {N : ℕ} {r a : Fin N} {i : ℕ} : stepSource r i = some a ↔ (a+2^i : ℕ)=r := by
  rw [stepSource,rankOf_ite_eq_some]
  omega

theorem stepSource_isSome {N : ℕ} {r : Fin N} {i : ℕ} : (stepSource r i).isSome=true ↔ 2^i≤(r : ℕ) := by
  rw [stepSource]
  split
  case isTrue h =>
    rw [rankOf_isSome (sub_lt_of_lt r.isLt)]
    exact iff_of_true rfl h
  case isFalse h => exact iff_of_false (by simp) h

def stepTables (N : ℕ) : RoundTables (Fin N) where
  rounds := steps N
  dest := stepDest
  source := stepSource
  matched := by
    intro a b i
    rw [stepDest, rankOf_eq_some, stepSource_eq_some]
  bounded := by
    intro a b i h
    rw [stepDest, rankOf_eq_some] at h
    have hlt : 2 ^ i < 2 ^ steps N := by
      have := le_two_pow_steps N
      have := b.isLt
      omega
    exact (Nat.pow_lt_pow_iff_right one_lt_two).mp hlt

/-- The tables of the constructor and of all executions. -/
def tables (N : ℕ) : PhaseTables (Fin N) := (stepTables N).permitted

/-- The memory of `_tmpbuf` after an execution, at all ranks. -/
def allocated (op : ℕ → ScanReduction) : ℕ → Tmpbuf
  | 0 => ⟨0, 0, 0⟩
  | n + 1 => (allocated op n).require (op (n + 1)).tmpbufsize

end PrefixSums

open Exchanges

theorem Tmpbuf.size_require (tmpbufsize : ℕ) {t : Tmpbuf} (h : t.size=2*t.tmpredoff)
    (hle : t.tmpbuflen≤t.size) :
    (t.require tmpbufsize).size=2*(t.require tmpbufsize).tmpredoff ∧
      (t.require tmpbufsize).tmpbuflen≤(t.require tmpbufsize).size := by
  simp only [require]
  split <;> omega

theorem Tmpbuf.require_pos (tmpbufsize : ℕ) {t : Tmpbuf} (h : 0<t.size) : 0<(t.require tmpbufsize).size := by
  simp only [require]
  split <;> omega

namespace PrefixSums

variable {β : Type*} {N : ℕ} {r a b : Fin N} {n j k : ℕ} {op : ℕ → ScanReduction}
  {call : Fin N → ℕ → Buffers β} {heap : Fin N → ℕ → ℕ → β}

theorem size_allocated (op : ℕ → ScanReduction) (n : ℕ) :
    (allocated op n).size=2*(allocated op n).tmpredoff ∧ (allocated op n).tmpbuflen≤(allocated op n).size := by
  induction n with
  | zero => exact ⟨rfl,le_rfl⟩
  | succ n ih => exact Tmpbuf.size_require (op (n+1)).tmpbufsize ih.1 ih.2

theorem tmpbufsize_le (op : ℕ → ScanReduction) (hn : 0<n) :
    (op n).tmpbufsize≤(allocated op n).tmpredoff ∧
      (allocated op n).tmpredoff+(op n).tmpbufsize≤(allocated op n).size := by
  obtain ⟨hsi,hle⟩ := size_allocated op n
  have hlen : (op n).tmpbufsize*2=(allocated op n).tmpbuflen := by
    obtain ⟨n,rfl⟩ := exists_eq_succ_of_ne_zero hn.ne'
    rfl
  omega

theorem size_pos {m : ℕ} (hm : 0 < m) (hmn : m≤n) (hbyt : 0<(op m).bytes) :
    0<(allocated op n).size := by
  induction n, hmn using le_induction with
  | base =>
    have hle := (tmpbufsize_le op hm).2
    have hpos : (op m).bytes≤(op m).tmpbufsize := by
      rw [ScanReduction.tmpbufsize]
      split <;> omega
    omega
  | succ n _ ih => exact Tmpbuf.require_pos _ ih

/-- The calls of scans that `reset` is right for: no type that counts as contiguous permutes its elements, an exclusive scan
is not before all that have elements, and only the last rank may use the same buffer for source and destination. -/
def Supported (op : ℕ → ScanReduction) (call : Fin N → ℕ → Buffers β) (n : ℕ) : Prop :=
  InOrder (fun m => (op m).toTypedReduction) n ∧ ((op n).exclusive = true → (∃ m, 0 < m ∧ m ≤ n ∧ 0 < (op m).bytes) ∧
    ∀ r : Fin N, (r : ℕ) + 1 < N → (call r n).inPlace = true → (op n).bytes = 0)

def values (r : Fin N) (op : ℕ → ScanReduction) (call : Fin N → ℕ → Buffers β) (n i k : ℕ) : β :=
  ((call ⟨k % N, mod_lt k r.pos⟩ n).packed (op n).toTypedReduction).contribution i

theorem values_rank (op : ℕ → ScanReduction) (call : Fin N → ℕ → Buffers β) (n i : ℕ) :
    values r op call n i r = ((call r n).packed (op n).toTypedReduction).contribution i := by
  have hrk : (⟨(r : ℕ)%N,mod_lt r r.pos⟩ : Fin N)=r := Fin.ext (mod_eq_of_lt r.isLt)
  rw [values,hrk]

variable [AddCommSemigroup β] {x : PrefixSums β}

def sendValue (op : ℕ → ScanReduction) (call : Fin N → ℕ → Buffers β) (heap : Fin N → ℕ → ℕ → β) (a : Fin N)
    (n p : ℕ) : Option (LengthMessage β) :=
  if p % 2 = 0 then none
  else some ⟨(op n).bytes, fun i =>
    if i < (op n).count then trailing (values a op call n i) (p / 2) a
    else if (op n).exclusive then heap a n i else (call a n).dbuf ((op n).rcell i)⟩

/-- What a rank has at the begin of a step, and whether the data of the step has come in. -/
structure Holds (op : ℕ → ScanReduction) (call : Fin N → ℕ → Buffers β) (heap : Fin N → ℕ → ℕ → β) (r : Fin N)
    (n j : ℕ) (came : Prop) (x : PrefixSums β) : Prop where
  nelems : 0 < n → x.nelems = (op n).count
  sdataWidth : 0 < n → x.sdataWidth = (op n).sdataWidth
  rcell : 0 < n → x.rcell = (op n).rcell
  contig : x.contig = true → ∀ m, 0 < m → m ≤ n → (op m).contig = true
  exclusive : 0 < n → x.exclusive = (op n).exclusive
  memory : x.memory = allocated op n
  inclusive : 0 < n → (op n).exclusive = false → ∀ i < (op n).count,
    x.dbuf ((op n).rcell i) = trailing (values r op call n i) j r
  tmpbuf : 0 < n → (op n).exclusive = true → (call r n).inPlace = false → ∀ i < (op n).count,
    x.tmpbuf i = trailing (values r op call n i) j r
  excluded : 0 < n → (op n).exclusive = true → 0 < j → 0 < (r : ℕ) → ∀ i < (op n).count,
    x.dbuf ((op n).rcell i) = preceding (values r op call n i) j r
  frame : 0 < n → ∀ k, (∀ i < (op n).count, (op n).rcell i ≠ k) → x.dbuf k = (call r n).dbuf k
  rest : 0 < n → (op n).exclusive = true → ∀ i, (op n).count ≤ i → x.tmpbuf i = heap r n i
  received : came → ∀ a, stepSource r j = some a → ∀ i < (op n).count,
    x.received i = trailing (values r op call n i) j a
  waiting : ¬ came → x.waiting = false
  overwritten : x.overwritten = false

theorem serves_start (h : Holds op call heap r n (steps N) False x) :
    Holds op call heap r (n+1) 0 False (x.reset (op (n+1)) (call r (n+1)) (heap r (n+1))) := by
  have hfr := h.waiting not_false
  refine ⟨fun _ => rfl,fun _ => rfl,fun _ => rfl,fun hcon m hm hle => ?_,fun _ => rfl,?_,
    fun _ hexc i hi => ?_,fun _ hexc hpla i hi => ?_,
    fun _ _ hpos => absurd hpos (lt_irrefl 0),fun _ k hk => ?_,fun _ hexc i hi => ?_,
    fun hno => hno.elim,fun _ => hfr,?_⟩
  · simp only [reset,Bool.and_eq_true] at hcon
    obtain rfl | hlt := hle.eq_or_lt
    · exact hcon.2
    · exact h.contig hcon.1 m hm (le_of_lt_succ hlt)
  · rw [reset,h.memory,allocated]
  · rw [trailing_zero,values_rank]
    simp only [reset,hexc,Bool.false_eq_true,if_false]
    exact Buffers.copied_cell hi
  · rw [trailing_zero,values_rank]
    simp only [reset,hexc,hpla,and_self,if_pos,copyElements,hi,Buffers.packed,Buffers.contribution,
      Bool.false_eq_true,if_false]
  · simp only [reset]
    split
    case isTrue => rfl
    case isFalse => exact Buffers.copied_of_ne hk
  · simp only [reset]
    split
    case isTrue => exact if_neg (not_lt.mpr hi)
    case isFalse => rfl
  · simp only [reset,h.overwritten,hfr,Bool.false_and,Bool.or_false]

theorem serves_transmit {came : Prop} (hn : 0<n)
    (hpla : (op n).exclusive=true → (call a n).inPlace=true → (op n).bytes=0)
    (h : Holds op call heap a n j came x) :
    (⟨(op n).bytes,if x.exclusive then x.tmpbuf else fun i => x.dbuf (x.rcell i)⟩ : LengthMessage β) =
      ⟨(op n).bytes,fun i =>
        if i<(op n).count then trailing (values a op call n i) j a
        else if (op n).exclusive then heap a n i else (call a n).dbuf ((op n).rcell i)⟩ := by
  refine congrArg (LengthMessage.mk _) ?_
  rw [h.exclusive hn,h.rcell hn]
  cases hexc : (op n).exclusive with
  | false =>
    refine funext fun i => ?_
    simp only [Bool.false_eq_true,if_false]
    split
    case isTrue hi => exact h.inclusive hn hexc i hi
    case isFalse hi =>
      refine h.frame hn _ fun k hk heq => hi ?_
      rwa [← (op n).injective heq]
  | true =>
    refine funext fun i => ?_
    simp only [if_pos]
    split
    case isTrue hi =>
      cases hsm : (call a n).inPlace with
      | false => exact h.tmpbuf hn hexc hsm i hi
      | true =>
        have hcou : (op n).count=0 := by rw [Reduction.count,hpla hexc hsm,Nat.zero_div]
        omega
    case isFalse hi => exact h.rest hn hexc i (not_lt.mp hi)

theorem serves_incoming (hsou : stepSource b j = some a) (hn : 0<n)
    (h : Holds op call heap b n j False x) {value : ℕ → β}
    (hval : ∀ i<(op n).count, value i = trailing (values b op call n i) j a) :
    Holds op call heap b n j True (x.cb_incoming ⟨(op n).bytes,value⟩) := by
  have hfr := h.waiting not_false
  refine ⟨h.nelems,h.sdataWidth,h.rcell,h.contig,h.exclusive,h.memory,h.inclusive,h.tmpbuf,h.excluded,
    h.frame,h.rest,fun _ c hc i hi => ?_,fun hno => absurd trivial hno,?_⟩
  · obtain rfl := some.inj (hc.symm.trans hsou)
    have hcou : i<(op n).bytes/x.sdataWidth := by
      rw [h.sdataWidth hn]
      exact hi
    simp only [cb_incoming,copyElements,if_pos hcou]
    exact hval i hi
  · simp only [cb_incoming,h.overwritten,hfr,Bool.or_false]

theorem serves_keep (hlt : ¬ 2^j≤(r : ℕ)) (h : Holds op call heap r n j False x) :
    Holds op call heap r n (j+1) False x := by
  have hall := not_le.mp hlt
  refine ⟨h.nelems,h.sdataWidth,h.rcell,h.contig,h.exclusive,h.memory,fun hn hexc i hi => ?_,
    fun hn hexc hpla i hi => ?_,fun hn hexc _ hr i hi => ?_,h.frame,h.rest,
    fun hno => hno.elim,h.waiting,h.overwritten⟩
  · rw [trailing_keep hall]
    exact h.inclusive hn hexc i hi
  · rw [trailing_keep hall]
    exact h.tmpbuf hn hexc hpla i hi
  · have hj : 0<j := by
      apply pos_of_ne_zero
      rintro rfl
      rw [pow_zero] at hall
      omega
    rw [preceding_keep hall]
    exact h.excluded hn hexc hj hr i hi

theorem serves_inclusive (hsou : stepSource r j = some a) (hn : 0<n)
    (hcell : x.contig=true → ∀ i<(op n).count, (op n).rcell i = i) (hexc : (op n).exclusive=false)
    (h : Holds op call heap r n j True x) (p : ℕ) :
    Holds op call heap r n (j+1) False (x.cb_prefixsums r p) := by
  have hno : ∀ {q : Prop}, (op n).exclusive=true → q := fun htrue =>
    absurd (hexc.symm.trans htrue) Bool.false_ne_true
  have hdis := stepSource_eq_some.mp hsou
  rw [cb_prefixsums,if_pos ((h.exclusive hn).trans hexc),h.nelems hn,h.rcell hn]
  refine ⟨fun _ => rfl,h.sdataWidth,fun _ => rfl,h.contig,h.exclusive,h.memory,fun _ _ i hi => ?_,
    fun _ htrue => hno htrue,fun _ htrue => hno htrue,fun _ k hk => ?_,fun _ htrue => hno htrue,
    fun hfal => hfal.elim,fun _ => rfl,h.overwritten⟩
  · rw [trailing_succ hdis,← h.inclusive hn hexc i hi,← h.received trivial a hsou i hi]
    exact reduceInto_cell (op n).injective hcell hi
  · rw [← h.frame hn k hk]
    exact reduceInto_of_ne hcell hk

theorem serves_exclusive (hsou : stepSource r j = some a) (hn : 0<n)
    (hcell : x.contig=true → ∀ i<(op n).count, (op n).rcell i = i) (hexc : (op n).exclusive=true)
    (h : Holds op call heap r n j True x) :
    Holds op call heap r n (j+1) False (x.cb_prefixsums r (2*j+1)) := by
  have hno : ∀ {q : Prop}, (op n).exclusive=false → q := fun hfal =>
    absurd (hfal.symm.trans hexc) Bool.false_ne_true
  have hdis := stepSource_eq_some.mp hsou
  have hr : 0<(r : ℕ) := by
    have := Nat.two_pow_pos j
    omega
  have hx : ¬ x.exclusive=false := by
    rw [h.exclusive hn,hexc]
    exact Bool.noConfusion
  rw [cb_prefixsums,if_neg hx,if_pos hr,h.nelems hn,h.rcell hn]
  refine ⟨fun _ => rfl,h.sdataWidth,fun _ => rfl,h.contig,h.exclusive,h.memory,fun _ hfal => hno hfal,
    fun _ _ hpla i hi => ?_,fun _ _ _ _ i hi => ?_,fun _ k hk => ?_,fun _ _ i hi => ?_,
    fun hfal => hfal.elim,fun _ => rfl,h.overwritten⟩
  · rw [trailing_succ hdis,← h.tmpbuf hn hexc hpla i hi,← h.received trivial a hsou i hi]
    exact if_pos hi
  · obtain rfl | hj := Nat.eq_zero_or_pos j
    · -- What is received first is that of the rank before.
      have hbef : (r : ℕ)-1=a := by
        rw [Nat.pow_zero] at hdis
        omega
      rw [Nat.zero_add,preceding_one,hbef,← trailing_zero (w := values r op call n i),
        ← h.received trivial a hsou i hi]
      exact place_cell (op n).injective.injOn hi
    · have hpha : ¬ 2*j+1=1 := by omega
      rw [preceding_succ hj hdis,← h.excluded hn hexc hj hr i hi,← h.received trivial a hsou i hi]
      simp only [if_neg hpha]
      exact reduceInto_cell (op n).injective hcell hi
  · rw [← h.frame hn k hk]
    simp only
    split
    case isTrue => exact place_of_ne hk
    case isFalse => exact reduceInto_of_ne hcell hk
  · rw [← h.rest hn hexc i hi]
    exact if_neg (not_lt.mpr hi)

theorem serves (heap : Fin N → ℕ → ℕ → β) (hcal : ∀ n, 0<n → N≤1 ∨ Supported op call n) :
    Serves (stepTables N) (client op call heap) (sendValue op call heap) (Holds op call heap) where
  start := fun r n _ h => serves_start h
  permission := by
    intro a n j x
    simp only [client,sendValue,mul_mod_right,if_pos]
  permitted := by
    intro a b n j x
    simp only [client,sendValue,mul_mod_right,if_pos,elim_none]
  ready := by
    intro r n j x
    exact if_neg (by omega)
  transmit := by
    intro a b n j came x hn hds hcm h
    have hodd : ¬ (2*j+1)%2=0 := by omega
    have hnx : (a : ℕ)+1<N := by
      have hb : (a : ℕ)+2^j=b := rankOf_eq_some.mp hds
      have := b.isLt
      have := Nat.two_pow_pos j
      omega
    simp only [client,sendValue,if_neg hodd,half_odd]
    refine congrArg some (serves_transmit hn (fun hexc hpla => ?_) h)
    obtain hone | hsup := hcal n hn
    · omega
    · exact (hsup.2 hexc).2 a hnx hpla
  incoming := by
    intro a b n j x hn hsou h
    have hodd : ¬ (2*j+1)%2=0 := by omega
    simp only [client,sendValue,if_neg hodd,half_odd,elim_some]
    exact serves_incoming hsou hn h fun i hi => if_pos hi
  pass := by
    intro r n j x hn hj h
    have hodd : (2*j+1)%2=1 := by omega
    simp only [client,hodd,half_odd,true_and]
    split
    case isTrue hle =>
      have hso := stepSource_isSome.mpr hle
      obtain ⟨a,ha⟩ := isSome_iff_exists.mp hso
      simp only [stepTables,eq_true hso] at h
      have hcell : x.contig=true → ∀ i<(op n).count, (op n).rcell i=i := fun hcon => by
        have hmany : ¬ N≤1 := by
          have := r.isLt
          have := Nat.two_pow_pos j
          omega
        exact ((hcal n hn).resolve_left hmany).1 (h.contig hcon)
      cases hexc : (op n).exclusive with
      | false => exact serves_inclusive ha hn hcell hexc h _
      | true => exact serves_exclusive ha hn hcell hexc h
    case isFalse hlt =>
      simp only [stepTables,eq_false (mt stepSource_isSome.mp hlt)] at h
      exact serves_keep hlt h

theorem holds_new (op : ℕ → ScanReduction) (call : Fin N → ℕ → Buffers β) (heap : Fin N → ℕ → ℕ → β) (r : Fin N)
    (j : ℕ) (dbuf memory : ℕ → β) : Holds op call heap r 0 j False (new dbuf memory) := by
  have hno : ∀ {q : Prop}, 0<0 → q := fun h => absurd h (lt_irrefl 0)
  exact ⟨hno,hno,hno,fun _ _ hm hle => absurd hm (not_lt.mpr hle),hno,rfl,hno,hno,hno,hno,hno,fun h => h.elim,fun _ => rfl,rfl⟩

end PrefixSums

end PAMI.TspColl

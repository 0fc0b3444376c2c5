import Mathlib.Data.Finset.Card
import Mathlib.Data.Fintype.Basic
import PAMI.Math.CircularBuffer
import PAMI.Math.Runs

namespace PAMI.Shmem

open PAMI.Math Function

def descriptorFifoSize : ℕ := 64

inductive DescState where
  | free
  | init
  | active
  | done
  deriving DecidableEq, Repr

/-- What the processes share of a descriptor, with its done counter. -/
structure ShmemRegion where
  seqNum : ℕ
  numConsumers : ℕ
  doneCounter : ℕ
  deriving DecidableEq, Repr

structure Descriptor where
  master : ℕ
  mySeqNum : ℕ
  myState : DescState
  deriving DecidableEq, Repr

/-- The descriptors of a process, and whether it is in `release_done_descriptors` between the reset of
the shared part and the new sequence number. -/
structure CollectiveFifo where
  desc : ℕ → Descriptor
  head : ℕ
  tail : ℕ
  fifoEnd : ℕ
  resetting : Bool

/-- The local processes with what they share. Which collectives a process has signalled done is for the
statements. -/
structure LocalProcesses (n : ℕ) where
  region : ℕ → ShmemRegion
  fifo : Fin n → CollectiveFifo
  signalled : Fin n → ℕ → Bool

/-- The steps of a process; collectives have numbers, the same ones in all processes. -/
inductive CollectiveEvent (n : ℕ) where
  | fetch (p : Fin n)
  | setMaster (p : Fin n) (c : ℕ)
  | signalDone (p : Fin n) (c : ℕ)
  | setDone (p : Fin n) (c : ℕ)
  | release (p : Fin n)

namespace ShmemRegion

def inUse (r : ShmemRegion) : Bool := r.doneCounter != r.numConsumers

/-- `reset`, where all local tasks are consumers. -/
def reset (r : ShmemRegion) (localTasks : ℕ) : ShmemRegion :=
  { r with doneCounter := 0, numConsumers := localTasks }

end ShmemRegion

namespace CollectiveFifo

def initial : CollectiveFifo where
  desc := fun i => ⟨0, i, .free⟩
  head := 0
  tail := 0
  fifoEnd := descriptorFifoSize
  resetting := false

def descriptor (f : CollectiveFifo) (c : ℕ) : Descriptor := f.desc (c % descriptorFifoSize)

def setDescriptor (f : CollectiveFifo) (c : ℕ) (d : Descriptor) : CollectiveFifo :=
  { f with desc := update f.desc (c % descriptorFifoSize) d }

/-- The collective was fetched and its descriptor not released since. -/
def Holds (f : CollectiveFifo) (c : ℕ) : Prop := f.head ≤ c ∧ c < f.tail

instance (f : CollectiveFifo) (c : ℕ) : Decidable (f.Holds c) := inferInstanceAs (Decidable (_ ∧ _))

/-- The end of a round of `release_done_descriptors`. -/
def releaseHead (f : CollectiveFifo) : CollectiveFifo :=
  let d := f.descriptor f.head
  { f.setDescriptor f.head ⟨0, d.mySeqNum + descriptorFifoSize, .free⟩ with
    head := f.head + 1, fifoEnd := f.fifoEnd + 1, resetting := false }

end CollectiveFifo

namespace LocalProcesses

variable {n : ℕ}

def initial : LocalProcesses n where
  region := fun i => ⟨i, n, 0⟩
  fifo := fun _ => .initial
  signalled := fun _ _ => false

/-- The shared part of the descriptor of a collective. -/
def regionOf (s : LocalProcesses n) (c : ℕ) : ShmemRegion := s.region (c % descriptorFifoSize)

def setRegion (s : LocalProcesses n) (c : ℕ) (r : ShmemRegion) : LocalProcesses n :=
  { s with region := update s.region (c % descriptorFifoSize) r }

def setFifo (s : LocalProcesses n) (p : Fin n) (f : CollectiveFifo) : LocalProcesses n :=
  { s with fifo := update s.fifo p f }

def getShmemWorldDesc (s : LocalProcesses n) (p : Fin n) : Option (LocalProcesses n) :=
  let f := s.fifo p
  if f.tail < f.fifoEnd ∧ (f.descriptor f.tail).mySeqNum = (s.regionOf f.tail).seqNum then
    some (s.setFifo p { f with tail := f.tail + 1 })
  else none

/-- The next round of `release_done_descriptors`, or the rest of the one in which the master has reset the
shared part. -/
def release (s : LocalProcesses n) (p : Fin n) : Option (LocalProcesses n) :=
  let f := s.fifo p
  let r := s.regionOf f.head
  if f.resetting then
    some ((s.setRegion f.head { r with seqNum := r.seqNum + descriptorFifoSize }).setFifo p f.releaseHead)
  else if f.head < f.tail ∧ (f.descriptor f.head).myState = .done then
    if (f.descriptor f.head).master = p then
      if r.inUse then none
      else some ((s.setRegion f.head (r.reset n)).setFifo p { f with resetting := true })
    else some (s.setFifo p f.releaseHead)
  else none

variable {s : LocalProcesses n} {p q : Fin n} {c c' : ℕ} {r : ShmemRegion} {f : CollectiveFifo}

theorem regionOf_setRegion (h : c'%descriptorFifoSize=c%descriptorFifoSize) :
    (s.setRegion c r).regionOf c' = r := by
  simp [regionOf,setRegion,h]

theorem regionOf_setRegion_of_ne (h : c'%descriptorFifoSize≠c%descriptorFifoSize) :
    (s.setRegion c r).regionOf c' = s.regionOf c' := by
  simp [regionOf,setRegion,h]

theorem regionOf_congr (s : LocalProcesses n) (h : c%descriptorFifoSize=c'%descriptorFifoSize) :
    s.regionOf c = s.regionOf c' := by
  rw [regionOf,regionOf,h]

theorem seqNum_setRegion (h : r.seqNum=(s.regionOf c).seqNum) :
    ((s.setRegion c r).regionOf c').seqNum=(s.regionOf c').seqNum := by
  by_cases hsl : c'%descriptorFifoSize=c%descriptorFifoSize
  · rw [regionOf_setRegion hsl,h,regionOf_congr s hsl]
  · rw [regionOf_setRegion_of_ne hsl]

@[simp] theorem regionOf_setFifo : (s.setFifo p f).regionOf c = s.regionOf c := rfl

@[simp] theorem fifo_setRegion : (s.setRegion c r).fifo p = s.fifo p := rfl

@[simp] theorem fifo_setFifo : (s.setFifo p f).fifo p = f := update_self ..

theorem fifo_setFifo_of_ne (h : q≠p) : (s.setFifo p f).fifo q = s.fifo q := update_of_ne h ..

theorem congr_setFifo {β : Sort*} (g : CollectiveFifo → β) (hg : g f = g (s.fifo p)) :
    g ((s.setFifo p f).fifo q) = g (s.fifo q) := by
  obtain rfl | hq := eq_or_ne q p
  · rw [fifo_setFifo,hg]
  · rw [fifo_setFifo_of_ne hq]

@[simp] theorem signalled_setFifo : (s.setFifo p f).signalled=s.signalled := rfl

@[simp] theorem signalled_setRegion : (s.setRegion c r).signalled=s.signalled := rfl

variable (master : ℕ → Fin n) (consumers : ℕ → Finset (Fin n))

/-- After the fetch a process sets the master, and the master the number of consumers, which all local
tasks are where it does not set one. -/
def setMaster (s : LocalProcesses n) (p : Fin n) (c : ℕ) : LocalProcesses n :=
  let f := s.fifo p
  let s := s.setFifo p (f.setDescriptor c { f.descriptor c with master := master c, myState := .init })
  if p = master c then s.setRegion c { s.regionOf c with numConsumers := (consumers c).card } else s

def signalDone (s : LocalProcesses n) (p : Fin n) (c : ℕ) : LocalProcesses n :=
  let r := s.regionOf c
  { s.setRegion c { r with doneCounter := r.doneCounter + 1 } with
    signalled := update s.signalled p (update (s.signalled p) c true) }

def setDone (s : LocalProcesses n) (p : Fin n) (c : ℕ) : LocalProcesses n :=
  let f := s.fifo p
  s.setFifo p (f.setDescriptor c { f.descriptor c with myState := .done })

/-- A process performs the collective `c`, whose descriptor it holds, by setting the master, signalling
done once if it is a consumer, and then setting its state. Nothing else runs in it during a round of
`release_done_descriptors`. -/
def step (s : LocalProcesses n) : CollectiveEvent n → Option (LocalProcesses n)
  | .fetch p => if (s.fifo p).resetting then none else s.getShmemWorldDesc p
  | .setMaster p c =>
    if !(s.fifo p).resetting ∧ (s.fifo p).Holds c ∧ ((s.fifo p).descriptor c).myState = .free then
      some (s.setMaster master consumers p c)
    else none
  | .signalDone p c =>
    if !(s.fifo p).resetting ∧ (s.fifo p).Holds c ∧ ((s.fifo p).descriptor c).myState = .init ∧
        p ∈ consumers c ∧ !s.signalled p c then
      some (s.signalDone p c)
    else none
  | .setDone p c =>
    if !(s.fifo p).resetting ∧ (s.fifo p).Holds c ∧ ((s.fifo p).descriptor c).myState = .init ∧
        (p ∈ consumers c → s.signalled p c) then
      some (s.setDone p c)
    else none
  | .release p => s.release p

end LocalProcesses

end PAMI.Shmem

namespace PAMI.Shmem

open PAMI.Math Nat

section Slots

variable {a b : ℕ}

theorem slot_add (c : ℕ) : (c+descriptorFifoSize)%descriptorFifoSize=c%descriptorFifoSize :=
  add_mod_right c descriptorFifoSize

theorem slot_eq (h : a%descriptorFifoSize=b%descriptorFifoSize) (ha : a<b+descriptorFifoSize)
    (hb : b<a+descriptorFifoSize) : a=b := by
  obtain hlt | heq | hlt := Nat.lt_trichotomy a b
  · exact absurd h (mod_ne_mod hlt hb)
  · exact heq
  · exact absurd h.symm (mod_ne_mod hlt ha)

theorem slot_next (h : a%descriptorFifoSize=b%descriptorFifoSize) (hlt : a<b) :
    a+descriptorFifoSize≤b := by
  by_contra hle
  exact mod_ne_mod hlt (by omega) h

end Slots

namespace CollectiveFifo

variable {f : CollectiveFifo} {c c' : ℕ} {d : Descriptor}

theorem descriptor_setDescriptor (h : c'%descriptorFifoSize=c%descriptorFifoSize) :
    (f.setDescriptor c d).descriptor c' = d := by
  simp [descriptor,setDescriptor,h]

theorem descriptor_setDescriptor_of_ne (h : c'%descriptorFifoSize≠c%descriptorFifoSize) :
    (f.setDescriptor c d).descriptor c' = f.descriptor c' := by
  simp [descriptor,setDescriptor,h]

end CollectiveFifo

variable {n : ℕ} (master : ℕ → Fin n) (consumers : ℕ → Finset (Fin n))

/-- A process has a window of the ring; it has signalled the collectives that it released or whose state
is DONE, where it is a consumer. -/
structure ProcessInvariant (p : Fin n) (f : CollectiveFifo) (signalled : ℕ → Bool) : Prop where
  headTail : f.head ≤ f.tail
  tailEnd : f.tail ≤ f.fifoEnd
  fifoEnd : f.fifoEnd = f.head + descriptorFifoSize
  mySeqNum : ∀ c, f.head ≤ c → c < f.head + descriptorFifoSize → (f.descriptor c).mySeqNum = c
  unused : ∀ c, f.tail ≤ c → c < f.head + descriptorFifoSize → (f.descriptor c).myState = .free
  fetched : ∀ c, signalled c = true → c < f.tail
  released : ∀ c, c < f.head → p ∈ consumers c → signalled c = true
  done : ∀ c, f.Holds c → (f.descriptor c).myState = .done → p ∈ consumers c → signalled c = true
  agreed : ∀ c, f.Holds c → (f.descriptor c).myState ≠ .free → (f.descriptor c).master = master c
  resetting : f.resetting = true → f.head < f.tail ∧ (f.descriptor f.head).myState = .done ∧ p = master f.head

variable {master consumers} {p : Fin n} {f : CollectiveFifo} {signalled : ℕ → Bool} {c : ℕ}

namespace ProcessInvariant

open CollectiveFifo

theorem initial (p : Fin n) :
    ProcessInvariant master consumers p CollectiveFifo.initial fun _ => false := by
  constructor <;> simp [CollectiveFifo.initial,descriptor,CollectiveFifo.Holds]
  exact fun c hc => mod_eq_of_lt hc

section

variable (h : ProcessInvariant master consumers p f signalled)
include h

theorem fetch (hr : f.resetting=false) (hta : f.tail<f.fifoEnd) :
    ProcessInvariant master consumers p { f with tail := f.tail+1 } signalled := by
  have hfr : (f.descriptor f.tail).myState = .free := h.unused f.tail le_rfl (h.fifoEnd ▸ hta)
  have hold : ∀ c, CollectiveFifo.Holds { f with tail := f.tail+1 } c →
      (f.descriptor c).myState ≠ .free → f.Holds c := by
    intro c ⟨hhe,hlt⟩ hne
    obtain hlt | rfl := Nat.lt_succ_iff_lt_or_eq.mp hlt
    · exact ⟨hhe,hlt⟩
    · exact absurd hfr hne
  refine ⟨h.headTail.trans (le_succ _),hta,h.fifoEnd,h.mySeqNum,?_,?_,h.released,?_,?_,?_⟩
  · exact fun c hc => h.unused c (le_of_succ_le hc)
  · exact fun c hc => (h.fetched c hc).trans (lt_succ_self _)
  · exact fun c hc hdn => h.done c (hold c hc (hdn.trans_ne (by decide))) hdn
  · exact fun c hc hne => h.agreed c (hold c hc hne) hne
  · intro hres
    simp [hr] at hres

theorem setDescriptor (hr : f.resetting=false) (hold : f.Holds c) {d : Descriptor} (hseq : d.mySeqNum=c)
    (hmas : d.master = master c) (hdn : d.myState = .done → p ∈ consumers c → signalled c = true) :
    ProcessInvariant master consumers p (f.setDescriptor c d) signalled := by
  have hwin : ∀ c', f.head ≤ c' → c'<f.head+descriptorFifoSize →
      (c'=c ∧ (f.setDescriptor c d).descriptor c'=d) ∨ (f.setDescriptor c d).descriptor c' = f.descriptor c' := by
    intro c' hhe hend
    by_cases hsl : c'%descriptorFifoSize=c%descriptorFifoSize
    · have hc : c<f.head+descriptorFifoSize := hold.2.trans_le (h.fifoEnd ▸ h.tailEnd)
      have hhe' := hold.1
      exact .inl ⟨slot_eq hsl (by omega) (by omega),descriptor_setDescriptor hsl⟩
    · exact .inr (descriptor_setDescriptor_of_ne hsl)
  have hhl : ∀ c', f.Holds c' → c'<f.head+descriptorFifoSize := fun c' hold' =>
    hold'.2.trans_le (h.fifoEnd ▸ h.tailEnd)
  refine ⟨h.headTail,h.tailEnd,h.fifoEnd,fun c' hhe hend => ?_,fun c' hta hend => ?_,h.fetched,
    h.released,fun c' hold' => ?_,fun c' hold' => ?_,fun hres => ?_⟩
  · obtain ⟨rfl,hd⟩ | hd := hwin c' hhe hend <;> rw [hd]
    · exact hseq
    · exact h.mySeqNum c' hhe hend
  · obtain ⟨rfl,-⟩ | hd := hwin c' (h.headTail.trans hta) hend
    · exact absurd hold.2 (Nat.not_lt.mpr hta)
    · rw [hd]
      exact h.unused c' hta hend
  · obtain ⟨rfl,hd⟩ | hd := hwin c' hold'.1 (hhl c' hold') <;> rw [hd]
    · exact hdn
    · exact h.done c' hold'
  · obtain ⟨rfl,hd⟩ | hd := hwin c' hold'.1 (hhl c' hold') <;> rw [hd]
    · exact fun _ => hmas
    · exact h.agreed c' hold'
  · exact absurd (hr.symm.trans hres) (by decide)

theorem signal (hold : f.Holds c) :
    ProcessInvariant master consumers p f (Function.update signalled c true) := by
  have hkeep : ∀ c', signalled c'=true → Function.update signalled c true c'=true := by
    intro c' hc'
    obtain rfl | hne := eq_or_ne c' c
    · simp
    · simpa [hne] using hc'
  refine ⟨h.headTail,h.tailEnd,h.fifoEnd,h.mySeqNum,h.unused,fun c' hc' => ?_,
    fun c' hlt hp => hkeep c' (h.released c' hlt hp),
    fun c' hold' hd hp => hkeep c' (h.done c' hold' hd hp),h.agreed,h.resetting⟩
  obtain rfl | hne := eq_or_ne c' c
  · exact hold.2
  · exact h.fetched c' (by simpa [hne] using hc')

theorem releaseHead (hta : f.head<f.tail) (hdn : (f.descriptor f.head).myState = .done) :
    ProcessInvariant master consumers p f.releaseHead signalled := by
  have hseq : (f.descriptor f.head).mySeqNum=f.head := h.mySeqNum f.head le_rfl (by simp [descriptorFifoSize])
  have hend := h.fifoEnd
  have htai := h.tailEnd
  have hwin : ∀ c', f.head+1 ≤ c' → c'<f.head+1+descriptorFifoSize →
      (c'=f.head+descriptorFifoSize ∧ f.releaseHead.descriptor c' = ⟨0,c',.free⟩) ∨
        (c'<f.head+descriptorFifoSize ∧ f.releaseHead.descriptor c' = f.descriptor c') := by
    intro c' hhe hlt
    by_cases hsl : c'%descriptorFifoSize=f.head%descriptorFifoSize
    · have hge : f.head+descriptorFifoSize ≤ c' := slot_next hsl.symm hhe
      obtain rfl : c'=f.head+descriptorFifoSize := by omega
      refine .inl ⟨rfl,?_⟩
      have hd : f.releaseHead.descriptor (f.head+descriptorFifoSize) =
          ⟨0,(f.descriptor f.head).mySeqNum+descriptorFifoSize,.free⟩ :=
        descriptor_setDescriptor (f := f) hsl
      rw [hd,hseq]
    · refine .inr ⟨?_,descriptor_setDescriptor_of_ne hsl⟩
      obtain hlt | rfl := Nat.lt_succ_iff_lt_or_eq.mp (show c'<f.head+descriptorFifoSize+1 by omega)
      · exact hlt
      · exact absurd (slot_add f.head) hsl
  refine ⟨hta,htai.trans (le_succ _),?_,fun c' hhe hlt => ?_,fun c' hta' hlt => ?_,
    h.fetched,fun c' hlt hp => ?_,fun c' hold => ?_,fun c' hold => ?_,fun hres => ?_⟩
  · simp only [CollectiveFifo.releaseHead]
    omega
  · obtain ⟨-,hd⟩ | ⟨hin,hd⟩ := hwin c' hhe hlt <;> rw [hd]
    exact h.mySeqNum c' (le_of_succ_le hhe) hin
  · obtain ⟨-,hd⟩ | ⟨hin,hd⟩ := hwin c' (le_trans hta hta') hlt <;> rw [hd]
    exact h.unused c' hta' hin
  · obtain hlt | rfl := Nat.lt_succ_iff_lt_or_eq.mp hlt
    · exact h.released c' hlt hp
    · exact h.done f.head ⟨le_rfl,hta⟩ hdn hp
  · have hlt : c'<f.head+descriptorFifoSize := hold.2.trans_le (hend ▸ htai)
    obtain ⟨rfl,-⟩ | ⟨-,hd⟩ := hwin c' hold.1 (hlt.trans (by omega))
    · exact absurd hlt (lt_irrefl _)
    · rw [hd]
      exact h.done c' ⟨le_of_succ_le hold.1,hold.2⟩
  · have hlt : c'<f.head+descriptorFifoSize := hold.2.trans_le (hend ▸ htai)
    obtain ⟨rfl,-⟩ | ⟨-,hd⟩ := hwin c' hold.1 (hlt.trans (by omega))
    · exact absurd hlt (lt_irrefl _)
    · rw [hd]
      exact h.agreed c' ⟨le_of_succ_le hold.1,hold.2⟩
  · exact absurd hres (by simp [CollectiveFifo.releaseHead])

end

end ProcessInvariant

end PAMI.Shmem

namespace PAMI.Shmem

open PAMI.Math Nat

variable {n : ℕ} (master : ℕ → Fin n) (consumers : ℕ → Finset (Fin n))

/-- The consumers that have signalled done for a collective. -/
def doneConsumers (s : LocalProcesses n) (c : ℕ) : Finset (Fin n) :=
  {q ∈ consumers c | s.signalled q c = true}

/-- A slot goes to its next collective when the master releases it, after all consumers have signalled
done; until then its counter has their number. -/
structure CollectiveInvariant (s : LocalProcesses n) : Prop where
  process : ∀ p, ProcessInvariant master consumers p (s.fifo p) (s.signalled p)
  slot : ∀ c, (s.regionOf c).seqNum % descriptorFifoSize = c % descriptorFifoSize
  published : ∀ p c, c < (s.fifo p).tail → c ≤ (s.regionOf c).seqNum
  masterHead : ∀ c, (s.regionOf c).seqNum ≤ c ↔ (s.fifo (master c)).head ≤ c
  passed : ∀ c, c < (s.regionOf c).seqNum → ∀ q ∈ consumers c, s.signalled q c = true
  resetting : ∀ p, (s.fifo p).resetting = true → ∀ q ∈ consumers (s.fifo p).head, s.signalled q (s.fifo p).head = true
  numConsumers : ∀ c, (s.fifo (master c)).Holds c → ((s.fifo (master c)).descriptor c).myState ≠ .free →
    ¬ ((s.fifo (master c)).resetting = true ∧ (s.fifo (master c)).head = c) →
    (s.regionOf c).numConsumers = (consumers c).card
  doneCounter : ∀ c, (s.regionOf c).seqNum = c → (s.regionOf c).doneCounter =
      if (s.fifo (master c)).resetting = true ∧ (s.fifo (master c)).head = c then 0
      else (doneConsumers consumers s c).card

variable {master consumers} {s s' : LocalProcesses n} {p q : Fin n} {c c' : ℕ}

namespace CollectiveInvariant

section

variable (h : CollectiveInvariant master consumers s)
include h

theorem current (hold : (s.fifo p).Holds c) (hq : q ∈ consumers c) (hs : s.signalled q c ≠ true) :
    (s.regionOf c).seqNum=c := by
  have hle := h.published p c hold.2
  by_contra hne
  exact hs (h.passed c (by omega) q hq)

theorem current_master (hold : (s.fifo (master c)).Holds c) : (s.regionOf c).seqNum=c :=
  le_antisymm ((h.masterHead c).mpr hold.1) (h.published (master c) c hold.2)

open CollectiveFifo

omit h in
theorem initial_invariant :
    CollectiveInvariant master consumers (LocalProcesses.initial : LocalProcesses n) := by
  have hle : ∀ c, c%descriptorFifoSize ≤ c := fun c => mod_le _ _
  have hlt : ∀ c, ¬ c < c%descriptorFifoSize := fun c => Nat.not_lt.mpr (hle c)
  constructor <;> simp [LocalProcesses.initial,LocalProcesses.regionOf,initial,
    CollectiveFifo.Holds,doneConsumers,hle,hlt]
  exact ProcessInvariant.initial

theorem setFifo {f : CollectiveFifo} (hf : ProcessInvariant master consumers p f (s.signalled p))
    (hhe : f.head=(s.fifo p).head) (hres : f.resetting=(s.fifo p).resetting)
    (hpub : ∀ c, c<f.tail → c≤(s.regionOf c).seqNum)
    (hnum : ∀ c, p = master c → f.Holds c → (f.descriptor c).myState ≠ .free →
      ¬ (f.resetting=true ∧ f.head=c) → (s.regionOf c).numConsumers=(consumers c).card) :
    CollectiveInvariant master consumers (s.setFifo p f) := by
  have hhea (q) := LocalProcesses.congr_setFifo (q := q) CollectiveFifo.head hhe
  have hrst (q) := LocalProcesses.congr_setFifo (q := q) CollectiveFifo.resetting hres
  refine ⟨fun q => ?_,h.slot,fun q c hc => ?_,fun c => ?_,h.passed,fun q hq => ?_,
    fun c hold hne hrou => ?_,fun c hc => ?_⟩
  · obtain rfl | hq := eq_or_ne q p
    · simpa using hf
    · simpa [LocalProcesses.fifo_setFifo_of_ne hq] using h.process q
  · obtain rfl | hq := eq_or_ne q p
    · exact hpub c (by simpa using hc)
    · exact h.published q c (by simpa [LocalProcesses.fifo_setFifo_of_ne hq] using hc)
  · rw [hhea]
    exact h.masterHead c
  · rw [hhea]
    exact h.resetting q ((hrst q).symm.trans hq)
  · obtain hp | hq := eq_or_ne (master c) p
    · rw [hp,LocalProcesses.fifo_setFifo] at hold hne hrou
      exact hnum c hp.symm hold hne hrou
    · rw [LocalProcesses.fifo_setFifo_of_ne hq] at hold hne hrou
      exact h.numConsumers c hold hne hrou
  · rw [hhea,hrst]
    exact h.doneCounter c hc

theorem fetch (hr : (s.fifo p).resetting=false) (hs : s.getShmemWorldDesc p = some s') :
    CollectiveInvariant master consumers s' := by
  obtain ⟨⟨hta,hseq⟩,rfl⟩ := Option.ite_some_none_eq_some.mp hs
  have hp := h.process p
  have hnx : (s.regionOf (s.fifo p).tail).seqNum=(s.fifo p).tail := by
    rw [← hseq]
    exact hp.mySeqNum _ hp.headTail (hp.fifoEnd ▸ hta)
  refine h.setFifo (hp.fetch hr hta) rfl rfl (fun c hc => ?_) ?_
  · obtain hlt | rfl := Nat.lt_succ_iff_lt_or_eq.mp hc
    · exact h.published p c hlt
    · exact hnx.ge
  · intro c hpc hold hne hrou
    subst hpc
    refine h.numConsumers c ⟨hold.1,?_⟩ hne hrou
    obtain hlt | heq := Nat.lt_succ_iff_lt_or_eq.mp hold.2
    · exact hlt
    · exact absurd (hp.unused c heq.ge (heq.trans_lt (hp.fifoEnd ▸ hta))) hne

end

end CollectiveInvariant

end PAMI.Shmem

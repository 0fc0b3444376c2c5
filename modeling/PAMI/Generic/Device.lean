import PAMI.Queue.Queue

namespace PAMI

open PAMI.Math Function

namespace Generic

inductive ThreadStatus where
  | new
  | idle
  | ready
  | complete
  deriving DecidableEq, Repr

/-- The members of a queue, whose links are in the elements. -/
@[ext]
structure QueueEnds (α : Type*) where
  head : Option α
  tail : Option α
  size : ℕ
  deriving DecidableEq, Repr

/-- The iterator of the posting queue. -/
structure PostingIterator (α : Type*) where
  curr : Option α
  next : Option α
  deriving DecidableEq, Repr

/-- Where `advance` is: outside, at the check of either loop, at a test of the status of a posted
thread, or in a work function. -/
inductive AdvancePlace where
  | outside
  | threads
  | threadsWork
  | postedBegin
  | posted
  | postedReady
  | postedComplete
  | postedWork
  deriving DecidableEq, Repr

/-- The generic device with its threads. Which of them are posted and unfinished, how often each was
called, and whether it was looked at, in this advance and since it was posted, is for the statements. -/
structure Device (α : Type*) where
  next : α → Option α
  prev : α → Option α
  threads : QueueEnds α
  posted : QueueEnds α
  thrIter : BasicQueueIterator α
  pstIter : PostingIterator α
  status : α → ThreadStatus
  events : ℕ
  place : AdvancePlace
  live : α → Bool
  calls : α → ℕ
  visited : α → Bool

/-- A thread is posted, a status is set, `advance` begins or goes on, or the work function that it has
called returns PAMI_EAGAIN or not. -/
inductive DeviceEvent (α : Type*) where
  | postThread (thr : α)
  | setStatus (thr : α) (stat : ThreadStatus)
  | advance
  | workReturn (again : Bool)

namespace Device

variable {α : Type*}

def initial (next prev : α → Option α) (status : α → ThreadStatus) : Device α where
  next := next
  prev := prev
  threads := ⟨none, none, 0⟩
  posted := ⟨none, none, 0⟩
  thrIter := ⟨none, none, none⟩
  pstIter := ⟨none, none⟩
  status := status
  events := 0
  place := .outside
  live := fun _ => false
  calls := fun _ => 0
  visited := fun _ => false

def threadsQueue (d : Device α) : Queue α := ⟨d.next, d.prev, d.threads.head, d.threads.tail, d.threads.size⟩

def postedQueue (d : Device α) : Queue α := ⟨d.next, d.prev, d.posted.head, d.posted.tail, d.posted.size⟩

def setThreads (d : Device α) (q : Queue α) : Device α :=
  { d with next := q.next, prev := q.prev, threads := ⟨q.head, q.tail, q.size⟩ }

def setPosted (d : Device α) (q : Queue α) : Device α :=
  { d with next := q.next, prev := q.prev, posted := ⟨q.head, q.tail, q.size⟩ }

def working (d : Device α) : Option α :=
  match d.place with
  | .threadsWork => d.thrIter.curr
  | .postedWork => d.pstIter.curr
  | _ => none

/-- `iter_begin` of the posting queue takes all its threads. -/
def takePosted (d : Device α) : Device α :=
  { d with
    posted := if d.posted.head.isSome then ⟨none, none, 0⟩ else d.posted
    pstIter := ⟨d.posted.head, d.pstIter.next⟩ }

/-- `iter_end` of the posting queue. -/
def nextPosted (d : Device α) : Device α :=
  { d with pstIter := ⟨d.pstIter.next, d.pstIter.next⟩, place := .posted }

variable [DecidableEq α]

def postThread (d : Device α) (thr : α) : Device α :=
  { d.setPosted (d.postedQueue.enqueue thr) with
    live := update d.live thr true
    calls := update d.calls thr 0
    visited := update d.visited thr false }

def executeThread (d : Device α) (thr : α) (place : AdvancePlace) : Device α :=
  { d with events := d.events + 1, calls := update d.calls thr (d.calls thr + 1), place := place }

/-- The thread has returned something else than PAMI_EAGAIN, or its status was found to be Complete. -/
def finish (d : Device α) (thr : α) : Device α :=
  { d with live := update d.live thr false }

/-- A round of the loop over the persistent queue, up to the call. -/
def threadsRound (d : Device α) (it : BasicQueueIterator α) (thr : α) : Device α :=
  let d := { d with visited := update d.visited thr true }
  if d.status thr = .ready then
    { d with thrIter := it }.executeThread thr .threadsWork
  else
    let d := { d with thrIter := Queue.iterEnd it }
    if d.status thr = .complete then d.finish thr else d

/-- `advance` up to its next access to what others may change. -/
def advance (d : Device α) : Option (Device α) :=
  match d.place with
  | .outside =>
    some { d with
      thrIter := d.threadsQueue.iterBegin
      events := 0
      place := .threads
      calls := fun _ => 0
      visited := fun _ => false }
  | .threads =>
    match d.threadsQueue.iterCheck d.thrIter with
    | none => some { d with place := .postedBegin }
    | some it => it.curr.map (d.threadsRound it)
  | .postedBegin => some { d.takePosted with place := .posted }
  | .posted =>
    match d.pstIter.curr with
    | none => some { d with place := .outside }
    | some thr => some { d with pstIter := ⟨some thr, d.next thr⟩, place := .postedReady }
  | .postedReady => d.pstIter.curr.map fun thr =>
    let d := { d with visited := update d.visited thr true }
    if d.status thr = .ready then d.executeThread thr .postedWork
    else { d with place := .postedComplete }
  | .postedComplete => d.pstIter.curr.map fun thr =>
    if d.status thr = .complete then (d.finish thr).nextPosted
    else (d.setThreads (d.threadsQueue.enqueue thr)).nextPosted
  | .threadsWork => none
  | .postedWork => none

def workReturn (d : Device α) (again : Bool) : Option (Device α) :=
  match d.place with
  | .threadsWork => d.thrIter.curr.map fun thr =>
    if again then { d with thrIter := Queue.iterEnd d.thrIter, place := .threads }
    else
      let removed := d.threadsQueue.iterRemove d.thrIter
      { (d.setThreads removed.1).finish thr with
        thrIter := Queue.iterEnd removed.2, place := .threads }
  | .postedWork => d.pstIter.curr.map fun thr =>
    if again then (d.setThreads (d.threadsQueue.enqueue thr)).nextPosted
    else (d.finish thr).nextPosted
  | _ => none

def step (d : Device α) : DeviceEvent α → Option (Device α)
  | .postThread thr => some (d.postThread thr)
  | .setStatus thr stat => some { d with status := update d.status thr stat }
  | .advance => d.advance
  | .workReturn again => d.workReturn again

/-- A thread is posted only while it is on no queue and its work function is not running. -/
def Fresh (d : Device α) : DeviceEvent α → Prop
  | .postThread thr => d.live thr = false
  | _ => True

/-- The loop over the persistent queue does not come to a thread whose status is Complete. -/
def Clean (d : Device α) : DeviceEvent α → Prop
  | .advance => d.place = .threads → ∀ thr ∈ d.thrIter.curr, d.status thr ≠ .complete
  | _ => True

instance (d : Device α) : (e : DeviceEvent α) → Decidable (d.Fresh e)
  | .postThread thr => inferInstanceAs (Decidable (d.live thr = false))
  | .setStatus _ _ => inferInstanceAs (Decidable True)
  | .advance => inferInstanceAs (Decidable True)
  | .workReturn _ => inferInstanceAs (Decidable True)

instance (d : Device α) : (e : DeviceEvent α) → Decidable (d.Clean e)
  | .postThread _ => inferInstanceAs (Decidable True)
  | .setStatus _ _ => inferInstanceAs (Decidable True)
  | .advance => inferInstanceAs (Decidable (d.place = .threads → ∀ thr ∈ d.thrIter.curr, d.status thr ≠ .complete))
  | .workReturn _ => inferInstanceAs (Decidable True)

end Device

end Generic

end PAMI

namespace PAMI.Generic

open PAMI.Math Function List Bool

namespace Device

variable {α : Type*} [DecidableEq α]

/-- The threads of the persistent queue, of the posting queue and those that the iterator has taken
from it: each unfinished thread is in one of them, once. -/
structure Stored (d : Device α) (threads posted taken : List α) : Prop where
  onThreads : d.threadsQueue.Linked threads
  onPosted : d.postedQueue.Linked posted
  chain : ∃ before, Segment d.next d.prev before taken none
  once : ∀ thr, threads.count thr + posted.count thr + taken.count thr = (d.live thr).toNat

variable {d d' : Device α} {threads kept rest posted taken : List α} {thr : α}

section

variable (h : Stored d threads posted taken)
include h

theorem Stored.congr (hths : d'.threadsQueue=d.threadsQueue) (hpst : d'.postedQueue=d.postedQueue)
    (hlive : d'.live=d.live) : Stored d' threads posted taken := by
  have hnx : d'.next=d.next := congrArg Queue.next hths
  have hprev : d'.prev=d.prev := congrArg Queue.prev hths
  refine ⟨hths ▸ h.onThreads,hpst ▸ h.onPosted,?_,?_⟩
  · simpa only [hnx,hprev] using h.chain
  · simpa only [hlive] using h.once

theorem Stored.nodup : (threads ++ (posted ++ taken)).Nodup := by
  apply nodup_iff_count_le_one.mpr
  intro thr
  have hone := h.once thr
  have hle := toNat_le (d.live thr)
  simp only [count_append]
  omega

theorem Stored.disjoint :
    (∀ t ∈ posted, t ∉ threads) ∧ (∀ t ∈ taken, t ∉ threads) ∧ ∀ t ∈ posted, t ∉ taken := by
  obtain ⟨-,hpt,hdisj⟩ := nodup_append.mp h.nodup
  refine ⟨fun t ht hmem => hdisj t hmem t (mem_append_left _ ht) rfl,
    fun t ht hmem => hdisj t hmem t (mem_append_right _ ht) rfl,
    fun t ht hmem => (nodup_append.mp hpt).2.2 t ht t hmem rfl⟩

theorem Stored.live_iff : d.live thr = true ↔ thr ∈ threads ∨ thr ∈ posted ∨ thr ∈ taken := by
  have hone := h.once thr
  simp only [← count_pos_iff]
  cases hlive : d.live thr with
  | true =>
    simp only [hlive,toNat_true] at hone
    simp only [true_iff]
    omega
  | false =>
    simp only [hlive,toNat_false] at hone
    simp only [false_eq_true,false_iff]
    omega

theorem Stored.not_mem (hlive : d.live thr = false) : thr ∉ threads ∧ thr ∉ posted ∧ thr ∉ taken := by
  have hthr : ¬ d.live thr=true := by simp [hlive]
  simpa [h.live_iff] using hthr

omit h in
theorem count_concat (l : List α) (thr t : α) :
    (l ++ [thr]).count t = l.count t+if thr = t then 1 else 0 := by
  simp [count_cons]

omit h in
theorem initial_stored (next prev : α → Option α) (status : α → ThreadStatus) :
    Stored (initial next prev status) [] [] [] :=
  ⟨⟨.nil,trivial,rfl,rfl,rfl⟩,⟨.nil,trivial,rfl,rfl,rfl⟩,⟨none,trivial⟩, by simp [initial]⟩

theorem Stored.postThread (hfre : d.live thr = false) :
    Stored (d.postThread thr) threads (posted ++ [thr]) taken := by
  obtain ⟨hths,hpst,htak⟩ := h.not_mem hfre
  obtain ⟨hpt,-,hpc⟩ := h.disjoint
  obtain ⟨before,hcha⟩ := h.chain
  refine ⟨⟨h.onThreads.nodup,h.onPosted.enqueue_segment h.onThreads.segment hths hpt,
      h.onThreads.head,h.onThreads.tail,h.onThreads.size⟩,h.onPosted.enqueue hpst,
    ⟨before,h.onPosted.enqueue_segment hcha htak hpc⟩,?_⟩
  intro t
  have hone := h.once t
  rw [count_concat]
  obtain rfl | ht := eq_or_ne thr t
  · simp only [hfre,toNat_false] at hone
    simp [Device.postThread]
    omega
  · simp [Device.postThread,ht,update_of_ne ht.symm]
    omega

end

theorem Stored.takePosted (h : Stored d threads posted []) :
    Stored d.takePosted threads [] posted := by
  have hemp : d.takePosted.posted = ⟨none,none,0⟩ := by
    cases hhe : d.posted.head with
    | some thr => simp [Device.takePosted,hhe]
    | none =>
      obtain rfl : posted = [] := by
        have hpst := h.onPosted.head
        simpa [postedQueue,hhe,eq_comm] using hpst
      have hta : d.posted.tail=none := h.onPosted.tail
      have hsi : d.posted.size=0 := h.onPosted.size
      simp only [Device.takePosted,hhe,Option.isSome_none,false_eq_true,if_false]
      exact QueueEnds.ext hhe hta hsi
  refine ⟨h.onThreads,?_,⟨none,h.onPosted.segment⟩,fun t => ?_⟩
  · rw [postedQueue,hemp]
    exact ⟨.nil,trivial,rfl,rfl,rfl⟩
  · have hone := h.once t
    simpa [Device.takePosted] using hone

theorem Stored.drop (h : Stored d threads posted (thr :: taken)) :
    Stored (d.finish thr) threads posted taken := by
  obtain ⟨before,-,-,hcha⟩ := h.chain
  refine ⟨h.onThreads,h.onPosted,⟨_,hcha⟩,fun t => ?_⟩
  have hone := h.once t
  obtain rfl | ht := eq_or_ne thr t
  · have hlive : d.live thr=true := h.live_iff.mpr (by simp)
    simp only [count_cons_self,hlive,toNat_true] at hone
    simp [finish]
    omega
  · simpa [finish,update_of_ne ht.symm,count_cons_of_ne ht] using hone

theorem Stored.persist (h : Stored d threads posted (thr :: taken)) :
    Stored (d.setThreads (d.threadsQueue.enqueue thr)) (threads ++ [thr]) posted taken := by
  obtain ⟨hpt,htt,hpc⟩ := h.disjoint
  obtain ⟨before,-,-,hcha⟩ := h.chain
  have hths : thr ∉ threads := htt thr (by simp)
  have hpst : thr ∉ posted := fun hmem => hpc thr hmem (by simp)
  have htak : thr ∉ taken := (nodup_cons.mp (nodup_append.mp (nodup_append.mp h.nodup).2.1).2.1).1
  refine ⟨h.onThreads.enqueue hths,⟨h.onPosted.nodup,
      h.onThreads.enqueue_segment h.onPosted.segment hpst fun t ht hmem => hpt t hmem ht,
      h.onPosted.head,h.onPosted.tail,h.onPosted.size⟩,
    ⟨_,h.onThreads.enqueue_segment hcha htak fun t ht hmem => htt t (by simp [hmem]) ht⟩,?_⟩
  intro t
  have hone := h.once t
  rw [count_concat]
  rw [count_cons] at hone
  simp only [beq_iff_eq] at hone
  rw [show (d.setThreads (d.threadsQueue.enqueue thr)).live t = d.live t from rfl,← hone]
  omega

theorem Stored.remove (h : Stored d (kept ++ thr :: rest) posted taken) :
    Stored ((d.setThreads (d.threadsQueue.safeRemove kept.getLast? rest.head?)).finish thr)
      (kept ++ rest) posted taken := by
  obtain ⟨hpt,htt,-⟩ := h.disjoint
  obtain ⟨before,hcha⟩ := h.chain
  have hp : (∀ t ∈ kept, t ∉ posted) ∧ ∀ t ∈ rest, t ∉ posted :=
    ⟨fun t ht hmem => hpt t hmem (by simp [ht]),fun t ht hmem => hpt t hmem (by simp [ht])⟩
  have ht : (∀ t ∈ kept, t ∉ taken) ∧ ∀ t ∈ rest, t ∉ taken :=
    ⟨fun t ht hmem => htt t hmem (by simp [ht]),fun t ht hmem => htt t hmem (by simp [ht])⟩
  refine ⟨h.onThreads.safeRemove,⟨h.onPosted.nodup,Queue.segment_safeRemove h.onPosted.segment hp.1 hp.2,
      h.onPosted.head,h.onPosted.tail,h.onPosted.size⟩,
    ⟨before,Queue.segment_safeRemove hcha ht.1 ht.2⟩,?_⟩
  intro t
  have hone := h.once t
  simp only [count_append] at hone ⊢
  obtain rfl | ht := eq_or_ne thr t
  · have hlive : d.live thr=true := h.live_iff.mpr (by simp)
    simp only [count_cons_self,hlive,toNat_true] at hone
    simp [finish]
    omega
  · simpa [finish,setThreads,update_of_ne ht.symm,count_cons_of_ne ht] using hone

end Device

end PAMI.Generic

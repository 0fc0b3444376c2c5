import PAMI.Math.Links
import PAMI.Math.Runs

namespace PAMI

open PAMI.Math

/-- Where a thread is in `enqueue_impl`: before each access to memory, with what it has read. -/
inductive Enqueuer (α : Type*) where
  | idle
  | clear (e : α)
  | load (e : α)
  | swap (e : α) (t : Option α)
  | link (e : α) (t : Option α)
  deriving DecidableEq, Repr

/-- Where the iterating thread is: outside of a pass, in `__merge`, between the calls of a pass, or in
`iter_remove_impl`, which may have removed the element or not. -/
inductive IteratorPlace (α : Type*) where
  | outside
  | loadHead
  | clearHead (h : α)
  | loadTail (h : α)
  | swapTail (h : α) (t : Option α)
  | join (h : α) (t : Option α)
  | check
  | working
  | loadElement
  | loadNext (e : α)
  | unlink (e : α) (n : Option α)
  | clearNext (e : α)
  | removed
  | again
  deriving DecidableEq, Repr

/-- An element that was enqueued, by which thread, and whether it was removed since. -/
structure Enqueued (ι α : Type*) where
  thread : ι
  element : α
  gone : Bool
  deriving DecidableEq, Repr

/-- `GccThreadSafeMultiQueue` with its iterator, whose own queue has `privateHead` and `privateTail`.
The calls of each thread, and the log of all elements in the order in which they became the tail, are for
the statements. -/
structure ThreadSafeMultiQueue (ι α : Type*) where
  next : α → Option α
  head : Option α
  tail : Option α
  privateHead : Option α
  privateTail : Option α
  parent : Option α
  nextParent : Option α
  curr : Option α
  iterNext : Option α
  enqueuer : ι → Enqueuer α
  place : IteratorPlace α
  calls : ι → List α
  log : List (Enqueued ι α)

/-- A thread begins to enqueue or goes on with it; the iterating thread begins a pass, goes on in a
call, removes its current element, or ends a round and checks for the next. -/
inductive MultiQueueEvent (ι α : Type*) where
  | start (i : ι) (e : α)
  | enqueue (i : ι)
  | iterBegin
  | iterate
  | iterRemove
  | iterEnd

namespace Enqueuer

variable {α : Type*}

@[grind =] def element : Enqueuer α → Option α
  | idle => none
  | clear e => some e
  | load e => some e
  | swap e _ => some e
  | link e _ => some e

end Enqueuer

namespace ThreadSafeMultiQueue

variable {ι α : Type*} [DecidableEq ι] [DecidableEq α]

def initial : ThreadSafeMultiQueue ι α where
  next := fun _ => none
  head := none
  tail := none
  privateHead := none
  privateTail := none
  parent := none
  nextParent := none
  curr := none
  iterNext := none
  enqueuer := fun _ => .idle
  place := .outside
  calls := fun _ => []
  log := []

/-- The elements enqueued and not removed, in the order of the log. -/
def live (s : ThreadSafeMultiQueue ι α) : List α := (s.log.filter fun r => !r.gone).map Enqueued.element

def markGone (log : List (Enqueued ι α)) (x : Option α) : List (Enqueued ι α) :=
  log.map fun r => if some r.element = x then { r with gone := true } else r

def setEnqueuer (s : ThreadSafeMultiQueue ι α) (i : ι) (pc : Enqueuer α) :
    ThreadSafeMultiQueue ι α :=
  { s with enqueuer := Function.update s.enqueuer i pc }

/-- The next access of a thread in `enqueue_impl`. -/
def enqueueStep (s : ThreadSafeMultiQueue ι α) (i : ι) : Option (ThreadSafeMultiQueue ι α) :=
  match s.enqueuer i with
  | .idle => none
  | .clear e => some (setEnqueuer { s with next := Function.update s.next e none } i (.load e))
  | .load e => some (setEnqueuer s i (.swap e s.tail))
  | .swap e t =>
    if s.tail = t then
      some (setEnqueuer { s with tail := some e, log := s.log ++ [⟨i, e, false⟩] } i (.link e t))
    else some (setEnqueuer s i (.swap e s.tail))
  | .link e (some t) => some (setEnqueuer { s with next := Function.update s.next t (some e) } i .idle)
  | .link e none => some (setEnqueuer { s with head := some e } i .idle)

/-- The next access of the iterating thread inside of a call. What only this thread reads and writes
is done along with it. -/
def iterateStep (s : ThreadSafeMultiQueue ι α) : Option (ThreadSafeMultiQueue ι α) :=
  match s.place with
  | .loadHead =>
    match s.head with
    | none => some { s with parent := none, curr := s.privateHead, place := .check }
    | some h => some { s with place := .clearHead h }
  | .clearHead h => some { s with head := none, place := .loadTail h }
  | .loadTail h => some { s with place := .swapTail h s.tail }
  | .swapTail h t =>
    if s.tail = t then some { s with tail := none, place := .join h t }
    else some { s with place := .loadTail h }
  | .join h t =>
    let privateHead := if s.privateTail.isNone then some h else s.privateHead
    some { s with
      next := setLink s.next s.privateTail (some h)
      privateHead := privateHead
      privateTail := t
      parent := none
      curr := privateHead
      place := .check }
  | .check =>
    match s.curr with
    | none => some { s with place := .outside }
    | some x => some { s with iterNext := s.next x, nextParent := s.curr, place := .working }
  | .loadElement =>
    (match s.parent with | none => s.privateHead | some p => s.next p).map fun e =>
      { s with place := .loadNext e }
  | .loadNext e =>
    match s.next e with
    | none =>
      if s.privateTail ≠ some e then some { s with place := .again }
      else some { s with privateTail := s.parent, place := .unlink e none }
    | some n => some { s with place := .unlink e (some n) }
  | .unlink e n =>
    some { s with
      next := setLink s.next s.parent n
      privateHead := if s.parent.isNone then n else s.privateHead
      log := markGone s.log s.curr
      place := .clearNext e }
  | .clearNext e => some { s with next := Function.update s.next e none, nextParent := s.parent, place := .removed }
  | .outside | .working | .removed | .again => none

def Busy (s : ThreadSafeMultiQueue ι α) (e : α) : Prop :=
  e ∈ s.live ∨ s.place = .clearNext e ∨ ∃ i, (s.enqueuer i).element = some e

/-- One access, or the call or the return of an operation. A thread enqueues one element at a time. -/
def step (s : ThreadSafeMultiQueue ι α) : MultiQueueEvent ι α → Option (ThreadSafeMultiQueue ι α)
  | .start i e =>
    if s.enqueuer i = .idle then
      some (setEnqueuer { s with calls := Function.update s.calls i (s.calls i ++ [e]) } i (.clear e))
    else none
  | .enqueue i => enqueueStep s i
  | .iterBegin => if s.place = .outside then some { s with place := .loadHead } else none
  | .iterate => iterateStep s
  | .iterRemove => if s.place = .working then some { s with place := .loadElement } else none
  | .iterEnd =>
    if s.place = .working ∨ s.place = .removed ∨ s.place = .again then
      some { s with parent := s.nextParent, curr := s.iterNext, place := .check }
    else none

/-- An element is enqueued only when it is not queued. -/
def Fresh (s : ThreadSafeMultiQueue ι α) : MultiQueueEvent ι α → Prop
  | .start _ e => ¬ Busy s e
  | _ => True

end ThreadSafeMultiQueue

end PAMI

namespace PAMI.ThreadSafeMultiQueue

open PAMI.Math

variable {ι α : Type*}

/-- A thread has still to store the link of an element. -/
def Pending (s : ThreadSafeMultiQueue ι α) (y : α) (t : Option α) : Prop :=
  ∃ i, s.enqueuer i = .link y t

/-- The head that `__merge` has taken from the shared queue, until it has taken the tail. -/
@[grind =] def held : IteratorPlace α → Option α
  | .loadTail h => some h
  | .swapTail h _ => some h
  | _ => none

/-- The shared queue holds these elements. -/
structure SharedOk (s : ThreadSafeMultiQueue ι α) (l : List α) : Prop where
  chain : BrokenChain s.next s.Pending l
  tail : s.tail = l.getLast?
  first : ∀ y ∈ l.head?, ∀ t, s.Pending y t → t = none
  held : ∀ h, held s.place = some h → s.head = none ∧ l.head? = some h ∧ ∀ t, ¬ s.Pending h t
  head : ThreadSafeMultiQueue.held s.place = none → (s.head = l.head? ∧ ∀ y ∈ l.head?, ∀ t, ¬ s.Pending y t) ∨
      (s.head = none ∧ ∃ y ∈ l.head?, s.Pending y none)
  found : ∀ h, s.place = .clearHead h → s.head = some h

/-- The elements that `__merge` has taken, until they are joined to the private queue. -/
structure TransitOk (s : ThreadSafeMultiQueue ι α) (l : List α) : Prop where
  chain : BrokenChain s.next s.Pending l
  first : ∀ y ∈ l.head?, ∀ t, ¬ s.Pending y t
  join : ∀ h t, s.place = .join h t → l.head? = some h ∧ t = l.getLast?
  empty : (∀ h t, s.place ≠ .join h t) → l = []

/-- The private queue of the iterator holds these elements. -/
structure PrivateOk (s : ThreadSafeMultiQueue ι α) (l : List α) : Prop where
  chain : BrokenChain s.next s.Pending l
  first : ∀ y ∈ l.head?, ∀ t, ¬ s.Pending y t
  head : s.privateHead = l.head?
  tail : (∀ e, s.place ≠ .unlink e none) → s.privateTail = l.getLast?
  cut : ∀ e, s.place = .unlink e none → s.privateTail = s.parent

/-- The threads that enqueue, for the list of all queued elements. -/
structure ThreadsOk (s : ThreadSafeMultiQueue ι α) (l : List α) : Prop where
  own : ∀ i j e, (s.enqueuer i).element = some e → (s.enqueuer j).element = some e → i = j
  out : ∀ i e, (s.enqueuer i).element = some e → (∀ t, s.enqueuer i ≠ .link e t) → e ∉ l
  cleared : ∀ i e, s.enqueuer i = .load e ∨ (∃ t, s.enqueuer i = .swap e t) → s.next e = none
  linked : ∀ i e t, s.enqueuer i = .link e t → e ∈ l
  leaving : ∀ e, s.place = .clearNext e → e ∉ l ∧ ∀ i, (s.enqueuer i).element ≠ some e

/-- The iterator is at an element of its queue, between `iter_check` and `iter_remove`. -/
def At (s : ThreadSafeMultiQueue ι α) (l : List α) (x : α) : Prop :=
  ∃ A B, l = A ++ x :: B ∧ s.parent = A.getLast? ∧ s.curr = some x ∧
    (∀ a ∈ A.getLast?, s.next a = some x) ∧ s.nextParent = some x ∧
    (s.iterNext = none ∨ s.iterNext = s.next x)

def Between (s : ThreadSafeMultiQueue ι α) (l : List α) (c : Option α) : Prop :=
  ∃ A B, l = A ++ B ∧ s.parent = A.getLast? ∧ (c = none ∨ (c = B.head? ∧ ∀ a ∈ A.getLast?, s.next a = c))

def Position (s : ThreadSafeMultiQueue ι α) (l : List α) : Prop :=
  match s.place with
  | .check => Between s l s.curr
  | .working | .again | .loadElement => ∃ x, At s l x
  | .loadNext e => At s l e
  | .unlink e n => At s l e ∧ s.next e = n ∧ (n = none → l.getLast? = some e)
  | .clearNext _ => Between s l s.iterNext
  | .removed => Between s l s.iterNext ∧ s.nextParent = s.parent
  | _ => True

/-- The queued elements, in the order of the log, are those of the private queue, those that are
being merged, and those of the shared queue. -/
structure Inv (s : ThreadSafeMultiQueue ι α) (own transit shared : List α) : Prop where
  live : s.live = own ++ transit ++ shared
  nodup : (own ++ transit ++ shared).Nodup
  threads : ThreadsOk s (own ++ transit ++ shared)
  sharedOk : SharedOk s shared
  transitOk : TransitOk s transit
  privateOk : PrivateOk s own
  position : Position s own

section Lists

variable {s s' : ThreadSafeMultiQueue ι α} {own transit shared l A B : List α} {x e y : α}

theorem Inv.disjoint (h : Inv s own transit shared) :
    (own.Nodup ∧ transit.Nodup ∧ shared.Nodup) ∧ (∀ x ∈ own, x ∉ transit ∧ x ∉ shared) ∧
      ∀ x ∈ transit, x ∉ shared := by
  have hnod := h.nodup
  simp only [List.nodup_append,List.mem_append] at hnod
  obtain ⟨⟨hown,htra,hot⟩,hsha,hos⟩ := hnod
  refine ⟨⟨hown,htra,hsha⟩,fun x hx => ⟨fun hmem => ?_,fun hmem => ?_⟩,fun x hx hmem => ?_⟩
  · exact hot x hx x hmem rfl
  · exact hos x (.inl hx) x hmem rfl
  · exact hos x (.inr hx) x hmem rfl

section

variable {next : α → Option α} {pending : α → Option α → Prop} (h : BrokenChain next pending (A ++ x :: B))
include h

theorem next_eq_head (hx : next x ≠ none) : next x = B.head? := by
  cases B with
  | nil => exact absurd (h.last x (by simp)) hx
  | cons y B =>
    obtain hf | hf := h.split
    · exact hf.1
    · exact absurd hf.1 hx

theorem not_pending_of_linked (hfir : ∀ y ∈ (A ++ x :: B).head?, ∀ t, ¬ pending y t)
    (hlin : ∀ a ∈ A.getLast?, next a = some x) (t : Option α) : ¬ pending x t := by
  obtain rfl | ⟨A,a,rfl⟩ := A.eq_nil_or_concat'
  · exact hfir x (by simp) t
  · rw [List.append_assoc] at h
    obtain hf | hf := BrokenChain.split h
    · exact hf.2 t
    · simp [hlin a (by simp)] at hf

end

theorem Position.congr (h : Position s l) (hpla : s'.place=s.place)
    (hpar : s'.parent=s.parent) (hnex : s'.nextParent=s.nextParent)
    (hcr : s'.curr=s.curr) (hite : s'.iterNext=s.iterNext)
    (hnx : ∀ x ∈ l, s.next x ≠ none → s'.next x = s.next x)
    (hla : ∀ x ∈ l.getLast?, s'.next x = none) : Position s' l := by
  have hat : ∀ x, At s l x → At s' l x := by
    intro x ⟨A,B,hl,hp,hc,ha,hnp,hn⟩
    subst hl
    refine ⟨A,B,rfl,hpar.trans hp,hcr.trans hc,fun a hmem => ?_,hnex.trans hnp,?_⟩
    · rw [hnx a (by simp [List.mem_of_getLast? hmem]) (by simp [ha a hmem])]
      exact ha a hmem
    · rw [hite]
      by_cases hnn : s.next x=none
      · exact .inl (hn.elim id fun heq => heq.trans hnn)
      · rwa [hnx x (by simp) hnn]
  have hbet : ∀ c, Between s l c → Between s' l c := by
    intro c ⟨A,B,hl,hp,hc⟩
    subst hl
    refine ⟨A,B,rfl,hpar.trans hp,?_⟩
    cases c with
    | none => exact .inl rfl
    | some c =>
      obtain hc | ⟨hhe,ha⟩ := hc
      · simp at hc
      · refine .inr ⟨hhe,fun a hmem => ?_⟩
        rw [hnx a (by simp [List.mem_of_getLast? hmem]) (by simp [ha a hmem])]
        exact ha a hmem
  unfold Position at h ⊢
  rw [hpla]
  split at h
  · simpa only [hcr] using hbet _ h
  · exact h.imp hat
  · exact h.imp hat
  · exact h.imp hat
  · exact hat _ h
  · next e n _ =>
    obtain ⟨hx,hn,hend⟩ := h
    refine ⟨hat e hx,?_,hend⟩
    by_cases hnn : s.next e=none
    · rw [← hn,hnn]
      exact hla e (hend (hn.symm.trans hnn))
    · obtain ⟨A,B,rfl,_⟩ := hx
      exact (hnx e (by simp) hnn).trans hn
  · simpa only [hite] using hbet _ h
  · simpa only [hite,hnex,hpar] using ⟨hbet _ h.1,h.2⟩
  · trivial

end Lists

end PAMI.ThreadSafeMultiQueue

import PAMI.Math.LinkSurgery
import PAMI.Math.Runs

namespace PAMI

open PAMI.Math Function List

/-- A circular queue, with the links that its elements hold. -/
structure CircularQueue (α : Type*) where
  next : α → Option α
  prev : α → Option α
  head : Option α

namespace CircularQueue

variable {α : Type*} [DecidableEq α]

/-- What `push` does to the links; `enqueue` does the same, and keeps the head. -/
def link (q : CircularQueue α) (head element : α) : CircularQueue α :=
  let next := update q.next element (some head)
  let prev := update q.prev element (q.prev head)
  { q with next := setLink next (prev head) (some element), prev := update prev head (some element) }

/-- An element that is linked to itself. -/
def single (q : CircularQueue α) (element : α) : CircularQueue α :=
  ⟨update q.next element (some element), update q.prev element (some element), some element⟩

def enqueue (q : CircularQueue α) (element : α) : CircularQueue α :=
  match q.head with
  | none => q.single element
  | some head =>
    if q.next head = some head then
      { q with
        next := update (update q.next element (some head)) head (some element)
        prev := update (update q.prev element (some head)) head (some element) }
    else q.link head element

def dequeue (q : CircularQueue α) : Option α × CircularQueue α :=
  match q.head with
  | none => (none, q)
  | some element =>
    if q.next element = some element then (some element, { q with head := none })
    else
      let head := q.next element
      let prev := setLink q.prev head (q.prev element)
      (some element, ⟨setLink q.next (prev element) head, prev, head⟩)

def push (q : CircularQueue α) (element : α) : CircularQueue α :=
  match q.head with
  | none => q.single element
  | some head => { q.link head element with head := some element }

/-- `next`, which is `NULL` for the last element. -/
def nextImpl (q : CircularQueue α) (reference : α) : Option α :=
  if q.next reference = q.head then none else q.next reference

/-- `enqueue` of a whole queue, which is left without elements. -/
def enqueueAll (q : CircularQueue α) (other : Option α) : CircularQueue α :=
  match other, q.head with
  | none, _ => q
  | some first, none => { q with head := some first }
  | some first, some head =>
    { q with
      next := setLink (setLink q.next (q.prev head) (some first)) (q.prev first) (some head)
      prev := update (update q.prev first (q.prev head)) head (q.prev first) }

structure Held (q : CircularQueue α) (l : List α) : Prop where
  nodup : l.Nodup
  ring : Segment q.next q.prev l.getLast? l l.head?
  head : q.head = l.head?

variable {q : CircularQueue α} {l m : List α} {x h : α}

structure Becomes (q : CircularQueue α) (l : List α) (q' : CircularQueue α) (l' : List α) : Prop where
  held : Held q' l'
  frame : ∀ y, y ∉ l → y ∉ l' → q'.next y = q.next y ∧ q'.prev y = q.prev y

theorem becomes_single : Becomes q [] (q.single x) [x] := by
  refine ⟨⟨by simp,by simp [single,Segment],rfl⟩,fun y _ hy => ?_⟩
  simp only [mem_singleton] at hy
  simp [single,hy]

theorem Held.link_next (hq : Held q (h :: l)) (hx : x ∉ h :: l) : (q.link h x).next =
    setLink (update q.next x (some h)) (h :: l).getLast? (some x) := by
  have hne : h≠x := fun heq => hx (by simp [heq])
  simp only [link,update_of_ne hne,hq.ring.1]

theorem Held.link_prev (hq : Held q (h :: l)) : (q.link h x).prev =
    setLink (update q.prev x (h :: l).getLast?) (some h) (some x) := by
  simp only [link,hq.ring.1,setLink]

theorem Held.link_frame (hq : Held q (h :: l)) (hx : x ∉ h :: l) {y : α} (hy : y ∉ h :: l) (hyx : y≠x) :
    (q.link h x).next y = q.next y ∧ (q.link h x).prev y = q.prev y := by
  rw [hq.link_next hx,hq.link_prev]
  constructor
  · rw [setLink_of_ne fun heq => hy (mem_of_getLast? heq),update_of_ne hyx]
  · rw [setLink_of_ne (by simpa using fun heq : h=y => hy (by simp [heq])),update_of_ne hyx]

omit [DecidableEq α] in
theorem Held.nodup_concat (hq : Held q l) (hx : x ∉ l) : (l ++ [x]).Nodup := by
  simpa [nodup_append,hq.nodup] using fun y hy (heq : y=x) => hx (heq ▸ hy)

theorem Held.enqueue_eq (hq : Held q (h :: l)) (hx : x ∉ h :: l) : q.enqueue x = q.link h x := by
  have hhe : q.head=some h := hq.head
  rw [enqueue,hhe]
  dsimp only
  split
  case isTrue hone =>
    have hl : l = [] := by
      have hnx : q.next h = l.head?.or (some h) := hq.ring.2.1
      cases l with
      | nil => rfl
      | cons y l =>
        have heq : y=h := by simpa [hnx] using hone
        exact absurd hq.nodup (by simp [heq])
    subst hl
    have hprev : q.prev h = some h := hq.ring.1
    have hne : h≠x := fun heq => hx (by simp [heq])
    simp [link,hprev,hne,hhe,setLink]
  case isFalse => rfl

theorem Held.becomes_enqueue (hq : Held q l) (hx : x ∉ l) : Becomes q l (q.enqueue x) (l ++ [x]) := by
  cases l with
  | nil =>
    have hhe : q.head=none := hq.head
    rw [enqueue,hhe]
    exact becomes_single
  | cons h l =>
    rw [hq.enqueue_eq hx]
    have hring : Segment q.next q.prev (h :: l).getLast? ((h :: l) ++ []) (some h) := by simpa using hq.ring
    have hlin := (hring.link (by simpa using hq.nodup) (by simpa using hx)).setPrev (hq.nodup_concat hx) (some x)
    refine ⟨⟨hq.nodup_concat hx,?_,hq.head⟩,fun y hy hy' => hq.link_frame hx hy fun heq => hy' (by simp [heq])⟩
    rw [hq.link_next hx,hq.link_prev,List.getLast?_concat]
    simpa [setLink] using hlin

theorem Held.becomes_push (hq : Held q l) (hx : x ∉ l) : Becomes q l (q.push x) (x :: l) := by
  cases l with
  | nil =>
    have hhe : q.head=none := hq.head
    rw [push,hhe]
    exact becomes_single
  | cons h l =>
    have hhe : q.head=some h := hq.head
    have hnod := nodup_cons.mpr ⟨hx,hq.nodup⟩
    have hlin := (Segment.link (l := []) hq.ring hq.nodup hx).setNext hnod (some x)
    rw [push,hhe]
    refine ⟨⟨hnod,?_,rfl⟩,fun y hy hy' => hq.link_frame hx hy fun heq => hy' (by simp [heq])⟩
    dsimp only
    rw [hq.link_next hx,hq.link_prev]
    simpa [setLink,List.getLast?_cons_cons] using hlin

theorem Held.becomes_dequeue (hq : Held q l) : Becomes q l q.dequeue.2 l.tail ∧ q.dequeue.1=l.head? := by
  cases l with
  | nil =>
    have hhe : q.head=none := hq.head
    rw [dequeue,hhe]
    exact ⟨⟨hq,fun _ _ _ => ⟨rfl,rfl⟩⟩,rfl⟩
  | cons x l =>
    have hhe : q.head=some x := hq.head
    have hnx : q.next x = l.head?.or (some x) := hq.ring.2.1
    rw [dequeue,hhe]
    dsimp only
    cases l with
    | nil =>
      rw [if_pos (by simpa using hnx)]
      exact ⟨⟨⟨.nil,trivial,rfl⟩,fun _ _ _ => ⟨rfl,rfl⟩⟩,rfl⟩
    | cons h l =>
      have hne : h≠x := fun heq => absurd hq.nodup (by simp [heq])
      have hnod := (nodup_cons.mp hq.nodup).2
      have hla : (x :: h :: l).getLast? = (h :: l).getLast? := List.getLast?_cons_cons
      have hprev : q.prev x=(h :: l).getLast? := hq.ring.1.trans hla
      have hrs := (hq.ring.2.2.setNext hnod (some h)).setPrev hnod (h :: l).getLast?
      have hkp : setLink q.prev (some h) (h :: l).getLast? x=(h :: l).getLast? :=
        (setLink_of_ne (by simpa using hne)).trans hprev
      have hnex : q.next x = some h := by simpa using hnx
      rw [if_neg (by simpa [hnex] using hne)]
      simp only [hnex,hprev,hkp]
      refine ⟨⟨⟨hnod,hrs,rfl⟩,fun y hy _ => ?_⟩,rfl⟩
      have hnot : y≠x ∧ y ∉ h :: l := by simpa using hy
      dsimp only
      rw [setLink_of_ne fun heq => hnot.2 (mem_of_getLast? heq),
        setLink_of_ne fun heq => hnot.2 (by simp [Option.some.inj heq])]
      exact ⟨rfl,rfl⟩

theorem Held.enqueueAll (hq : Held q l) {other : Option α} (hm : Held { q with head := other } m)
    (hdisj : ∀ y ∈ l, y ∉ m) : Becomes q l (q.enqueueAll other) (l ++ m) := by
  have hoth : other=m.head? := hm.head
  have hhe := hq.head
  cases m with
  | nil =>
    rw [CircularQueue.enqueueAll.eq_def,hoth]
    simpa using ⟨hq,fun _ _ _ => ⟨rfl,rfl⟩⟩
  | cons f m =>
    cases l with
    | nil =>
      rw [CircularQueue.enqueueAll.eq_def,hoth,hhe]
      exact ⟨⟨hm.nodup,hm.ring,rfl⟩,fun _ _ _ => ⟨rfl,rfl⟩⟩
    | cons h l =>
      have hfir : q.prev f=(f :: m).getLast? := hm.ring.1
      have hprev : q.prev h=(h :: l).getLast? := hq.ring.1
      have hnod : ((h :: l) ++ f :: m).Nodup :=
        nodup_append.mpr ⟨hq.nodup,hm.nodup,fun a ha b hb heq => hdisj a ha (heq ▸ hb)⟩
      have hla : ((h :: l) ++ f :: m).getLast? = (f :: m).getLast? := by
        rw [List.getLast?_append,List.getLast?_cons,Option.some_or]
      rw [CircularQueue.enqueueAll.eq_def,hoth,hhe]
      simp only [List.head?_cons,hfir,hprev]
      refine ⟨⟨hnod,hla ▸ hq.ring.join hm.ring hnod rfl rfl,rfl⟩,fun y _ hy => ?_⟩
      have hy' : y≠h ∧ y≠f := by simp at hy; tauto
      dsimp only
      rw [update_of_ne hy'.1,update_of_ne hy'.2,
        setLink_of_ne fun heq => hy (mem_append_right _ (mem_of_getLast? heq)),
        setLink_of_ne fun heq => hy (mem_append_left _ (mem_of_getLast? heq))]
      exact ⟨rfl,rfl⟩

omit [DecidableEq α] in
theorem ring_next {next prev : α → Option α} (h : Segment next prev l.getLast? l l.head?) (hx : x ∈ l) :
    ∃ y ∈ l, next x = some y ∧ prev y = some x := by
  obtain ⟨A,B,rfl⟩ := append_of_mem hx
  obtain ⟨-,-,hnx,hrs⟩ := segment_append.mp h
  cases B with
  | nil =>
    have hla : (A ++ [x]).getLast? = some x := List.getLast?_concat
    cases A with
    | nil => exact ⟨x,hx,hnx,h.1⟩
    | cons y A => exact ⟨y,by simp,hnx,h.1.trans hla⟩
  | cons y B => exact ⟨y,by simp,hnx,hrs.1⟩

theorem Held.nextImpl_eq {A : List α} (hq : Held q (A ++ x :: l)) : q.nextImpl x = l.head? := by
  have hnx : q.next x = l.head?.or (A ++ x :: l).head? := (segment_append.mp hq.ring).2.2.1
  rw [nextImpl,hq.head]
  cases l with
  | nil => simp [hnx]
  | cons y l =>
    have hnod := hq.nodup
    have hne : some y≠(A ++ x :: y :: l).head? := by
      cases A with
      | nil | cons z A => simp at hnod ⊢; tauto
    rw [hnx,List.head?_cons,Option.some_or,if_neg hne]

theorem Held.path {A : List α} (hq : Held q (A ++ l)) : Path q.nextImpl l.head? l := by
  induction l generalizing A with
  | nil => rfl
  | cons x l ih => exact ⟨rfl,hq.nextImpl_eq ▸ ih (A := A ++ [x]) (by simpa using hq)⟩

/-- A queue is read like a list, `next` ends at its last element, and the links of the ring are inverse to each other. -/
structure Reads (q : CircularQueue α) (l : List α) : Prop where
  forwards : ∀ n, l.length ≤ n → follow q.nextImpl n q.head = l
  last : ∀ x ∈ l, q.nextImpl x = none ↔ l.getLast? = some x
  next : ∀ x ∈ l, ∃ y ∈ l, q.next x = some y ∧ q.prev y = some x
  prev : ∀ y ∈ l, ∃ x ∈ l, q.prev y = some x ∧ q.next x = some y

theorem Held.reads (hq : Held q l) : Reads q l where
  forwards n hn := by
    rw [hq.head]
    exact (Held.path (A := []) hq).follow hn
  last x hx := by
    obtain ⟨A,B,rfl⟩ := append_of_mem hx
    rw [hq.nextImpl_eq]
    have hnod := (nodup_append.mp hq.nodup).2.1
    cases B with
    | nil => simp
    | cons y B =>
      have hne : (A ++ x :: y :: B).getLast? ≠ some x := fun heq => by
        have hmem : x ∈ y :: B := mem_of_getLast? (by simpa [List.getLast?_append] using heq)
        exact (nodup_cons.mp hnod).1 hmem
      simpa using hne
  next x hx := ring_next hq.ring hx
  prev y hy := by
    have hring : Segment q.prev q.next l.reverse.getLast? l.reverse l.reverse.head? := by simpa using hq.ring.reverse
    simpa using ring_next hring (mem_reverse.mpr hy)

end CircularQueue

/-- Queues that share the links of their elements. -/
structure CircularQueues (ι α : Type*) where
  next : α → Option α
  prev : α → Option α
  head : ι → Option α

inductive CircularEvent (ι α : Type*)
  | enqueue (i : ι) (element : α)
  | enqueueAll (i k : ι)
  | dequeue (i : ι)
  | push (i : ι) (element : α)

namespace CircularQueues

variable {ι α : Type*} [DecidableEq ι] [DecidableEq α]

omit [DecidableEq ι] [DecidableEq α] in
def queue (s : CircularQueues ι α) (i : ι) : CircularQueue α := ⟨s.next, s.prev, s.head i⟩

def setQueue (s : CircularQueues ι α) (i : ι) (q : CircularQueue α) : CircularQueues ι α :=
  ⟨q.next, q.prev, update s.head i q.head⟩

/-- The operations, with the lists they stand for. -/
def step : CircularQueues ι α × (ι → List α) → CircularEvent ι α → Option (CircularQueues ι α × (ι → List α))
  | (s, l), .enqueue i x => some (s.setQueue i ((s.queue i).enqueue x), update l i (l i ++ [x]))
  | (s, l), .enqueueAll i k =>
    let given := s.setQueue i ((s.queue i).enqueueAll (s.head k))
    some (given.setQueue k { given.queue k with head := none }, update (update l i (l i ++ l k)) k [])
  | (s, l), .dequeue i => some (s.setQueue i (s.queue i).dequeue.2, update l i (l i).tail)
  | (s, l), .push i x => some (s.setQueue i ((s.queue i).push x), update l i (x :: l i))

/-- New elements are in no queue, and a queue is not put into itself. -/
def Allowed (l : ι → List α) : CircularEvent ι α → Prop
  | .enqueue _ x | .push _ x => ∀ j, x ∉ l j
  | .enqueueAll i k => k ≠ i
  | .dequeue _ => True

structure Inv (x : CircularQueues ι α × (ι → List α)) : Prop where
  held : ∀ i, (x.1.queue i).Held (x.2 i)
  disjoint : ∀ i j, i ≠ j → ∀ y ∈ x.2 i, y ∉ x.2 j

variable {s : CircularQueues ι α} {l : ι → List α} {i : ι} {q : CircularQueue α} {m : List α}

omit [DecidableEq α] in
theorem Inv.setQueue (h : Inv (s, l)) (hq : (s.queue i).Becomes (l i) q m) (hm : ∀ j, j≠i → ∀ y ∈ m, y ∉ l j) :
    Inv (s.setQueue i q, update l i m) where
  held j := by
    by_cases hj : j=i
    · subst hj
      simpa [queue,CircularQueues.setQueue] using hq.held
    · have hold := h.held j
      have hfra : ∀ y ∈ l j, q.next y = s.next y ∧ q.prev y = s.prev y := fun y hy =>
        hq.frame y (h.disjoint j i hj y hy) fun hym => hm j hj y hym hy
      dsimp only at hold ⊢
      rw [update_of_ne hj]
      exact ⟨hold.nodup,hold.ring.congr (fun y hy => (hfra y hy).1) fun y hy => (hfra y hy).2,
        (update_of_ne hj _ _).trans hold.head⟩
  disjoint a b hab y hy := by
    dsimp only at hy ⊢
    by_cases ha : a=i
    · subst ha
      rw [update_self] at hy
      rw [update_of_ne hab.symm]
      exact hm b hab.symm y hy
    · rw [update_of_ne ha] at hy
      by_cases hb : b=i
      · subst hb
        rw [update_self]
        exact fun hym => hm a ha y hym hy
      · rw [update_of_ne hb]
        exact h.disjoint a b hab y hy

theorem Inv.step (h : Inv (s, l)) {e : CircularEvent ι α} (hall : Allowed l e) {x : CircularQueues ι α × (ι → List α)}
    (hs : step (s, l) e = some x) : Inv x := by
  cases e with
  | enqueue i x =>
    cases hs
    refine h.setQueue ((h.held i).becomes_enqueue (hall i)) fun j hj y hy => ?_
    cases mem_append.mp hy with
    | inl hy => exact h.disjoint i j hj.symm y hy
    | inr hy => simpa [mem_singleton.mp hy] using hall j
  | dequeue i =>
    cases hs
    exact h.setQueue (h.held i).becomes_dequeue.1 fun j hj y hy => h.disjoint i j hj.symm y (mem_of_mem_tail hy)
  | push i x =>
    cases hs
    refine h.setQueue ((h.held i).becomes_push (hall i)) fun j hj y hy => ?_
    cases mem_cons.mp hy with
    | inl hy => simpa [hy] using hall j
    | inr hy => exact h.disjoint i j hj.symm y hy
  | enqueueAll i k =>
    cases hs
    have hk : k≠i := hall
    have hemp : Inv (s.setQueue k { s.queue k with head := none }, update l k []) :=
      h.setQueue ⟨⟨.nil,trivial,rfl⟩,fun _ _ _ => ⟨rfl,rfl⟩⟩ (by simp)
    have hque : (s.setQueue k { s.queue k with head := none }).queue i = s.queue i := by
      simp [queue,CircularQueues.setQueue,hk.symm]
    have hoth : CircularQueue.Held { s.queue i with head := s.head k } (l k) := h.held k
    have hjoin := (h.held i).enqueueAll hoth (h.disjoint i k hk.symm)
    have hbt := hemp.setQueue (i := i) (q := (s.queue i).enqueueAll (s.head k)) (m := l i ++ l k)
      (by simpa [hque,hk.symm] using hjoin) fun j hj y hy => ?_
    · simpa [CircularQueues.setQueue,queue,update_comm hk.symm] using hbt
    · by_cases hjk : j=k
      · simp [hjk]
      · rw [update_of_ne hjk]
        cases mem_append.mp hy with
        | inl hy => exact h.disjoint i j hj.symm y hy
        | inr hy => exact h.disjoint k j (Ne.symm hjk) y hy

omit [DecidableEq ι] [DecidableEq α] in
def start (next prev : α → Option α) : CircularQueues ι α × (ι → List α) := (⟨next, prev, fun _ => none⟩, fun _ => [])

/-- Whatever the operations, each queue is read like the list that they give, `dequeue` returns its first element, and a queue
that was put into another one is empty. -/
theorem circular_reads {next prev : α → Option α} {x : CircularQueues ι α × (ι → List α)}
    (hrun : Run step (fun x e => Allowed x.2 e) (start next prev) x) :
    (∀ i, (x.1.queue i).Reads (x.2 i) ∧ (x.1.queue i).dequeue.1 = (x.2 i).head?) ∧
      ∀ i k, k ≠ i → ∃ x', step x (.enqueueAll i k) = some x' ∧ x'.2 i = x.2 i ++ x.2 k ∧ x'.2 k = [] := by
  have hinv : Inv x := by
    refine hrun.invariant ⟨fun _ => ⟨.nil,trivial,rfl⟩,fun _ _ _ _ hy => absurd hy not_mem_nil⟩ ?_
    exact fun x e x' h hok hs => h.step hok hs
  refine ⟨fun i => ⟨(hinv.held i).reads,(hinv.held i).becomes_dequeue.2⟩,fun i k hk => ⟨_,rfl,?_,?_⟩⟩
  · simp [hk.symm]
  · simp

open CircularEvent

theorem circular_reads_two : ∃ x : CircularQueues Bool ℕ × (Bool → List ℕ),
    Run step (fun x e => Allowed x.2 e) (start (fun _ => none) fun _ => none) x ∧ x.2 true = [1, 3, 4] ∧
      (x.1.queue true).Reads [1, 3, 4] := by
  have hrun : Run step (fun (x : CircularQueues Bool ℕ × (Bool → List ℕ)) e => Allowed x.2 e)
    (start (fun _ => none) fun _ => none) (start (fun _ => none) fun _ => none) := .refl
  have hone := hrun.step (e := enqueue true 2) (by simp [Allowed,start]) rfl
  have htwo := hone.step (e := enqueue true 1) (by simp [Allowed]) rfl
  have hthr := htwo.step (e := push false 4) (by simp [Allowed]) rfl
  have hfour := hthr.step (e := push false 3) (by simp [Allowed]) rfl
  have hfive := hfour.step (e := enqueueAll true false) Bool.false_ne_true rfl
  have hsix := hfive.step (e := dequeue true) trivial rfl
  exact ⟨_,hsix,rfl,((circular_reads hsix).1 true).1⟩

end CircularQueues

end PAMI

import PAMI.Queue.Queue

namespace PAMI.Queue

open PAMI.Math Function List

variable {α : Type*} [DecidableEq α]

def dequeue (q : Queue α) : Option α × Queue α :=
  match q.head with
  | none => (none, q)
  | some element =>
    let head := q.next element
    (some element, ⟨update q.next element none, setLink q.prev head none, head, if head.isNone then none else q.tail, q.size - 1⟩)

def push (q : Queue α) (element : α) : Queue α :=
  let next := update q.next element q.head
  let prev := update q.prev element none
  match q.head with
  | none => ⟨next, prev, some element, some element, q.size + 1⟩
  | some head => ⟨next, update prev head (some element), some element, q.tail, q.size + 1⟩

/-- What `insert` and `append` do to the links of an element and its neighbours. -/
def link (q : Queue α) (before element after : α) : Queue α :=
  { q with
    next := update (update q.next element (some after)) before (some element)
    prev := update (update q.prev element (some before)) after (some element)
    size := q.size + 1 }

/-- `insert`, which stores into the element before the reference; there is `none` for a store through `NULL`. -/
def insert (q : Queue α) (reference element : α) : Option (Queue α) :=
  (q.prev reference).map fun rprev => q.link rprev element reference

/-- `append`, which stores into the element after the reference. -/
def append (q : Queue α) (reference element : α) : Option (Queue α) :=
  (q.next reference).map fun rnext => q.link reference element rnext

/-- `remove`, whose body is that of `safe_remove`. -/
def remove (q : Queue α) (element : α) : Queue α := q.safeRemove (q.prev element) (q.next element)

omit [DecidableEq α] in
/-- `removeAll`; the head, the tail and the size are returned. -/
def removeAll (q : Queue α) : Queue α := if q.head.isSome then { q with head := none, tail := none, size := 0 } else q

/-- `appendAll` of what is between a head and a tail. -/
def appendAll (q : Queue α) (head tail : Option α) (size : ℕ) : Queue α :=
  { q with
    next := setLink q.next q.tail head
    head := if q.tail.isNone then head else q.head
    tail := tail
    size := q.size + size }

/-- The lists that the operations stand for. -/
@[grind =] def insertBefore (r x : α) : List α → List α
  | [] => []
  | y :: l => if y = r then x :: y :: l else y :: insertBefore r x l

@[grind =] def insertAfter (r x : α) : List α → List α
  | [] => []
  | y :: l => if y = r then y :: x :: l else y :: insertAfter r x l

section Operations

variable {q q' : Queue α} {l l' A B : List α} {r x : α}

theorem insertBefore_eq (hr : r ∉ A) : insertBefore r x (A ++ r :: B) = A ++ x :: r :: B := by
  induction A with
  | nil => simp [insertBefore]
  | cons y A ih =>
    simp only [mem_cons,not_or] at hr
    simp [insertBefore,Ne.symm hr.1,ih hr.2]

theorem insertAfter_eq (hr : r ∉ A) : insertAfter r x (A ++ r :: B) = A ++ r :: x :: B := by
  induction A with
  | nil => simp [insertAfter]
  | cons y A ih =>
    simp only [mem_cons,not_or] at hr
    simp [insertAfter,Ne.symm hr.1,ih hr.2]

theorem mem_insertBefore {y : α} (h : y ∈ insertBefore r x l) : y=x ∨ y ∈ l := by
  induction l with
  | nil => simp [insertBefore] at h
  | cons z l ih =>
    rw [insertBefore] at h
    split at h <;> simp only [mem_cons] at h ⊢ <;> tauto

theorem mem_insertAfter {y : α} (h : y ∈ insertAfter r x l) : y=x ∨ y ∈ l := by
  induction l with
  | nil => simp [insertAfter] at h
  | cons z l ih =>
    rw [insertAfter] at h
    split at h <;> simp only [mem_cons] at h ⊢ <;> tauto

structure Becomes (q : Queue α) (l : List α) (q' : Queue α) (l' : List α) : Prop where
  linked : Linked q' l'
  frame : ∀ y, y ∉ l → y ∉ l' → q'.next y = q.next y ∧ q'.prev y = q.prev y

section

variable (h : Linked q l)
include h

theorem Linked.becomes_enqueue (hx : x ∉ l) : Becomes q l (q.enqueue x) (l ++ [x]) := by
  refine ⟨h.enqueue hx,fun y hy hy' => ?_⟩
  have hne : y≠x := fun heq => hy' (by simp [heq])
  cases ht : q.tail with
  | none => simp [Queue.enqueue,ht,hne]
  | some t =>
    have hyt : y≠t := fun heq => hy (heq ▸ mem_of_getLast? (h.tail.symm.trans ht))
    simp [Queue.enqueue,ht,hne,hyt]

theorem Linked.becomes_push (hx : x ∉ l) : Becomes q l (q.push x) (x :: l) := by
  have hseg := Segment.link (l := []) h.segment (by simpa using h.nodup) (by simpa using hx)
  have hnod := nodup_cons.mpr ⟨hx,h.nodup⟩
  cases l with
  | nil =>
    have hhe := h.head
    refine ⟨⟨hnod,?_,?_,?_,?_⟩,fun y _ hy => ?_⟩ <;> simp_all [Queue.push,Segment,h.size]
  | cons z l =>
    have hhe : q.head=some z := h.head
    refine ⟨⟨hnod,?_,?_,?_,?_⟩,fun y hy hy' => ?_⟩
    · simpa [Queue.push,hhe,setLink] using hseg
    · simp [Queue.push,hhe]
    · simp [Queue.push,hhe,h.tail]
    · simp [Queue.push,hhe,h.size]
    · simp only [mem_cons,not_or] at hy'
      simp [Queue.push,hhe,hy'.1,hy'.2.1]

omit h in
theorem Linked.becomes_link {a b : α} (h : Linked q (A ++ a :: b :: B)) (hx : x ∉ A ++ a :: b :: B) :
    Becomes q (A ++ a :: b :: B) (q.link a x b) (A ++ a :: x :: b :: B) := by
  have hspl : A ++ a :: b :: B = (A ++ [a]) ++ b :: B := by simp
  have hnod : (A ++ a :: x :: b :: B).Nodup := by
    have hperm : (A ++ a :: x :: b :: B).Perm (x :: (A ++ a :: b :: B)) := by
      simpa using (perm_middle : ((A ++ [a]) ++ x :: b :: B).Perm _)
    exact hperm.nodup_iff.mpr (nodup_cons.mpr ⟨hx,h.nodup⟩)
  have hseg := h.segment
  rw [hspl] at hseg
  have hlin := hseg.link (hspl ▸ h.nodup) (hspl ▸ hx)
  refine ⟨⟨hnod,?_,?_,?_,?_⟩,fun y hy hy' => ?_⟩
  · simpa [link,setLink] using hlin
  · simpa [link] using h.head
  · simpa [link,List.getLast?_append,List.getLast?_cons] using h.tail
  · simp [link,h.size]
    omega
  · simp only [mem_append,mem_cons,not_or] at hy hy'
    simp [link,hy.2.1,hy.2.2.1,hy'.2.2.1]

theorem Linked.becomes_insert (hr : r ∈ l) (hhe : l.head? ≠ some r) (hx : x ∉ l) :
    ∃ q', q.insert r x = some q' ∧ Becomes q l q' (insertBefore r x l) := by
  obtain ⟨A,B,rfl⟩ := append_of_mem hr
  obtain rfl | ⟨A,a,rfl⟩ := A.eq_nil_or_concat'
  · simp at hhe
  have hnot : r ∉ A ++ [a] := fun hmem => (nodup_append.mp h.nodup).2.2 r hmem r (by simp) rfl
  have hprev : q.prev r = some a := by simpa using (segment_append.mp h.segment).2.1
  rw [insertBefore_eq hnot]
  refine ⟨q.link a x r,by rw [insert,hprev]; rfl,?_⟩
  simp only [append_assoc,singleton_append] at h hx ⊢
  exact h.becomes_link hx

theorem Linked.becomes_append (hr : r ∈ l) (hta : l.getLast? ≠ some r) (hx : x ∉ l) :
    ∃ q', q.append r x = some q' ∧ Becomes q l q' (insertAfter r x l) := by
  obtain ⟨A,B,rfl⟩ := append_of_mem hr
  cases B with
  | nil => simp at hta
  | cons b B =>
    have hnot : r ∉ A := fun hmem => (nodup_append.mp h.nodup).2.2 r hmem r (by simp) rfl
    have hnx : q.next r = some b := by simpa using h.next_eq
    rw [insertAfter_eq hnot]
    exact ⟨q.link r x b,by rw [append,hnx]; rfl,h.becomes_link hx⟩

theorem Linked.becomes_remove (hx : x ∈ l) : Becomes q l (q.remove x) (l.erase x) := by
  obtain ⟨A,B,rfl⟩ := append_of_mem hx
  have hnot : x ∉ A := fun hmem => (nodup_append.mp h.nodup).2.2 x hmem x (by simp) rfl
  have hprev : q.prev x=A.getLast? := by simpa using (segment_append.mp h.segment).2.1
  rw [remove,hprev,h.next_eq,erase_append_right _ hnot,erase_cons_head]
  refine ⟨h.safeRemove,fun y hy _ => ⟨setLink_of_ne fun heq => ?_,setLink_of_ne fun heq => ?_⟩⟩
  · exact hy (by simp [mem_of_getLast? heq])
  · exact hy (by simp [mem_of_head? heq])

theorem Linked.becomes_dequeue : Becomes q l q.dequeue.2 l.tail := by
  cases l with
  | nil =>
    have hhe : q.head=none := h.head
    rw [dequeue,hhe]
    exact ⟨h,fun _ _ _ => ⟨rfl,rfl⟩⟩
  | cons x l =>
    have hhe : q.head=some x := h.head
    rw [← nil_append (x :: l)] at h
    have hnx : q.next x=l.head? := h.next_eq
    have hrs := h.safeRemove
    rw [nil_append] at h
    have hx : x ∉ l := (nodup_cons.mp h.nodup).1
    rw [dequeue,hhe]
    dsimp only
    rw [hnx]
    refine ⟨⟨hrs.nodup,?_,rfl,hrs.tail,hrs.size⟩,fun y hy _ => ?_⟩
    · exact hrs.segment.congr (fun y hy => update_of_ne (ne_of_mem_of_not_mem hy hx) _ _) fun _ _ => rfl
    · simp only [mem_cons,not_or] at hy
      exact ⟨update_of_ne hy.1 _ _,setLink_of_ne fun heq => hy.2 (mem_of_head? heq)⟩

omit [DecidableEq α] in
theorem Linked.becomes_removeAll : Becomes q l q.removeAll [] := by
  rw [removeAll]
  split
  case isTrue => exact ⟨⟨.nil,trivial,rfl,rfl,rfl⟩,fun _ _ _ => ⟨rfl,rfl⟩⟩
  case isFalse hemp =>
    have hl : l = [] := by simpa [h.head] using hemp
    exact ⟨hl ▸ h,fun _ _ _ => ⟨rfl,rfl⟩⟩

end

theorem Linked.becomes_appendAll (h : Linked q []) {head tail : Option α} {size : ℕ}
    (hcha : Linked ⟨q.next,q.prev,head,tail,size⟩ l) : Becomes q [] (q.appendAll head tail size) l := by
  have hta : q.tail=none := h.tail
  have hsi : q.size=0 := h.size
  simp only [appendAll,hta,hsi,setLink,Option.isNone_none,if_true,Nat.zero_add]
  exact ⟨hcha,fun _ _ _ => ⟨rfl,rfl⟩⟩

end Operations

end PAMI.Queue

namespace PAMI

open PAMI.Math Function List

/-- Queues and the chains taken from them, with the links of all elements; an element has links for each slot. -/
structure Deques (ι κ α : Type*) where
  next : κ → α → Option α
  prev : κ → α → Option α
  head : ι → Option α
  tail : ι → Option α
  size : ι → ℕ

inductive DequeEvent (ι α : Type*)
  | enqueue (i : ι) (element : α)
  | dequeue (i : ι)
  | push (i : ι) (element : α)
  | insert (i : ι) (reference element : α)
  | append (i : ι) (reference element : α)
  | remove (i : ι) (element : α)
  | removeAll (i k : ι)
  | appendAll (i k : ι)

namespace Deques

variable {ι κ α : Type*} [DecidableEq ι] [DecidableEq κ] [DecidableEq α] (slot : ι → κ)

omit [DecidableEq ι] [DecidableEq κ] [DecidableEq α] in
def queue (s : Deques ι κ α) (i : ι) : Queue α := ⟨s.next (slot i), s.prev (slot i), s.head i, s.tail i, s.size i⟩

def setQueue (s : Deques ι κ α) (i : ι) (q : Queue α) : Deques ι κ α where
  next := update s.next (slot i) q.next
  prev := update s.prev (slot i) q.prev
  head := update s.head i q.head
  tail := update s.tail i q.tail
  size := update s.size i q.size

/-- The operations of the queues, with the lists they stand for; a chain is kept under a name of its own. -/
def step : Deques ι κ α × (ι → List α) → DequeEvent ι α → Option (Deques ι κ α × (ι → List α))
  | (s, l), .enqueue i x => some (s.setQueue slot i ((s.queue slot i).enqueue x), update l i (l i ++ [x]))
  | (s, l), .dequeue i => some (s.setQueue slot i (s.queue slot i).dequeue.2, update l i (l i).tail)
  | (s, l), .push i x => some (s.setQueue slot i ((s.queue slot i).push x), update l i (x :: l i))
  | (s, l), .insert i r x =>
    ((s.queue slot i).insert r x).map fun q => (s.setQueue slot i q, update l i (Queue.insertBefore r x (l i)))
  | (s, l), .append i r x =>
    ((s.queue slot i).append r x).map fun q => (s.setQueue slot i q, update l i (Queue.insertAfter r x (l i)))
  | (s, l), .remove i x => some (s.setQueue slot i ((s.queue slot i).remove x), update l i ((l i).erase x))
  | (s, l), .removeAll i k =>
    let chain := (s.setQueue slot i (s.queue slot i).removeAll).setQueue slot k (s.queue slot i)
    some (chain, update (update l i []) k (l i))
  | (s, l), .appendAll i k =>
    let given := s.setQueue slot k { s.queue slot k with head := none, tail := none, size := 0 }
    some (given.setQueue slot i ((s.queue slot i).appendAll (s.head k) (s.tail k) (s.size k)),
      update (update l k []) i (l i ++ l k))

/-- What the callers see to: new elements are in no queue of the slot, and references are members. -/
def Allowed (l : ι → List α) : DequeEvent ι α → Prop
  | .enqueue i x | .push i x => ∀ j, slot j = slot i → x ∉ l j
  | .insert i r x | .append i r x => r ∈ l i ∧ ∀ j, slot j = slot i → x ∉ l j
  | .remove i x => x ∈ l i
  | .removeAll i k => k ≠ i ∧ slot k = slot i ∧ l k = []
  | .appendAll i k => k ≠ i ∧ slot k = slot i
  | .dequeue _ => True

/-- The operations that keep both directions: an element is not inserted at an end, and chains go to empty queues. -/
def Kept (l : ι → List α) : DequeEvent ι α → Prop
  | .insert i r _ => (l i).head? ≠ some r
  | .append i r _ => (l i).getLast? ≠ some r
  | .appendAll i _ => l i = []
  | _ => True

/-- The elements of a queue forwards and backwards, and how many there are. -/
structure Reads (q : Queue α) (l : List α) : Prop where
  forwards : ∀ n, l.length ≤ n → follow q.next n q.head = l
  backwards : ∀ n, l.length ≤ n → follow q.prev n q.tail = l.reverse
  size : q.size = l.length

omit [DecidableEq α] in
theorem reads_of_linked {q : Queue α} {l : List α} (h : Queue.Linked q l) : Reads q l where
  forwards n hn := by
    rw [h.head]
    exact h.segment.path.follow hn
  backwards n hn := by
    rw [h.tail,← List.head?_reverse]
    exact h.segment.reverse.path.follow (by simpa using hn)
  size := h.size

structure Inv (x : Deques ι κ α × (ι → List α)) : Prop where
  linked : ∀ i, Queue.Linked (x.1.queue slot i) (x.2 i)
  disjoint : ∀ i j, i ≠ j → slot i = slot j → ∀ y ∈ x.2 i, y ∉ x.2 j

variable {slot} {s : Deques ι κ α} {l : ι → List α} {i k : ι} {q : Queue α} {m : List α}

omit [DecidableEq α] in
theorem queue_setQueue : (s.setQueue slot i q).queue slot i = q := by
  simp [queue,setQueue]

omit [DecidableEq α] in
theorem Inv.setQueue (h : Inv slot (s, l)) (hq : Queue.Becomes (s.queue slot i) (l i) q m)
    (hm : ∀ j, j≠i → slot j = slot i → ∀ y ∈ m, y ∉ l j) : Inv slot (s.setQueue slot i q, update l i m) where
  linked j := by
    by_cases hj : j=i
    · subst hj
      simpa [queue_setQueue] using hq.linked
    · have hold := h.linked j
      dsimp only at hold ⊢
      rw [update_of_ne hj]
      refine ⟨hold.nodup,?_,by simpa [queue,Deques.setQueue,hj] using hold.head,
        by simpa [queue,Deques.setQueue,hj] using hold.tail,by simpa [queue,Deques.setQueue,hj] using hold.size⟩
      by_cases hsl : slot j = slot i
      · have hfra : ∀ y ∈ l j, q.next y = s.next (slot i) y ∧ q.prev y = s.prev (slot i) y := fun y hy =>
          hq.frame y (h.disjoint j i hj hsl y hy) fun hym => hm j hj hsl y hym hy
        refine hold.segment.congr (fun y hy => ?_) fun y hy => ?_
        · simpa [queue,Deques.setQueue,hsl] using (hfra y hy).1
        · simpa [queue,Deques.setQueue,hsl] using (hfra y hy).2
      · simpa [queue,Deques.setQueue,hsl] using hold.segment
  disjoint a b hab hsl y hy := by
    dsimp only at hy ⊢
    by_cases ha : a=i
    · subst ha
      rw [update_self] at hy
      rw [update_of_ne hab.symm]
      exact hm b hab.symm hsl.symm y hy
    · rw [update_of_ne ha] at hy
      by_cases hb : b=i
      · subst hb
        rw [update_self]
        exact fun hym => hm a ha hsl y hym hy
      · rw [update_of_ne hb]
        exact h.disjoint a b hab hsl y hy

omit [DecidableEq α] in
theorem queue_setQueue_of_ne (hk : k≠i) (hsl : slot k = slot i) :
    (s.setQueue slot i q).queue slot k = ⟨q.next,q.prev,s.head k,s.tail k,s.size k⟩ := by
  simp [queue,Deques.setQueue,hk,hsl]

theorem Inv.step (h : Inv slot (s, l)) {e : DequeEvent ι α} (hall : Allowed slot l e) (hkp : Kept l e) :
    ∃ x, Deques.step slot (s, l) e = some x ∧ Inv slot x := by
  have hoth : ∀ {i : ι} {m : List α} {x : α}, (∀ j, slot j = slot i → x ∉ l j) → (∀ y ∈ m, y=x ∨ y ∈ l i) →
      ∀ j, j≠i → slot j = slot i → ∀ y ∈ m, y ∉ l j := by
    intro i m x hx hm j hj hsl y hy
    cases hm y hy with
    | inl heq => exact heq ▸ hx j hsl
    | inr hold => exact h.disjoint i j (Ne.symm hj) hsl.symm y hold
  have hsub : ∀ {i : ι} {m : List α}, (∀ y ∈ m, y ∈ l i) → ∀ j, j≠i → slot j = slot i → ∀ y ∈ m, y ∉ l j := by
    intro i m hm j hj hsl y hy
    exact h.disjoint i j (Ne.symm hj) hsl.symm y (hm y hy)
  cases e with
  | enqueue i x =>
    refine ⟨_,rfl,h.setQueue ((h.linked i).becomes_enqueue (hall i rfl)) (hoth hall ?_)⟩
    simp [or_comm]
  | dequeue i => exact ⟨_,rfl,h.setQueue (h.linked i).becomes_dequeue (hsub fun y hy => mem_of_mem_tail hy)⟩
  | push i x =>
    refine ⟨_,rfl,h.setQueue ((h.linked i).becomes_push (hall i rfl)) (hoth hall ?_)⟩
    simp
  | insert i r x =>
    obtain ⟨hr,hx⟩ := hall
    obtain ⟨q,hq,hbec⟩ := (h.linked i).becomes_insert hr hkp (hx i rfl)
    refine ⟨_,by rw [Deques.step,hq]; rfl,h.setQueue hbec (hoth hx ?_)⟩
    exact fun y hy => Queue.mem_insertBefore hy
  | append i r x =>
    obtain ⟨hr,hx⟩ := hall
    obtain ⟨q,hq,hbec⟩ := (h.linked i).becomes_append hr hkp (hx i rfl)
    refine ⟨_,by rw [Deques.step,hq]; rfl,h.setQueue hbec (hoth hx ?_)⟩
    exact fun y hy => Queue.mem_insertAfter hy
  | remove i x => exact ⟨_,rfl,h.setQueue ((h.linked i).becomes_remove hall) (hsub fun y hy => mem_of_mem_erase hy)⟩
  | removeAll i k =>
    obtain ⟨hk,hsl,hemp⟩ := hall
    have hfir := h.setQueue (h.linked i).becomes_removeAll (by simp)
    have hlnk : (s.queue slot i).removeAll.next=(s.queue slot i).next ∧
        (s.queue slot i).removeAll.prev=(s.queue slot i).prev := by
      rw [Queue.removeAll]
      split <;> exact ⟨rfl,rfl⟩
    refine ⟨_,rfl,hfir.setQueue ⟨h.linked i,fun y _ _ => ?_⟩ fun j hj hjsl y hy => ?_⟩
    · simp [queue_setQueue_of_ne hk hsl,hlnk]
    · by_cases hji : j=i
      · simp [hji]
      · rw [update_of_ne hji]
        exact h.disjoint i j (Ne.symm hji) (hsl.symm.trans hjsl.symm) y hy
  | appendAll i k =>
    obtain ⟨hk,hsl⟩ := hall
    have hfir : Inv slot (s.setQueue slot k { s.queue slot k with head := none, tail := none, size := 0 }, update l k []) :=
      h.setQueue ⟨⟨.nil,trivial,rfl,rfl,rfl⟩,fun _ _ _ => ⟨rfl,rfl⟩⟩ (by simp)
    have hemp : l i = [] := hkp
    have hque : (s.setQueue slot k { s.queue slot k with head := none, tail := none, size := 0 }).queue slot i =
        s.queue slot i := by
      rw [queue_setQueue_of_ne hk.symm hsl.symm]
      simp [queue,hsl]
    have hlin := h.linked i
    dsimp only at hlin
    rw [hemp] at hlin
    have hcha : Queue.Linked ⟨(s.queue slot i).next,(s.queue slot i).prev,s.head k,s.tail k,s.size k⟩ (l k) := by
      have hold := h.linked k
      rw [queue,hsl] at hold
      exact hold
    refine ⟨_,rfl,?_⟩
    rw [hemp,nil_append]
    refine hfir.setQueue ?_ fun j hj hjsl y hy => ?_
    · rw [hque,update_of_ne hk.symm,hemp]
      exact hlin.becomes_appendAll hcha
    · by_cases hjk : j=k
      · simp [hjk]
      · rw [update_of_ne hjk]
        exact h.disjoint k j (Ne.symm hjk) (hsl.trans hjsl.symm) y hy

omit [DecidableEq ι] [DecidableEq κ] [DecidableEq α] in
/-- All queues are empty, and the links of the elements are not set. -/
def start (next prev : κ → α → Option α) : Deques ι κ α × (ι → List α) :=
  (⟨next, prev, fun _ => none, fun _ => none, fun _ => 0⟩, fun _ => [])

/-- Whatever the operations on the queues, as long as they keep both directions, each queue holds what they give on lists, and
no store goes through `NULL`. -/
theorem run_reads {next prev : κ → α → Option α} {x : Deques ι κ α × (ι → List α)}
    (hrun : Run (step slot) (fun x e => Allowed slot x.2 e ∧ Kept x.2 e) (start next prev) x) :
    (∀ i, Reads (x.1.queue slot i) (x.2 i)) ∧ ∀ e, Allowed slot x.2 e → Kept x.2 e → (step slot x e).isSome := by
  have hsta : Inv slot (start next prev : Deques ι κ α × (ι → List α)) :=
    ⟨fun _ => ⟨.nil,trivial,rfl,rfl,rfl⟩,fun _ _ _ _ _ hy => absurd hy not_mem_nil⟩
  have hinv : Inv slot x := by
    refine hrun.invariant hsta fun x e x' h hok hs => ?_
    obtain ⟨y,hy,hinv⟩ := h.step hok.1 hok.2
    exact Option.some.inj (hy.symm.trans hs) ▸ hinv
  refine ⟨fun i => reads_of_linked (hinv.linked i),fun e hall hkp => ?_⟩
  obtain ⟨y,hy,-⟩ := hinv.step hall hkp
  exact Option.isSome_of_eq_some hy

open DequeEvent

theorem run_reads_three : ∃ x : Deques Unit Unit ℕ × (Unit → List ℕ),
    Run (step fun _ => ()) (fun x e => Allowed (fun _ => ()) x.2 e ∧ Kept x.2 e) (start (fun _ _ => none) fun _ _ => none) x ∧
      x.2 () = [4, 2, 3] ∧ Reads (x.1.queue (fun _ => ()) ()) [4, 2, 3] := by
  have hrun : Run (step fun _ => ()) (fun (x : Deques Unit Unit ℕ × (Unit → List ℕ)) e => Allowed (fun _ => ()) x.2 e ∧ Kept x.2 e)
    (start (fun _ _ => none) fun _ _ => none) (start (fun _ _ => none) fun _ _ => none) := .refl
  have hemp : ∀ _ : Unit, ()=() → 2 ∉ ([] : List ℕ) := fun _ _ => not_mem_nil
  have hfre : 1 ∉ [2] ∧ 4 ∉ [1,2] ∧ 3 ∉ [1,4,2] := by decide
  have hen : [1,2].getLast? ≠ some 1 := by decide
  have hone := hrun.step (e := enqueue () 2) ⟨hemp,trivial⟩ rfl
  have htwo := hone.step (e := push () 1) ⟨fun _ _ => hfre.1,trivial⟩ rfl
  have hthr := htwo.step (e := append () 1 4) ⟨⟨mem_cons_self,fun _ _ => hfre.2.1⟩,hen⟩ rfl
  have hfour := hthr.step (e := enqueue () 3) ⟨fun _ _ => hfre.2.2,trivial⟩ rfl
  have hfive := hfour.step (e := remove () 1) ⟨mem_cons_self,trivial⟩ rfl
  exact ⟨_,hfive,rfl,(run_reads hfive).1 ()⟩

/-- At an end an element is inserted through `NULL`, and the first element of a chain is not linked to the queue before it. -/
theorem not_reads :
    (∃ x : Deques Bool Unit ℕ × (Bool → List ℕ),
      Run (step fun _ => ()) (fun x e => Allowed (fun _ => ()) x.2 e) (start (fun _ _ => none) fun _ _ => none) x ∧
      Allowed (fun _ => ()) x.2 (.insert true 1 2) ∧ step (fun _ => ()) x (.insert true 1 2) = none ∧
      Allowed (fun _ => ()) x.2 (.append true 1 2) ∧ step (fun _ => ()) x (.append true 1 2) = none) ∧
    ∃ x : Deques Bool Unit ℕ × (Bool → List ℕ),
      Run (step fun _ => ()) (fun x e => Allowed (fun _ => ()) x.2 e) (start (fun _ _ => none) fun _ _ => none) x ∧
      ¬ Reads (x.1.queue (fun _ => ()) true) (x.2 true) := by
  have hrun : Run (step fun _ => ()) (fun (x : Deques Bool Unit ℕ × (Bool → List ℕ)) e => Allowed (fun _ => ()) x.2 e)
    (start (fun _ _ => none) fun _ _ => none) (start (fun _ _ => none) fun _ _ => none) := .refl
  have hone := hrun.step (e := enqueue true 1) (by simp [Allowed,start]) rfl
  have htwo := hone.step (e := enqueue false 3) (by simp [Allowed]) rfl
  have hthr := htwo.step (e := appendAll true false) (by simp [Allowed]) rfl
  refine ⟨⟨_,hone,?_,rfl,?_,rfl⟩,_,hthr,fun h => ?_⟩
  · simp [Allowed]
  · simp [Allowed]
  · exact absurd (h.backwards 2 (by decide)) (by decide)

end Deques

end PAMI

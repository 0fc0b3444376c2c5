import PAMI.Math.LinkSurgery
import PAMI.Math.Runs

namespace PAMI

open PAMI.Math Function List Option

/-- A queue, with the links that its elements hold. -/
structure Queue (α : Type*) where
  next : α → Option α
  prev : α → Option α
  head : Option α
  tail : Option α
  size : ℕ

structure BasicQueueIterator (α : Type*) where
  parent : Option α
  curr : Option α
  next : Option α
  deriving DecidableEq, Repr

namespace Queue

variable {α : Type*}

def empty : Queue α := ⟨fun _ => none, fun _ => none, none, none, 0⟩

def peek (q : Queue α) : Option α := q.head

def iterBegin (q : Queue α) : BasicQueueIterator α := ⟨none, q.peek, none⟩

def iterCheck (q : Queue α) (it : BasicQueueIterator α) : Option (BasicQueueIterator α) :=
  it.curr.map fun x => { it with next := q.next x }

def iterEnd (it : BasicQueueIterator α) : BasicQueueIterator α :=
  { it with parent := it.curr, curr := it.next }

/-- The elements of a queue whose head, tail, size and links all agree. -/
structure Linked (q : Queue α) (l : List α) : Prop where
  nodup : l.Nodup
  segment : Segment q.next q.prev none l none
  head : q.head = l.head?
  tail : q.tail = l.getLast?
  size : q.size = l.length

variable {q : Queue α} {l kept rest : List α} {x : α}

theorem empty_linked : Linked (empty : Queue α) [] := ⟨.nil,trivial,rfl,rfl,rfl⟩

theorem Linked.next_eq (h : Linked q (kept ++ x :: rest)) : q.next x = rest.head? := by
  have hx := (segment_append.mp h.segment).2.2.1
  simpa using hx

theorem Linked.unique {l' : List α} (h : Linked q l) (h' : Linked q l') : l=l' :=
  segment_unique (h.head.symm.trans h'.head) h.segment h'.segment

variable [DecidableEq α]

def enqueue (q : Queue α) (element : α) : Queue α :=
  let next := update q.next element none
  let prev := update q.prev element q.tail
  match q.tail with
  | none => ⟨next, prev, some element, some element, q.size + 1⟩
  | some tail => ⟨update next tail (some element), prev, q.head, some element, q.size + 1⟩

def safeRemove (q : Queue α) (parent next : Option α) : Queue α where
  next := setLink q.next parent next
  prev := setLink q.prev next parent
  head := if parent.isNone then next else q.head
  tail := if next.isNone then parent else q.tail
  size := q.size - 1

def iterRemove (q : Queue α) (it : BasicQueueIterator α) : Queue α × BasicQueueIterator α :=
  (q.safeRemove it.parent it.next, { it with curr := it.parent })

theorem Linked.enqueue (h : Linked q l) (hx : x ∉ l) : Linked (q.enqueue x) (l ++ [x]) := by
  have hnod : (l ++ [x]).Nodup := by simpa [nodup_append,h.nodup] using fun y hy (heq : y=x) => hx (heq ▸ hy)
  have hlnk : Segment q.next q.prev none (l ++ []) none := by simpa using h.segment
  have hseg := hlnk.link (by simpa using h.nodup) (by simpa using hx)
  have hemp : q.tail=none ↔ l = [] := by simp [h.tail]
  rw [← h.tail] at hseg
  cases hta : q.tail with
  | none =>
    obtain rfl := hemp.mp hta
    refine ⟨hnod,?_,?_,?_,?_⟩ <;> simp [Queue.enqueue,hta,h.size,Segment]
  | some t =>
    have hne : l ≠ [] := fun heq => by simp [hemp.mpr heq] at hta
    rw [hta] at hseg
    refine ⟨hnod,?_,?_,?_,?_⟩
    · simpa [Queue.enqueue,hta,setLink] using hseg
    · simp [Queue.enqueue,hta,h.head,List.head?_append_of_ne_nil _ hne]
    · simp [Queue.enqueue,hta]
    · simp [Queue.enqueue,hta,h.size]

theorem Linked.enqueueAll (h : Linked q l) {xs : List α} (hxs : xs.Nodup)
    (hfre : ∀ x ∈ xs, x ∉ l) : Linked (xs.foldl Queue.enqueue q) (l ++ xs) := by
  induction xs generalizing q l with
  | nil => simpa using h
  | cons x xs ih =>
    obtain ⟨hx,hxs⟩ := nodup_cons.mp hxs
    have hone := h.enqueue (hfre x (by simp))
    have hrs := ih hone hxs fun y hy => by
      simp only [mem_append,mem_singleton,not_or]
      exact ⟨hfre y (by simp [hy]),fun heq => hx (heq ▸ hy)⟩
    simpa using hrs

theorem Linked.enqueue_segment {l' : List α} {before after : Option α} (hq : Linked q l')
    (h : Segment q.next q.prev before l after) (hx : x ∉ l) (hdisj : ∀ y ∈ l', y ∉ l) :
    Segment (q.enqueue x).next (q.enqueue x).prev before l after := by
  have hne : ∀ y ∈ l, y≠x := fun y hy heq => hx (heq ▸ hy)
  cases ht : q.tail with
  | none => refine h.congr ?_ ?_ <;> intro y hy <;> simp [Queue.enqueue,ht,hne y hy]
  | some t =>
    have hmem : t ∈ l' := mem_of_getLast? (hq.tail.symm.trans ht)
    have hnt : ∀ y ∈ l, y≠t := fun y hy heq => hdisj t hmem (heq ▸ hy)
    refine h.congr ?_ ?_ <;> intro y hy <;> simp [Queue.enqueue,ht,hne y hy,hnt y hy]

theorem segment_safeRemove {before after : Option α} (h : Segment q.next q.prev before l after)
    (hkp : ∀ y ∈ kept, y ∉ l) (hrs : ∀ y ∈ rest, y ∉ l) :
    Segment (q.safeRemove kept.getLast? rest.head?).next
      (q.safeRemove kept.getLast? rest.head?).prev before l after := by
  refine h.congr ?_ ?_ <;> intro y hy <;> apply setLink_of_ne
  · exact fun heq => hkp y (mem_of_getLast? heq) hy
  · exact fun heq => hrs y (mem_of_head? heq) hy

theorem Linked.safeRemove (h : Linked q (kept ++ x :: rest)) :
    Linked (q.safeRemove kept.getLast? rest.head?) (kept ++ rest) := by
  have hseg := h.segment.unlink h.nodup
  simp only [or_none] at hseg
  refine ⟨h.nodup.sublist (by simp),hseg,?_,?_,?_⟩
  · have hhe := h.head
    cases kept <;> simp_all [Queue.safeRemove]
  · have hta := h.tail
    cases rest <;> simp_all [Queue.safeRemove]
  · simp only [Queue.safeRemove,h.size,length_append,length_cons]
    omega

end Queue

/-- What the work of an element does: the elements it enqueues, and whether the element is removed. -/
structure Round (α : Type*) where
  enqueued : List α
  remove : Bool
  deriving DecidableEq, Repr

/-- A pass of an iterator. What was queued at its begin, the elements visited with whether they were
removed, and all elements enqueued are for the statements. -/
structure Pass (α : Type*) where
  queue : Queue α
  it : BasicQueueIterator α
  atBegin : List α
  visits : List (α × Bool)
  enqueued : List α

namespace Pass

variable {α : Type*}

def start (q : Queue α) (l : List α) : Pass α := ⟨q, q.iterBegin, l, [], []⟩

/-- The elements of the begin and those enqueued, in order. -/
def all (p : Pass α) : List α := p.atBegin ++ p.enqueued

def kept (p : Pass α) : List α := (p.visits.filter fun v => !v.2).map Prod.fst

def contents (p : Pass α) : List α := p.kept ++ p.all.drop p.visits.length

/-- The queue has the elements of the begin and those enqueued, without those removed, and the first
of them were visited, each once; the pass ends only after those of the begin. -/
structure Intact (p : Pass α) : Prop where
  linked : p.queue.Linked p.contents
  visited : p.visits.map Prod.fst = p.all.take p.visits.length
  parent : p.it.parent = p.kept.getLast?
  curr : p.it.curr = (p.all.drop p.visits.length).head? ∨ p.it.curr = none ∧ p.atBegin.length ≤ p.visits.length

def Fresh (p : Pass α) (r : Round α) : Prop := r.enqueued.Nodup ∧ ∀ x ∈ r.enqueued, x ∉ p.contents

/-- No element that was the tail of the queue before its work is removed when the work enqueued. -/
def Clean (p : Pass α) (r : Round α) : Prop := ¬ (r.remove = true ∧ r.enqueued ≠ [] ∧ p.it.curr = p.queue.tail)

variable [DecidableEq α]

instance (p : Pass α) (r : Round α) : Decidable (Clean p r) := inferInstanceAs (Decidable (¬ (_ ∧ _ ∧ _)))

/-- `iter_check`, the work, `iter_remove` or not, `iter_end` -/
def round (p : Pass α) (r : Round α) : Option (Pass α) := (p.queue.iterCheck p.it).bind fun it => it.curr.map fun x =>
    let queue := r.enqueued.foldl Queue.enqueue p.queue
    let removed := if r.remove then queue.iterRemove it else (queue, it)
    { queue := removed.1
      it := Queue.iterEnd removed.2
      atBegin := p.atBegin
      visits := p.visits ++ [(x, r.remove)]
      enqueued := p.enqueued ++ r.enqueued }

variable {p p' : Pass α} {r : Round α} {q : Queue α} {l : List α}

omit [DecidableEq α] in
theorem start_intact (h : q.Linked l) : Intact (start q l) :=
  ⟨by simpa [start,contents,kept,all] using h,by simp [start],by simp [start,Queue.iterBegin,kept],
    by simp [start,Queue.iterBegin,Queue.peek,all,h.head]⟩

theorem Intact.round_spec (h : Intact p) (hr : p.round r = some p') :
    ∃ x rest, p.all.drop p.visits.length = x :: rest ∧ p.it.curr = some x ∧ p'.queue=(if r.remove then
        (r.enqueued.foldl Queue.enqueue p.queue).safeRemove p.kept.getLast? rest.head?
        else r.enqueued.foldl Queue.enqueue p.queue) ∧
      p'.it.parent=(if r.remove then p.kept.getLast? else some x) ∧ p'.it.curr=rest.head? ∧
      p'.atBegin=p.atBegin ∧ p'.enqueued = p.enqueued ++ r.enqueued ∧
      p'.visits = p.visits ++ [(x, r.remove)] := by
  obtain ⟨it,hche,hbind⟩ := bind_eq_some_iff.mp hr
  obtain ⟨x,hx,rfl⟩ := map_eq_some_iff.mp hbind
  obtain ⟨y,hy,rfl⟩ := map_eq_some_iff.mp hche
  obtain rfl : y=x := by simpa [hy] using hx
  have hhe : (p.all.drop p.visits.length).head? = some y := by
    obtain hcr | hcr := h.curr
    · rw [← hcr,hy]
    · simp [hcr.1] at hy
  obtain ⟨rest,hrs⟩ := List.head?_eq_some_iff.mp hhe
  have hnx : p.queue.next y=rest.head? := by
    have hlin := h.linked
    rw [contents,hrs] at hlin
    exact hlin.next_eq
  refine ⟨y,rest,hrs,hy,?_⟩
  cases hrem : r.remove <;>
    simp [Queue.iterRemove,Queue.iterEnd,h.parent,hnx,hy]

theorem safeRemove_last {kept enqueued : List α} (hne : enqueued ≠ [])
    (hnod : (kept ++ enqueued).Nodup) :
    ¬ (q.safeRemove kept.getLast? none).Linked (kept ++ enqueued) := by
  intro h
  have hta : kept.getLast? = enqueued.getLast? := by
    have := h.tail
    rw [List.getLast?_append] at this
    cases hla : enqueued.getLast? with
    | none => simp [hne] at hla
    | some y => simpa [Queue.safeRemove,hla] using this
  cases hla : enqueued.getLast? with
  | none => simp [hne] at hla
  | some y =>
    have hkp : y ∈ kept := mem_of_getLast? (hta.trans hla)
    exact (nodup_append.mp hnod).2.2 y hkp y (mem_of_getLast? hla) rfl

theorem round_intact_iff (h : Intact p) (hfre : Fresh p r) (hr : p.round r = some p') :
    Intact p' ↔ Clean p r := by
  obtain ⟨x,rest,hrs,hx,hqueue,hpar,hcr,hbeg,henq,hvis⟩ := h.round_spec hr
  have hn : p.visits.length<p.all.length := by
    by_contra hle
    rw [drop_eq_nil_of_le (by omega)] at hrs
    simp at hrs
  have hlin := h.linked
  rw [contents,hrs] at hlin
  have hque := hlin.enqueueAll hfre.1 (by simpa [contents,hrs] using hfre.2)
  have hall : p'.all=p.all ++ r.enqueued := by simp [all,hbeg,henq]
  have hlen : p'.visits.length=p.visits.length+1 := by simp [hvis]
  have hkp : p'.kept=p.kept ++ if r.remove then [] else [x] := by
    cases hrem : r.remove <;> simp [kept,hvis,hrem]
  have hdrop : p'.all.drop p'.visits.length = rest ++ r.enqueued := by
    rw [hall,hlen,drop_append_of_le_length (by omega),← drop_drop,hrs]
    rfl
  have hcon : p'.contents=p.kept ++ (if r.remove then [] else [x]) ++ (rest ++ r.enqueued) := by
    rw [contents,hdrop,hkp]
  have hvst : p'.visits.map Prod.fst = p'.all.take p'.visits.length := by
    have hx : p.all[p.visits.length]? = some x := by
      rw [← List.head?_drop,hrs]
      rfl
    rw [hall,hlen,take_append_of_le_length (by omega),take_add_one,hx,hvis,map_append,h.visited]
    rfl
  have hcr' : p'.it.curr=(p'.all.drop p'.visits.length).head? ∨
      p'.it.curr=none ∧ p'.atBegin.length≤p'.visits.length := by
    rw [hdrop,hcr]
    cases rest with
    | nil =>
      refine .inr ⟨rfl,?_⟩
      have hlen' := congrArg List.length hrs
      simp only [length_drop,length_cons,length_nil] at hlen'
      have : p.all.length=p.atBegin.length+p.enqueued.length := length_append
      rw [hbeg,hlen]
      omega
    | cons y rest => exact .inl rfl
  have hpar' : p'.it.parent=p'.kept.getLast? := by
    rw [hpar,hkp]
    cases r.remove <;> simp
  have hiff : Intact p' ↔ p'.queue.Linked p'.contents := ⟨fun h => h.linked,fun h => ⟨h,hvst,hpar',hcr'⟩⟩
  have hta : p.it.curr=p.queue.tail ↔ rest = [] := by
    rw [hx,hlin.tail,List.getLast?_append,List.getLast?_cons]
    cases rest with
    | nil => simp
    | cons y rest =>
      have hxr : x ∉ y :: rest := (nodup_cons.mp (nodup_append.mp hlin.nodup).2.1).1
      simp only [some_or,some_inj,reduceCtorEq,iff_false]
      intro heq
      exact hxr (heq ▸ getLast_mem (cons_ne_nil y rest))
  rw [hiff,hcon,hqueue,Clean,hta]
  cases hrem : r.remove with
  | false => simpa using hque
  | true =>
    have hnod : (p.kept ++ (rest ++ r.enqueued)).Nodup := hque.nodup.sublist (by simp)
    by_cases hlost : r.enqueued ≠ [] ∧ rest = []
    · obtain ⟨hne,rfl⟩ := hlost
      simpa [hne] using safeRemove_last (q := r.enqueued.foldl Queue.enqueue p.queue) hne hnod
    · have hhe : rest.head? = (rest ++ r.enqueued).head? := by
        cases rest with
        | nil =>
          have hnil : r.enqueued = [] := by simpa using hlost
          simp [hnil]
        | cons y rest => rfl
      have hrmv : Queue.Linked ((r.enqueued.foldl Queue.enqueue p.queue).safeRemove
          p.kept.getLast? rest.head?) (p.kept ++ (rest ++ r.enqueued)) := by
        rw [hhe]
        apply Queue.Linked.safeRemove
        simpa using hque
      simpa [hrmv] using hlost

/-- Whatever clean rounds a pass has made, the queue has lost nothing, and when the pass ends each
element of its begin was visited once. A further round keeps this exactly if it is clean. -/
theorem pass_intact (hl : q.Linked l)
    (h : Run round (fun p r => Fresh p r ∧ Clean p r) (start q l) p) :
    Intact p ∧ p.atBegin = l ∧ (p.queue.iterCheck p.it = none →
        p.visits.map Prod.fst = l ++ p.enqueued.take (p.visits.length - l.length)) ∧
      ∀ r p', Fresh p r → p.round r = some p' → (Intact p' ↔ Clean p r) := by
  have hkp : Intact p ∧ p.atBegin=l := by
    refine h.invariant (P := fun p => Intact p ∧ p.atBegin=l) ⟨start_intact hl,rfl⟩ ?_
    intro p r p' ⟨hict,hbeg⟩ ⟨hfre,hcle⟩ hr
    have hsm : p'.atBegin=p.atBegin := by
      obtain ⟨_,_,_,_,_,_,_,hsm,_⟩ := hict.round_spec hr
      exact hsm
    exact ⟨(round_intact_iff hict hfre hr).mpr hcle,hsm.trans hbeg⟩
  obtain ⟨hict,hbeg⟩ := hkp
  refine ⟨hict,hbeg,fun hend => ?_,fun r p' => round_intact_iff hict⟩
  have hnn : p.it.curr=none := by simpa [Queue.iterCheck] using hend
  have hlen : l.length≤p.visits.length := by
    obtain hcr | hcr := hict.curr
    · rw [hnn,eq_comm,List.head?_eq_none_iff,drop_eq_nil_iff,all,hbeg,length_append] at hcr
      omega
    · exact hbeg ▸ hcr.2
  rw [hict.visited,all,hbeg,take_append,take_of_length_le hlen]

theorem pass_intact_two :
    ∃ p : Pass ℕ, execEvents round [⟨[3], true⟩, ⟨[], false⟩]
        (start (Queue.enqueue (Queue.enqueue Queue.empty 1) 2) [1, 2]) = some p ∧ Intact p := by
  have hl : (Queue.enqueue (Queue.enqueue (Queue.empty : Queue ℕ) 1) 2).Linked [1,2] :=
    (Queue.empty_linked.enqueue (x := 1) (by simp)).enqueue (x := 2) (by simp)
  refine ⟨_,rfl,(pass_intact hl ((Run.refl.step (e := ⟨[3],true⟩) ?_ rfl).step
    (e := ⟨[],false⟩) ?_ rfl)).1⟩ <;> refine ⟨⟨by decide,by decide⟩,by decide⟩

/-- The only element enqueues another one and is removed: its work is counted, but not queued. -/
theorem pass_loses_work :
    ∃ p : Pass ℕ, execEvents round [⟨[2], true⟩] (start (Queue.enqueue Queue.empty 1) [1]) = some p ∧
      p.queue.head = none ∧ p.queue.size = 1 ∧ p.contents = [2] :=
  ⟨_,rfl,rfl,rfl,rfl⟩

end Pass

end PAMI

import Mathlib.Data.Fintype.Basic
import PAMI.Queue.MultiQueueIterate

namespace PAMI.ThreadSafeMultiQueue

open PAMI.Math Option List

variable {ι α : Type*} [DecidableEq ι] [DecidableEq α] {s s' : ThreadSafeMultiQueue ι α}
  {own transit shared : List α} {e : MultiQueueEvent ι α} {i : ι}

omit [DecidableEq ι] in
theorem iterateStep_inv (h : Inv s own transit shared) (hs : iterateStep s = some s') :
    ∃ own transit shared, Inv s' own transit shared := by
  have hpon := h.position
  cases hpla : s.place with
  | loadHead =>
    cases hhe : s.head with
    | none =>
      obtain rfl : { s with parent := none, curr := s.privateHead, place := .check } = s' := by
        simpa [iterateStep,hpla,hhe] using hs
      refine ⟨own,transit,shared,h.move hpla trivial trivial rfl
        (by simp) ⟨[],own,rfl,rfl,.inr ⟨h.privateOk.head,by simp⟩⟩⟩
    | some g =>
      obtain rfl : { s with place := .clearHead g } = s' := by simpa [iterateStep,hpla,hhe] using hs
      refine ⟨own,transit,shared,h.move hpla trivial trivial rfl (fun x hx => ?_) trivial⟩
      rw [hhe,IteratorPlace.clearHead.inj hx]
  | clearHead g =>
    obtain rfl : { s with head := none, place := .loadTail g } = s' := by simpa [iterateStep,hpla] using hs
    exact ⟨own,transit,shared,clearHead_inv h hpla⟩
  | loadTail g =>
    obtain rfl : { s with place := .swapTail g s.tail } = s' := by simpa [iterateStep,hpla] using hs
    exact ⟨own,transit,shared,h.move hpla trivial trivial rfl (by simp) trivial⟩
  | swapTail g t =>
    by_cases ht : s.tail=t
    · subst ht
      obtain rfl : { s with tail := none, place := .join g s.tail } = s' := by simpa [iterateStep,hpla] using hs
      exact ⟨own,shared,[],swapTail_inv h hpla⟩
    · obtain rfl : { s with place := .loadTail g } = s' := by simpa [iterateStep,hpla,ht] using hs
      exact ⟨own,transit,shared,h.move hpla trivial trivial rfl (by simp) trivial⟩
  | join g t =>
    simp only [iterateStep,hpla,some_inj] at hs
    subst hs
    exact ⟨own ++ transit,[],shared,join_inv h hpla⟩
  | check =>
    obtain ⟨A,B,hown,hpar,hc⟩ : Between s own s.curr := by simpa [Position,hpla] using hpon
    cases hcr : s.curr with
    | none =>
      obtain rfl : { s with place := .outside } = s' := by simpa [iterateStep,hpla,hcr] using hs
      exact ⟨own,transit,shared,h.move hpla trivial trivial rfl (by simp) trivial⟩
    | some x =>
      obtain rfl : { s with iterNext := s.next x, nextParent := s.curr, place := .working } = s' := by
        simpa [iterateStep,hpla,hcr] using hs
      obtain hc | ⟨hc,ha⟩ := hc
      · simp [hcr] at hc
      obtain ⟨B,rfl⟩ := head?_eq_some_iff.mp (hc.symm.trans hcr)
      exact ⟨own,transit,shared,h.move hpla trivial trivial rfl (by simp)
        ⟨x,A,B,hown,hpar,hcr,fun a hmem => (ha a hmem).trans hcr,hcr,.inr rfl⟩⟩
  | loadElement =>
    obtain ⟨x,hat⟩ : ∃ x, At s own x := by simpa [Position,hpla] using hpon
    simp only [iterateStep,hpla] at hs
    obtain ⟨e,he,rfl⟩ := map_eq_some_iff.mp hs
    obtain rfl := hat.loaded h.privateOk.head he
    exact ⟨own,transit,shared,h.move hpla trivial trivial rfl (by simp) hat⟩
  | loadNext e =>
    have hat : At s own e := by simpa [Position,hpla] using hpon
    cases hnx : s.next e with
    | none =>
      by_cases hta : s.privateTail=some e
      · obtain rfl : { s with privateTail := s.parent, place := .unlink e none } = s' := by
          simpa [iterateStep,hpla,hnx,hta] using hs
        exact ⟨own,transit,shared,loadNext_inv h hpla hnx hta⟩
      · obtain rfl : { s with place := .again } = s' := by simpa [iterateStep,hpla,hnx,hta] using hs
        exact ⟨own,transit,shared,h.move hpla trivial trivial rfl (by simp) ⟨e,hat⟩⟩
    | some n =>
      obtain rfl : { s with place := .unlink e (some n) } = s' := by simpa [iterateStep,hpla,hnx] using hs
      exact ⟨own,transit,shared,h.move hpla trivial trivial rfl (by simp) ⟨hat,hnx,by simp⟩⟩
  | unlink e n =>
    simp only [iterateStep,hpla,some_inj] at hs
    subst hs
    obtain ⟨-,A,B,-,hinv⟩ := unlink_inv h hpla
    exact ⟨A ++ B,transit,shared,hinv⟩
  | clearNext e =>
    simp only [iterateStep,hpla,some_inj] at hs
    subst hs
    exact ⟨own,transit,shared,clearNext_inv h hpla⟩
  | outside | working | removed | again => simp [iterateStep,hpla] at hs

omit [DecidableEq ι] [DecidableEq α] in
theorem iterEnd_inv (h : Inv s own transit shared)
    (hpla : s.place = .working ∨ s.place = .removed ∨ s.place = .again) :
    Inv { s with parent := s.nextParent, curr := s.iterNext, place := .check } own transit shared := by
  have hpon := h.position
  have hat : ∀ x, At s own x → Between
      { s with parent := s.nextParent, curr := s.iterNext, place := .check } own s.iterNext := by
    intro x ⟨A,B,hown,_,_,_,hnex,hiter⟩
    refine ⟨A ++ [x],B,by simp [hown],by simp [hnex],?_⟩
    by_cases hnn : s.next x=none
    · exact .inl (hiter.elim id fun heq => heq.trans hnn)
    · have hcha := h.privateOk.chain
      rw [hown] at hcha
      obtain hiter | hiter := hiter
      · exact .inl hiter
      · refine .inr ⟨hiter.trans (next_eq_head hcha hnn),fun a ha => ?_⟩
        obtain rfl : x=a := by simpa using ha
        exact hiter.symm
  obtain hpla | hpla | hpla := hpla
  · obtain ⟨x,hx⟩ : ∃ x, At s own x := by simpa [Position,hpla] using hpon
    exact h.move hpla trivial trivial rfl (by simp) (hat x hx)
  · obtain ⟨⟨A,B,hown,hpar,hc⟩,hnex⟩ :
        Between s own s.iterNext ∧ s.nextParent=s.parent := by
      simpa [Position,hpla] using hpon
    exact h.move hpla trivial trivial rfl (by simp) ⟨A,B,hown,hnex.trans hpar,hc⟩
  · obtain ⟨x,hx⟩ : ∃ x, At s own x := by simpa [Position,hpla] using hpon
    exact h.move hpla trivial trivial rfl (by simp) (hat x hx)

theorem step_inv (h : Inv s own transit shared) (hfre : Fresh s e) (hs : step s e = some s') :
    ∃ own transit shared, Inv s' own transit shared := by
  cases e with
  | start i e =>
    simp only [step,ite_none_right_eq_some,some_inj] at hs
    obtain ⟨hi,rfl⟩ := hs
    exact ⟨own,transit,shared,start_inv (h.withCalls _) hi hfre⟩
  | enqueue i =>
    obtain ⟨shared',hinv⟩ := enqueueStep_inv h hs
    exact ⟨own,transit,shared',hinv⟩
  | iterBegin =>
    simp only [step,ite_none_right_eq_some,some_inj] at hs
    obtain ⟨hpla,rfl⟩ := hs
    exact ⟨own,transit,shared,h.move hpla trivial trivial rfl (by simp) trivial⟩
  | iterate => exact iterateStep_inv h hs
  | iterRemove =>
    simp only [step,ite_none_right_eq_some,some_inj] at hs
    obtain ⟨hpla,rfl⟩ := hs
    have hat : ∃ x, At s own x := by
      have := h.position
      simpa [Position,hpla] using this
    exact ⟨own,transit,shared,h.move hpla trivial trivial rfl (by simp) hat⟩
  | iterEnd =>
    simp only [step,ite_none_right_eq_some,some_inj] at hs
    obtain ⟨hpla,rfl⟩ := hs
    exact ⟨own,transit,shared,iterEnd_inv h hpla⟩

omit [DecidableEq ι] [DecidableEq α] in
theorem initial_inv : Inv (initial : ThreadSafeMultiQueue ι α) [] [] [] := by
  have hnn : ∀ y t, ¬ Pending (initial : ThreadSafeMultiQueue ι α) y t := by simp [Pending,initial]
  refine ⟨rfl,by simp,⟨?_,?_,?_,?_,?_⟩,⟨.nil,rfl,by simp,?_,?_,?_⟩,
    ⟨.nil,by simp,?_,fun _ => rfl⟩,⟨.nil,by simp,rfl,fun _ => rfl,?_⟩,trivial⟩ <;>
    simp [initial,Enqueuer.element,held]

section Order

/-- The element that a thread has not yet made the tail. -/
def waiting : Enqueuer α → List α
  | .clear e => [e]
  | .load e => [e]
  | .swap e _ => [e]
  | _ => []

/-- Each thread's elements are in the log in the order of its calls. -/
def CallsOk (s : ThreadSafeMultiQueue ι α) : Prop := ∀ i, s.calls i =
    ((s.log.filter fun r => r.thread = i).map Enqueued.element) ++ waiting (s.enqueuer i)

omit [DecidableEq α] in
theorem callsOk_set (h : CallsOk s) {pc : Enqueuer α} {calls : ι → List α} {log : List (Enqueued ι α)}
    {next : α → Option α} {head tail : Option α}
    (hi : calls i = ((log.filter fun r => r.thread=i).map Enqueued.element) ++ waiting pc)
    (hj : ∀ j, j≠i → calls j = s.calls j ∧
      (log.filter fun r => r.thread=j) = s.log.filter fun r => r.thread=j) : CallsOk (setEnqueuer
      { s with calls := calls, log := log, next := next, head := head, tail := tail } i pc) := by
  intro j
  by_cases hji : j=i
  · subst hji
    simpa [setEnqueuer] using hi
  · obtain ⟨hcal,hlog⟩ := hj j hji
    simpa [setEnqueuer,hji,hcal,hlog] using h j

theorem enqueueStep_callsOk (h : CallsOk s) (hs : enqueueStep s i = some s') : CallsOk s' := by
  have hcal := h i
  cases hi : s.enqueuer i with
  | idle => simp [enqueueStep,hi] at hs
  | clear e | load e =>
    simp only [enqueueStep,hi,some_inj] at hs
    subst hs
    exact callsOk_set h (by simpa [hi,waiting] using hcal) (by simp)
  | swap e t =>
    simp only [enqueueStep,hi] at hs
    split at hs
    · obtain rfl := some.inj hs
      refine callsOk_set h (by simpa [hi,waiting] using hcal) fun j hji => ⟨rfl,?_⟩
      simp [Ne.symm hji]
    · obtain rfl := some.inj hs
      exact callsOk_set h (by simpa [hi,waiting] using hcal) (by simp)
  | link e t =>
    cases t with
    | none | some t =>
      simp only [enqueueStep,hi,some_inj] at hs
      subst hs
      exact callsOk_set h (by simpa [hi,waiting] using hcal) (by simp)

omit [DecidableEq ι] in
theorem iterateStep_log (hs : iterateStep s = some s') :
    s'.calls=s.calls ∧ s'.enqueuer=s.enqueuer ∧
      (s'.log=s.log ∧ (∀ e, s'.place ≠ .clearNext e) ∨ ∃ e n, s.place = .unlink e n ∧ s'.place = .clearNext e ∧
        s'.log = markGone s.log s.curr) := by
  unfold iterateStep at hs
  split at hs
  case h_7 =>
    obtain ⟨e,-,rfl⟩ := map_eq_some_iff.mp hs
    exact ⟨rfl,rfl,.inl ⟨rfl,by simp⟩⟩
  case h_9 e n hpla =>
    obtain rfl := some.inj hs
    exact ⟨rfl,rfl,.inr ⟨e,n,hpla,rfl,rfl⟩⟩
  all_goals try split at hs
  all_goals try split at hs
  all_goals simp only [some_inj,reduceCtorEq] at hs
  all_goals exact hs ▸ ⟨rfl,rfl,.inl ⟨rfl,by simp⟩⟩

theorem step_callsOk (h : CallsOk s) (hs : step s e = some s') : CallsOk s' := by
  cases e with
  | start i e =>
    simp only [step,ite_none_right_eq_some,some_inj] at hs
    obtain ⟨hi,rfl⟩ := hs
    have hcal := h i
    simp only [hi,waiting,append_nil] at hcal
    exact callsOk_set h (by simp [waiting,hcal]) fun j hji => ⟨by simp [hji],rfl⟩
  | enqueue i => exact enqueueStep_callsOk h hs
  | iterate =>
    obtain ⟨hcal,henq,hlog⟩ := iterateStep_log hs
    intro i
    have hfil : ((s'.log.filter fun r => r.thread=i).map Enqueued.element) =
        (s.log.filter fun r => r.thread=i).map Enqueued.element := by
      obtain ⟨hlog,-⟩ | ⟨_,_,_,_,hlog⟩ := hlog
      · rw [hlog]
      · rw [hlog]
        generalize s.log=log
        induction log with
        | nil => rfl
        | cons r log ih =>
          simp only [markGone] at ih
          by_cases hr : some r.element=s.curr <;> by_cases hi : r.thread=i <;>
            simp [markGone,hr,hi,ih]
    rw [hcal,henq,hfil]
    exact h i
  | iterBegin | iterRemove | iterEnd =>
    simp only [step,ite_none_right_eq_some,some_inj] at hs
    obtain ⟨-,rfl⟩ := hs
    exact h

end Order

section Calls

omit [DecidableEq ι] in
theorem iterateStep_live (h : Inv s own transit shared) (hs : iterateStep s = some s') :
    (s'.live=s.live ∧ ∀ x, s'.place ≠ .clearNext x) ∨
      ∃ x A B, s.curr = some x ∧ s'.place = .clearNext x ∧ s.live = A ++ x :: B ∧ s'.live = A ++ B := by
  by_cases hunl : ∃ e n, s.place = .unlink e n
  · obtain ⟨e,n,hpla⟩ := hunl
    simp only [iterateStep,hpla,some_inj] at hs
    subst hs
    obtain ⟨hcr,A,B,rfl,hinv⟩ := unlink_inv h hpla
    exact .inr ⟨e,A,B ++ transit ++ shared,hcr,rfl,by simp [h.live],by simpa using hinv.live⟩
  · obtain ⟨-,-,⟨hlog,hpla⟩ | ⟨e,n,hpla,_⟩⟩ := iterateStep_log hs
    · exact .inl ⟨by rw [live,live,hlog],hpla⟩
    · exact absurd ⟨e,n,hpla⟩ hunl

omit [DecidableEq ι] in
theorem iterateStep_again (hs : iterateStep s = some s') (hpla : s'.place = .again) :
    s' = { s with place := .again } := by
  unfold iterateStep at hs
  split at hs
  case h_7 =>
    obtain ⟨e,-,rfl⟩ := map_eq_some_iff.mp hs
    simp at hpla
  case h_8 e =>
    split at hs
    · split at hs
      · exact (some.inj hs).symm
      · simp [← some.inj hs] at hpla
    · simp [← some.inj hs] at hpla
  all_goals try split at hs
  all_goals simp only [some_inj,reduceCtorEq] at hs
  all_goals simp [← hs] at hpla

omit [DecidableEq ι] in
theorem iterateStep_enabled (h : Inv s own transit shared) (hpla : s.place ≠ .outside ∧
    s.place ≠ .working ∧ s.place ≠ .removed ∧ s.place ≠ .again) : ∃ s', iterateStep s = some s' := by
  obtain ⟨hout,hwor,hrmv,haga⟩ := hpla
  cases hpla : s.place with
  | loadElement =>
    obtain ⟨x,A,B,hown,hpar,-,hlin,-⟩ : ∃ x, At s own x := by
      have := h.position
      simpa [Position,hpla] using this
    cases hp : s.parent with
    | none =>
      have hA : A = [] := by simpa [hp] using hpar.symm
      have hhe : s.privateHead=some x := by simp [h.privateOk.head,hown,hA]
      exact ⟨_,by simp [iterateStep,hpla,hp,hhe]; rfl⟩
    | some p =>
      have hnx := hlin p (by simp [← hpar,hp])
      exact ⟨_,by simp [iterateStep,hpla,hp,hnx]; rfl⟩
  | loadHead | check | swapTail | loadNext =>
    simp only [iterateStep,hpla]
    repeat' split
    all_goals exact ⟨_,rfl⟩
  | clearHead | loadTail | join | unlink | clearNext =>
    simp only [iterateStep,hpla]
    exact ⟨_,rfl⟩
  | outside => exact absurd hpla hout
  | working => exact absurd hpla hwor
  | removed => exact absurd hpla hrmv
  | again => exact absurd hpla haga

theorem enqueueStep_live (hs : enqueueStep s i = some s') :
    s'.live=s.live ∨ ∃ x, (s.enqueuer i).element = some x ∧ s'.live = s.live ++ [x] := by
  unfold enqueueStep at hs
  split at hs
  case h_4 e t hi =>
    split at hs
    · obtain rfl := some.inj hs
      exact .inr ⟨e,by simp [hi,Enqueuer.element],by simp [live,setEnqueuer]⟩
    · obtain rfl := some.inj hs
      exact .inl rfl
  all_goals simp only [some_inj,reduceCtorEq] at hs
  all_goals exact .inl (by rw [← hs]; rfl)

theorem pending_stored (h : Inv s own transit shared) {y : α} {t : Option α} (hp : s.Pending y t) :
    ∃ i s', enqueueStep s i = some s' ∧ ∀ t', ¬ s'.Pending y t' := by
  obtain ⟨i,hi⟩ := hp
  cases t with
  | none =>
    refine ⟨i,_,by simp only [enqueueStep,hi]; rfl,fun t' ht' => ?_⟩
    exact ((pending_link h.threads hi s.next (some y) y t').mp ht').1 rfl
  | some t =>
    refine ⟨i,_,by simp only [enqueueStep,hi]; rfl,fun t' ht' => ?_⟩
    exact ((pending_link h.threads hi (Function.update s.next t (some y)) s.head y t').mp ht').1 rfl

end Calls

/-- In every state of every run the queued elements, in the order in which they were enqueued, are the private queue, what is
being merged, and the shared queue, each once, and each is linked or its link is still to be stored. -/
theorem nothing_lost (h : Run step Fresh (initial : ThreadSafeMultiQueue ι α) s) :
    (∃ own transit shared, s.live = own ++ transit ++ shared ∧ s.live.Nodup ∧
      BrokenChain s.next s.Pending own ∧ BrokenChain s.next s.Pending transit ∧
      BrokenChain s.next s.Pending shared ∧ s.privateHead = own.head? ∧
      (transit = [] ∨ ∃ x t, s.place = .join x t ∧ transit.head? = some x) ∧
      (s.head = shared.head? ∨ (∃ x, held s.place = some x ∧ shared.head? = some x) ∨
        ∃ y ∈ shared.head?, s.Pending y none) ∧
      ((∀ y t, ¬ s.Pending y t) → Path s.next own.head? own ∧ Path s.next transit.head? transit ∧
        Path s.next shared.head? shared)) ∧
    CallsOk s ∧
    (∀ y t, s.Pending y t → ∃ i s', enqueueStep s i = some s' ∧ ∀ t', ¬ s'.Pending y t') ∧
    (∀ i s', enqueueStep s i = some s' → s'.live = s.live ∨
      ∃ x, (s.enqueuer i).element = some x ∧ s'.live = s.live ++ [x]) ∧
    (s.place ≠ .outside ∧ s.place ≠ .working ∧ s.place ≠ .removed ∧ s.place ≠ .again →
      ∃ s', iterateStep s = some s') ∧
    ∀ s', iterateStep s = some s' → (s'.place = .again → s' = { s with place := .again }) ∧
      ((s'.live = s.live ∧ ∀ x, s'.place ≠ .clearNext x) ∨
        ∃ x A B, s.curr = some x ∧ s'.place = .clearNext x ∧ s.live = A ++ x :: B ∧ s'.live = A ++ B) := by
  have hinv : (∃ own transit shared, Inv s own transit shared) ∧ CallsOk s := by
    refine h.invariant (P := fun s => (∃ own transit shared, Inv s own transit shared) ∧ CallsOk s)
      ⟨⟨[],[],[],initial_inv⟩,fun i => rfl⟩ ?_
    intro s e s' ⟨⟨own,transit,shared,hinv⟩,hcal⟩ hfre hs
    exact ⟨step_inv hinv hfre hs,step_callsOk hcal hs⟩
  obtain ⟨⟨own,transit,shared,hinv⟩,hcal⟩ := hinv
  have hs := hinv.sharedOk
  have ht := hinv.transitOk
  have ho := hinv.privateOk
  refine ⟨⟨own,transit,shared,hinv.live,hinv.live ▸ hinv.nodup,ho.chain,ht.chain,hs.chain,
    ho.head,?_,?_,fun hnn => ⟨ho.chain.path fun y _ => hnn y,ht.chain.path fun y _ => hnn y,
    hs.chain.path fun y _ => hnn y⟩⟩,hcal,fun y t => pending_stored hinv,
    fun i s' => enqueueStep_live,iterateStep_enabled hinv,
    fun s' hs' => ⟨iterateStep_again hs',iterateStep_live hinv hs'⟩⟩
  · by_cases hjoin : ∃ x t, s.place = .join x t
    · obtain ⟨x,t,hjoin⟩ := hjoin
      exact .inr ⟨x,t,hjoin,(ht.join x t hjoin).1⟩
    · exact .inl (ht.empty fun x t hx => hjoin ⟨x,t,hx⟩)
  · cases hhl : held s.place with
    | some x => exact .inr (.inl ⟨x,rfl,(hs.held x hhl).2.1⟩)
    | none =>
      obtain ⟨hhe,-⟩ | ⟨-,hy⟩ := hs.head hhl
      · exact .inl hhe
      · exact .inr (.inr hy)

instance [Fintype ι] (s : ThreadSafeMultiQueue ι α) (e : α) : Decidable (Busy s e) :=
  inferInstanceAs (Decidable (_ ∨ _ ∨ _))

omit [DecidableEq ι] [DecidableEq α] in
theorem fresh_start {e : α} (h : ¬ Busy s e) : Fresh s (.start i e) := h

/-- An element is merged while the link to the next one is still to be stored, and is not removed. -/
theorem nothing_lost_broken : ∃ s : ThreadSafeMultiQueue Bool ℕ,
    execEvents step ([.start true 1] ++ replicate 4 (.enqueue true) ++ [.start false 2] ++
      replicate 3 (.enqueue false) ++ [.iterBegin] ++ replicate 6 .iterate ++
      [.iterRemove, .iterate, .iterate]) initial = some s ∧ s.place = .again ∧ s.live.Nodup := by
  have hqui : ∀ (s : ThreadSafeMultiQueue Bool ℕ), ∀ e ∈ replicate 4 (.enqueue true) ++
      replicate 3 (.enqueue false) ++ [.iterBegin] ++ replicate 6 .iterate ++
      [.iterRemove,.iterate,.iterate], Fresh s e := by
    intro s e he
    cases e with
    | start i e => simp at he
    | _ => trivial
  have hone : Run step Fresh (initial : ThreadSafeMultiQueue Bool ℕ) _ :=
    Run.refl.step (e := .start true 1) (fresh_start (by decide)) rfl
  have hfour := hone.execEvents (replicate 4 (.enqueue true))
    (fun s e he => hqui s e (by simp_all)) rfl
  have htwo := hfour.step (e := .start false 2) (fresh_start (by decide)) rfl
  have hall := htwo.execEvents (replicate 3 (.enqueue false) ++ [.iterBegin] ++
    replicate 6 .iterate ++ [.iterRemove,.iterate,.iterate])
    (fun s e he => hqui s e (by
      simp only [mem_append] at he ⊢
      tauto)) rfl
  obtain ⟨⟨_,_,_,_,hnod,_⟩,_⟩ := nothing_lost hall
  exact ⟨_,rfl,rfl,hnod⟩

end PAMI.ThreadSafeMultiQueue

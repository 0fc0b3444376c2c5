import PAMI.Generic.Device

namespace PAMI.Generic

open PAMI.Math List Option

namespace Device

variable {α : Type*}

/-- What is known at each place of `advance`: the persistent queue has the threads of `kept` before
the iterator and those of `rest` from it on. -/
def AtPlace (d : Device α) (kept rest taken : List α) : AdvancePlace → Prop
  | .outside => rest = [] ∧ taken = []
  | .threads => taken = [] ∧ d.thrIter.parent = kept.getLast? ∧ d.thrIter.curr = rest.head? ∧
      ∀ thr ∈ rest, d.calls thr = 0
  | .threadsWork => taken = [] ∧ d.thrIter.parent = kept.getLast? ∧ ∃ thr rest', rest = thr :: rest' ∧
      d.thrIter.curr = some thr ∧ d.thrIter.next = rest'.head? ∧ d.visited thr = true ∧
      ∀ thr ∈ rest', d.calls thr = 0
  | .postedBegin => rest = [] ∧ taken = []
  | .posted => rest = [] ∧ d.pstIter.curr = taken.head? ∧ ∀ thr ∈ taken, d.calls thr = 0
  | .postedReady => rest = [] ∧ (∀ thr ∈ taken, d.calls thr = 0) ∧ ∃ thr taken', taken = thr :: taken' ∧
      d.pstIter.curr = some thr ∧ d.pstIter.next = taken'.head?
  | .postedComplete => rest = [] ∧ ∃ thr taken', taken = thr :: taken' ∧
      d.pstIter.curr = some thr ∧ d.pstIter.next = taken'.head? ∧ d.visited thr = true ∧
      ∀ thr ∈ taken', d.calls thr = 0
  | .postedWork => rest = [] ∧ ∃ thr taken', taken = thr :: taken' ∧
      d.pstIter.curr = some thr ∧ d.pstIter.next = taken'.head? ∧ d.visited thr = true ∧
      ∀ thr ∈ taken', d.calls thr = 0

theorem AtPlace.congr {d d' : Device α} {kept rest taken : List α} {place : AdvancePlace}
    (h : AtPlace d kept rest taken place) (hthr : d'.thrIter=d.thrIter) (hpst : d'.pstIter=d.pstIter)
    (hcal : ∀ t ∈ rest ++ taken, d'.calls t = d.calls t)
    (hvst : ∀ t ∈ rest ++ taken, d'.visited t = d.visited t) : AtPlace d' kept rest taken place := by
  cases place <;> simp only [AtPlace,hthr,hpst] at h ⊢ <;> grind

variable [DecidableEq α]

/-- The calls of threads in this advance, and the place in it. -/
structure Holds (d : Device α) (kept rest posted taken : List α) : Prop where
  stored : Stored d (kept ++ rest) posted taken
  calls : ∀ thr, d.calls thr ≤ 1
  waiting : ∀ thr ∈ posted, d.calls thr = 0
  visited : ∀ thr ∈ kept, d.visited thr = true
  place : AtPlace d kept rest taken d.place

variable {d d' : Device α} {kept rest posted taken : List α} {thr : α}

theorem initial_holds (next prev : α → Option α) (status : α → ThreadStatus) :
    Holds (initial next prev status) [] [] [] [] :=
  ⟨initial_stored next prev status,by simp [initial],by simp,by simp,rfl,rfl⟩

section

variable (h : Holds d kept rest posted taken)
include h

theorem Holds.postThread (hfre : d.live thr = false) :
    Holds (d.postThread thr) kept rest (posted ++ [thr]) taken := by
  obtain ⟨hths,hpos,htak⟩ := h.stored.not_mem hfre
  refine ⟨h.stored.postThread hfre,fun t => ?_,fun t ht => ?_,fun t ht => ?_,?_⟩
  · obtain rfl | ht := eq_or_ne t thr
    · simp [Device.postThread]
    · simpa [Device.postThread,ht] using h.calls t
  · obtain rfl | hne := eq_or_ne t thr
    · simp [Device.postThread]
    · simpa [Device.postThread,hne] using h.waiting t (by simpa [hne] using ht)
  · have hne : t≠thr := fun heq => hths (by simp [← heq,ht])
    simpa [Device.postThread,hne] using h.visited t ht
  · have hne : ∀ t ∈ rest ++ taken, t≠thr := by
      intro t ht heq
      obtain hmem | hmem := mem_append.mp ht
      · exact hths (by simp [← heq,hmem])
      · exact htak (heq ▸ hmem)
    refine h.place.congr rfl rfl ?_ ?_ <;> intro t ht <;>
      simp [Device.postThread,setPosted,hne t ht]

theorem Holds.setStatus (stat : ThreadStatus) :
    Holds { d with status := Function.update d.status thr stat } kept rest posted taken :=
  ⟨h.stored.congr rfl rfl rfl,h.calls,h.waiting,h.visited,h.place.congr rfl rfl (fun _ _ => rfl) fun _ _ => rfl⟩

theorem Holds.advance_outside (hp : d.place = .outside) (hs : d.advance = some d') :
    Holds d' [] kept posted [] := by
  have hpla := h.place
  rw [hp] at hpla
  obtain ⟨rfl,rfl⟩ := hpla
  have hsto : Stored d kept posted [] := by simpa using h.stored
  simp only [advance,hp,some_inj] at hs
  subst hs
  exact ⟨hsto.congr rfl rfl rfl,by simp,by simp,by simp,rfl,rfl,hsto.onThreads.head,by simp⟩

theorem Holds.advance_threads_end (hp : d.place = .threads) (hcr : d.thrIter.curr=none)
    (hs : d.advance = some d') : Holds d' kept [] posted [] := by
  have hpla := h.place
  rw [hp] at hpla
  obtain ⟨rfl,-,hhe,-⟩ := hpla
  obtain rfl : rest = [] := by simpa [hcr,eq_comm] using hhe
  simp only [advance,hp,Queue.iterCheck,hcr,map_none,some_inj] at hs
  subst hs
  exact ⟨h.stored.congr rfl rfl rfl,h.calls,h.waiting,h.visited,rfl,rfl⟩

omit h in
theorem visited_update {visited : α → Bool} {l : List α} (h : ∀ t ∈ l, visited t = true) (thr : α) :
    ∀ t ∈ l, Function.update visited thr true t = true := by
  intro t ht
  obtain rfl | hne := eq_or_ne t thr
  · simp
  · simpa [hne] using h t ht

theorem Holds.advance_threads (hp : d.place = .threads) (hcr : d.thrIter.curr = some thr)
    (hs : d.advance = some d') : taken = [] ∧ ∃ rest', rest = thr :: rest' ∧
      if d.status thr = .ready then Holds d' kept rest posted []
      else if d.status thr = .complete then d'.threadsQueue=d.threadsQueue ∧ d'.live thr = false
      else Holds d' (kept ++ [thr]) rest' posted [] := by
  have hpla := h.place
  rw [hp] at hpla
  obtain ⟨rfl,hpar,hhe,hcal⟩ := hpla
  obtain ⟨rest',rfl⟩ : ∃ rest', rest=thr :: rest' := List.head?_eq_some_iff.mp (hhe.symm.trans hcr)
  refine ⟨rfl,rest',rfl,?_⟩
  have hnx : d.threadsQueue.next thr=rest'.head? := h.stored.onThreads.next_eq
  simp only [advance,hp,Queue.iterCheck,hcr,map_some,some_inj] at hs
  obtain ⟨hpt,-,-⟩ := h.stored.disjoint
  have hnod : (kept ++ thr :: rest').Nodup := h.stored.onThreads.nodup
  have hrs : ∀ t ∈ rest', t≠thr := fun t ht heq => (nodup_cons.mp (nodup_append.mp hnod).2.1).1 (heq ▸ ht)
  split
  case isTrue hrea =>
    simp only [threadsRound,hrea,if_true,executeThread] at hs
    subst hs
    refine ⟨h.stored.congr rfl rfl rfl,fun t => ?_,fun t ht => ?_,visited_update h.visited thr,rfl,
      hpar,thr,rest',rfl,rfl,hnx,by simp,fun t ht => ?_⟩
    · obtain rfl | hne := eq_or_ne t thr
      · simp [hcal]
      · simpa [hne] using h.calls t
    · have hne : t≠thr := fun heq => hpt t ht (by simp [heq])
      simpa [hne] using h.waiting t ht
    · simpa [hrs t ht] using hcal t (by simp [ht])
  case isFalse hrea =>
    simp only [threadsRound,hrea,if_false] at hs
    split
    case isTrue hcom =>
      simp only [hcom,if_true] at hs
      subst hs
      simp [finish,threadsQueue]
    case isFalse hcom =>
      simp only [hcom,if_false] at hs
      subst hs
      have hsto : Stored d ((kept ++ [thr]) ++ rest') posted [] := by simpa using h.stored
      refine ⟨hsto.congr rfl rfl rfl,h.calls,h.waiting,?_,?_⟩
      · intro t ht
        obtain hmem | hmem := mem_append.mp ht
        · exact visited_update h.visited thr t hmem
        · simp [mem_singleton.mp hmem]
      · simp only [hp]
        refine ⟨rfl,by simp [Queue.iterEnd],hnx,fun t ht => hcal t (by simp [ht])⟩

theorem Holds.advance_postedBegin (hp : d.place = .postedBegin) (hs : d.advance = some d') :
    Holds d' kept [] [] posted := by
  have hpla := h.place
  rw [hp] at hpla
  obtain ⟨rfl,rfl⟩ := hpla
  simp only [advance,hp,some_inj] at hs
  subst hs
  exact ⟨h.stored.takePosted.congr rfl rfl rfl,h.calls,by simp,h.visited,rfl,h.stored.onPosted.head,h.waiting⟩

theorem Holds.advance_posted (hp : d.place = .posted) (hs : d.advance = some d') :
    Holds d' kept [] posted taken := by
  have hpla := h.place
  rw [hp] at hpla
  obtain ⟨rfl,hhe,hcal⟩ := hpla
  simp only [advance,hp] at hs
  cases hcr : d.pstIter.curr with
  | none =>
    obtain rfl : taken = [] := by simpa [hcr,eq_comm] using hhe
    simp only [hcr,some_inj] at hs
    subst hs
    exact ⟨h.stored.congr rfl rfl rfl,h.calls,h.waiting,h.visited,rfl,rfl⟩
  | some thr =>
    obtain ⟨taken',rfl⟩ := List.head?_eq_some_iff.mp (hhe.symm.trans hcr)
    obtain ⟨-,-,hnx,-⟩ := h.stored.chain
    simp only [hcr,some_inj] at hs
    subst hs
    exact ⟨h.stored.congr rfl rfl rfl,h.calls,h.waiting,h.visited,rfl,hcal,thr,taken',rfl,
      rfl,by simpa using hnx⟩

theorem Holds.advance_postedReady (hp : d.place = .postedReady) (hs : d.advance = some d') :
    Holds d' kept [] posted taken := by
  have hpla := h.place
  rw [hp] at hpla
  obtain ⟨rfl,hcal,thr,taken,rfl,hcr,hnx⟩ := hpla
  simp only [advance,hp,hcr,map_some,some_inj] at hs
  obtain ⟨-,-,hpc⟩ := h.stored.disjoint
  have htak : ∀ t ∈ taken, t≠thr := fun t ht heq =>
    (nodup_cons.mp (nodup_append.mp (nodup_append.mp h.stored.nodup).2.1).2.1).1 (heq ▸ ht)
  split at hs <;> subst hs
  · refine ⟨h.stored.congr rfl rfl rfl,fun t => ?_,fun t ht => ?_,visited_update h.visited thr,rfl,
      thr,taken,rfl,hcr,hnx,by simp [executeThread],fun t ht => ?_⟩
    · obtain rfl | hne := eq_or_ne t thr
      · simp [executeThread,hcal]
      · simpa [executeThread,hne] using h.calls t
    · have hne : t≠thr := fun heq => hpc t ht (by simp [heq])
      simpa [executeThread,hne] using h.waiting t ht
    · simpa [executeThread,htak t ht] using hcal t (by simp [ht])
  · exact ⟨h.stored.congr rfl rfl rfl,h.calls,h.waiting,visited_update h.visited thr,rfl,thr,taken,
      rfl,hcr,hnx,by simp,fun t ht => hcal t (by simp [ht])⟩

theorem Holds.round_end (hp : d.place = .postedComplete ∨ d.place = .postedWork)
    (hcr : d.pstIter.curr = some thr) : ∃ taken', Holds (d.finish thr).nextPosted kept [] posted taken' ∧
      Holds (d.setThreads (d.threadsQueue.enqueue thr)).nextPosted (kept ++ [thr]) [] posted taken' := by
  have hpla : rest = [] ∧ ∃ taken', taken=thr :: taken' ∧ d.pstIter.next=taken'.head? ∧
      d.visited thr=true ∧ ∀ t ∈ taken', d.calls t=0 := by
    have hpla := h.place
    obtain hp | hp := hp <;> rw [hp] at hpla <;>
      obtain ⟨rfl,thr',taken',rfl,hcr',hrs⟩ := hpla <;>
      obtain rfl : thr'=thr := some_inj.mp (hcr'.symm.trans hcr) <;>
      exact ⟨rfl,taken',rfl,hrs⟩
  obtain ⟨rfl,taken',rfl,hnx,hthr,hcal⟩ := hpla
  refine ⟨taken',⟨h.stored.drop.congr rfl rfl rfl,h.calls,h.waiting,h.visited,rfl,hnx,hcal⟩,
    ⟨?_,h.calls,h.waiting,?_,rfl,hnx,hcal⟩⟩
  · have hsto : Stored (d.setThreads (d.threadsQueue.enqueue thr)).nextPosted
        ((kept ++ []) ++ [thr]) posted taken' := h.stored.persist.congr rfl rfl rfl
    simpa using hsto
  · intro t ht
    obtain hmem | hmem := mem_append.mp ht
    · exact h.visited t hmem
    · exact mem_singleton.mp hmem ▸ hthr

theorem Holds.workReturn {again : Bool} (hs : d.workReturn again = some d') :
    ∃ kept rest posted taken, Holds d' kept rest posted taken := by
  cases hp : d.place <;> simp only [Device.workReturn,hp,reduceCtorEq] at hs
  case threadsWork =>
    have hpla := h.place
    rw [hp] at hpla
    obtain ⟨rfl,hpar,thr,rest,rfl,hcr,hnx,hthr,hcal⟩ := hpla
    simp only [hcr,map_some,some_inj] at hs
    split at hs <;> subst hs
    · have hsto : Stored d ((kept ++ [thr]) ++ rest) posted [] := by simpa using h.stored
      refine ⟨kept ++ [thr],rest,posted,[],hsto.congr rfl rfl rfl,h.calls,h.waiting,?_,rfl,
        by simp [Queue.iterEnd,hcr],hnx,hcal⟩
      intro t ht
      obtain hmem | hmem := mem_append.mp ht
      · exact h.visited t hmem
      · exact mem_singleton.mp hmem ▸ hthr
    · refine ⟨kept,rest,posted,[],?_,h.calls,h.waiting,h.visited,rfl,hpar,hnx,hcal⟩
      have hrem := h.stored.remove
      rw [← hpar,← hnx] at hrem
      exact hrem.congr rfl rfl rfl
  case postedWork =>
    obtain ⟨thr,hcr,rfl⟩ := map_eq_some_iff.mp hs
    obtain ⟨taken',hdrop,hper⟩ := h.round_end (.inr hp) hcr
    split
    · exact ⟨_,_,_,_,hper⟩
    · exact ⟨_,_,_,_,hdrop⟩

end

variable {α : Type*} [DecidableEq α]

/-- Each unfinished thread is on exactly one of the two queues, once, and no other thread is on one; a thread is called at most
once in an advance, and only while it is unfinished; and an advance looks at all threads. -/
structure Intact (d : Device α) : Prop where
  stored : ∃ threads posted taken, Stored d threads posted taken ∧
    (d.place = .outside → taken = [] ∧ ∀ thr ∈ threads, d.visited thr = true)
  calls : ∀ thr, d.calls thr ≤ 1
  working : ∀ thr ∈ d.working, d.live thr = true

variable {d d' : Device α} {kept rest posted taken : List α} {e : DeviceEvent α}

theorem Holds.intact (h : Holds d kept rest posted taken) : Intact d := by
  refine ⟨⟨kept ++ rest,posted,taken,h.stored,fun hp => ?_⟩,h.calls,fun thr hthr => ?_⟩
  · have hpla := h.place
    rw [hp] at hpla
    obtain ⟨rfl,rfl⟩ := hpla
    simpa using h.visited
  · apply h.stored.live_iff.mpr
    have hpla := h.place
    cases hp : d.place <;> simp only [working,hp,mem_def,reduceCtorEq] at hthr
    case threadsWork =>
      rw [hp] at hpla
      obtain ⟨-,-,t,rest',rfl,hcr,-⟩ := hpla
      obtain rfl : t=thr := some_inj.mp (hcr.symm.trans hthr)
      simp
    case postedWork =>
      rw [hp] at hpla
      obtain ⟨-,t,taken',rfl,hcr,-⟩ := hpla
      obtain rfl : t=thr := some_inj.mp (hcr.symm.trans hthr)
      simp

theorem Holds.complete_stays (h : Holds d kept rest posted taken) (hp : d.place = .threads) {thr : α}
    (hcr : d.thrIter.curr = some thr) (hcom : d.status thr = .complete)
    (hs : d.advance = some d') : ¬ Intact d' := by
  obtain ⟨rfl,rest',rfl,hrou⟩ := h.advance_threads hp hcr hs
  simp only [hcom,reduceCtorEq,if_false,if_true] at hrou
  obtain ⟨hque,hfin⟩ := hrou
  intro hict
  obtain ⟨threads,posted',taken',hsto,-⟩ := hict.stored
  have heq : threads=kept ++ thr :: rest' := by
    have hlin := hsto.onThreads
    rw [hque] at hlin
    exact hlin.unique h.stored.onThreads
  have hlive : d'.live thr=true := hsto.live_iff.mpr (by simp [heq])
  simp [hfin] at hlive

theorem Holds.step (h : Holds d kept rest posted taken) (hfre : Fresh d e)
    (hs : step d e = some d') :
    (Clean d e → ∃ kept rest posted taken, Holds d' kept rest posted taken) ∧ (Intact d' → Clean d e) := by
  cases e with
  | postThread thr =>
    obtain rfl := some.inj hs
    exact ⟨fun _ => ⟨_,_,_,_,h.postThread hfre⟩,fun _ => trivial⟩
  | setStatus thr stat =>
    obtain rfl := some.inj hs
    exact ⟨fun _ => ⟨_,_,_,_,h.setStatus stat⟩,fun _ => trivial⟩
  | workReturn again => exact ⟨fun _ => h.workReturn hs,fun _ => trivial⟩
  | advance =>
    have hcle : d.place ≠ .threads → Clean d .advance := fun hne hp => absurd hp hne
    replace hs : d.advance=some d' := hs
    cases hp : d.place with
    | outside => exact ⟨fun _ => ⟨_,_,_,_,h.advance_outside hp hs⟩,fun _ => hcle (by simp [hp])⟩
    | threads =>
      cases hcr : d.thrIter.curr with
      | none => exact ⟨fun _ => ⟨_,_,_,_,h.advance_threads_end hp hcr hs⟩,fun _ _ => by simp [hcr]⟩
      | some thr =>
        constructor
        · intro hcle
          have hne : d.status thr ≠ .complete := hcle hp thr hcr
          obtain ⟨-,rest',-,hrou⟩ := h.advance_threads hp hcr hs
          rw [if_neg hne] at hrou
          split at hrou <;> exact ⟨_,_,_,_,hrou⟩
        · intro hict _ t ht hcom
          obtain rfl : thr=t := some_inj.mp (hcr.symm.trans ht)
          exact h.complete_stays hp hcr hcom hs hict
    | threadsWork => simp [Device.advance,hp] at hs
    | postedBegin => exact ⟨fun _ => ⟨_,_,_,_,h.advance_postedBegin hp hs⟩,fun _ => hcle (by simp [hp])⟩
    | posted => exact ⟨fun _ => ⟨_,_,_,_,h.advance_posted hp hs⟩,fun _ => hcle (by simp [hp])⟩
    | postedReady => exact ⟨fun _ => ⟨_,_,_,_,h.advance_postedReady hp hs⟩,fun _ => hcle (by simp [hp])⟩
    | postedComplete =>
      refine ⟨fun _ => ?_,fun _ => hcle (by simp [hp])⟩
      simp only [Device.advance,hp] at hs
      obtain ⟨thr,hcr,rfl⟩ := map_eq_some_iff.mp hs
      obtain ⟨taken',hdrop,hper⟩ := h.round_end (.inl hp) hcr
      split
      · exact ⟨_,_,_,_,hdrop⟩
      · exact ⟨_,_,_,_,hper⟩
    | postedWork => simp [Device.advance,hp] at hs

/-- Whatever is posted, returned and set: the queues and the calls are right in every run, as long as
the loop over the persistent queue comes to no thread whose status is Complete, and no longer. -/
theorem runs_to_completion (next prev : α → Option α) (status : α → ThreadStatus)
    (h : Run step (fun d e => Fresh d e ∧ Clean d e) (initial next prev status) d) :
    Intact d ∧ ∀ e d', Fresh d e → step d e = some d' → (Intact d' ↔ Clean d e) := by
  obtain ⟨kept,rest,posted,taken,hd⟩ :
      ∃ kept rest posted taken, Holds d kept rest posted taken := by
    apply h.invariant
    · exact ⟨[],[],[],[],initial_holds next prev status⟩
    · intro s e s' ⟨kept,rest,posted,taken,hs⟩ ⟨hfre,hcle⟩ hsp
      exact (hs.step hfre hsp).1 hcle
  refine ⟨hd.intact,fun e d' hfre hs => ⟨(hd.step hfre hs).2,fun hcle => ?_⟩⟩
  obtain ⟨_,_,_,_,hd'⟩ := (hd.step hfre hs).1 hcle
  exact hd'.intact

theorem runs_to_completion_twice :
    ∃ d : Device ℕ, execEvents step [.postThread 1, .advance, .advance, .advance, .advance, .advance,
        .workReturn true, .advance, .advance, .advance, .workReturn false]
        (initial (fun _ => none) (fun _ => none) fun _ => .ready) = some d ∧
      Intact d ∧ d.live 1 = false ∧ d.threads.head = none :=
  ⟨_,rfl,(runs_to_completion (fun _ => none) (fun _ => none) (fun _ => .ready) (Run.refl.checked [.postThread 1,.advance,.advance,.advance,
    .advance,.advance,.workReturn true,.advance,.advance,.advance,.workReturn false] rfl)).1,
    rfl,rfl⟩

/-- A thread that is found to be Complete on the persistent queue is still there after the advance,
and called again when its status is Ready. -/
theorem complete_called_again :
    ∃ d d' : Device ℕ, execEvents step [.postThread 1, .advance, .advance, .advance, .advance, .advance,
        .workReturn true, .advance, .setStatus 1 .complete, .advance, .advance, .advance, .advance,
        .advance] (initial (fun _ => none) (fun _ => none) fun _ => .ready) = some d ∧
      d.place = .outside ∧ d.live 1 = false ∧ d.threads.head = some 1 ∧
      execEvents step [.setStatus 1 .ready, .advance, .advance] d = some d' ∧ d'.working = some 1 :=
  ⟨_,_,rfl,rfl,rfl,rfl,rfl,rfl⟩

end Device

end PAMI.Generic

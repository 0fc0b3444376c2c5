import PAMI.Queue.MultiQueueEnqueue

namespace PAMI.ThreadSafeMultiQueue

open PAMI.Math List

variable {ι α : Type*} {s s' : ThreadSafeMultiQueue ι α} {own transit shared : List α} {p : IteratorPlace α}
  {g : α}

/-- A place at which the iterating thread has nothing half done. -/
@[grind =] def Plain : IteratorPlace α → Prop
  | .join _ _ => False
  | .unlink _ none => False
  | .clearNext _ => False
  | _ => True

theorem Plain.ne_join (h : Plain p) (x : α) (t : Option α) : p ≠ .join x t := by
  intro heq
  simp [Plain,heq] at h

theorem Plain.ne_unlink (h : Plain p) (e : α) : p ≠ .unlink e none := by
  intro heq
  simp [Plain,heq] at h

theorem Plain.ne_clearNext (h : Plain p) (e : α) : p ≠ .clearNext e := by
  intro heq
  simp [Plain,heq] at h

theorem Inv.move (h : Inv s own transit shared) {parent nextParent curr iterNext : Option α}
    {old place : IteratorPlace α} (hpla : s.place=old) (hold : Plain old) (hnew : Plain place)
    (hhl : held place = held old) (hfou : ∀ g, place = .clearHead g → s.head = some g)
    (hpon : Position { s with
      parent := parent, nextParent := nextParent, curr := curr, iterNext := iterNext
      place := place } own) :
    Inv { s with
      parent := parent, nextParent := nextParent, curr := curr, iterNext := iterNext
      place := place } own transit shared := by
  subst hpla
  have hs := h.sharedOk
  refine ⟨h.live,h.nodup,?_,?_,?_,?_,hpon⟩
  · exact ⟨h.threads.own,h.threads.out,h.threads.cleared,h.threads.linked,
      fun e he => absurd he (hnew.ne_clearNext e)⟩
  · exact ⟨hs.chain,hs.tail,hs.first,fun g hg => hs.held g (hhl ▸ hg),fun hg => hs.head (hhl ▸ hg),hfou⟩
  · exact ⟨h.transitOk.chain,h.transitOk.first,fun x t hx => absurd hx (hnew.ne_join x t),
      fun _ => h.transitOk.empty hold.ne_join⟩
  · exact ⟨h.privateOk.chain,h.privateOk.first,h.privateOk.head,
      fun _ => h.privateOk.tail hold.ne_unlink,fun e he => absurd he (hnew.ne_unlink e)⟩

theorem clearHead_inv (h : Inv s own transit shared) (hpla : s.place = .clearHead g) :
    Inv { s with head := none, place := .loadTail g } own transit shared := by
  have hs := h.sharedOk
  have hfou := hs.found g hpla
  obtain ⟨hhe,hfir⟩ : s.head=shared.head? ∧ ∀ y ∈ shared.head?, ∀ t, ¬ s.Pending y t := by
    obtain hhe | ⟨hhe,-⟩ := hs.head (by rw [hpla]; rfl)
    · exact hhe
    · simp [hfou] at hhe
  rw [hfou] at hhe
  refine ⟨h.live,h.nodup,?_,⟨hs.chain,hs.tail,hs.first,?_,?_,?_⟩,?_,?_,?_⟩
  · exact ⟨h.threads.own,h.threads.out,h.threads.cleared,h.threads.linked,by simp⟩
  · intro g' hg'
    obtain rfl : g=g' := by simpa [held] using hg'
    exact ⟨rfl,hhe.symm,hfir g hhe.symm⟩
  · simp [held]
  · simp
  · exact ⟨h.transitOk.chain,h.transitOk.first,by simp,fun _ => h.transitOk.empty (by simp [hpla])⟩
  · exact ⟨h.privateOk.chain,h.privateOk.first,h.privateOk.head,
      fun _ => h.privateOk.tail (by simp [hpla]),by simp⟩
  · simp [Position]

theorem swapTail_inv (h : Inv s own transit shared) (hpla : s.place = .swapTail g s.tail) :
    Inv { s with tail := none, place := .join g s.tail } own shared [] := by
  have hs := h.sharedOk
  obtain ⟨hhe,hfir,hnn⟩ := hs.held g (by rw [hpla]; rfl)
  obtain rfl : transit = [] := h.transitOk.empty (by simp [hpla])
  have hlive := h.live
  have hnod := h.nodup
  have hths := h.threads
  simp only [append_nil] at hlive hnod hths
  refine ⟨?_,by simpa using hnod,?_,?_,?_,?_,?_⟩
  · rw [append_nil]
    exact hlive
  · rw [append_nil]
    exact ⟨hths.own,hths.out,hths.cleared,hths.linked,by simp⟩
  · exact ⟨.nil,rfl,by simp,by simp [held],fun _ => .inl ⟨hhe,by simp⟩,by simp⟩
  · refine ⟨hs.chain,?_,?_,by simp⟩
    · intro y hy t
      obtain rfl : g=y := by simpa [hfir] using hy
      exact hnn t
    · intro x t hx
      obtain ⟨rfl,rfl⟩ := IteratorPlace.join.inj hx
      exact ⟨hfir,hs.tail⟩
  · exact ⟨h.privateOk.chain,h.privateOk.first,h.privateOk.head,
      fun _ => h.privateOk.tail (by simp [hpla]),by simp⟩
  · simp [Position]

variable [DecidableEq α] {e x : α}

theorem join_inv (h : Inv s own transit shared) {t : Option α} (hpla : s.place = .join g t) : Inv { s with
      next := setLink s.next s.privateTail (some g)
      privateHead := if s.privateTail.isNone then some g else s.privateHead
      privateTail := t
      parent := none
      curr := if s.privateTail.isNone then some g else s.privateHead
      place := .check } (own ++ transit) [] shared := by
  have hs := h.sharedOk
  have ho := h.privateOk
  obtain ⟨hfir,rfl⟩ := h.transitOk.join g t hpla
  obtain ⟨⟨hno,hnt,hns⟩,hos,hts⟩ := h.disjoint
  have hta : s.privateTail=own.getLast? := ho.tail (by simp [hpla])
  have hne : transit ≠ [] := by
    intro hnil
    simp [hnil] at hfir
  have hnod : (own ++ transit).Nodup := (nodup_append.mp h.nodup).1
  have hhe : (if s.privateTail.isNone then some g else s.privateHead)=(own ++ transit).head? := by
    rw [hta,ho.head]
    cases own <;> simp [hfir]
  have hcha := ho.chain.join h.transitOk.chain hnod hfir (h.transitOk.first g hfir)
  rw [← hta] at hcha
  have hsha : ∀ x ∈ shared, setLink s.next s.privateTail (some g) x = s.next x := by
    intro x hx
    refine setLink_of_ne fun hla => (hos x ?_).2 hx
    exact mem_of_getLast? (hta ▸ hla)
  refine ⟨?_,?_,?_,?_,⟨.nil,by simp,by simp,by simp⟩,?_,?_⟩
  · rw [append_nil]
    exact h.live
  · rw [append_nil]
    exact h.nodup
  · rw [append_nil]
    have ht := h.threads
    refine ⟨ht.own,ht.out,fun i e hi => ?_,ht.linked,by simp⟩
    have hout : e ∉ own ++ transit ++ shared := by
      have hi' : s.enqueuer i = .load e ∨ ∃ t, s.enqueuer i = .swap e t := hi
      obtain hi' | ⟨t,hi'⟩ := hi'
      · exact ht.out i e (by simp [hi',Enqueuer.element]) (by simp [hi'])
      · exact ht.out i e (by simp [hi',Enqueuer.element]) (by simp [hi'])
    refine (setLink_of_ne fun hla => hout ?_).trans (ht.cleared i e hi)
    simp [mem_of_getLast? (hta ▸ hla)]
  · refine ⟨hs.chain.congr hsha fun _ _ _ => Iff.rfl,hs.tail,hs.first,by simp [held],fun _ => hs.head ?_,by simp⟩
    rw [hpla]
    rfl
  · refine ⟨hcha,?_,hhe,?_,by simp⟩
    · cases own with
      | nil => exact h.transitOk.first
      | cons x own => exact ho.first
    · intro _
      rw [List.getLast?_append]
      cases hla : transit.getLast? with
      | none => simp [hne] at hla
      | some z => rfl
  · exact ⟨[],own ++ transit,rfl,rfl,.inr ⟨hhe,by simp⟩⟩

omit [DecidableEq α] in
theorem At.loaded (h : At s own x) (hhe : s.privateHead=own.head?)
    (he : (match s.parent with | none => s.privateHead | some p => s.next p) = some e) : e=x := by
  obtain ⟨A,B,rfl,hpar,-,hlin,-⟩ := h
  cases hp : s.parent with
  | none =>
    have hA : A = [] := by simpa [hp] using hpar.symm
    simp only [hp,hhe,hA] at he
    simpa using he.symm
  | some p =>
    have hla := hlin p (by simp [← hpar,hp])
    simp only [hp,hla] at he
    exact (Option.some.inj he).symm

omit [DecidableEq α] in
theorem loadNext_inv (h : Inv s own transit shared) (hpla : s.place = .loadNext e) (hnx : s.next e = none)
    (hta : s.privateTail = some e) :
    Inv { s with privateTail := s.parent, place := .unlink e none } own transit shared := by
  have hs := h.sharedOk
  have ho := h.privateOk
  have hla : own.getLast? = some e := by rw [← ho.tail (by simp [hpla]),hta]
  have hat : At s own e := by
    have := h.position
    simpa [Position,hpla] using this
  refine ⟨h.live,h.nodup,?_,?_,?_,?_,⟨hat,hnx,fun _ => hla⟩⟩
  · exact ⟨h.threads.own,h.threads.out,h.threads.cleared,h.threads.linked,by simp⟩
  · exact ⟨hs.chain,hs.tail,hs.first,by simp [held],fun _ => hs.head (by simp [hpla,held]),
      by simp⟩
  · exact ⟨h.transitOk.chain,h.transitOk.first,by simp,fun _ => h.transitOk.empty (by simp [hpla])⟩
  · exact ⟨ho.chain,ho.first,ho.head,fun hno => absurd rfl (hno e),fun _ _ => rfl⟩

theorem filter_ne_middle {A B : List α} (hnod : (A ++ x :: B).Nodup) :
    (A ++ x :: B).filter (fun y => !decide (y=x)) = A ++ B := by
  obtain ⟨-,hxB,hdisj⟩ := nodup_append.mp hnod
  have hA : A.filter (fun y => !decide (y=x))=A := by
    apply filter_eq_self.mpr
    exact fun a ha => by simpa using hdisj a ha x (by simp)
  have hB : B.filter (fun y => !decide (y=x))=B := by
    apply filter_eq_self.mpr
    exact fun b hb => by simpa using ne_of_mem_of_not_mem hb (nodup_cons.mp hxB).1
  simp [filter_append,hA,hB]

theorem live_markGone {log : List (Enqueued ι α)} :
    ((markGone log (some x)).filter fun r => !r.gone).map Enqueued.element =
      ((log.filter fun r => !r.gone).map Enqueued.element).filter fun y => !decide (y=x) := by
  induction log with
  | nil => rfl
  | cons r log ih =>
    have hcons : markGone (r :: log) (some x) =
        (if r.element=x then { r with gone := true } else r) :: markGone log (some x) := by
      simp [markGone]
    rw [hcons]
    by_cases hx : r.element=x <;> cases hgone : r.gone <;> simp [hx,hgone,ih]

theorem unlink_inv (h : Inv s own transit shared) {n : Option α} (hpla : s.place = .unlink e n) :
    s.curr = some e ∧ ∃ A B, own = A ++ e :: B ∧ Inv { s with
        next := setLink s.next s.parent n
        privateHead := if s.parent.isNone then n else s.privateHead
        log := markGone s.log s.curr
        place := .clearNext e } (A ++ B) transit shared := by
  have hs := h.sharedOk
  have ho := h.privateOk
  obtain ⟨⟨A,B,rfl,hpar,hcr,hlin,-,hiter⟩,hn,hend⟩ :
      At s own e ∧ s.next e=n ∧ (n=none → own.getLast? = some e) := by
    have := h.position
    simpa only [Position,hpla] using this
  obtain ⟨⟨hno,hnt,hns⟩,hos,hts⟩ := h.disjoint
  obtain ⟨hnA,hnB,hdisj⟩ := nodup_append.mp hno
  have hcha := ho.chain
  have hB : n=B.head? := by
    by_cases hnn : n=none
    · have hla := hend hnn
      rw [List.getLast?_append] at hla
      cases B with
      | nil => exact hnn
      | cons y B =>
        have hmem : e ∈ y :: B := mem_of_getLast? (by simpa using hla)
        exact absurd hmem (nodup_cons.mp hnB).1
    · rw [← hn]
      exact next_eq_head hcha (hn ▸ hnn)
  have hemp : n=none → B = [] := by
    intro hnn
    rw [hnn] at hB
    simpa using hB.symm
  have hsto : B = [] ∨ s.next e≠none := by
    by_cases hnn : n=none
    · exact .inl (hemp hnn)
    · exact .inr (hn ▸ hnn)
  have hnot : ∀ t, ¬ s.Pending e t := not_pending_of_linked hcha ho.first hlin
  have hrmv := hcha.remove hno hsto
  rw [hn,← hpar] at hrmv
  have hfra : ∀ x, x ∉ A → setLink s.next s.parent n x = s.next x := by
    intro x hx
    refine setLink_of_ne fun heq => hx ?_
    exact mem_of_getLast? (hpar ▸ heq)
  have hmem : ∀ x, x ∈ A ++ B ++ transit ++ shared ↔ x≠e ∧ x ∈ A ++ e :: B ++ transit ++ shared := by
    intro x
    by_cases hxe : x=e
    · subst hxe
      have hA : x ∉ A := fun hx => hdisj x hx x (by simp) rfl
      have hx := hos x (by simp)
      simp [hA,(nodup_cons.mp hnB).1,hx]
    · simp [hxe]
  refine ⟨hcr,A,B,rfl,⟨?_,?_,?_,?_,?_,?_,?_⟩⟩
  · have hlive := h.live
    have hall : (A ++ e :: (B ++ transit ++ shared)).Nodup := by simpa using h.nodup
    have hfil := filter_ne_middle hall
    simp only [append_assoc] at hfil
    rw [live,hcr,live_markGone]
    rw [live] at hlive
    rw [hlive]
    simpa using hfil
  · exact h.nodup.sublist (by simp)
  · have ht := h.threads
    refine ⟨ht.own,fun i x hi hlink hx => ?_,fun i x hi => ?_,fun i x t hi => ?_,fun x hx => ?_⟩
    · exact ht.out i x hi hlink ((hmem x).mp hx).2
    · have hout : x ∉ A ++ e :: B ++ transit ++ shared := by
        have hi' : s.enqueuer i = .load x ∨ ∃ t, s.enqueuer i = .swap x t := hi
        obtain hi' | ⟨t,hi'⟩ := hi'
        · exact ht.out i x (by simp [hi',Enqueuer.element]) (by simp [hi'])
        · exact ht.out i x (by simp [hi',Enqueuer.element]) (by simp [hi'])
      exact (hfra x fun hx => hout (by simp [hx])).trans (ht.cleared i x hi)
    · refine (hmem x).mpr ⟨fun heq => hnot t ⟨i,heq ▸ hi⟩,ht.linked i x t hi⟩
    · obtain rfl : e=x := by simpa using hx
      refine ⟨fun hx => ((hmem e).mp hx).1 rfl,fun i hi => ?_⟩
      by_cases hlink : ∃ t, s.enqueuer i = .link e t
      · obtain ⟨t,hlink⟩ := hlink
        exact hnot t ⟨i,hlink⟩
      · exact ht.out i e hi (fun t ht => hlink ⟨t,ht⟩) (by simp)
  · refine ⟨hs.chain.congr (fun x hx => hfra x fun hA => ?_) fun _ _ _ => Iff.rfl,hs.tail,
      hs.first,by simp [held],fun _ => hs.head ?_,by simp⟩
    · exact (hos x (by simp [hA])).2 hx
    · rw [hpla]
      rfl
  · refine ⟨h.transitOk.chain.congr (fun x hx => hfra x fun hA => ?_) fun _ _ _ => Iff.rfl,
      h.transitOk.first,by simp,fun _ => h.transitOk.empty (by simp [hpla])⟩
    exact (hos x (by simp [hA])).1 hx
  · refine ⟨hrmv,?_,?_,fun _ => ?_,by simp⟩
    · cases A with
      | cons a A => exact ho.first
      | nil =>
        cases B with
        | nil => simp
        | cons y B =>
          intro z hz t
          obtain rfl : y=z := by simpa using hz
          obtain hf | hf := BrokenChain.split hcha
          · exact hf.2 t
          · simp [hn,hB] at hf
    · have hhe := ho.head
      cases A with
      | nil =>
        have hnn : s.parent=none := by simpa using hpar
        simpa [hnn] using hB
      | cons a A =>
        have hso : s.parent.isNone=false := by simp [hpar]
        simpa [hso] using hhe
    · cases B with
      | nil =>
        have hcut : s.place = .unlink e none := by rw [hpla,hB]; rfl
        simpa [hpar] using ho.cut e hcut
      | cons y B =>
        have hta := ho.tail (by simp [hpla,hB])
        simpa [List.getLast?_append] using hta
  · refine ⟨A,B,rfl,hpar,?_⟩
    obtain hiter | hiter := hiter
    · exact .inl hiter
    · refine .inr ⟨hiter.trans (hn.trans hB),fun a ha => ?_⟩
      have hpa : s.parent=some a := hpar.trans ha
      simp [hpa,setLink,hiter,hn]

theorem clearNext_inv (h : Inv s own transit shared) (hpla : s.place = .clearNext e) : Inv { s with
      next := Function.update s.next e none, nextParent := s.parent, place := .removed }
      own transit shared := by
  obtain ⟨hout,hfr⟩ := h.threads.leaving e hpla
  have hnx : ∀ x, x≠e → Function.update s.next e none x = s.next x := fun x hx => Function.update_of_ne hx _ _
  have hsm : ∀ x ∈ own ++ transit ++ shared, Function.update s.next e none x = s.next x :=
    fun x hx => hnx x (ne_of_mem_of_not_mem hx hout)
  simp only [mem_append] at hsm
  have hs := h.sharedOk
  have ho := h.privateOk
  refine ⟨h.live,h.nodup,?_,?_,?_,?_,?_⟩
  · have ht := h.threads
    refine ⟨ht.own,ht.out,fun i x hi => ?_,ht.linked,by simp⟩
    by_cases hx : x=e
    · simp [hx]
    · exact (hnx x hx).trans (ht.cleared i x hi)
  · exact ⟨hs.chain.congr (fun x hx => hsm x (.inr hx)) fun _ _ _ => Iff.rfl,hs.tail,hs.first,
      by simp [held],fun _ => hs.head (by simp [hpla,held]),by simp⟩
  · exact ⟨h.transitOk.chain.congr (fun x hx => hsm x (.inl (.inr hx))) fun _ _ _ => Iff.rfl,
      h.transitOk.first,by simp,fun _ => h.transitOk.empty (by simp [hpla])⟩
  · exact ⟨ho.chain.congr (fun x hx => hsm x (.inl (.inl hx))) fun _ _ _ => Iff.rfl,ho.first,
      ho.head,fun _ => ho.tail (by simp [hpla]),by simp⟩
  · obtain ⟨A,B,rfl,hpar,hc⟩ : Between s own s.iterNext := by
      have := h.position
      simpa only [Position,hpla] using this
    refine ⟨⟨A,B,rfl,hpar,hc.imp id fun ⟨hhe,ha⟩ => ⟨hhe,fun a hmem => ?_⟩⟩,rfl⟩
    exact (hsm a (.inl (.inl (by simp [mem_of_getLast? hmem])))).trans (ha a hmem)

end PAMI.ThreadSafeMultiQueue

import PAMI.Queue.ThreadSafeMultiQueue

namespace PAMI.ThreadSafeMultiQueue

open PAMI.Math Function Enqueuer List Option

variable {ι α : Type*} {s : ThreadSafeMultiQueue ι α} {own transit shared : List α} {next : α → Option α}

theorem Inv.quiet (h : Inv s own transit shared) {enqueuer : ι → Enqueuer α}
    (hnx : ∀ x ∈ own ++ transit ++ shared, next x = s.next x)
    (hpen : ∀ y t, Pending { s with next := next, enqueuer := enqueuer } y t ↔ s.Pending y t)
    (hths : ThreadsOk { s with next := next, enqueuer := enqueuer } (own ++ transit ++ shared)) :
    Inv { s with next := next, enqueuer := enqueuer } own transit shared := by
  have hcha : ∀ l, l ⊆ own ++ transit ++ shared → BrokenChain s.next s.Pending l →
      BrokenChain next (Pending { s with next := next, enqueuer := enqueuer }) l :=
    fun l hl hc => hc.congr (fun x hx => hnx x (hl hx)) fun y _ => hpen y
  have hown : own ⊆ own ++ transit ++ shared := fun x hx => by simp [hx]
  have hnn : ∀ l : List α, (∀ y ∈ l.head?, ∀ t, ¬ s.Pending y t) → ∀ y ∈ l.head?, ∀ t,
      ¬ Pending { s with next := next, enqueuer := enqueuer } y t :=
    fun l hl y hy t hp => hl y hy t ((hpen y t).mp hp)
  refine ⟨h.live,h.nodup,hths,?_,?_,?_,?_⟩
  · have hs := h.sharedOk
    refine ⟨hcha shared (fun x hx => by simp [hx]) hs.chain,hs.tail,
      fun y hy t hp => hs.first y hy t ((hpen y t).mp hp),fun g hg => ?_,fun hg => ?_,hs.found⟩
    · obtain ⟨hhe,hfir,hp⟩ := hs.held g hg
      exact ⟨hhe,hfir,fun t ht => hp t ((hpen g t).mp ht)⟩
    · obtain ⟨hhe,hp⟩ | ⟨hhe,y,hy,hp⟩ := hs.head hg
      · exact .inl ⟨hhe,hnn shared hp⟩
      · exact .inr ⟨hhe,y,hy,(hpen y none).mpr hp⟩
  · have ht := h.transitOk
    exact ⟨hcha transit (fun x hx => by simp [hx]) ht.chain,hnn transit ht.first,ht.join,ht.empty⟩
  · have hp := h.privateOk
    exact ⟨hcha own hown hp.chain,hnn own hp.first,hp.head,hp.tail,hp.cut⟩
  · refine h.position.congr rfl rfl rfl rfl rfl (fun x hx _ => hnx x (hown hx)) fun x hx => ?_
    exact (hnx x (hown (mem_of_getLast? hx))).trans (h.privateOk.chain.last x hx)

variable [DecidableEq ι] {i : ι} {e : α} {pc : Enqueuer α} {t : Option α}

theorem setEnqueuer_element {j : ι} {x : α} (hj : ((setEnqueuer s i pc).enqueuer j).element = some x) :
    j=i ∧ pc.element = some x ∨ j≠i ∧ (s.enqueuer j).element = some x := by
  by_cases hji : j=i
  · subst hji
    exact .inl ⟨rfl,by simpa [setEnqueuer] using hj⟩
  · exact .inr ⟨hji,by simpa [setEnqueuer,hji] using hj⟩

theorem setEnqueuer_eq {j : ι} {pc' : Enqueuer α} (hj : (setEnqueuer s i pc).enqueuer j = pc') :
    j=i ∧ pc=pc' ∨ j≠i ∧ s.enqueuer j = pc' := by
  by_cases hji : j=i
  · subst hji
    exact .inl ⟨rfl,by simpa [setEnqueuer] using hj⟩
  · exact .inr ⟨hji,by simpa [setEnqueuer,hji] using hj⟩

theorem pending_setEnqueuer {y : α} :
    (setEnqueuer s i pc).Pending y t ↔ pc = .link y t ∨ ∃ j, j≠i ∧ s.enqueuer j = .link y t := by
  constructor
  · intro ⟨j,hj⟩
    obtain ⟨-,hpc⟩ | ⟨hji,hj⟩ := setEnqueuer_eq hj
    · exact .inl hpc
    · exact .inr ⟨j,hji,hj⟩
  · intro h
    obtain hpc | ⟨j,hji,hj⟩ := h
    · exact ⟨i,by simp [setEnqueuer,hpc]⟩
    · exact ⟨j,by simp [setEnqueuer,hji,hj]⟩

theorem pending_unchanged (hold : ∀ y t, s.enqueuer i ≠ .link y t) (hnew : ∀ y t, pc ≠ .link y t)
    (y : α) (t : Option α) : (setEnqueuer s i pc).Pending y t ↔ s.Pending y t := by
  rw [pending_setEnqueuer]
  constructor
  · intro h
    obtain hpc | ⟨j,-,hj⟩ := h
    · exact absurd hpc (hnew y t)
    · exact ⟨j,hj⟩
  · intro ⟨j,hj⟩
    refine .inr ⟨j,fun heq => ?_,hj⟩
    subst heq
    exact hold y t hj

theorem ThreadsOk.set (h : ThreadsOk s l) {l' : List α} (hnew : ∀ e, pc.element = some e →
      (∀ j, j≠i → (s.enqueuer j).element ≠ some e) ∧ s.place ≠ .clearNext e)
    (hout : ∀ e, pc.element = some e → (∀ t, pc ≠ .link e t) → e ∉ l')
    (hcle : ∀ e, pc = .load e ∨ (∃ t, pc = .swap e t) → s.next e = none)
    (hlin : ∀ e t, pc = .link e t → e ∈ l')
    (hkp : ∀ j x, j≠i → (s.enqueuer j).element = some x → (x ∈ l' ↔ x ∈ l))
    (hlea : ∀ x, s.place = .clearNext x → x ∉ l → x ∉ l') :
    ThreadsOk (setEnqueuer s i pc) l' := by
  refine ⟨fun j k x hj hk => ?_,fun j x hj hlink => ?_,fun j x hj => ?_,fun j x t hj => ?_,
    fun x hx => ⟨hlea x hx (h.leaving x hx).1,fun j hj => ?_⟩⟩
  · obtain ⟨hji,hpc⟩ | ⟨hji,hj'⟩ := setEnqueuer_element hj <;>
      obtain ⟨hki,hpc'⟩ | ⟨hki,hk'⟩ := setEnqueuer_element hk
    · exact hji.trans hki.symm
    · exact absurd hk' ((hnew x hpc).1 k hki)
    · exact absurd hj' ((hnew x hpc').1 j hji)
    · exact h.own j k x hj' hk'
  · obtain ⟨rfl,hpc⟩ | ⟨hji,hj⟩ := setEnqueuer_element hj
    · exact hout x hpc fun t ht => hlink t (by simp [setEnqueuer,ht])
    · rw [hkp j x hji hj]
      exact h.out j x hj fun t ht => hlink t (by simp [setEnqueuer,hji,ht])
  · obtain hj | ⟨t,hj⟩ := hj
    · obtain ⟨rfl,hpc⟩ | ⟨-,hj⟩ := setEnqueuer_eq hj
      · exact hcle x (.inl hpc)
      · exact h.cleared j x (.inl hj)
    · obtain ⟨rfl,hpc⟩ | ⟨-,hj⟩ := setEnqueuer_eq hj
      · exact hcle x (.inr ⟨t,hpc⟩)
      · exact h.cleared j x (.inr ⟨t,hj⟩)
  · obtain ⟨rfl,hpc⟩ | ⟨hji,hj⟩ := setEnqueuer_eq hj
    · exact hlin x t hpc
    · rw [hkp j x hji (by simp [hj,element])]
      exact h.linked j x t hj
  · obtain ⟨rfl,hpc⟩ | ⟨-,hj⟩ := setEnqueuer_element hj
    · exact (hnew x hpc).2 hx
    · exact (h.leaving x hx).2 j hj

omit [DecidableEq ι] in
theorem ThreadsOk.others (h : ThreadsOk s l) (hi : (s.enqueuer i).element = some e) :
    (∀ j, j≠i → (s.enqueuer j).element ≠ some e) ∧ s.place ≠ .clearNext e :=
  ⟨fun j hji hj => hji (h.own j i e hj hi),fun hpla => (h.leaving e hpla).2 i hi⟩

section

variable (h : Inv s own transit shared)
include h

theorem start_inv (hi : s.enqueuer i = .idle) (hfre : ¬ Busy s e) :
    Inv (setEnqueuer s i (.clear e)) own transit shared := by
  have hunq : e ∉ own ++ transit ++ shared := by
    rw [← h.live]
    exact fun hmem => hfre (.inl hmem)
  have hnew : ∀ x, (clear e).element=some x →
      (∀ j, j≠i → (s.enqueuer j).element≠some x) ∧ s.place ≠ .clearNext x := by
    intro x hx
    obtain rfl : e=x := by simpa [element] using hx
    exact ⟨fun j _ hj => hfre (.inr (.inr ⟨j,hj⟩)),fun hpla => hfre (.inr (.inl hpla))⟩
  apply h.quiet (fun _ _ => rfl) (pending_unchanged (by simp [hi]) (by simp))
  apply h.threads.set hnew
  · intro x hx _
    obtain rfl : e=x := by simpa [element] using hx
    exact hunq
  · simp
  · simp
  · simp
  · exact fun x _ hx => hx

omit [DecidableEq ι] in
theorem Inv.withCalls (calls : ι → List α) : Inv { s with calls := calls } own transit shared :=
  ⟨h.live,h.nodup,⟨h.threads.own,h.threads.out,h.threads.cleared,h.threads.linked,
    h.threads.leaving⟩,⟨h.sharedOk.chain,h.sharedOk.tail,h.sharedOk.first,h.sharedOk.held,
    h.sharedOk.head,h.sharedOk.found⟩,⟨h.transitOk.chain,h.transitOk.first,h.transitOk.join,
    h.transitOk.empty⟩,⟨h.privateOk.chain,h.privateOk.first,h.privateOk.head,h.privateOk.tail,
    h.privateOk.cut⟩,h.position⟩

theorem before_inv (hi : (s.enqueuer i).element = some e) (hold : ∀ y t, s.enqueuer i ≠ .link y t)
    (hpc : pc.element = some e) (hnew : ∀ y t, pc ≠ .link y t) (hnx : ∀ x, x≠e → next x = s.next x)
    (hcle : next e = none ∨ next=s.next)
    (hload : ∀ x, pc = .load x ∨ (∃ t, pc = .swap x t) → next x = none) :
    Inv (setEnqueuer { s with next := next } i pc) own transit shared := by
  have hout := h.threads.out i e hi (hold e)
  apply h.quiet (fun x hx => hnx x fun heq => hout (heq ▸ hx)) (pending_unchanged hold hnew)
  have hths : ThreadsOk { s with next := next } (own ++ transit ++ shared) := by
    have ht := h.threads
    refine ⟨ht.own,ht.out,fun j x hj => ?_,ht.linked,ht.leaving⟩
    obtain hnn | rfl := hcle
    · by_cases hxe : x=e
      · rw [hxe]
        exact hnn
      · exact (hnx x hxe).trans (ht.cleared j x hj)
    · exact ht.cleared j x hj
  apply hths.set
  · intro x hx
    obtain rfl : e=x := by simpa [hpc] using hx
    exact h.threads.others hi
  · intro x hx _
    obtain rfl : e=x := by simpa [hpc] using hx
    exact hout
  · exact hload
  · exact fun x t hx => absurd hx (hnew x t)
  · simp
  · exact fun x _ hx => hx

theorem swap_inv (hi : s.enqueuer i = .swap e s.tail) :
    Inv (setEnqueuer { s with tail := some e, log := s.log ++ [⟨i,e,false⟩] } i (.link e s.tail))
      own transit (shared ++ [e]) := by
  have hele : (s.enqueuer i).element=some e := by simp [hi,element]
  have hout : e ∉ own ++ transit ++ shared := h.threads.out i e hele (by simp [hi])
  have hnn : ∀ t, ¬ s.Pending e t := by
    intro t ⟨j,hj⟩
    obtain rfl := h.threads.own j i e (by simp [hj,element]) hele
    simp [hi] at hj
  have hpen : ∀ y t, (setEnqueuer { s with tail := some e, log := s.log ++ [⟨i,e,false⟩] } i
      (.link e s.tail)).Pending y t ↔ (y=e ∧ t=s.tail) ∨ s.Pending y t := by
    intro y t
    rw [pending_setEnqueuer]
    apply or_congr
    · simp [eq_comm]
    · refine ⟨fun ⟨j,_,hj⟩ => ⟨j,hj⟩,fun ⟨j,hj⟩ => ⟨j,fun heq => ?_,hj⟩⟩
      simp [heq,hi] at hj
  have hsm : ∀ y ∈ own ++ transit ++ shared, ∀ t, (setEnqueuer
      { s with tail := some e, log := s.log ++ [⟨i,e,false⟩] } i (.link e s.tail)).Pending y t ↔ s.Pending y t := by
    intro y hy t
    have hye : y≠e := fun heq => hout (heq ▸ hy)
    simp [hpen,hye]
  simp only [mem_append,not_or] at hout hsm
  have hs := h.sharedOk
  refine ⟨?_,?_,?_,?_,?_,?_,h.position⟩
  · rw [← append_assoc,← h.live]
    simp [live,setEnqueuer]
  · rw [← append_assoc]
    refine nodup_append.mpr ⟨h.nodup,by simp,fun x hx y hy heq => ?_⟩
    obtain rfl : y=e := by simpa using hy
    subst heq
    simp only [mem_append] at hx
    tauto
  · have hths : ThreadsOk { s with tail := some e, log := s.log ++ [⟨i,e,false⟩] }
        (own ++ transit ++ shared) :=
      ⟨h.threads.own,h.threads.out,h.threads.cleared,h.threads.linked,h.threads.leaving⟩
    apply hths.set
    · intro x hx
      obtain rfl : e=x := by simpa [element] using hx
      exact h.threads.others hele
    · intro x hx hlink
      obtain rfl : e=x := by simpa [element] using hx
      exact absurd rfl (hlink s.tail)
    · simp
    · intro x t hx
      obtain ⟨rfl,-⟩ := link.inj hx
      simp
    · intro j x hji hj
      have hxe : x≠e := fun heq => (h.threads.others hele).1 j hji (heq ▸ hj)
      simp [hxe]
    · intro x hx hmem
      have hxe : x≠e := fun heq => (h.threads.others hele).2 (heq ▸ hx)
      simpa [hxe] using hmem
  · have hold : BrokenChain s.next (setEnqueuer
        { s with tail := some e, log := s.log ++ [⟨i,e,false⟩] } i (.link e s.tail)).Pending shared :=
      hs.chain.congr (fun _ _ => rfl) fun y hy => hsm y (.inr (mem_of_mem_tail hy))
    have hcha := hold.snoc (e := e) (h.threads.cleared i e (.inr ⟨_,hi⟩)) ?_
    · refine ⟨hcha,by simp [setEnqueuer],?_,fun g hg => ?_,fun hg => ?_,hs.found⟩
      · intro y hy t hp
        obtain ⟨rfl,rfl⟩ | hp := (hpen y t).mp hp
        · cases shared with
          | nil => simpa using hs.tail
          | cons z shared =>
            obtain rfl : z=y := by simpa using hy
            simp at hout
        · cases shared with
          | nil =>
            obtain rfl : e=y := by simpa using hy
            exact absurd hp (hnn t)
          | cons z shared => exact hs.first y (by simpa using hy) t hp
      · obtain ⟨hhe,hfir,hp⟩ := hs.held g hg
        refine ⟨hhe,by simp [hfir],fun t ht => hp t ?_⟩
        exact (hsm g (.inr (mem_of_head? hfir)) t).mp ht
      · cases shared with
        | nil =>
          have hta : s.tail=none := by simpa using hs.tail
          refine .inr ⟨?_,e,by simp,(hpen e none).mpr (.inl ⟨rfl,hta.symm⟩)⟩
          obtain ⟨hhe,-⟩ | ⟨hhe,-⟩ := hs.head hg <;> simpa [setEnqueuer] using hhe
        | cons z shared =>
          obtain ⟨hhe,hp⟩ | ⟨hhe,y,hy,hp⟩ := hs.head hg
          · refine .inl ⟨by simpa [setEnqueuer] using hhe,fun y hy t ht => ?_⟩
            have hyz : z=y := by simpa using hy
            exact hp y (by simp [hyz]) t ((hsm y (.inr (by simp [hyz])) t).mp ht)
          · exact .inr ⟨hhe,y,by simpa using hy,(hpen y none).mpr (.inr hp)⟩
    · intro t
      rw [hpen,← hs.tail]
      simp [hnn]
  · have ht := h.transitOk
    refine ⟨ht.chain.congr (fun _ _ => rfl) fun y hy => hsm y (.inl (.inr (mem_of_mem_tail hy))),
      fun y hy t hp => ?_,ht.join,ht.empty⟩
    exact ht.first y hy t ((hsm y (.inl (.inr (mem_of_head? hy))) t).mp hp)
  · have hp := h.privateOk
    refine ⟨hp.chain.congr (fun _ _ => rfl) fun y hy => hsm y (.inl (.inl (mem_of_mem_tail hy))),
      fun y hy t ht => ?_,hp.head,hp.tail,hp.cut⟩
    exact hp.first y hy t ((hsm y (.inl (.inl (mem_of_head? hy))) t).mp ht)

end

section Link

variable {x : α}

theorem pending_link (h : ThreadsOk s l) (hi : s.enqueuer i = .link e t) (next : α → Option α)
    (head : Option α) (y : α) (t' : Option α) :
    (setEnqueuer { s with next := next, head := head } i .idle).Pending y t' ↔ y≠e ∧ s.Pending y t' := by
  rw [pending_setEnqueuer]
  constructor
  · intro hp
    obtain hp | ⟨j,hji,hj⟩ := hp
    · simp at hp
    · have hj' : s.enqueuer j = .link y t' := hj
      refine ⟨fun heq => hji ?_,j,hj⟩
      exact h.own j i e (by simp [← heq,hj',element]) (by simp [hi,element])
  · intro ⟨hne,j,hj⟩
    refine .inr ⟨j,fun heq => hne ?_,hj⟩
    rw [heq,hi] at hj
    exact (link.inj hj).1.symm

theorem ThreadsOk.link (h : ThreadsOk s l) {head : Option α}
    (hnx : ∀ y, s.next y = none → y ∉ l → next y = none) :
    ThreadsOk (setEnqueuer { s with next := next, head := head } i .idle) l := by
  have hths : ThreadsOk { s with next := next, head := head } l := by
    refine ⟨h.own,h.out,fun j y hj => hnx y (h.cleared j y hj) ?_,h.linked,h.leaving⟩
    have hj' : s.enqueuer j = .load y ∨ ∃ t, s.enqueuer j = .swap y t := hj
    obtain hj' | ⟨t,hj'⟩ := hj'
    · exact h.out j y (by simp [hj',element]) (by simp [hj'])
    · exact h.out j y (by simp [hj',element]) (by simp [hj'])
  apply hths.set
  · simp [element]
  · simp [element]
  · simp
  · simp
  · simp
  · exact fun y _ hy => hy

variable [DecidableEq α]

omit [DecidableEq ι] in
theorem chain_link {pending : α → Option α → Prop} (hl : BrokenChain s.next s.Pending l)
    (hnod : l.Nodup) (hp : s.Pending e (some x)) (hhe : l.head? ≠ some e)
    (hbt : x ∈ l → e ∈ l) (hpen : ∀ y t, pending y t ↔ y≠e ∧ s.Pending y t) :
    BrokenChain (update s.next x (some e)) pending l := by
  by_cases he : e ∈ l
  · obtain ⟨A,z,B,hz,-,rfl⟩ := hl.pending_split he hhe hp
    obtain rfl := some.inj hz
    exact hl.store hnod hpen
  · have hx : x ∉ l := fun hx => he (hbt hx)
    refine hl.congr (fun y hy => update_of_ne (ne_of_mem_of_not_mem hy hx) _ _) ?_
    intro y hy t
    have hne : y≠e := fun heq => he (heq ▸ mem_of_mem_tail hy)
    simp [hpen,hne]

theorem link_inv (h : Inv s own transit shared) (hi : s.enqueuer i = .link e (some x)) :
    Inv (setEnqueuer { s with next := update s.next x (some e) } i .idle)
      own transit shared := by
  have hp : s.Pending e (some x) := ⟨i,hi⟩
  have hpen := pending_link h.threads hi (update s.next x (some e)) s.head
  obtain ⟨⟨hno,hnt,hns⟩,hos,hts⟩ := h.disjoint
  have hs := h.sharedOk
  have ht := h.transitOk
  have ho := h.privateOk
  have hhea : own.head? ≠ some e ∧ transit.head? ≠ some e ∧ shared.head? ≠ some e := by
    refine ⟨fun he => ho.first e he _ hp,fun he => ht.first e he _ hp,fun he => ?_⟩
    simpa using hs.first e he _ hp
  have hspl : ∀ l, BrokenChain s.next s.Pending l → l.head? ≠ some e → e ∈ l → x ∈ l ∧ s.next x=none := by
    intro l hl hhe he
    obtain ⟨A,z,B,hz,hnn,rfl⟩ := hl.pending_split he hhe hp
    obtain rfl := some.inj hz
    exact ⟨by simp,hnn⟩
  have hmem : (e ∈ own ∨ e ∈ transit) ∨ e ∈ shared := by simpa only [mem_append] using h.threads.linked i e _ hi
  have hxe : s.next x=none ∧ (x ∈ own → e ∈ own) ∧ (x ∈ transit → e ∈ transit) ∧ (x ∈ shared → e ∈ shared) := by
    obtain (he | he) | he := hmem
    · obtain ⟨hx,hnn⟩ := hspl own ho.chain hhea.1 he
      exact ⟨hnn,fun _ => he,fun hx' => absurd hx' (hos x hx).1,fun hx' => absurd hx' (hos x hx).2⟩
    · obtain ⟨hx,hnn⟩ := hspl transit ht.chain hhea.2.1 he
      exact ⟨hnn,fun hx' => absurd hx (hos x hx').1,fun _ => he,fun hx' => absurd hx' (hts x hx)⟩
    · obtain ⟨hx,hnn⟩ := hspl shared hs.chain hhea.2.2 he
      exact ⟨hnn,fun hx' => absurd hx (hos x hx').2,fun hx' => absurd hx (hts x hx'),fun _ => he⟩
  obtain ⟨hnn,hxo,hxt,hxs⟩ := hxe
  have hown := chain_link ho.chain hno hp hhea.1 hxo hpen
  have hfew : ∀ l : List α, (∀ y ∈ l.head?, ∀ t, ¬ s.Pending y t) → ∀ y ∈ l.head?, ∀ t,
      ¬ (setEnqueuer { s with next := update s.next x (some e) } i .idle).Pending y t :=
    fun l hl y hy t hpend => hl y hy t ((hpen y t).mp hpend).2
  refine ⟨h.live,h.nodup,h.threads.link fun y hy hout => ?_,?_,?_,?_,?_⟩
  · have hyx : y≠x := by
      intro heq
      subst heq
      simp only [mem_append,not_or] at hout
      obtain (he | he) | he := hmem
      · exact hout.1.1 (hspl own ho.chain hhea.1 he).1
      · exact hout.1.2 (hspl transit ht.chain hhea.2.1 he).1
      · exact hout.2 (hspl shared hs.chain hhea.2.2 he).1
    rwa [update_of_ne hyx]
  · refine ⟨chain_link hs.chain hns hp hhea.2.2 hxs hpen,hs.tail,
      fun y hy t hpend => hs.first y hy t ((hpen y t).mp hpend).2,fun g hg => ?_,
      fun hg => ?_,hs.found⟩
    · obtain ⟨hhe,hfir,hpend⟩ := hs.held g hg
      exact ⟨hhe,hfir,fun t ht => hpend t ((hpen g t).mp ht).2⟩
    · obtain ⟨hhe,hpend⟩ | ⟨hhe,y,hy,hpend⟩ := hs.head hg
      · exact .inl ⟨hhe,hfew shared hpend⟩
      · refine .inr ⟨hhe,y,hy,(hpen y none).mpr ⟨fun heq => ?_,hpend⟩⟩
        exact hhea.2.2 (heq ▸ hy)
  · exact ⟨chain_link ht.chain hnt hp hhea.2.1 hxt hpen,hfew transit ht.first,ht.join,ht.empty⟩
  · exact ⟨hown,hfew own ho.first,ho.head,ho.tail,ho.cut⟩
  · refine h.position.congr rfl rfl rfl rfl rfl (fun y _ hy => ?_) hown.last
    have hyx : y≠x := fun heq => hy (by rw [heq,hnn])
    exact update_of_ne hyx _ _

omit [DecidableEq α] in
theorem link_head_inv (h : Inv s own transit shared) (hi : s.enqueuer i = .link e none) :
    Inv (setEnqueuer { s with head := some e } i .idle) own transit shared := by
  have hp : s.Pending e none := ⟨i,hi⟩
  have hpen := pending_link h.threads hi s.next (some e)
  obtain ⟨-,hos,hts⟩ := h.disjoint
  have hs := h.sharedOk
  have ht := h.transitOk
  have ho := h.privateOk
  have hnot : ∀ l, BrokenChain s.next s.Pending l → l.head? ≠ some e → e ∉ l := by
    intro l hl hhe he
    obtain ⟨A,z,B,hz,-⟩ := hl.pending_split he hhe hp
    simp at hz
  have hown : e ∉ own := hnot own ho.chain fun he => ho.first e he _ hp
  have htra : e ∉ transit := hnot transit ht.chain fun he => ht.first e he _ hp
  have hsha : e ∈ shared := by
    have hmem := h.threads.linked i e _ hi
    simp only [mem_append] at hmem
    tauto
  have hfir : shared.head? = some e := by
    by_contra hhe
    exact hnot shared hs.chain hhe hsha
  have hfew : ∀ l : List α, (∀ y ∈ l.head?, ∀ t, ¬ s.Pending y t) → ∀ y ∈ l.head?, ∀ t,
      ¬ (setEnqueuer { s with head := some e } i .idle).Pending y t :=
    fun l hl y hy t hpend => hl y hy t ((hpen y t).mp hpend).2
  have hcha : ∀ l, e ∉ l.tail → BrokenChain s.next s.Pending l →
      BrokenChain s.next (setEnqueuer { s with head := some e } i .idle).Pending l := by
    intro l he hl
    refine hl.congr (fun _ _ => rfl) fun y hy t => ?_
    have hne : y≠e := fun heq => he (heq ▸ hy)
    exact (hpen y t).trans (by simp [hne])
  have hta : e ∉ shared.tail := by
    obtain ⟨rest,hrs⟩ := List.head?_eq_some_iff.mp hfir
    have hnod := h.disjoint.1.2.2
    rw [hrs] at hnod ⊢
    exact (nodup_cons.mp hnod).1
  refine ⟨h.live,h.nodup,h.threads.link fun _ hy _ => hy,?_,?_,?_,h.position⟩
  · refine ⟨hcha shared hta hs.chain,hs.tail,
      fun y hy t hpend => hs.first y hy t ((hpen y t).mp hpend).2,fun g hg => ?_,
      fun _ => .inl ⟨hfir.symm,fun y hy t hpend => ?_⟩,fun g hg => ?_⟩
    · obtain ⟨-,hfir',hnn⟩ := hs.held g hg
      obtain rfl : e=g := by simpa [hfir] using hfir'
      exact absurd hp (hnn none)
    · obtain rfl : e=y := by simpa [hfir] using hy
      exact ((hpen e t).mp hpend).1 rfl
    · have hpla : held s.place=none := by
        have hg' : s.place = .clearHead g := hg
        rw [hg']
        rfl
      obtain ⟨-,hnn⟩ | ⟨hhe,-⟩ := hs.head hpla
      · exact absurd hp (hnn e hfir none)
      · simp [hs.found g hg] at hhe
  · exact ⟨hcha transit (fun he => htra (mem_of_mem_tail he)) ht.chain,hfew transit ht.first,ht.join,ht.empty⟩
  · exact ⟨hcha own (fun he => hown (mem_of_mem_tail he)) ho.chain,hfew own ho.first,ho.head,ho.tail,ho.cut⟩

theorem enqueueStep_inv {s' : ThreadSafeMultiQueue ι α} (h : Inv s own transit shared)
    (hs : enqueueStep s i = some s') : ∃ shared', Inv s' own transit shared' := by
  cases hi : s.enqueuer i with
  | idle => simp [enqueueStep,hi] at hs
  | clear e =>
    obtain rfl : setEnqueuer { s with next := update s.next e none } i (.load e)=s' := by
      simpa [enqueueStep,hi] using hs
    refine ⟨shared,before_inv h (by simp [hi,element]) (by simp [hi]) rfl (by simp)
      (fun x hx => update_of_ne hx _ _) (.inl (by simp)) fun x hx => ?_⟩
    obtain rfl : e=x := by simpa using hx
    simp
  | load e =>
    obtain rfl : setEnqueuer s i (.swap e s.tail)=s' := by simpa [enqueueStep,hi] using hs
    refine ⟨shared,before_inv h (by simp [hi,element]) (by simp [hi]) rfl (by simp)
      (fun _ _ => rfl) (.inr rfl) fun x hx => ?_⟩
    obtain rfl : e=x := by simpa using hx
    exact h.threads.cleared i e (.inl hi)
  | swap e t =>
    have hnn := h.threads.cleared i e (.inr ⟨t,hi⟩)
    by_cases ht : s.tail=t
    · subst ht
      obtain rfl : setEnqueuer { s with tail := some e, log := s.log ++ [⟨i,e,false⟩] } i
          (.link e s.tail)=s' := by simpa [enqueueStep,hi] using hs
      exact ⟨shared ++ [e],swap_inv h hi⟩
    · obtain rfl : setEnqueuer s i (.swap e s.tail)=s' := by simpa [enqueueStep,hi,ht] using hs
      refine ⟨shared,before_inv h (by simp [hi,element]) (by simp [hi]) rfl (by simp)
        (fun _ _ => rfl) (.inr rfl) fun x hx => ?_⟩
      obtain rfl : e=x := by simpa using hx
      exact hnn
  | link e t =>
    cases t with
    | none =>
      obtain rfl : setEnqueuer { s with head := some e } i .idle=s' := by simpa [enqueueStep,hi] using hs
      exact ⟨shared,link_head_inv h hi⟩
    | some t =>
      obtain rfl : setEnqueuer { s with next := update s.next t (some e) } i .idle=s' := by
        simpa [enqueueStep,hi] using hs
      exact ⟨shared,link_inv h hi⟩

end Link

end PAMI.ThreadSafeMultiQueue

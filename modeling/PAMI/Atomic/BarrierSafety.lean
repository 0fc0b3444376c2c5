import PAMI.Atomic.CounterBarrier

namespace PAMI.Atomic.CounterBarrier

open PAMI.Math Function Finset Option

variable {ι : Type*} [Fintype ι] {master : ι} {s : CounterBarrier ι}

namespace Inv

variable {r : ℕ} {i : ι} {phase : ℕ} {q : Participant}

variable [DecidableEq ι] {s' : CounterBarrier ι}

section

variable (h : Inv master r s)
include h

theorem move (hpart : s'.part = update s.part i q)
    (hcon : s'.control = if (s'.part master).pc.Flipped then (r+1)%2 else r%2)
    (hlock : s'.lock (r%2)+incs r (s.part i) = s.lock (r%2)+incs r q)
    (hoth : s'.lock ((r+1)%2) = 0)
    (hrea : ∀ k, s'.reached k = if k < r then 1 else if k=r ∧ s'.lock (r%2) = 2*Fintype.card ι then 1 else 0)
    (hpos : Position (i=master) r q) (hcom : i=master → q.completed=r)
    (hbeg : (s.part i).begun=r+1 → q.begun=r+1) (hincs : incs r (s.part i) = 2 → incs r q = 2)
    (hpas : q.begun=r+1 → q.pc.Passed → ∀ j, (s.part j).begun=r+1)
    (hrel : q.begun=r+1 → q.pc.Released → ∀ j, incs r (s.part j) = 2) : Inv master r s' where
  completed := by
    rw [hpart]
    by_cases hm : i=master
    · rw [← hm,update_self]
      exact hcom hm
    · rw [update_of_ne (Ne.symm hm)]
      exact h.completed
  control := hcon
  position j := by
    rw [hpart]
    by_cases hj : j=i
    · rw [hj,update_self]
      exact hpos
    · rw [update_of_ne hj]
      exact h.position j
  lock := by
    have hsum := sum_incs_update (r := r) s.part i q
    rw [← h.lock] at hsum
    rw [hpart]
    omega
  other := hoth
  begun j hj hp := by
    have hall : ∀ k, (s.part k).begun=r+1 := by
      rw [hpart] at hj hp
      by_cases hji : j=i
      · rw [hji,update_self] at hj hp
        exact hpas hj hp
      · rw [update_of_ne hji] at hj hp
        exact h.begun j hj hp
    intro k
    rw [hpart]
    by_cases hk : k=i
    · rw [hk,update_self]
      exact hbeg (hall i)
    · rw [update_of_ne hk]
      exact hall k
  arrived j hj hp := by
    have hall : ∀ k, incs r (s.part k)=2 := by
      rw [hpart] at hj hp
      by_cases hji : j=i
      · rw [hji,update_self] at hj hp
        exact hrel hj hp
      · rw [update_of_ne hji] at hj hp
        exact h.arrived j hj hp
    intro k
    rw [hpart]
    by_cases hk : k=i
    · rw [hk,update_self]
      exact hincs (hall i)
    · rw [update_of_ne hk]
      exact hall k
  reached := hrea

theorem setPart (hpos : Position (i=master) r q) (hbeg : q.begun=(s.part i).begun)
    (hincs : incs r q = incs r (s.part i)) (hcom : i=master → q.completed=r)
    (hfli : i=master → (q.pc.Flipped ↔ (s.part i).pc.Flipped))
    (hpas : q.begun=r+1 → q.pc.Passed → ∀ j, (s.part j).begun=r+1)
    (hrel : q.begun=r+1 → q.pc.Released → ∀ j, incs r (s.part j) = 2) :
    Inv master r (s.setPart i q) := by
  apply h.move (q := q) (i := i)
  · rfl
  · have hsm : ((s.setPart i q).part master).pc.Flipped ↔ (s.part master).pc.Flipped := by
      change (update s.part i q master).pc.Flipped ↔ _
      by_cases hm : i=master
      · rw [← hm,update_self]
        exact hfli hm
      · rw [update_of_ne (Ne.symm hm)]
    rw [if_congr hsm rfl rfl]
    exact h.control
  · rw [hincs]
    rfl
  · exact h.other
  · exact h.reached
  · exact hpos
  · exact hcom
  · exact fun hb => hbeg.trans hb
  · exact fun hi => hincs.trans hi
  · exact hpas
  · exact hrel

theorem fetchAndInc (hpos : Position (i=master) r q) (hi : incs r (s.part i) < 2)
    (hincs : incs r q = incs r (s.part i)+1) (hcom : i=master → q.completed=r)
    (hfli : ¬ q.pc.Flipped) (hbeg : q.begun=r+1)
    (hpas : q.pc.Passed → ∀ j, (s.part j).begun=r+1) (hrel : ¬ q.pc.Released) :
    Inv master r ((s.fetchAndInc (r%2) r).setPart i q) := by
  obtain ⟨hn,hc⟩ := h.control_of_incs hi
  apply h.move (q := q) (i := i)
  · rfl
  · have hsm : ¬ (((s.fetchAndInc (r%2) r).setPart i q).part master).pc.Flipped := by
      change ¬ (update s.part i q master).pc.Flipped
      by_cases hm : i=master
      · rwa [← hm,update_self]
      · rwa [update_of_ne (Ne.symm hm)]
    rw [if_neg hsm]
    exact hc
  · change update s.lock (r%2) (s.lock (r%2)+1) (r%2)+_ = _
    rw [update_self]
    omega
  · change update s.lock (r%2) (s.lock (r%2)+1) ((r+1)%2)=0
    rw [update_of_ne (by omega)]
    exact h.other
  · intro k
    change update s.reached r (s.reached r+if s.lock (r%2)+1 = 2*Fintype.card ι then 1 else 0) k =
      if k < r then 1 else if k=r ∧
        update s.lock (r%2) (s.lock (r%2)+1) (r%2) = 2*Fintype.card ι then 1 else 0
    rw [update_self]
    by_cases hk : k=r
    · rw [hk,update_self,h.reached_of_incs hi,if_neg (lt_irrefl r),zero_add]
      exact if_congr (by simp) rfl rfl
    · rw [update_of_ne hk,h.reached]
      simp only [hk,false_and]
  · exact hpos
  · exact hcom
  · exact fun _ => hbeg
  · intro h2
    omega
  · exact fun _ => hpas
  · exact fun _ hr => absurd hr hrel

theorem idle (hpc : (s.part i).pc = .idle) :
    Inv master r (s.setPart i { s.part i with pc := .entering s.control }) := by
  cases hp : h.position i with
  | late _ hl => simp [hpc] at hl
  | inside hin => exact absurd hin (by rw [hpc]; exact id)
  | before _ hb hc =>
    have hi : incs r (s.part i)=0 := by
      rw [incs,hpc]
      exact ite_self 0
    have hcon := h.control_of_incs (i := i) (by omega)
    rw [hcon.2]
    apply h.setPart
    · exact .before (.inr rfl) hb hc
    · rfl
    · rw [hi]
      exact ite_self 0
    · exact fun _ => hc
    · intro _
      rw [hpc]
      exact Iff.rfl
    · exact fun _ hq => absurd hq id
    · exact fun _ hq => absurd hq id

theorem entering (hpc : (s.part i).pc = .entering phase) :
    Inv master r ((s.fetchAndInc phase (s.part i).begun).setPart i
      { s.part i with pc := .polling, data := phase, active := true, begun := (s.part i).begun+1 }) := by
  cases hp : h.position i with
  | late _ hl => simp [hpc] at hl
  | inside hin => exact absurd hin (by rw [hpc]; exact id)
  | before hph hb hc =>
    have hpha : phase=r%2 := by
      rw [hpc] at hph
      simpa using hph
    have hi : incs r (s.part i)=0 := by
      rw [incs,hpc]
      exact ite_self 0
    rw [hb,hpha]
    apply h.fetchAndInc
    · exact .inside trivial rfl rfl rfl hc
    · omega
    · rw [hi]
      exact if_pos rfl
    · exact fun _ => hc
    · exact id
    · rfl
    · exact fun hq => absurd hq id
    · exact id

theorem polling (hpc : (s.part i).pc = .polling) (hl : ¬ s.lock (s.part i).data < Fintype.card ι) :
    Inv master r (s.setPart i { s.part i with pc := .arriving }) := by
  cases hp : h.position i with
  | late _ hl | before hl => simp [hpc] at hl
  | inside _ hda hact hb hc =>
    rw [hda] at hl
    apply h.setPart
    · exact .inside trivial hda hact hb hc
    · rfl
    · rw [incs_eq hb,hpc]
      exact if_pos hb
    · exact fun _ => hc
    · intro _
      rw [hpc]
      exact Iff.rfl
    · exact fun _ _ => h.all_begun (not_lt.mp hl)
    · exact fun _ hq => absurd hq id

theorem arriving (hpc : (s.part i).pc = .arriving) :
    Inv master r ((s.fetchAndInc (s.part i).data ((s.part i).begun-1)).setPart i
      { s.part i with pc := .spinning }) := by
  cases hp : h.position i with
  | late _ hl | before hl => simp [hpc] at hl
  | inside _ hda hact hb hc =>
    have hi : incs r (s.part i)=1 := by
      rw [incs_eq hb,hpc]
      rfl
    rw [hda,hb,Nat.add_sub_cancel]
    apply h.fetchAndInc
    · exact .inside trivial hda hact hb hc
    · omega
    · rw [hi]
      exact if_pos hb
    · exact fun _ => hc
    · exact id
    · exact hb
    · intro _
      apply h.begun i hb
      rw [hpc]
      trivial
    · exact id

theorem spinning (hpc : (s.part i).pc = .spinning)
    (hl : ¬ (0 < s.lock (s.part i).data ∧ s.lock (s.part i).data < 2*Fintype.card ι)) :
    Inv master r (s.setPart i { s.part i with pc := if i=master then .flipping else .leaving }) := by
  cases hp : h.position i with
  | before hl => simp [hpc] at hl
  | late hm _ hda hact hb hc =>
    rw [if_neg hm]
    apply h.setPart
    · exact .late hm (.inr rfl) hda hact hb hc
    · rfl
    · rw [incs,incs,hb,if_neg (by omega),if_neg (by omega)]
    · exact fun hi => absurd hi hm
    · exact fun hi => absurd hi hm
    · intro hq
      change (s.part i).begun=r+1 at hq
      omega
    · intro hq
      change (s.part i).begun=r+1 at hq
      omega
  | inside _ hda hact hb hc =>
    have hi : incs r (s.part i)=2 := by
      rw [incs_eq hb,hpc]
      rfl
    have hpos := h.lock_pos (i := i) (by omega)
    rw [hda] at hl
    have hall := h.all_arrived (by omega)
    apply h.setPart
    · refine .inside ?_ hda hact hb hc
      change (if i=master then Pc.flipping else Pc.leaving).Inside (i=master)
      split
      · assumption
      · assumption
    · rfl
    · rw [hi,incs,if_pos (by exact hb)]
      change (if i=master then Pc.flipping else Pc.leaving).incs=2
      split
      · rfl
      · rfl
    · exact fun _ => hc
    · intro hm
      change (if i=master then Pc.flipping else Pc.leaving).Flipped ↔ _
      rw [if_pos hm,hpc]
      exact Iff.rfl
    · exact fun _ _ j => begun_of_incs (by rw [hall j]; exact Nat.zero_lt_two)
    · exact fun _ _ => hall

theorem flipping (hpc : (s.part i).pc = .flipping) : i=master ∧ Inv master r ({ s with control :=
      if (s.part i).data≠0 then s.control-1 else s.control+1 }.setPart i
        { s.part i with pc := .clearingStat }) := by
  cases hp : h.position i with
  | late _ hl | before hl => simp [hpc] at hl
  | inside hm hda hact hb hc =>
    rw [hpc] at hm
    have hm : i=master := hm
    have hc0 : s.control=r%2 := by
      rw [h.control,← hm,hpc]
      exact if_neg id
    have hi : incs r (s.part i) = incs r { s.part i with pc := .clearingStat } := by
      rw [incs_eq hb,hpc]
      exact (if_pos hb).symm
    refine ⟨hm,?_⟩
    apply h.move (q := { s.part i with pc := .clearingStat }) (i := i)
    · rfl
    · have hf : (update s.part i { s.part i with pc := .clearingStat } master).pc.Flipped := by
        rw [← hm,update_self]
        trivial
      change (if (s.part i).data≠0 then s.control-1 else s.control+1) =
        if (update s.part i { s.part i with pc := .clearingStat } master).pc.Flipped then _ else _
      rw [if_pos hf,hda,hc0]
      split
      · omega
      · omega
    · rw [hi]
      rfl
    · exact h.other
    · exact h.reached
    · exact .inside hm hda hact hb hc
    · exact fun _ => hc
    · exact id
    · exact fun h2 => hi ▸ h2
    · intro _ _
      apply h.begun i hb
      rw [hpc]
      trivial
    · intro _ _
      apply h.arrived i hb
      rw [hpc]
      trivial

theorem clearingStat (hpc : (s.part i).pc = .clearingStat) :
    Inv master r ({ s with stat := update s.stat (s.part i).data 0 }.setPart i
      { s.part i with pc := .clearingLock }) := by
  have hs : Inv master r { s with stat := update s.stat (s.part i).data 0 } :=
    ⟨h.completed,h.control,h.position,h.lock,h.other,h.begun,h.arrived,h.reached⟩
  cases hp : h.position i with
  | late _ hl | before hl => simp [hpc] at hl
  | inside hm hda hact hb hc =>
    rw [hpc] at hm
    apply hs.setPart
    · exact .inside hm hda hact hb hc
    · rfl
    · change incs r { s.part i with pc := .clearingLock } = incs r (s.part i)
      rw [incs_eq hb,hpc]
      exact if_pos hb
    · exact fun _ => hc
    · intro _
      change Pc.Flipped .clearingLock ↔ (s.part i).pc.Flipped
      rw [hpc]
      exact Iff.rfl
    · intro _ _
      apply h.begun i hb
      rw [hpc]
      trivial
    · intro _ _
      apply h.arrived i hb
      rw [hpc]
      trivial

theorem clearingLock (hpc : (s.part i).pc = .clearingLock) : i=master ∧ Inv master (r+1)
      ({ s with lock := update s.lock (s.part i).data 0 }.complete i (s.part i)) := by
  cases hp : h.position i with
  | late _ hl | before hl => simp [hpc] at hl
  | inside hm hda hact hb hc =>
    rw [hpc] at hm
    have hm : i=master := hm
    have hall : ∀ j, incs r (s.part j)=2 := by
      apply h.arrived i hb
      rw [hpc]
      trivial
    have hoth : r%2≠(r+1)%2 := by omega
    have hmod : (r+1+1)%2=r%2 := by omega
    set q : Participant := { s.part i with pc := .idle, active := false, completed := (s.part i).completed+1 }
      with hq
    have hpart : ∀ j, (update s.part i q j).begun=r+1 := by
      intro j
      by_cases hj : j=i
      · rw [hj,update_self]
        exact hb
      · rw [update_of_ne hj]
        exact begun_of_incs (by rw [hall j]; exact Nat.zero_lt_two)
    refine ⟨hm,?_⟩
    constructor
    · change (update s.part i q master).completed=r+1
      rw [← hm,update_self,hq]
      exact congrArg (· + 1) hc
    · have hn : ¬ (update s.part i q master).pc.Flipped := by
        rw [← hm,update_self]
        exact id
      have hf : (s.part master).pc.Flipped := by
        rw [← hm,hpc]
        trivial
      change s.control = if (update s.part i q master).pc.Flipped then _ else _
      rw [if_neg hn,h.control,if_pos hf]
    · intro j
      change Position (j=master) (r+1) (update s.part i q j)
      by_cases hj : j=i
      · rw [hj,update_self]
        exact .before (.inl rfl) hb (congrArg (· + 1) hc)
      · rw [update_of_ne hj]
        exact h.late hall (hm ▸ hj)
    · change update s.lock (s.part i).data 0 ((r+1)%2) = ∑ j, incs (r+1) (update s.part i q j)
      rw [hda,update_of_ne hoth.symm,h.other]
      apply Eq.symm
      apply sum_eq_zero
      intro j _
      rw [incs,hpart j,if_neg (by omega)]
    · change update s.lock (s.part i).data 0 ((r+1+1)%2)=0
      rw [hmod,hda,update_self]
    · intro j hj
      have := hj.symm.trans (hpart j)
      omega
    · intro j hj
      have := hj.symm.trans (hpart j)
      omega
    · intro k
      change s.reached k = if k < r+1 then 1 else if k=r+1 ∧
        update s.lock (s.part i).data 0 ((r+1)%2) = 2*Fintype.card ι then 1 else 0
      have hcard := card_pos master
      have hlock : s.lock (r%2) = 2*Fintype.card ι := by
        rw [h.lock,sum_congr rfl fun j _ => hall j,sum_const,card_univ,smul_eq_mul,Nat.mul_comm]
      rw [hda,update_of_ne hoth.symm,h.other,h.reached,hlock,
        if_neg (c := k=r+1 ∧ 0=2*Fintype.card ι) (by omega)]
      split
      · rw [if_pos (by omega)]
      · by_cases hk : k=r
        · rw [if_pos ⟨hk,rfl⟩,if_pos (by omega)]
        · rw [if_neg (fun hk' => hk hk'.1),if_neg (by omega)]

theorem leaving (hpc : (s.part i).pc = .leaving) (hl : s.lock (s.part i).data = 0) :
    i≠master ∧ Inv master r (s.complete i (s.part i)) := by
  cases hp : h.position i with
  | before hl => simp [hpc] at hl
  | inside _ hda hact hb hc =>
    have hi : incs r (s.part i)=2 := by
      rw [incs_eq hb,hpc]
      rfl
    have := h.lock_pos (i := i) (by omega)
    rw [hda] at hl
    omega
  | late hm _ hda hact hb hc =>
    refine ⟨hm,?_⟩
    apply h.setPart
    · exact .before (.inl rfl) hb hc
    · rfl
    · rw [incs,incs,hb,if_neg (by omega),if_neg (by omega)]
    · exact fun hi => absurd hi hm
    · exact fun hi => absurd hi hm
    · exact fun _ hq => absurd hq id
    · exact fun _ hq => absurd hq id

theorem step (hs : step master s i = some s') : ∃ r', Inv master r' s' := by
  unfold CounterBarrier.step at hs
  cases hpc : (s.part i).pc <;> simp only [hpc] at hs
  case idle =>
    obtain rfl := some.inj hs
    exact ⟨r,h.idle hpc⟩
  case entering phase =>
    obtain rfl := some.inj hs
    exact ⟨r,h.entering hpc⟩
  case polling =>
    split at hs
    · obtain rfl := some.inj hs
      exact ⟨r,h⟩
    · rename_i hl
      obtain rfl := some.inj hs
      exact ⟨r,h.polling hpc hl⟩
  case arriving =>
    obtain rfl := some.inj hs
    exact ⟨r,h.arriving hpc⟩
  case spinning =>
    split at hs
    · obtain rfl := some.inj hs
      exact ⟨r,h⟩
    · rename_i hl
      obtain rfl := some.inj hs
      exact ⟨r,h.spinning hpc hl⟩
  case flipping =>
    obtain rfl := some.inj hs
    exact ⟨r,(h.flipping hpc).2⟩
  case clearingStat =>
    obtain rfl := some.inj hs
    exact ⟨r,h.clearingStat hpc⟩
  case clearingLock =>
    obtain rfl := some.inj hs
    exact ⟨r+1,(h.clearingLock hpc).2⟩
  case leaving =>
    split at hs
    · obtain rfl := some.inj hs
      exact ⟨r,h⟩
    · rename_i hl
      obtain rfl := some.inj hs
      exact ⟨r,(h.leaving hpc (Nat.eq_zero_of_not_pos hl)).2⟩

end

end Inv

variable [DecidableEq ι]

/-- In all runs of any number of participants: who completes a barrier does so after all have begun it, `begin` takes
the phase of its round, the lock reaches its last value once a round, and some participant can always go on. -/
theorem barrier_safe (master : ι) (h : Run (step master) (fun _ _ => True) new s) :
    (∀ i j, (s.part i).completed ≤ (s.part j).begun) ∧
      (∀ i phase, (s.part i).pc = .entering phase → phase = (s.part i).begun % 2) ∧
      (∀ k, s.reached k ≤ 1 ∧ ∀ i, k < (s.part i).completed → s.reached k = 1) ∧ ¬ ∀ i, Waiting s i := by
  obtain ⟨r,hr⟩ : ∃ r, Inv master r s := by
    apply h.invariant (P := fun s => ∃ r, Inv master r s)
    · exact ⟨0,new_inv master⟩
    · intro s i s' ⟨r,hs⟩ _ he
      exact hs.step he
  refine ⟨?_,?_,?_,hr.not_all_waiting⟩
  · intro i j
    exact (hr.completed_le i).trans (hr.begun_le j).1
  · intro i phase hpc
    exact hr.phase_eq hpc
  · intro k
    refine ⟨hr.reached_le k,?_⟩
    intro i hk
    rw [hr.reached,if_pos (hk.trans_le (hr.completed_le i))]

/-- Two participants meet, and the master leaves first. -/
def meeting {κ : Type} (a b : κ) : List κ := [a, a, b, b, a, a, b, b, a, a, a, a, a]

theorem barrier_safe_meeting : ∃ s : CounterBarrier Bool,
    Run (step true) (fun _ _ => True) new s ∧ (s.part true).completed = 1 ∧
      (s.part true).completed ≤ (s.part false).begun := by
  have hs : (execEvents (step true) (meeting true false) (new : CounterBarrier Bool)).map
      (fun s => (s.part true).completed) = some 1 := by decide
  obtain ⟨s,hs,hc⟩ := Option.map_eq_some_iff.mp hs
  have hrun : Run (step true) (fun _ _ => True) new s := Run.refl.execEvents _ (fun _ _ _ => trivial) hs
  exact ⟨s,hrun,hc,(barrier_safe true hrun).1 true false⟩

/-- In all runs the participants stay together: each begins and completes at most one barrier less than the others, the
lock of the next round is clear, and that of this round holds at most two increments of each participant. -/
theorem rounds_together (master : ι) (h : Run (step master) (fun _ _ => True) new s) (i j : ι) :
    (s.part i).begun ≤ (s.part j).begun + 1 ∧ (s.part i).completed ≤ (s.part j).completed + 1 ∧
      s.lock (((s.part master).completed + 1)%2) = 0 ∧
      s.lock ((s.part master).completed%2) ≤ 2*Fintype.card ι ∧ s.control ≤ 1 := by
  obtain ⟨r,hr⟩ : ∃ r, Inv master r s := by
    apply h.invariant (P := fun s => ∃ r, Inv master r s)
    · exact ⟨0,new_inv master⟩
    · intro s i s' ⟨r,hs⟩ _ he
      exact hs.step he
  have hbi := hr.begun_le i
  have hbj := hr.begun_le j
  have hci := hr.completed_le i
  have hcj : r≤(s.part j).completed + 1 := by
    cases hr.position j with
    | late _ _ _ _ _ hc | before _ _ hc | inside _ _ _ _ hc => omega
  rw [hr.completed]
  refine ⟨by omega,by omega,hr.other,?_,?_⟩
  · rw [hr.lock,mul_comm]
    exact sum_le_card_nsmul _ _ _ fun k _ => incs_le (s.part k)
  · rw [hr.control]
    split <;> omega

theorem rounds_together_meeting : ∃ s : CounterBarrier Bool, (s.part true).completed = 1 ∧
    (s.part true).completed ≤ (s.part false).completed + 1 := by
  have hs : (execEvents (step true) (meeting true false) (new : CounterBarrier Bool))=some _ := rfl
  have hrun : Run (step true) (fun _ _ => True) new _ := Run.refl.execEvents _ (fun _ _ _ => trivial) hs
  exact ⟨_,rfl,(rounds_together true hrun true false).2.1⟩

end PAMI.Atomic.CounterBarrier

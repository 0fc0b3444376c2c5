import Mathlib.Algebra.Order.BigOperators.Group.Finset
import Mathlib.Data.Finset.Max
import PAMI.Math.Runs

namespace PAMI.Math

open Function List Option

section PhasedNetwork

variable {ι M : Type*} [DecidableEq ι]

/-- Parties with phases of their own. In a phase a party sends its value to some and then takes in
what some have sent; a message of phase `p` is for phase `phaseOf e p` of its receiver `e`. -/
structure PhasedProgram (ι M : Type*) where
  parties : Finset ι
  first : ι → ℤ
  finish : ι → ℤ
  src : ι → ℤ → List ι
  dst : ι → ℤ → List ι
  phaseOf : ι → ℤ → ℤ
  combine : ι → ℤ → M → List M → M

structure Packet (ι M : Type*) where
  src : ι
  dst : ι
  phase : ℤ
  value : M

structure NetState (ι M : Type*) where
  phase : ι → ℤ
  sent : ι → Bool
  value : ι → M
  packets : List (Packet ι M)

inductive NetEvent (ι : Type*)
  | send (e : ι)
  | receive (e : ι)

namespace PhasedProgram

variable (P : PhasedProgram ι M)

def start (v : ι → M) : NetState ι M := ⟨P.first, fun _ => false, v, []⟩

/-- What a source has sent for the current phase of a party. -/
def arrived (s : NetState ι M) (e a : ι) : Option (Packet ι M) := s.packets.find? fun m =>
    decide (m.src = a ∧ m.dst = e ∧ P.phaseOf e m.phase = s.phase e)

/-- A party sends its value, or takes in the messages of its phase once all are there. -/
def step (s : NetState ι M) : NetEvent ι → Option (NetState ι M)
  | .send e =>
    if e ∈ P.parties ∧ s.phase e < P.finish e ∧ s.sent e = false then
      some { s with
        sent := update s.sent e true
        packets := s.packets ++
          (P.dst e (s.phase e)).map fun b => ⟨e, b, s.phase e, s.value e⟩ }
    else none
  | .receive e =>
    if e ∈ P.parties ∧ s.phase e < P.finish e ∧ s.sent e = true ∧
        ∀ a ∈ P.src e (s.phase e), (P.arrived s e a).isSome then
      some { s with
        phase := update s.phase e (s.phase e + 1)
        sent := update s.sent e false
        value := update s.value e (P.combine e (s.phase e) (s.value e)
          ((P.src e (s.phase e)).filterMap fun a => (P.arrived s e a).map Packet.value)) }
    else none

def IsPhase (e : ι) (p : ℤ) : Prop := P.first e ≤ p ∧ p < P.finish e

def Feeds (a : ι) (p : ℤ) (b : ι) (q : ℤ) : Prop := a ∈ P.parties ∧ P.IsPhase a p ∧ b ∈ P.dst a p ∧ P.phaseOf b p = q

/-- `held e p` is what a party holds before its phase `p`, whoever of its feeders comes first. -/
structure Holds (v : ι → M) (held : ι → ℤ → M) : Prop where
  first_le : ∀ e ∈ P.parties, P.first e ≤ P.finish e
  start : ∀ e ∈ P.parties, held e (P.first e) = v e
  combine : ∀ e ∈ P.parties, ∀ q, P.IsPhase e q → ∀ values,
    List.Forall₂ (fun a x => ∃ p, P.Feeds a p e q ∧ x = held a p) (P.src e q) values →
      P.combine e q (held e q) values = held e (q + 1)

/-- The parties hold what they should, and all that was sent is there. -/
structure Inv (held : ι → ℤ → M) (s : NetState ι M) : Prop where
  phase : ∀ e ∈ P.parties, P.first e ≤ s.phase e ∧ s.phase e ≤ P.finish e
  value : ∀ e ∈ P.parties, s.value e = held e (s.phase e)
  packet : ∀ m ∈ s.packets, P.Feeds m.src m.phase m.dst (P.phaseOf m.dst m.phase) ∧ m.value = held m.src m.phase
  kept : ∀ e ∈ P.parties, ∀ p, P.first e ≤ p → p < s.phase e ∨ (p = s.phase e ∧ s.sent e = true) → ∀ b ∈ P.dst e p,
      ∃ m ∈ s.packets, m.src = e ∧ m.dst = b ∧ m.phase = p

variable {P} {v : ι → M} {held : ι → ℤ → M} {s s' : NetState ι M} {clock : ι → ℤ → ℤ}
  {m : Packet ι M} {e : ι}

theorem arrived_some {a : ι} (h : P.arrived s e a = some m) :
    m ∈ s.packets ∧ m.src=a ∧ m.dst=e ∧ P.phaseOf e m.phase = s.phase e := by
  have hfind := List.find?_some h
  exact ⟨List.mem_of_find?_eq_some h,of_decide_eq_true hfind⟩

theorem arrived_isSome {a : ι} (h : m ∈ s.packets) (hsrc : m.src=a) (hdst : m.dst=e)
    (hpha : P.phaseOf e m.phase = s.phase e) : (P.arrived s e a).isSome :=
  List.find?_isSome.mpr ⟨m,h,decide_eq_true ⟨hsrc,hdst,hpha⟩⟩

omit [DecidableEq ι] in
theorem Holds.inv_start (h : P.Holds v held) : P.Inv held (P.start v) where
  phase e he := ⟨le_refl _,h.first_le e he⟩
  value e he := (h.start e he).symm
  packet m hm := absurd hm not_mem_nil
  kept e he p hp hlt := by
    rcases hlt with hlt | ⟨-,hsn⟩
    · exact absurd hp (not_le.mpr hlt)
    · cases hsn

theorem Inv.takesIn (h : P.Inv held s) {l : List ι} (hall : ∀ a ∈ l, (P.arrived s e a).isSome) :
    List.Forall₂ (fun a x => ∃ p, P.Feeds a p e (s.phase e) ∧ x = held a p) l
      (l.filterMap fun a => (P.arrived s e a).map Packet.value) := by
  induction l with
  | nil => exact .nil
  | cons a l ih =>
    obtain ⟨m,hm⟩ := Option.isSome_iff_exists.mp (hall a mem_cons_self)
    have hrs := ih fun b hb => hall b (mem_cons_of_mem _ hb)
    rw [filterMap_cons_some (by rw [hm,Option.map_some])]
    refine .cons ?_ hrs
    obtain ⟨hmem,rfl,rfl,hpha⟩ := arrived_some hm
    obtain ⟨hfee,hval⟩ := h.packet m hmem
    rw [hpha] at hfee
    exact ⟨m.phase,hfee,hval⟩

theorem Inv.send (h : P.Inv held s) (hs : P.step s (.send e) = some s') : P.Inv held s' := by
  simp only [step] at hs
  split_ifs at hs with hc
  obtain ⟨he,hlt,-⟩ := hc
  obtain rfl := some.inj hs
  refine ⟨h.phase,h.value,?_,?_⟩
  · intro m hm
    rcases mem_append.mp hm with hm | hm
    · exact h.packet m hm
    · obtain ⟨b,hb,rfl⟩ := mem_map.mp hm
      exact ⟨⟨he,⟨(h.phase e he).1,hlt⟩,hb,rfl⟩,h.value e he⟩
  · intro e' he' p hp hsn b hb
    by_cases hnew : e'=e ∧ p=s.phase e
    · obtain ⟨rfl,rfl⟩ := hnew
      exact ⟨_,mem_append_right _ (mem_map_of_mem hb),rfl,rfl,rfl⟩
    · have hold : p < s.phase e' ∨ (p=s.phase e' ∧ s.sent e'=true) := by
        refine hsn.imp_right fun hat => ⟨hat.1,?_⟩
        have hne : e'≠e := fun heq => hnew ⟨heq,heq ▸ hat.1⟩
        simpa [hne] using hat.2
      obtain ⟨m,hm,hm'⟩ := h.kept e' he' p hp hold b hb
      exact ⟨m,mem_append_left _ hm,hm'⟩

theorem Inv.receive (hX : P.Holds v held) (h : P.Inv held s) (hs : P.step s (.receive e) = some s') :
    P.Inv held s' := by
  simp only [step] at hs
  split_ifs at hs with hc
  obtain ⟨he,hlt,hsn,hall⟩ := hc
  obtain rfl := some.inj hs
  refine ⟨fun e' he' => ?_,fun e' he' => ?_,h.packet,fun e' he' p hp hsn' b hb => ?_⟩
  · have hpha := h.phase e' he'
    by_cases heq : e'=e
    · subst heq
      simp only [update_self]
      omega
    · simpa [heq] using hpha
  · by_cases heq : e'=e
    · subst heq
      simp only [update_self]
      rw [h.value e' he']
      exact hX.combine e' he' _ ⟨(h.phase e' he').1,hlt⟩ _ (h.takesIn hall)
    · simpa [heq] using h.value e' he'
  · refine h.kept e' he' p hp ?_ b hb
    by_cases heq : e'=e
    · subst heq
      simp only [update_self] at hsn'
      rcases hsn' with hlt' | ⟨-,hfal⟩
      · rcases (Int.lt_add_one_iff.mp hlt').eq_or_lt with heq | hlt''
        · exact .inr ⟨heq,hsn⟩
        · exact .inl hlt''
      · cases hfal
    · simpa [heq] using hsn'

theorem Holds.run {ok : NetState ι M → NetEvent ι → Prop} (h : P.Holds v held)
    (hrun : Run P.step ok (P.start v) s) : P.Inv held s := by
  refine hrun.invariant h.inv_start fun s e s' hs _ hsp => ?_
  cases e with
  | send e => exact hs.send hsp
  | receive e => exact hs.receive h hsp

structure Ordered (P : PhasedProgram ι M) (clock : ι → ℤ → ℤ) : Prop where
  mono : ∀ e ∈ P.parties, ∀ p p', p < p' → p' < P.finish e → clock e p < clock e p'
  feeds : ∀ e ∈ P.parties, ∀ q, P.IsPhase e q → ∀ a ∈ P.src e q,
    ∃ p, P.Feeds a p e q ∧ clock a p ≤ clock e q

def remaining (P : PhasedProgram ι M) (s : NetState ι M) : ℕ :=
  ∑ e ∈ P.parties, (2 * (P.finish e - s.phase e).toNat + if s.sent e then 0 else 1)

theorem remaining_lt {ev : NetEvent ι} (hs : P.step s ev = some s') :
    P.remaining s' < P.remaining s := by
  cases ev with
  | send e =>
    simp only [step] at hs
    split_ifs at hs with hc
    obtain ⟨he,-,hsn⟩ := hc
    obtain rfl := some.inj hs
    refine Finset.sum_lt_sum (fun e' _ => ?_) ⟨e,he,?_⟩
    · by_cases heq : e'=e <;> simp [heq]
    · simp [hsn]
  | receive e =>
    simp only [step] at hs
    split_ifs at hs with hc
    obtain ⟨he,hlt,hsn,-⟩ := hc
    obtain rfl := some.inj hs
    refine Finset.sum_lt_sum (fun e' _ => ?_) ⟨e,he,?_⟩
    · by_cases heq : e'=e
      · subst heq
        simp [hsn]
        omega
      · simp [heq]
    · simp [hsn]
      omega

theorem Ordered.progress (ho : P.Ordered clock) (h : P.Inv held s)
    (hunf : ∃ e ∈ P.parties, s.phase e < P.finish e) : ∃ ev s', P.step s ev = some s' := by
  have hne : (P.parties.filter fun e => s.phase e < P.finish e).Nonempty := by
    obtain ⟨e,he,hlt⟩ := hunf
    exact ⟨e,Finset.mem_filter.mpr ⟨he,hlt⟩⟩
  obtain ⟨e,he,hmin⟩ := Finset.exists_min_image _ (fun e => clock e (s.phase e)) hne
  obtain ⟨he,hlt⟩ := Finset.mem_filter.mp he
  by_cases hstu : s.sent e=true ∧ ∀ a ∈ P.src e (s.phase e), (P.arrived s e a).isSome
  · refine ⟨.receive e,?_⟩
    simp only [step]
    rw [if_pos ⟨he,hlt,hstu.1,hstu.2⟩]
    exact ⟨_,rfl⟩
  by_cases hsn : s.sent e=true
  · obtain ⟨a,ha,hmis⟩ : ∃ a ∈ P.src e (s.phase e), ¬ (P.arrived s e a).isSome := by simpa [hsn] using hstu
    obtain ⟨p,⟨haP,hpha,hdst,hof⟩,hclo⟩ := ho.feeds e he _ ⟨(h.phase e he).1,hlt⟩ a ha
    -- the earliest party waits for one that is as early, so that one has not sent yet
    have hnot : ¬ (p < s.phase a ∨ (p=s.phase a ∧ s.sent a=true)) := by
      intro hdn
      obtain ⟨m,hm,hsrc,hdst,hmp⟩ := h.kept a haP p hpha.1 hdn e hdst
      exact hmis (arrived_isSome hm hsrc hdst (by rw [hmp,hof]))
    rw [not_or,not_lt,not_and] at hnot
    obtain ⟨hge,huns⟩ := hnot
    rcases hge.eq_or_lt with heq | hlt'
    · refine ⟨.send a,?_⟩
      simp only [step]
      rw [if_pos ⟨haP,heq ▸ hpha.2,by simpa using huns heq.symm⟩]
      exact ⟨_,rfl⟩
    · have hear := ho.mono a haP _ _ hlt' hpha.2
      have hle := hmin a (Finset.mem_filter.mpr ⟨haP,hlt'.trans hpha.2⟩)
      omega
  · refine ⟨.send e,?_⟩
    simp only [step]
    rw [if_pos ⟨he,hlt,by simpa using hsn⟩]
    exact ⟨_,rfl⟩

theorem Ordered.completes (ho : P.Ordered clock) (hX : P.Holds v held)
    (hrun : Run P.step (fun _ _ => True) (P.start v) s) :
    ∃ s', Run P.step (fun _ _ => True) s s' ∧ ∀ e ∈ P.parties, s'.phase e = P.finish e := by
  induction hn : P.remaining s using Nat.strong_induction_on generalizing s with
  | _ n ih =>
    have hinv := hX.run hrun
    by_cases hdn : ∃ e ∈ P.parties, s.phase e < P.finish e
    · obtain ⟨ev,s1,hs1⟩ := ho.progress hinv hdn
      obtain ⟨s',hs',hfin⟩ := ih _ (hn ▸ remaining_lt hs1) (hrun.step trivial hs1) rfl
      exact ⟨s',(Run.refl.step trivial hs1).trans hs',hfin⟩
    · refine ⟨s,.refl,fun e he => le_antisymm (hinv.phase e he).2 ?_⟩
      exact not_lt.mp fun hlt => hdn ⟨e,he,hlt⟩

end PhasedProgram

end PhasedNetwork

end PAMI.Math

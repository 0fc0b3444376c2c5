import PAMI.Math.PhasedExchange

namespace PAMI.Math

open Function Option Nat

variable {ι α μ : Type*}

namespace PhasedState

def Came (E : ℕ → Prop) (s : PhasedState ι α μ) (a : ι) (n p : ℕ) : Prop := E p → (s.message a n p).incoming = true

/-- Messages of the phases with data are received after they have come in, which they do under a condition. -/
def arriving (d : PhasedState ι α μ → ι → ℕ → ℕ → Prop) (E : ℕ → Prop) : Network ι α μ := ⟨d, Came E⟩

def Held (T : PhaseTables ι) (E : ℕ → Prop) (s : PhasedState ι α μ) (r : ι) (n p : ℕ) : Prop :=
  E p ∧ (∃ a, T.source r n p = some a ∧ (s.message a n p).incoming = true) ∧ ¬ s.Passed r n p

structure Orderly (T : PhaseTables ι) (E : ℕ → Prop) (s : PhasedState ι α μ) : Prop
    extends Timely T s where
  received : ∀ a n p, (s.message a n p).complete = true → s.Came E a n p

structure Carried (T : PhaseTables ι) (E : ℕ → Prop) (M : ι → ℕ → ℕ → μ) (I : ι → ℕ → ℕ → (ℕ → ℕ → Prop) → α → Prop)
    (s : PhasedState ι α μ) : Prop where
  party : ∀ r, I r (s.exec r) (s.phase r) (s.Held T E r) (s.data r)
  message : ∀ a n p, ∀ x ∈ (s.message a n p).data, x = M a n p

/-- A party that does each of its steps right, when the messages it gets are right. -/
structure Carries (T : PhaseTables ι) (C : PhaseClient ι α μ)
    (d : PhasedState ι α μ → ι → ℕ → ℕ → Prop) (E : ℕ → Prop) (M : ι → ℕ → ℕ → μ)
    (I : ι → ℕ → ℕ → (ℕ → ℕ → Prop) → α → Prop) : Prop where
  reset : ∀ (s : PhasedState ι α μ) r, Orderly T E s → s.phase r = T.numphases r →
    I r (s.exec r) (s.phase r) (s.Held T E r) (s.data r) →
    I r (s.exec r + 1) 0 (s.Held T E r) (C.start r (s.exec r + 1) (s.data r))
  pass : ∀ (s : PhasedState ι α μ) r, Orderly T E s → s.phase r < T.numphases r →
    (∀ a, E (s.phase r) → T.source r (s.exec r) (s.phase r) = some a → s.Held T E r (s.exec r) (s.phase r)) →
    I r (s.exec r) (s.phase r) (s.Held T E r) (s.data r) →
    I r (s.exec r) (s.phase r + 1)
      (fun n p => s.Held T E r n p ∧ ¬ (n = s.exec r ∧ p = s.phase r))
      (C.postrcv r (s.exec r) (s.phase r) (s.data r))
  transmit : ∀ (s : PhasedState ι α μ) a b, Orderly T E s → s.begun a = true →
    T.dest a (s.exec a) (s.phase a) = some b → (s.message a (s.exec a) (s.phase a)).data = none →
    I a (s.exec a) (s.phase a) (s.Held T E a) (s.data a) →
    C.payload a (s.exec a) (s.phase a) (s.data a) = M a (s.exec a) (s.phase a)
  incoming : ∀ (s : PhasedState ι α μ) a b n p, Orderly T E s → d s a n p → E p → T.dest a n p = some b →
    (s.message a n p).data = some (M a n p) → ¬ s.Passed b n p → ¬ s.Held T E b n p →
    I b (s.exec b) (s.phase b) (s.Held T E b) (s.data b) →
    I b (s.exec b) (s.phase b) (fun n' p' => s.Held T E b n' p' ∨ (n' = n ∧ p' = p))
      (C.deliver b n p (M a n p) (s.data b))
  plain : ∀ b n p m x, ¬ E p → C.deliver b n p m x = x

variable {T : PhaseTables ι} {C : PhaseClient ι α μ}
  {d : PhasedState ι α μ → ι → ℕ → ℕ → Prop} {E : ℕ → Prop} {M : ι → ℕ → ℕ → μ}
  {I : ι → ℕ → ℕ → (ℕ → ℕ → Prop) → α → Prop} {s s' : PhasedState ι α μ} {a b r : ι} {n p : ℕ}

theorem Timely.at_phase (h : Timely T s) (hpst : (s.message a n p).posted=true)
    (hda : (s.message a n p).data=none) : n = s.exec a ∧ p = s.phase a ∧ s.begun a = true := by
  obtain ⟨hds,hbeg⟩ := (h.posted a n p).mp hpst
  obtain hpas | ⟨-,hn,hp,hb⟩ := hbeg
  · have hso := (h.ordered a n p).sent (h.sent a n p hpas hds)
    rw [hda] at hso
    contradiction
  · exact ⟨hn,hp,hb⟩

theorem Orderly.not_passed (h : Orderly T E s) (hE : E p) (hds : T.dest a n p = some b)
    (hinc : (s.message a n p).incoming=false) : ¬ s.Passed b n p := by
  intro hpas
  have hcm := h.received a n p (h.complete a b n p hpas ((T.matched a b n p).mp hds)) hE
  rw [hinc] at hcm
  contradiction

variable [DecidableEq ι] {m : PhaseMessage μ} {e : PhasedEvent ι}

theorem received_setMessage (h : ∀ a n p, (s.message a n p).complete=true → s.Came E a n p)
    (hm : m.complete=true → E p → m.incoming=true) (a' : ι) (n' p' : ℕ)
    (hcom : ((s.setMessage a n p m).message a' n' p').complete=true) :
    (s.setMessage a n p m).Came E a' n' p' := by
  intro hE
  rw [setMessage_message] at hcom ⊢
  simp only at hcom ⊢
  split at hcom
  case isTrue heq =>
    rw [if_pos heq]
    exact hm hcom (heq.2.2 ▸ hE)
  case isFalse hne =>
    rw [if_neg hne]
    exact h a' n' p' hcom hE

theorem Orderly.step (h : Orderly T E s) (hok : (arriving d E).Allows s e) (hs : s.step T C e = some s') :
    Orderly T E s' := by
  refine ⟨h.toTimely.step hs,?_⟩
  cases e with
  | reset r =>
    obtain ⟨-,rfl⟩ := ite_some_none_eq_some.mp hs
    exact h.received
  | begin r =>
    obtain ⟨-,rfl⟩ := ite_some_none_eq_some.mp hs
    split
    case isTrue => exact received_setMessage h.received (h.received r _ _)
    case isFalse => exact h.received
  | pass r =>
    obtain ⟨-,rfl⟩ := ite_some_none_eq_some.mp hs
    exact h.received
  | transmit a n p | sent a n p =>
    obtain ⟨-,rfl⟩ := ite_some_none_eq_some.mp hs
    exact received_setMessage h.received (h.received a n p)
  | incoming a n p =>
    obtain ⟨-,hs⟩ := ite_none_left_eq_some.mp hs
    obtain ⟨b,-,hs⟩ := bind_eq_some_iff.mp hs
    obtain ⟨x,-,rfl⟩ := map_eq_some_iff.mp hs
    exact received_setMessage h.received fun _ _ => rfl
  | complete a n p =>
    obtain ⟨-,rfl⟩ := ite_some_none_eq_some.mp hs
    exact received_setMessage h.received fun _ => hok

theorem setMessage_congr {γ : Type*} (g : PhaseMessage μ → γ) (hm : g m = g (s.message a n p)) (a' : ι) (n' p' : ℕ) :
    g ((s.setMessage a n p m).message a' n' p') = g (s.message a' n' p') := by
  rw [setMessage_message]
  simp only
  split
  case isTrue heq =>
    obtain ⟨rfl,rfl,rfl⟩ := heq
    exact hm
  case isFalse => rfl

omit [DecidableEq ι] in
theorem held_eq (hmes : ∀ a n p, (s'.message a n p).incoming=(s.message a n p).incoming)
    (hpas : ∀ n p, p < T.numphases r → (s'.Passed r n p ↔ s.Passed r n p)) :
    s'.Held T E r = s.Held T E r := by
  funext n p
  rw [Held,Held]
  simp only [hmes]
  refine propext (and_congr_right fun _ => and_congr_right ?_)
  rintro ⟨a,ha,-⟩
  exact not_congr (hpas n p (T.bounded a r n p ((T.matched a r n p).mpr ha)).2)

omit [DecidableEq ι] in
theorem Carried.same (h : Carried T E M I s) (hex : s'.exec=s.exec) (hpha : s'.phase=s.phase)
    (hda : s'.data=s.data)
    (hinc : ∀ a n p, (s'.message a n p).incoming=(s.message a n p).incoming)
    (hmes : ∀ a n p, ∀ x ∈ (s'.message a n p).data, x = M a n p) : Carried T E M I s' := by
  refine ⟨fun r => ?_,hmes⟩
  have hhl : s'.Held T E r = s.Held T E r := held_eq hinc fun n p _ => by rw [Passed,Passed,hex,hpha]
  rw [hex,hpha,hda,hhl]
  exact h.party r

theorem Carried.begin (h : Carried T E M I s) (hs : s.begin T r = some s') : Carried T E M I s' := by
  obtain ⟨-,rfl⟩ := ite_some_none_eq_some.mp hs
  split
  case isFalse => exact h.same rfl rfl rfl (fun _ _ _ => rfl) h.message
  case isTrue =>
    refine h.same rfl rfl rfl (setMessage_congr PhaseMessage.incoming rfl) fun a n p => ?_
    rw [setMessage_congr PhaseMessage.data (by rfl)]
    exact h.message a n p

section

variable (hc : Carries T C d E M I) (h : Carried T E M I s) (ho : Orderly T E s)
include hc h ho

theorem Carried.reset (hs : s.reset T C r = some s') : Carried T E M I s' := by
  have hhl : ∀ a, s'.Held T E a = s.Held T E a := by
    intro a
    refine held_eq (fun _ _ _ => ?_) fun n p hp => ho.passed_reset hs hp
    obtain ⟨-,rfl⟩ := ite_some_none_eq_some.mp hs
    rfl
  obtain ⟨hend,rfl⟩ := ite_some_none_eq_some.mp hs
  refine ⟨fun a => ?_,h.message⟩
  rw [hhl a]
  by_cases heq : a=r
  · subst heq
    simp only [setData,update_self]
    exact hc.reset s a ho (le_antisymm (ho.phase_le a) hend) (h.party a)
  · simp only [setData,update_of_ne heq]
    exact h.party a

omit hc h ho in
theorem held_pass (h : Timely T s) (hs : s.pass T C r = some s') (a : ι) (n p : ℕ) :
    s'.Held T E a n p ↔ s.Held T E a n p ∧ ¬ (a=r ∧ n = s.exec r ∧ p = s.phase r) := by
  have hmes : s'.message=s.message := by
    obtain ⟨-,rfl⟩ := ite_some_none_eq_some.mp hs
    rfl
  have hpos : 0 < s.exec r := by
    obtain ⟨⟨hlt,-⟩,-⟩ := ite_none_right_eq_some.mp hs
    apply Nat.pos_of_ne_zero
    intro hzr
    exact absurd (h.first r hzr) hlt.ne
  rw [Held,Held,hmes,passed_pass hs,not_or,and_assoc,and_assoc]
  refine and_congr_right fun _ => and_congr_right fun _ => and_congr_right fun _ => not_congr ?_
  constructor
  · rintro ⟨-,rfl,hn,hp⟩
    exact ⟨rfl,hn,hp⟩
  · rintro ⟨rfl,rfl,hp⟩
    exact ⟨hpos,rfl,rfl,hp⟩

theorem Carried.pass (hs : s.pass T C r = some s') : Carried T E M I s' := by
  have hhl := held_pass (E := E) ho.toTimely hs
  obtain ⟨⟨hlt,-,-,hcom⟩,rfl⟩ := ite_some_none_eq_some.mp hs
  refine ⟨fun a => ?_,h.message⟩
  rw [funext fun n => funext fun p => propext (hhl a n p)]
  by_cases heq : a=r
  · subst heq
    have hcm : ∀ b, E (s.phase a) → T.source a (s.exec a) (s.phase a) = some b →
        s.Held T E a (s.exec a) (s.phase a) := by
      intro b hE hb
      refine ⟨hE,⟨b,hb,ho.received b _ _ (hcom b hb) hE⟩,?_⟩
      rintro ⟨-,hn | ⟨-,hp⟩⟩
      · exact lt_irrefl _ hn
      · exact lt_irrefl _ hp
    simp only [setData,update_self,true_and]
    exact hc.pass s a ho hlt hcm (h.party a)
  · simp only [setData,update_of_ne heq,heq,false_and,not_false_eq_true,and_true]
    exact h.party a

theorem Carried.transmit (hs : s.transmit C a n p = some s') : Carried T E M I s' := by
  obtain ⟨⟨hpst,hnn⟩,rfl⟩ := ite_some_none_eq_some.mp hs
  have hnn := isNone_iff_eq_none.mp hnn
  obtain ⟨rfl,rfl,hbeg⟩ := ho.at_phase hpst hnn
  obtain ⟨b,hb⟩ := isSome_iff_exists.mp ((ho.posted _ _ _).mp hpst).1
  refine h.same rfl rfl rfl (setMessage_congr PhaseMessage.incoming rfl) fun a' n' p' x hx => ?_
  rw [setMessage_message] at hx
  simp only at hx
  split at hx
  case isTrue heq =>
    obtain ⟨rfl,rfl,rfl⟩ := heq
    obtain rfl := some.inj hx
    exact hc.transmit s _ b ho hbeg hb hnn (h.party _)
  case isFalse => exact h.message a' n' p' x hx

theorem Carried.incoming (hok : d s a n p) (hs : s.incoming T C a n p = some s') : Carried T E M I s' := by
  obtain ⟨hfre,hs⟩ := ite_none_left_eq_some.mp hs
  obtain ⟨b,hb,hs⟩ := bind_eq_some_iff.mp hs
  obtain ⟨x,hx,rfl⟩ := map_eq_some_iff.mp hs
  obtain rfl := h.message a n p x hx
  have hsou := (T.matched a b n p).mp hb
  have hhl : ∀ b' n' p', ((s.setMessage a n p { s.message a n p with incoming := true }).setData b
        (C.deliver b n p (M a n p) (s.data b))).Held T E b' n' p' ↔
      s.Held T E b' n' p' ∨ (E p ∧ b'=b ∧ n'=n ∧ p'=p) := by
    intro b' n' p'
    by_cases hkey : E p ∧ b'=b ∧ n'=n ∧ p'=p
    · obtain ⟨hE,rfl,rfl,rfl⟩ := hkey
      refine iff_of_true ⟨hE,⟨a,hsou,?_⟩,ho.not_passed hE hb (Bool.not_eq_true _ ▸ hfre)⟩
        (.inr ⟨hE,rfl,rfl,rfl⟩)
      exact congrArg PhaseMessage.incoming (if_pos ⟨rfl,rfl,rfl⟩)
    · refine Iff.trans (and_congr_right fun hE => and_congr_left fun _ => exists_congr fun a' =>
        and_congr_right fun ha' => ?_) (or_iff_left hkey).symm
      have hne : ¬ (a'=a ∧ n'=n ∧ p'=p) := by
        rintro ⟨rfl,rfl,rfl⟩
        have hsm := (T.matched a' b' n' p').mpr ha'
        exact hkey ⟨hE,some.inj (hsm.symm.trans hb),rfl,rfl⟩
      have hsm : ((s.setMessage a n p { s.message a n p with incoming := true }).message a' n' p') =
          s.message a' n' p' := if_neg hne
      exact Eq.congr_left (congrArg PhaseMessage.incoming hsm)
  refine ⟨fun b' => ?_,fun a' n' p' => ?_⟩
  · rw [funext fun n => funext fun p => propext (hhl b' n p)]
    by_cases heq : b'=b
    · subst heq
      by_cases hE : E p
      · simp only [setData,update_self,true_and,hE]
        refine hc.incoming s a b' n p ho hok hE hb hx (ho.not_passed hE hb (Bool.not_eq_true _ ▸ hfre)) ?_
          (h.party b')
        rintro ⟨-,⟨a',ha',hin⟩,-⟩
        obtain rfl := some.inj (hsou.symm.trans ha')
        exact hfre hin
      · simp only [setData,update_self,hE,false_and,or_false,hc.plain b' n p _ _ hE]
        exact h.party b'
    · simp only [setData,update_of_ne heq,heq,false_and,and_false,or_false]
      exact h.party b'
  · refine fun y hy => h.message a' n' p' y ?_
    rwa [← setMessage_congr PhaseMessage.data (m := { s.message a n p with incoming := true }) (by rfl) a' n' p']

theorem Carried.step (hok : (arriving d E).Allows s e) (hs : s.step T C e = some s') :
    Carried T E M I s' := by
  cases e with
  | reset r => exact h.reset hc ho hs
  | begin r => exact h.begin hs
  | pass r => exact h.pass hc ho hs
  | transmit a n p => exact h.transmit hc ho hs
  | sent a n p =>
    obtain ⟨-,rfl⟩ := ite_some_none_eq_some.mp hs
    refine h.same rfl rfl rfl (setMessage_congr PhaseMessage.incoming rfl) fun a n p => ?_
    rw [setMessage_congr PhaseMessage.data (by rfl)]
    exact h.message a n p
  | incoming a n p => exact h.incoming hc ho hok hs
  | complete a n p =>
    obtain ⟨-,rfl⟩ := ite_some_none_eq_some.mp hs
    refine h.same rfl rfl rfl (setMessage_congr PhaseMessage.incoming rfl) fun a n p => ?_
    rw [setMessage_congr PhaseMessage.data (by rfl)]
    exact h.message a n p

end

theorem carried_run (hc : Carries T C d E M I) {data : ι → α}
    (hda : ∀ r, I r 0 (T.numphases r) (fun _ _ => False) (data r))
    (h : Run (step T C) (arriving d E).Allows (init T data) s) : Orderly T E s ∧ Carried T E M I s := by
  refine h.invariant (P := fun s => Orderly T E s ∧ Carried T E M I s) ⟨⟨timely_init data,?_⟩,?_,?_⟩
    fun s e s' hs hok hsp => ⟨hs.1.step hok hsp,hs.2.step hc hs.1 hok hsp⟩
  · exact fun _ _ _ h => by contradiction
  · intro r
    have hhl : (init T data : PhasedState ι α μ).Held T E r = fun _ _ => False := by
      funext n p
      refine propext (iff_false_intro ?_)
      rintro ⟨-,⟨a,-,hin⟩,-⟩
      contradiction
    rw [hhl]
    exact hda r
  · exact fun _ _ _ _ h => by contradiction

end PhasedState

/-- To whom each party sends in a round, and from whom it receives. -/
structure RoundTables (ι : Type*) where
  rounds : ℕ
  dest : ι → ℕ → Option ι
  source : ι → ℕ → Option ι
  matched : ∀ a b j, dest a j = some b ↔ source b j = some a
  bounded : ∀ a b j, dest a j = some b → j < rounds

/-- Each round is a pair of phases: a permission to the source of the round, and the data. Before the first execution
there are only those of the permissions. -/
def RoundTables.permitted (R : RoundTables ι) : PhaseTables ι where
  numphases := fun _ => 2 * R.rounds
  dest := fun r n p =>
    if p % 2 = 0 then R.source r (p / 2) else if n = 0 then none else R.dest r (p / 2)
  source := fun r n p =>
    if p % 2 = 0 then R.dest r (p / 2) else if n = 0 then none else R.source r (p / 2)
  matched := by
    intro a b n p
    split
    case isTrue => exact (R.matched b a _).symm
    case isFalse =>
      split
      case isTrue => exact iff_of_false nofun nofun
      case isFalse => exact R.matched a b _
  bounded := by
    intro a b n p h
    have hrou : p / 2 < R.rounds := by
      split at h
      case isTrue => exact R.bounded b a _ ((R.matched b a _).mpr h)
      case isFalse =>
        obtain ⟨-, h⟩ := ite_none_left_eq_some.mp h
        exact R.bounded a b _ h
    omega

theorem half_odd (j : ℕ) : (2*j+1)/2=j := by omega

namespace RoundTables

variable {R : RoundTables ι} {a b r : ι} {n m p j : ℕ}

theorem dest_permission : R.permitted.dest a n (2*j) = R.source a j := by
  simp only [permitted,mul_mod_right,if_pos,Nat.mul_div_cancel_left j Nat.two_pos]

theorem dest_data (hn : 0<n) : R.permitted.dest a n (2*j+1) = R.dest a j := by
  simp only [permitted,half_odd]
  rw [if_neg (by omega),if_neg hn.ne']

theorem source_data (hn : 0<n) : R.permitted.source a n (2*j+1) = R.source a j := by
  simp only [permitted,half_odd]
  rw [if_neg (by omega),if_neg hn.ne']

variable {s : PhasedState ι α μ}

section

variable (ht : s.Timely R.permitted)
include ht

theorem begun (hbeg : s.Begun a n (2*j+1)) (hds : R.dest a j = some b) : s.Begun b n (2*j) := by
  have hper : R.permitted.dest b n (2*j) = some a := by
    rw [dest_permission]
    exact (R.matched a b j).mp hds
  exact ht.begun_source (hbeg.passed (lt_succ_self _)) ((R.permitted.matched b a n _).mp hper)

theorem passed (hbeg : s.Begun a (n+1) p) (hn : 0<n) (hds : R.permitted.dest a (n+1) p = some b) :
    s.Passed b n p := by
  obtain ⟨j,rfl | rfl⟩ : ∃ j, p=2*j ∨ p=2*j+1 := ⟨p/2,by omega⟩
  · -- A permission: the data that the one before was for has come in.
    rw [dest_permission] at hds
    have hsou : R.permitted.source a n (2*j+1) = some b := (source_data hn).trans hds
    have hpas : s.Passed a n (2*j+1) := hbeg.passed_earlier hn (lt_succ_self n)
    exact (ht.begun_source hpas hsou).passed (lt_succ_self _)
  · rw [dest_data (succ_pos n)] at hds
    exact (begun ht hbeg hds).passed_earlier hn (lt_succ_self n)

theorem round_of_begun (hsou : R.source r j = some a) (hbeg : s.Begun a n (2*j+1))
    (hpas : ¬ s.Passed r n (2*j+1)) : n = s.exec r ∧ j = s.phase r/2 := by
  have hbgn := begun ht hbeg ((R.matched a r j).mpr hsou)
  obtain rfl : n=s.exec r := le_antisymm hbgn.le_exec (PhasedState.exec_le_of_not_passed hbeg.pos hpas)
  refine ⟨rfl,?_⟩
  have hlow : 2*j ≤ s.phase r := by
    obtain ⟨-,hlt | ⟨-,hlt⟩⟩ | ⟨-,-,heq,-⟩ := hbgn
    · exact absurd hlt (lt_irrefl _)
    · exact hlt.le
    · exact heq.le
  have hhg : ¬ 2*j+1 < s.phase r := fun hlt => hpas ⟨hbeg.pos,.inr ⟨rfl,hlt⟩⟩
  omega

theorem round_of_held (h : s.Held R.permitted (fun _ => True) r n (2*j+1)) :
    (R.source r j).isSome=true ∧ n = s.exec r ∧ j = s.phase r/2 := by
  obtain ⟨-,⟨a,ha,hinc⟩,hpas⟩ := h
  have hord := ht.ordered a n (2*j+1)
  have hbeg := ((ht.posted a n _).mp (hord.data (hord.incoming hinc))).2
  rw [source_data hbeg.pos] at ha
  exact ⟨isSome_of_eq_some ha,round_of_begun ht ha hbeg hpas⟩

theorem not_held_of_end (hend : s.phase r = 2*R.rounds) (m j : ℕ) :
    ¬ s.Held R.permitted (fun _ => True) r m (2*j+1) := by
  intro hhl
  obtain ⟨hso,-,hj⟩ := round_of_held ht hhl
  obtain ⟨a,ha⟩ := isSome_iff_exists.mp hso
  have := R.bounded a r j ((R.matched a r j).mpr ha)
  omega

end

end RoundTables

/-- A party that does each round right: what it has depends on the round and on whether the data of the round has come
in. Permissions have no data. -/
structure Serves (R : RoundTables ι) (C : PhaseClient ι α μ) (M : ι → ℕ → ℕ → μ)
    (J : ι → ℕ → ℕ → Prop → α → Prop) : Prop where
  start : ∀ r n x, J r n R.rounds False x → J r (n + 1) 0 False (C.start r (n + 1) x)
  permission : ∀ a n j x, C.payload a n (2 * j) x = M a n (2 * j)
  permitted : ∀ a b n j x, C.deliver b n (2 * j) (M a n (2 * j)) x = x
  ready : ∀ r n j x, C.postrcv r n (2 * j) x = x
  transmit : ∀ a b n j w x, 0 < n → R.dest a j = some b → (w → (R.source a j).isSome = true) → J a n j w x →
    C.payload a n (2 * j + 1) x = M a n (2 * j + 1)
  incoming : ∀ a b n j x, 0 < n → R.source b j = some a → J b n j False x →
    J b n j True (C.deliver b n (2 * j + 1) (M a n (2 * j + 1)) x)
  pass : ∀ r n j x, 0 < n → j < R.rounds → J r n j ((R.source r j).isSome = true) x →
    J r n (j + 1) False (C.postrcv r n (2 * j + 1) x)

namespace Serves

variable {R : RoundTables ι} {C : PhaseClient ι α μ} {M : ι → ℕ → ℕ → μ} {J : ι → ℕ → ℕ → Prop → α → Prop}
  {D : ℕ → ℕ → Prop}

def Round (J : ι → ℕ → ℕ → Prop → α → Prop) (r : ι) (n p : ℕ) (D : ℕ → ℕ → Prop) (x : α) : Prop :=
  J r n (p / 2) (D n (2 * (p / 2) + 1)) x

theorem round_even {r : ι} {n j : ℕ} {x : α} : Round J r n (2*j) D x ↔ J r n j (D n (2*j+1)) x := by
  rw [Round,Nat.mul_div_cancel_left j Nat.two_pos]

theorem round_odd {r : ι} {n j : ℕ} {x : α} : Round J r n (2*j+1) D x ↔ J r n j (D n (2*j+1)) x := by
  rw [Round,half_odd]

open PhasedState RoundTables

variable {s : PhasedState ι α μ} {a b r : ι} {n p : ℕ}

section

variable (h : Serves R C M J) (ht : Timely R.permitted s)
include h ht

theorem carries_reset (hend : s.phase r = 2*R.rounds)
    (hr : Round J r (s.exec r) (s.phase r) (s.Held R.permitted (fun _ => True) r) (s.data r)) :
    Round J r (s.exec r+1) 0 (s.Held R.permitted (fun _ => True) r)
      (C.start r (s.exec r+1) (s.data r)) := by
  have hnn : ∀ m j, s.Held R.permitted (fun _ => True) r m (2*j+1)=False :=
    fun m j => eq_false (not_held_of_end ht hend m j)
  rw [hend,round_even,hnn] at hr
  rw [← mul_zero 2,round_even,hnn]
  exact h.start r _ _ hr

theorem carries_pass (hlt : s.phase r < 2*R.rounds)
    (hhl : ∀ a, R.permitted.source r (s.exec r) (s.phase r) = some a →
      s.Held R.permitted (fun _ => True) r (s.exec r) (s.phase r))
    (hr : Round J r (s.exec r) (s.phase r) (s.Held R.permitted (fun _ => True) r) (s.data r)) :
    Round J r (s.exec r) (s.phase r+1)
      (fun n p => s.Held R.permitted (fun _ => True) r n p ∧ ¬ (n = s.exec r ∧ p = s.phase r))
      (C.postrcv r (s.exec r) (s.phase r) (s.data r)) := by
  have hpos : 0 < s.exec r := by
    apply Nat.pos_of_ne_zero
    intro hzr
    exact absurd (ht.first r hzr) hlt.ne
  obtain ⟨j,hpha | hpha⟩ : ∃ j, s.phase r=2*j ∨ s.phase r=2*j+1 := ⟨s.phase r/2,by omega⟩
  · rw [hpha,round_even] at hr
    rw [hpha,round_odd,h.ready]
    have hkeep : (s.Held R.permitted (fun _ => True) r (s.exec r) (2*j+1) ∧
        ¬ (s.exec r = s.exec r ∧ 2*j+1=2*j))=s.Held R.permitted (fun _ => True) r (s.exec r) (2*j+1) :=
      propext (and_iff_left fun heq => absurd heq.2 (Nat.succ_ne_self _))
    rwa [hkeep]
  · rw [hpha,round_odd] at hr
    rw [hpha] at hhl ⊢
    rw [source_data hpos] at hhl
    have hso : s.Held R.permitted (fun _ => True) r (s.exec r) (2*j+1)=((R.source r j).isSome=true) := by
      refine propext ⟨fun hD => (round_of_held ht hD).1,fun hsou => ?_⟩
      obtain ⟨a,ha⟩ := isSome_iff_exists.mp hsou
      exact hhl a ha
    have hnx : (s.Held R.permitted (fun _ => True) r (s.exec r) (2*(j+1)+1) ∧
        ¬ (s.exec r = s.exec r ∧ 2*(j+1)+1=2*j+1))=False := by
      refine eq_false ?_
      rintro ⟨hD,-⟩
      obtain ⟨-,-,hj⟩ := round_of_held ht hD
      omega
    rw [hso] at hr
    have hgoal := round_even (J := J) (r := r) (n := s.exec r) (j := j+1)
      (D := fun n p => s.Held R.permitted (fun _ => True) r n p ∧ ¬ (n=s.exec r ∧ p=2*j+1))
      (x := C.postrcv r (s.exec r) (2*j+1) (s.data r))
    rw [hnx] at hgoal
    exact hgoal.mpr (h.pass r _ j _ hpos (by omega) hr)

theorem carries_transmit (hbeg : s.begun a = true)
    (hds : R.permitted.dest a (s.exec a) (s.phase a) = some b)
    (hr : Round J a (s.exec a) (s.phase a) (s.Held R.permitted (fun _ => True) a) (s.data a)) :
    C.payload a (s.exec a) (s.phase a) (s.data a) = M a (s.exec a) (s.phase a) := by
  have hpos : 0 < s.exec a := by
    apply Nat.pos_of_ne_zero
    intro hzr
    exact absurd (ht.first a hzr) (ht.begun_lt a hbeg).ne
  obtain ⟨j,hpha | hpha⟩ : ∃ j, s.phase a=2*j ∨ s.phase a=2*j+1 := ⟨s.phase a/2,by omega⟩
  · rw [hpha]
    exact h.permission a _ j _
  · rw [hpha,round_odd] at hr
    rw [hpha,dest_data hpos] at hds
    rw [hpha]
    exact h.transmit a b _ j _ _ hpos hds (fun hD => (round_of_held ht hD).1) hr

theorem carries_incoming (hds : R.permitted.dest a n p = some b)
    (hda : (s.message a n p).data = some (M a n p)) (hpas : ¬ s.Passed b n p)
    (hfre : ¬ s.Held R.permitted (fun _ => True) b n p)
    (hr : Round J b (s.exec b) (s.phase b) (s.Held R.permitted (fun _ => True) b) (s.data b)) :
    Round J b (s.exec b) (s.phase b)
      (fun n' p' => s.Held R.permitted (fun _ => True) b n' p' ∨ (n'=n ∧ p'=p))
      (C.deliver b n p (M a n p) (s.data b)) := by
  obtain ⟨j,rfl | rfl⟩ : ∃ j, p=2*j ∨ p=2*j+1 := ⟨p/2,by omega⟩
  · rw [h.permitted,Round]
    have hkeep : (s.Held R.permitted (fun _ => True) b (s.exec b) (2*(s.phase b/2)+1) ∨
        (s.exec b=n ∧ 2*(s.phase b/2)+1=2*j)) =
          s.Held R.permitted (fun _ => True) b (s.exec b) (2*(s.phase b/2)+1) :=
      propext (or_iff_left (by omega))
    rw [hkeep]
    exact hr
  · have hbeg := ((ht.posted a n _).mp ((ht.ordered a n _).data (isSome_of_eq_some hda))).2
    have hsou : R.source b j = some a := by
      rw [← source_data hbeg.pos]
      exact (R.permitted.matched a b n _).mp hds
    obtain ⟨rfl,rfl⟩ := round_of_begun ht hsou hbeg hpas
    rw [Round,eq_false hfre] at hr
    have hcm : (s.Held R.permitted (fun _ => True) b (s.exec b) (2*(s.phase b/2)+1) ∨
        (s.exec b = s.exec b ∧ 2*(s.phase b/2)+1=2*(s.phase b/2)+1))=True :=
      eq_true (.inr ⟨rfl,rfl⟩)
    rw [Round,hcm]
    exact h.incoming a b _ _ _ hbeg.pos hsou hr

end

theorem carries (h : Serves R C M J) :
    Carries R.permitted C (fun _ _ _ _ => True) (fun _ => True) M (Round J) where
  reset := fun _ _ ho hend hr => h.carries_reset ho.toTimely hend hr
  pass := fun _ _ ho hlt hhl hr => h.carries_pass ho.toTimely hlt (fun a ha => hhl a trivial ha) hr
  transmit := fun _ _ _ ho hbeg hds _ hr => h.carries_transmit ho.toTimely hbeg hds hr
  incoming := fun _ _ _ _ _ ho _ _ hds hda hpas hfre hr => h.carries_incoming ho.toTimely hds hda hpas hfre hr
  plain := fun _ _ _ _ _ hno => absurd trivial hno

theorem at_end (ht : Timely R.permitted s) (hend : s.phase r = 2*R.rounds)
    (hr : Round J r (s.exec r) (s.phase r) (s.Held R.permitted (fun _ => True) r) (s.data r)) :
    J r (s.exec r) R.rounds False (s.data r) := by
  rw [hend,round_even,eq_false (not_held_of_end ht hend _ _)] at hr
  exact hr

end Serves

end PAMI.Math

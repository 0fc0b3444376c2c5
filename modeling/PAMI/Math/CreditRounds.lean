import Mathlib.Data.List.Range
import PAMI.Math.PhasedData

namespace PAMI.Math

open Function List Option Nat Bool

section Put

variable {ι α β : Type*} [DecidableEq ι] {f : ι → ℕ → α} {a b : ι} {i j : ℕ} {x : α}

def put (f : ι → ℕ → α) (a : ι) (j : ℕ) (x : α) : ι → ℕ → α := fun b i => if b = a ∧ i = j then x else f b i

theorem put_self : put f a j x a j = x := if_pos ⟨rfl,rfl⟩

theorem put_of_ne (h : ¬ (b=a ∧ i=j)) : put f a j x b i = f b i := if_neg h

theorem put_congr (g : α → β) (h : g x = g (f a j)) (b : ι) (i : ℕ) : g (put f a j x b i) = g (f b i) := by
  by_cases heq : b=a ∧ i=j
  · obtain ⟨rfl,rfl⟩ := heq
    rw [put_self,h]
  · rw [put_of_ne heq]

theorem put_all {P : ι → ℕ → α → Prop} (hx : P a j x) (h : ∀ b i, P b i (f b i)) (b : ι) (i : ℕ) :
    P b i (put f a j x b i) := by
  by_cases heq : b=a ∧ i=j
  · obtain ⟨rfl,rfl⟩ := heq
    rwa [put_self]
  · rw [put_of_ne heq]
    exact h b i

end Put

/-- The permission for the data of a round, which goes to the source of the round. -/
structure Permission where
  posted : Bool
  sent : Bool
  incoming : Bool
  complete : Bool
  deriving DecidableEq, Repr

def Permission.none : Permission := ⟨false, false, false, false⟩

/-- Parties that go through rounds: how many each has entered, what it has, the permissions it gave, the data it sent,
and in which rounds. -/
@[ext]
structure CreditState (ι α μ : Type*) where
  entered : ι → ℕ
  data : ι → α
  permission : ι → ℕ → Permission
  message : ι → ℕ → PhaseMessage μ
  sends : ι → List ℕ

namespace CreditState

variable {ι α μ : Type*}

def init (data : ι → α) : CreditState ι α μ where
  entered := fun _ => 0
  data := data
  permission := fun _ _ => .none
  message := fun _ _ => .none
  sends := fun _ => []

variable [DecidableEq ι] (R : RoundTables ι)

def setPermission (s : CreditState ι α μ) (a : ι) (j : ℕ) (m : Permission) : CreditState ι α μ :=
  { s with permission := put s.permission a j m }

def setMessage (s : CreditState ι α μ) (a : ι) (j : ℕ) (m : PhaseMessage μ) : CreditState ι α μ :=
  { s with message := put s.message a j m }

def setData (s : CreditState ι α μ) (r : ι) (x : α) : CreditState ι α μ :=
  { s with data := update s.data r x }

/-- A party enters its next round, and gives its permission for it. -/
def enter (s : CreditState ι α μ) (r : ι) : CreditState ι α μ :=
  let t := { s with entered := update s.entered r (s.entered r + 1) }
  if (R.source r (s.entered r)).isSome then
    t.setPermission r (s.entered r) { s.permission r (s.entered r) with posted := true }
  else t

def post (s : CreditState ι α μ) (r : ι) (j : ℕ) : CreditState ι α μ :=
  { s.setMessage r j { s.message r j with posted := true } with
    sends := update s.sends r (s.sends r ++ [j]) }

omit [DecidableEq ι]

/-- A party is done with the round it is in, if it is in one. -/
def Ready (s : CreditState ι α μ) (r : ι) : Prop := s.entered r = 0 ∨ ∃ j < R.rounds, s.entered r = j + 1 ∧
    ((R.dest r j).isSome = true → (s.message r j).sent = true) ∧
    ∀ a ∈ R.source r j, (s.message a j).complete = true

/-- The data is sent round after round, with the permission of its receiver; and who is in a round has sent and received
the data of the rounds before. -/
structure Credited (s : CreditState ι α μ) : Prop where
  entered_le : ∀ r, s.entered r ≤ R.rounds + 1
  permission : ∀ a j, (s.permission a j).posted = true ↔ (R.source a j).isSome = true ∧ j < s.entered a
  announced : ∀ a j, (s.permission a j).sent = true → (s.permission a j).posted = true
  incoming : ∀ a j, (s.permission a j).incoming = true → (s.permission a j).posted = true
  complete : ∀ a j, (s.permission a j).complete = true → (s.permission a j).incoming = true
  sends : ∀ r, ∃ k, k ≤ s.entered r ∧ s.entered r ≤ k + 1 ∧
    s.sends r = (List.range k).filter fun j => (R.dest r j).isSome
  posted : ∀ a j, (s.message a j).posted = true ↔ j ∈ s.sends a
  ordered : ∀ a j, (s.message a j).Ordered
  received : ∀ a j, (s.message a j).complete = true → (s.message a j).incoming = true
  passed_sent : ∀ a j, j + 1 < s.entered a → (R.dest a j).isSome = true → (s.message a j).sent = true
  passed_complete : ∀ a b j, j + 1 < s.entered b → R.source b j = some a → (s.message a j).complete = true
  permitted : ∀ a b j, (s.message a j).posted = true → R.dest a j = some b → (s.permission b j).incoming = true

variable {R} {s : CreditState ι α μ} {a b r : ι} {i j : ℕ}

theorem credited_init (data : ι → α) : (init data : CreditState ι α μ).Credited R where
  entered_le := fun _ => zero_le _
  permission := fun _ _ => iff_of_false Bool.false_ne_true fun h => Nat.not_lt_zero _ h.2
  announced := fun _ _ h => absurd h Bool.false_ne_true
  incoming := fun _ _ h => absurd h Bool.false_ne_true
  complete := fun _ _ h => absurd h Bool.false_ne_true
  sends := fun _ => ⟨0,le_rfl,zero_le _,rfl⟩
  posted := fun _ _ => iff_of_false Bool.false_ne_true not_mem_nil
  ordered := fun _ _ => ⟨nofun,nofun,nofun,nofun⟩
  received := fun _ _ h => absurd h Bool.false_ne_true
  passed_sent := fun _ _ h => absurd h (Nat.not_lt_zero _)
  passed_complete := fun _ _ _ h => absurd h (Nat.not_lt_zero _)
  permitted := fun _ _ _ h => absurd h Bool.false_ne_true

namespace Credited

theorem mem_sends (h : s.Credited R) (hj : j ∈ s.sends a) : (R.dest a j).isSome=true ∧ j < s.entered a := by
  obtain ⟨k,hk,-,hsen⟩ := h.sends a
  rw [hsen,mem_filter,mem_range] at hj
  exact ⟨hj.2,hj.1.trans_le hk⟩

section

variable (h : s.Credited R) (hpst : (s.message a j).posted = true)
include h hpst

theorem lt_entered : j < s.entered a := (h.mem_sends ((h.posted a j).mp hpst)).2

theorem dest_of_posted : ∃ b, R.dest a j = some b := isSome_iff_exists.mp (h.mem_sends ((h.posted a j).mp hpst)).1

omit h hpst in
theorem posted_of_passed (h : s.Credited R) (hj : j+1 < s.entered a) (hds : (R.dest a j).isSome=true) :
    (s.message a j).posted=true := by
  have hord := h.ordered a j
  exact hord.data (hord.sent (h.passed_sent a j hj hds))

theorem entered_dest (hds : R.dest a j = some b) : j < s.entered b :=
  ((h.permission b j).mp (h.incoming b j (h.permitted a b j hpst hds))).2

theorem round_of_dest (hds : R.dest a j = some b) (hfre : (s.message a j).complete=false) :
    s.entered b = j+1 := by
  have hlt := h.entered_dest hpst hds
  have hnot : ¬ j+1 < s.entered b := fun hpas => by
    rw [h.passed_complete a b j hpas ((R.matched a b j).mp hds)] at hfre
    contradiction
  omega

theorem round_of_unsent (hfre : (s.message a j).sent=false) : s.entered a = j+1 := by
  have hlt := h.lt_entered hpst
  obtain ⟨b,hds⟩ := h.dest_of_posted hpst
  have hnot : ¬ j+1 < s.entered a := fun hpas => by
    rw [h.passed_sent a j hpas (isSome_of_eq_some hds)] at hfre
    contradiction
  omega

end

theorem unposted (h : s.Credited R) (hds : R.dest a j = some b) (hfre : (s.permission b j).incoming=false) :
    (s.message a j).posted=false := by
  rw [← not_eq_true]
  intro hpst
  rw [h.permitted a b j hpst hds] at hfre
  contradiction

theorem unentered (h : s.Credited R) (hj : s.entered r ≤ j) :
    (s.message r j).posted=false ∧ ∀ a, R.source r j = some a → (s.message a j).complete=false := by
  refine ⟨?_,fun a hsou => ?_⟩
  · rw [← not_eq_true]
    exact fun hpst => absurd (h.lt_entered hpst) hj.not_gt
  · rw [← not_eq_true]
    intro hcom
    have hord := h.ordered a j
    have hpst := hord.data (hord.complete hcom)
    exact absurd (h.entered_dest hpst ((R.matched a r j).mpr hsou)) hj.not_gt

end Credited

section Steps

variable [DecidableEq ι]

theorem enter_entered (s : CreditState ι α μ) (r : ι) :
    (s.enter R r).entered = update s.entered r (s.entered r+1) := by
  rw [enter]
  split <;> rfl

theorem enter_message (s : CreditState ι α μ) (r : ι) :
    (s.enter R r).message=s.message ∧ (s.enter R r).sends=s.sends ∧ (s.enter R r).data=s.data := by
  rw [enter]
  split <;> exact ⟨rfl,rfl,rfl⟩

theorem enter_permission {β : Type*} (g : Permission → β) (hg : ∀ m b, g { m with posted := b } = g m)
    (s : CreditState ι α μ) (r a : ι) (j : ℕ) : g ((s.enter R r).permission a j) = g (s.permission a j) := by
  rw [enter]
  split
  · exact put_congr g (hg _ true) a j
  · rfl

theorem enter_posted (s : CreditState ι α μ) (r a : ι) (j : ℕ) :
    ((s.enter R r).permission a j).posted=true ↔ (s.permission a j).posted=true ∨
      (R.source a j).isSome=true ∧ a=r ∧ j = s.entered r := by
  rw [enter]
  by_cases heq : a=r ∧ j=s.entered r
  · obtain ⟨rfl,rfl⟩ := heq
    split
    case isTrue hso => exact iff_of_true (congrArg Permission.posted put_self) (.inr ⟨hso,rfl,rfl⟩)
    case isFalse hnn => exact (or_iff_left fun h => hnn h.1).symm
  · rw [or_iff_left fun h => heq h.2]
    split
    · exact iff_of_eq (congrArg (fun m : Permission => m.posted=true) (put_of_ne heq))
    · rfl

namespace Credited

section

variable (h : s.Credited R)
include h

theorem enter (hrea : s.Ready R r) : (s.enter R r).Credited R := by
  obtain ⟨hmes,hsen,-⟩ := enter_message (R := R) s r
  have hent : ∀ a, (s.enter R r).entered a = if a=r then s.entered r+1 else s.entered a := fun a => by
    rw [enter_entered,update_apply]
  -- The round that is over is sent and received.
  have hov : ∀ a j, j+1<(s.enter R r).entered a → j+1 < s.entered a ∨ a=r ∧ j<R.rounds ∧
      ((R.dest r j).isSome=true → (s.message r j).sent=true) ∧
      ∀ b, R.source r j = some b → (s.message b j).complete=true := by
    intro a j hj
    rw [hent] at hj
    split at hj
    case isFalse => exact .inl hj
    case isTrue heq =>
      subst heq
      rcases hrea with hzr | ⟨i,hi,heq,hov⟩
      · omega
      · obtain hlt | rfl := lt_or_eq_of_le (by omega : j ≤ i)
        · exact .inl (by omega)
        · exact .inr ⟨rfl,hi,hov⟩
  refine ⟨fun a => ?_,fun a j => ?_,fun a j => ?_,fun a j => ?_,fun a j => ?_,fun a => ?_,?_,?_,?_,
    fun a j hj hds => ?_,
    fun a b j hj hsou => ?_,fun a b j => ?_⟩
  · rw [hent]
    split
    · rcases hrea with hzr | ⟨i,hi,heq,-⟩ <;> omega
    · exact h.entered_le a
  · rw [enter_posted,h.permission,hent,← and_or_left]
    refine and_congr_right fun _ => ?_
    by_cases heq : a=r
    · subst heq
      rw [if_pos rfl,and_iff_right rfl]
      omega
    · rw [if_neg heq,or_iff_left fun h => heq h.1]
  · rw [enter_permission Permission.sent fun _ _ => rfl,enter_posted]
    exact fun hsn => .inl (h.announced a j hsn)
  · rw [enter_permission Permission.incoming fun _ _ => rfl,enter_posted]
    exact fun hinc => .inl (h.incoming a j hinc)
  · rw [enter_permission Permission.complete fun _ _ => rfl,enter_permission Permission.incoming fun _ _ => rfl]
    exact h.complete a j
  · rw [hsen,hent]
    obtain ⟨k,hk,hk',heq⟩ := h.sends a
    split
    case isFalse => exact ⟨k,hk,hk',heq⟩
    case isTrue har =>
      subst har
      obtain rfl | hlt := eq_or_lt_of_le hk
      · exact ⟨s.entered a,le_succ _,le_rfl,heq⟩
      · -- There was nothing to send in the last round.
        refine ⟨k+1,by omega,by omega,heq.trans ?_⟩
        have hnn : (R.dest a k).isSome=false := by
          rw [← not_eq_true]
          intro hds
          rcases hrea with hzr | ⟨i,-,hi,hsn,-⟩
          · omega
          · obtain rfl : i=k := by omega
            have hord := h.ordered a i
            have hmem := (h.posted a i).mp (hord.data (hord.sent (hsn hds)))
            rw [heq,mem_filter,mem_range] at hmem
            exact lt_irrefl _ hmem.1
        rw [range_succ,filter_append,filter_cons_of_neg (by simp [hnn]),filter_nil,append_nil]
  · rw [hmes,hsen]
    exact h.posted
  · rw [hmes]
    exact h.ordered
  · rw [hmes]
    exact h.received
  · rw [hmes]
    rcases hov a j hj with hj | ⟨rfl,-,hsn,-⟩
    · exact h.passed_sent a j hj hds
    · exact hsn hds
  · rw [hmes]
    rcases hov b j hj with hj | ⟨rfl,-,-,hcom⟩
    · exact h.passed_complete a b j hj hsou
    · exact hcom a hsou
  · rw [hmes,enter_permission Permission.incoming fun _ _ => rfl]
    exact h.permitted a b j

theorem post (hrou : s.entered r = j+1) (hfre : (s.message r j).posted=false)
    (hds : R.dest r j = some b) (hcre : (s.permission b j).incoming=true) :
    (s.post r j).Credited R := by
  have hpst : ∀ a i, (((s.post r j).message a i).posted=true ↔ (s.message a i).posted=true ∨ a=r ∧ i=j) := by
    intro a i
    by_cases heq : a=r ∧ i=j
    · refine iff_of_true ?_ (.inr heq)
      obtain ⟨rfl,rfl⟩ := heq
      exact congrArg PhaseMessage.posted put_self
    · rw [or_iff_left heq]
      exact iff_of_eq (congrArg (fun m : PhaseMessage μ => m.posted=true) (put_of_ne heq))
  have hsn : ∀ a i, ((s.post r j).message a i).sent=(s.message a i).sent := put_congr PhaseMessage.sent rfl
  have hcom : ∀ a i, ((s.post r j).message a i).complete=(s.message a i).complete :=
    put_congr PhaseMessage.complete rfl
  have hinc : ∀ a i, ((s.post r j).message a i).incoming=(s.message a i).incoming :=
    put_congr PhaseMessage.incoming rfl
  have hsen : ∀ a, (s.post r j).sends a = if a=r then s.sends r ++ [j] else s.sends a := fun a => by
    exact update_apply _ _ _ a
  refine ⟨h.entered_le,h.permission,h.announced,h.incoming,h.complete,fun a => ?_,fun a i => ?_,?_,fun a i => ?_,
    fun a i hi hd => ?_,fun a b i hi hs => ?_,fun a b' i hp hd => ?_⟩
  · rw [hsen]
    split
    case isFalse => exact h.sends a
    case isTrue heq =>
      subst heq
      obtain ⟨k,hk,hk',heq⟩ := h.sends a
      have hne : k≠j+1 := by
        rintro rfl
        have hmem : j ∈ s.sends a := by
          rw [heq,mem_filter,mem_range]
          exact ⟨lt_succ_self j,isSome_of_eq_some hds⟩
        rw [(h.posted a j).mpr hmem] at hfre
        contradiction
      obtain rfl : k=j := by omega
      refine ⟨k+1,hrou.ge,hrou.le.trans (le_succ _),?_⟩
      rw [heq,range_succ,filter_append,filter_singleton,hds]
      rfl
  · rw [hpst,hsen,h.posted]
    split
    case isTrue heq =>
      subst heq
      rw [mem_append,mem_singleton]
      exact or_congr_right (and_iff_right rfl)
    case isFalse hne => exact or_iff_left fun h => hne h.1
  · have hr := h.ordered r j
    exact put_all (P := fun _ _ m => PhaseMessage.Ordered m) ⟨fun _ => rfl,hr.sent,hr.incoming,hr.complete⟩ h.ordered
  · rw [hcom,hinc]
    exact h.received a i
  · rw [hsn]
    exact h.passed_sent a i hi hd
  · rw [hcom]
    exact h.passed_complete a b i hi hs
  · rcases (hpst a i).mp hp with hp | ⟨rfl,rfl⟩
    · exact h.permitted a b' i hp hd
    · obtain rfl := some.inj (hds.symm.trans hd)
      exact hcre

theorem setPermission {m : Permission} (hpst : m.posted=(s.permission a j).posted)
    (hsn : m.sent=true → m.posted=true) (hinc : m.incoming=true → m.posted=true)
    (hcom : m.complete=true → m.incoming=true)
    (hkeep : (s.permission a j).incoming=true → m.incoming=true) :
    (s.setPermission a j m).Credited R where
  entered_le := h.entered_le
  permission := fun b i => by
    refine Iff.trans ?_ (h.permission b i)
    exact iff_of_eq (congrArg (· = true) (put_congr Permission.posted hpst b i))
  announced := put_all (P := fun _ _ (m : Permission) => m.sent=true → m.posted=true) hsn h.announced
  incoming := put_all (P := fun _ _ (m : Permission) => m.incoming=true → m.posted=true) hinc h.incoming
  complete := put_all (P := fun _ _ (m : Permission) => m.complete=true → m.incoming=true) hcom h.complete
  sends := h.sends
  posted := h.posted
  ordered := h.ordered
  received := h.received
  passed_sent := h.passed_sent
  passed_complete := h.passed_complete
  permitted := fun b c i hb hd => by
    have hc := h.permitted b c i hb hd
    by_cases heq : c=a ∧ i=j
    · obtain ⟨rfl,rfl⟩ := heq
      exact (congrArg Permission.incoming put_self).trans (hkeep hc)
    · exact (congrArg Permission.incoming (put_of_ne heq)).trans hc

theorem setMessage {m : PhaseMessage μ} (hpst : m.posted=(s.message a j).posted) (hord : m.Ordered)
    (hrec : m.complete=true → m.incoming=true) (hsn : (s.message a j).sent=true → m.sent=true)
    (hcom : (s.message a j).complete=true → m.complete=true) : (s.setMessage a j m).Credited R where
  entered_le := h.entered_le
  permission := h.permission
  announced := h.announced
  incoming := h.incoming
  complete := h.complete
  sends := h.sends
  posted := fun b i => by
    refine Iff.trans ?_ (h.posted b i)
    exact iff_of_eq (congrArg (· = true) (put_congr PhaseMessage.posted hpst b i))
  ordered := put_all (P := fun _ _ m => PhaseMessage.Ordered m) hord h.ordered
  received := put_all (P := fun _ _ (m : PhaseMessage μ) => m.complete=true → m.incoming=true) hrec h.received
  passed_sent := by
    refine put_all (P := fun b i (m : PhaseMessage μ) => i+1 < s.entered b → (R.dest b i).isSome=true → m.sent=true) ?_ h.passed_sent
    exact fun hj hds => hsn (h.passed_sent a j hj hds)
  passed_complete := fun b c i => by
    refine put_all (P := fun b i (m : PhaseMessage μ) => i+1 < s.entered c → R.source c i = some b → m.complete=true) ?_
      (fun b i => h.passed_complete b c i) b i
    exact fun hj hsou => hcom (h.passed_complete a c j hj hsou)
  permitted := fun b c i hb => by
    refine h.permitted b c i ?_
    rwa [← put_congr PhaseMessage.posted hpst b i]

theorem setData (r : ι) (x : α) : (s.setData r x).Credited R :=
  ⟨h.entered_le,h.permission,h.announced,h.incoming,h.complete,h.sends,h.posted,h.ordered,h.received,
    h.passed_sent,h.passed_complete,h.permitted⟩

end

end Credited

end Steps

end CreditState

variable {ι α μ : Type*}

/-- What the parties do with their data: at the start; to read what they send; and when data comes in. -/
structure CreditClient (ι α μ : Type*) where
  start : ι → α → α
  payload : ι → ℕ → α → μ
  deliver : ι → ℕ → μ → α → α

/-- A party that does each round right: what it has depends on how many rounds it has entered, and on whether the data of
the last one has come in. -/
structure CreditServes (R : RoundTables ι) (C : CreditClient ι α μ) (M : ι → ℕ → μ) (J : ι → ℕ → Prop → α → Prop) :
    Prop where
  start : ∀ r x, J r 0 False x → J r 1 False (C.start r x)
  next : ∀ r j x, j < R.rounds → J r (j + 1) ((R.source r j).isSome = true) x → J r (j + 2) False x
  transmit : ∀ a b j w x, R.dest a j = some b → (w → (R.source a j).isSome = true) → J a (j + 1) w x →
    C.payload a j x = M a j
  incoming : ∀ a b j x, R.source b j = some a → J b (j + 1) False x → J b (j + 1) True (C.deliver b j (M a j) x)

namespace CreditState

def Came (R : RoundTables ι) (s : CreditState ι α μ) (r : ι) : Prop :=
  ∃ j a, s.entered r = j + 1 ∧ R.source r j = some a ∧ (s.message a j).incoming = true

structure Supplied (R : RoundTables ι) (M : ι → ℕ → μ) (J : ι → ℕ → Prop → α → Prop) (s : CreditState ι α μ) :
    Prop where
  party : ∀ r, J r (s.entered r) (s.Came R r) (s.data r)
  message : ∀ a j, ∀ x ∈ (s.message a j).data, x = M a j

variable {R : RoundTables ι} {C : CreditClient ι α μ} {M : ι → ℕ → μ} {J : ι → ℕ → Prop → α → Prop}
  {s s' : CreditState ι α μ} {a b r : ι} {j : ℕ}

theorem supplied_init {data : ι → α} (hda : ∀ r, J r 0 False (data r)) :
    (init data : CreditState ι α μ).Supplied R M J where
  party := fun r => by
    have hcm : (init data : CreditState ι α μ).Came R r=False :=
      eq_false fun ⟨_,_,_,_,h⟩ => Bool.false_ne_true h
    rw [hcm]
    exact hda r
  message := fun _ _ _ h => absurd h (not_mem_none _)

theorem Came.isSome (h : s.Came R r) (hrou : s.entered r = j+1) : (R.source r j).isSome=true := by
  obtain ⟨i,a,hi,hsou,-⟩ := h
  obtain rfl : i=j := by omega
  exact isSome_of_eq_some hsou

namespace Supplied

theorem same (h : s.Supplied R M J) (hent : s'.entered=s.entered) (hda : s'.data=s.data)
    (hinc : ∀ a j, (s'.message a j).incoming=(s.message a j).incoming)
    (hmes : ∀ a j, ∀ x ∈ (s'.message a j).data, x = M a j) : s'.Supplied R M J := by
  refine ⟨fun r => ?_,hmes⟩
  have hcm : s'.Came R r = s.Came R r := by simp only [Came,hent,hinc]
  rw [hcm,hent,hda]
  exact h.party r

variable [DecidableEq ι]

section

variable (hC : CreditServes R C M J) (h : s.Supplied R M J) (hs : s.Credited R)
include hC h hs

theorem enter (hrea : s.Ready R r) {x : α}
    (hx : x = if s.entered r = 0 then C.start r (s.data r) else s.data r) :
    ((s.enter R r).setData r x).Supplied R M J := by
  obtain ⟨hmes,-,hda⟩ := enter_message (R := R) s r
  have hent := enter_entered (R := R) s r
  refine ⟨fun a => ?_,fun a j x hx => h.message a j x ?_⟩
  · have hpar := h.party a
    by_cases heq : a=r
    · subst heq
      have hcm : ((s.enter R a).setData a x).Came R a=False := by
        refine eq_false ?_
        rintro ⟨j,b,hj,hsou,hin⟩
        simp only [CreditState.setData,hent,hmes,update_self] at hj hin
        have hord := hs.ordered b j
        have hpst := hord.data (hord.incoming hin)
        have hlt := hs.entered_dest hpst ((R.matched b a j).mpr hsou)
        omega
      rw [hcm]
      simp only [CreditState.setData,hent,update_self,hx]
      rcases hrea with hzr | ⟨j,hj,hrou,-,hcom⟩
      · have hnot : s.Came R a=False := eq_false fun ⟨j,_,hj,_⟩ => by omega
        rw [hnot,hzr] at hpar
        rw [hzr,if_pos rfl]
        exact hC.start a _ hpar
      · rw [hrou,if_neg (succ_ne_zero j)]
        rw [hrou] at hpar
        refine hC.next a j _ hj ?_
        have hcm : s.Came R a=((R.source a j).isSome=true) := by
          refine propext ⟨fun hin => hin.isSome hrou,fun hso => ?_⟩
          obtain ⟨b,hb⟩ := isSome_iff_exists.mp hso
          exact ⟨j,b,hrou,hb,hs.received b j (hcom b hb)⟩
        rwa [← hcm]
    · have hcm : ((s.enter R r).setData r x).Came R a = s.Came R a := by
        simp only [Came,CreditState.setData,hent,hmes,update_of_ne heq]
      rw [hcm]
      simp only [CreditState.setData,hent,update_of_ne heq,hda]
      exact hpar
  · simpa only [CreditState.setData,hmes] using hx

omit hC h hs in
theorem post (h : s.Supplied R M J) : (s.post r j).Supplied R M J := by
  refine h.same rfl rfl (put_congr PhaseMessage.incoming rfl) fun a i x hx => h.message a i x ?_
  rwa [← put_congr PhaseMessage.data (x := { s.message r j with posted := true }) rfl a i]

omit hC h hs in
theorem setPermission (h : s.Supplied R M J) (m : Permission) : (s.setPermission a j m).Supplied R M J :=
  h.same rfl rfl (fun _ _ => rfl) h.message

omit hC h hs in
theorem setMessage (h : s.Supplied R M J) {m : PhaseMessage μ}
    (hinc : m.incoming=(s.message a j).incoming) (hda : m.data=(s.message a j).data) :
    (s.setMessage a j m).Supplied R M J := by
  refine h.same rfl rfl (put_congr PhaseMessage.incoming hinc) fun b i x hx => h.message b i x ?_
  rwa [← put_congr PhaseMessage.data hda b i]

theorem transmit (hpst : (s.message a j).posted=true) (hda : (s.message a j).data=none) :
    (s.setMessage a j { s.message a j with data := some (C.payload a j (s.data a)) }).Supplied R M J := by
  refine h.same rfl rfl (put_congr PhaseMessage.incoming rfl) ?_
  refine put_all (P := fun a j (m : PhaseMessage μ) => ∀ x ∈ m.data, x=M a j) (fun x hx => ?_) h.message
  obtain rfl := some.inj hx
  have huns : (s.message a j).sent=false := by
    rw [← not_eq_true]
    intro hsn
    have hso := (hs.ordered a j).sent hsn
    rw [hda] at hso
    contradiction
  have hrou := hs.round_of_unsent hpst huns
  obtain ⟨b,hds⟩ := hs.dest_of_posted hpst
  have hpar := h.party a
  rw [hrou] at hpar
  exact hC.transmit a b j _ _ hds (fun hin => hin.isSome hrou) hpar

theorem incoming (hfre : (s.message a j).incoming=false) (hds : R.dest a j = some b) {x : μ}
    (hx : (s.message a j).data = some x) :
    ((s.setMessage a j { s.message a j with incoming := true }).setData b
      (C.deliver b j x (s.data b))).Supplied R M J := by
  obtain rfl := h.message a j x hx
  have hsou := (R.matched a b j).mp hds
  have hpst := (hs.ordered a j).data (isSome_of_eq_some hx)
  have hine : (s.message a j).complete=false := by
    rw [← not_eq_true]
    intro hcom
    rw [hs.received a j hcom] at hfre
    contradiction
  have hrou := hs.round_of_dest hpst hds hine
  refine ⟨fun c => ?_,fun c i y hy => h.message c i y ?_⟩
  · have hpar := h.party c
    by_cases heq : c=b
    · subst heq
      have hnot : s.Came R c=False := by
        refine eq_false ?_
        rintro ⟨i,a',hi,ha',hin⟩
        obtain rfl : i=j := by omega
        obtain rfl := some.inj (hsou.symm.trans ha')
        rw [hin] at hfre
        contradiction
      have hcm : ((s.setMessage a j { s.message a j with incoming := true }).setData c
          (C.deliver c j (M a j) (s.data c))).Came R c=True :=
        eq_true ⟨j,a,hrou,hsou,congrArg PhaseMessage.incoming put_self⟩
      rw [hnot,hrou] at hpar
      rw [hcm]
      simp only [CreditState.setData,update_self]
      have hgoal := hC.incoming a c j _ hsou hpar
      rwa [← hrou] at hgoal
    · have hcm : ((s.setMessage a j { s.message a j with incoming := true }).setData b
          (C.deliver b j (M a j) (s.data b))).Came R c = s.Came R c := by
        simp only [Came,CreditState.setData,CreditState.setMessage]
        refine propext (exists_congr fun i => exists_congr fun a' => and_congr_right fun _ => and_congr_right fun ha' => ?_)
        have hne : ¬ (a'=a ∧ i=j) := by
          rintro ⟨rfl,rfl⟩
          have hds' := (R.matched a' c i).mpr ha'
          exact heq (some.inj (hds'.symm.trans hds))
        exact iff_of_eq (congrArg (fun m : PhaseMessage μ => m.incoming=true) (put_of_ne hne))
      rw [hcm]
      simp only [CreditState.setData,update_of_ne heq]
      exact hpar
  · have hsm := put_congr PhaseMessage.data (f := s.message) (a := a) (j := j)
      (x := { s.message a j with incoming := true }) rfl c i
    exact hsm.symm.trans hy

end

end Supplied

/-- Nothing is under way: all have started, all permissions have come in, and all data is sent and received; and who may
send has, and nobody stays in a round that is over. -/
structure Still (R : RoundTables ι) (s : CreditState ι α μ) : Prop where
  started : ∀ r, 0 < s.entered r
  granted : ∀ a j, (s.permission a j).posted = true → (s.permission a j).incoming = true
  sent : ∀ a j, (s.message a j).posted = true → (s.message a j).sent = true ∧ (s.message a j).complete = true
  posts : ∀ a b j, s.entered a = j + 1 → j < R.rounds → R.dest a j = some b →
    (s.permission b j).incoming = true → (s.message a j).posted = true
  goes : ∀ r j, s.entered r = j + 1 → j < R.rounds → ¬ (((R.dest r j).isSome = true → (s.message r j).sent = true) ∧
      ∀ a, R.source r j = some a → (s.message a j).complete = true)

theorem Still.ended (h : s.Still R) (hs : s.Credited R) (r : ι) : s.entered r = R.rounds+1 := by
  by_contra hne
  have hne : s.entered r<R.rounds+1 := lt_of_le_of_ne (hs.entered_le r) hne
  obtain ⟨a,hmin⟩ : ∃ a, ∀ b, s.entered a ≤ s.entered b := by
    have hex : ∃ k a, s.entered a=k := ⟨_,r,rfl⟩
    classical
    obtain ⟨a,ha⟩ := Nat.find_spec hex
    exact ⟨a,fun b => ha.trans_le (Nat.find_min' hex ⟨b,rfl⟩)⟩
  obtain ⟨j,hj⟩ := exists_eq_succ_of_ne_zero (h.started a).ne'
  have hjr : j<R.rounds := by
    have := hmin r
    omega
  -- Data of this round between two parties that have entered it is sent.
  have hps : ∀ c b, R.dest c j = some b → (s.message c j).posted=true := by
    intro c b hds
    have hgra : (s.permission b j).incoming=true := by
      refine h.granted b j ((hs.permission b j).mpr ⟨?_,?_⟩)
      · exact isSome_of_eq_some ((R.matched c b j).mp hds)
      · exact lt_of_lt_of_le (by omega) (hmin b)
    obtain heq | hlt := eq_or_lt_of_le (hmin c)
    · exact h.posts c b j (heq.symm.trans hj) hjr hds hgra
    · exact hs.posted_of_passed (by omega) (isSome_of_eq_some hds)
  refine h.goes a j hj hjr ⟨fun hso => ?_,fun c hsou => ?_⟩
  · obtain ⟨b,hds⟩ := isSome_iff_exists.mp hso
    exact (h.sent a j (hps a b hds)).1
  · exact (h.sent c j (hps c a ((R.matched c a j).mpr hsou))).2

end CreditState

variable {ι α μ : Type*}

/-- What a party sees: how many rounds it has entered; of the last one whether its data is posted, sent and received, and
whether the send of the permission is over; and for each round whether the permission of its receiver has come in, and is
received. -/
@[ext]
structure Standing where
  entered : ℕ
  posted : Bool
  sent : Bool
  received : Bool
  announced : Bool
  came : ℕ → Bool
  granted : ℕ → Bool

namespace Standing

def none : Standing := ⟨0, false, false, false, false, fun _ => false, fun _ => false⟩

def enter (σ : Standing) : Standing :=
  { σ with entered := σ.entered + 1, posted := false, sent := false, received := false, announced := false }

def Ready (R : RoundTables ι) (r : ι) (σ : Standing) : Prop :=
  σ.entered = 0 ∨ ∃ j < R.rounds, σ.entered = j + 1 ∧ ((R.dest r j).isSome = true → σ.sent = true) ∧
    ((R.source r j).isSome = true → σ.received = true)

def Posted (σ : Standing) (j : ℕ) : Prop := j + 1 < σ.entered ∨ j + 1 = σ.entered ∧ σ.posted = true

end Standing

namespace CreditState

variable (R : RoundTables ι)

def standing (s : CreditState ι α μ) (r : ι) : Standing where
  entered := s.entered r
  posted := (s.message r (s.entered r - 1)).posted
  sent := (s.message r (s.entered r - 1)).sent
  received := (R.source r (s.entered r - 1)).any fun a => (s.message a (s.entered r - 1)).complete
  announced := (s.permission r (s.entered r - 1)).sent
  came := fun j => (R.dest r j).any fun b => (s.permission b j).incoming
  granted := fun j => (R.dest r j).any fun b => (s.permission b j).complete

variable {R} {s s' : CreditState ι α μ} {a b r : ι} {i j : ℕ}

theorem standing_init (data : ι → α) : (init data : CreditState ι α μ).standing R r = .none := by
  ext
  case received => exact any_eq_false_iff_get _ _ |>.mpr fun _ => rfl
  case came => simp [standing,init,Permission.none,Standing.none]
  case granted => simp [standing,init,Permission.none,Standing.none]
  all_goals rfl

theorem ready_of_standing (h : (s.standing R r).Ready R r) : s.Ready R r := by
  refine h.imp_right ?_
  rintro ⟨j,hj,hrou,hsn,hrec⟩
  have hla : s.entered r-1=j := pred_eq_of_eq_succ hrou
  refine ⟨j,hj,hrou,fun hds => ?_,fun a hsou => ?_⟩
  · have := hsn hds
    rwa [standing,hla] at this
  · have := hrec (isSome_of_eq_some hsou)
    rwa [standing,hla,hsou] at this

theorem standing_congr (hent : s'.entered r = s.entered r)
    (hpst : ∀ j, (s'.message r j).posted=(s.message r j).posted)
    (hsn : ∀ j, (s'.message r j).sent=(s.message r j).sent)
    (hrec : ∀ a j, R.source r j = some a → (s'.message a j).complete=(s.message a j).complete)
    (hann : ∀ j, (s'.permission r j).sent=(s.permission r j).sent)
    (hcm : ∀ b j, R.dest r j = some b → (s'.permission b j).incoming=(s.permission b j).incoming)
    (hgra : ∀ b j, R.dest r j = some b → (s'.permission b j).complete=(s.permission b j).complete) :
    s'.standing R r = s.standing R r := by
  ext
  case entered => exact hent
  case posted => simp only [standing,hent,hpst]
  case sent => simp only [standing,hent,hsn]
  case announced => simp only [standing,hent,hann]
  case received =>
    simp only [standing,hent]
    cases hsou : R.source r (s.entered r-1) with
    | none => rfl
    | some a => simp only [any_some,hrec a _ hsou]
  case came j =>
    simp only [standing]
    cases hds : R.dest r j with
    | none => rfl
    | some b => simp only [any_some,hcm b j hds]
  case granted j =>
    simp only [standing]
    cases hds : R.dest r j with
    | none => rfl
    | some b => simp only [any_some,hgra b j hds]

theorem Credited.posted_iff (h : s.Credited R) (hds : (R.dest r j).isSome=true) :
    (s.message r j).posted=true ↔ (s.standing R r).Posted j := by
  have hla : ∀ {i}, i+1=s.entered r → (s.standing R r).posted=(s.message r i).posted := by
    intro i hi
    simp only [standing,← hi,Nat.add_sub_cancel]
  constructor
  · intro hpst
    obtain hlt | heq := Nat.lt_or_eq_of_le (h.lt_entered hpst)
    · exact .inl hlt
    · exact .inr ⟨heq,(hla heq).trans hpst⟩
  · rintro (hlt | ⟨heq,hpst⟩)
    · exact h.posted_of_passed hlt hds
    · exact (hla heq).symm.trans hpst

variable [DecidableEq ι]

theorem standing_enter (h : s.Credited R) : (s.enter R r).standing R r = (s.standing R r).enter := by
  obtain ⟨hmes,-,-⟩ := enter_message (R := R) s r
  have hent : (s.enter R r).entered r = s.entered r+1 := by rw [enter_entered,update_self]
  obtain ⟨hpst,hcom⟩ := h.unentered (le_refl (s.entered r))
  ext
  case entered => exact hent
  case posted => simp only [standing,hent,hmes,Nat.add_sub_cancel,Standing.enter,hpst]
  case sent =>
    simp only [standing,hent,hmes,Nat.add_sub_cancel,Standing.enter]
    rw [← not_eq_true]
    intro hsn
    have hord := h.ordered r (s.entered r)
    rw [hord.data (hord.sent hsn)] at hpst
    contradiction
  case received =>
    simp only [standing,hent,hmes,Nat.add_sub_cancel,Standing.enter]
    cases hsou : R.source r (s.entered r) with
    | none => rfl
    | some a => exact hcom a hsou
  case announced =>
    simp only [standing,hent,Nat.add_sub_cancel,Standing.enter]
    rw [enter_permission Permission.sent fun _ _ => rfl,← not_eq_true]
    exact fun hsn => absurd ((h.permission r _).mp (h.announced r _ hsn)).2 (lt_irrefl _)
  case came j => simp only [standing,Standing.enter,enter_permission Permission.incoming fun _ _ => rfl]
  case granted j => simp only [standing,Standing.enter,enter_permission Permission.complete fun _ _ => rfl]

theorem standing_enter_of_ne (hne : a≠r) : (s.enter R r).standing R a = s.standing R a := by
  obtain ⟨hmes,-,-⟩ := enter_message (R := R) s r
  refine standing_congr ?_ (fun _ => by rw [hmes]) (fun _ => by rw [hmes]) (fun _ _ _ => by rw [hmes])
    (fun _ => enter_permission Permission.sent (fun _ _ => rfl) s r a _)
    (fun b _ _ => enter_permission Permission.incoming (fun _ _ => rfl) s r b _)
    fun b _ _ => enter_permission Permission.complete (fun _ _ => rfl) s r b _
  rw [enter_entered,update_of_ne hne]

theorem standing_post (hrou : s.entered r = j+1) :
    (s.post r j).standing R r = { s.standing R r with posted := true } := by
  have hla : s.entered r-1=j := pred_eq_of_eq_succ hrou
  have hcom : ∀ a i, ((s.post r j).message a i).complete=(s.message a i).complete :=
    put_congr PhaseMessage.complete rfl
  have hsn : ∀ a i, ((s.post r j).message a i).sent=(s.message a i).sent := put_congr PhaseMessage.sent rfl
  ext
  case posted =>
    show ((s.post r j).message r (s.entered r-1)).posted=true
    rw [hla]
    exact congrArg PhaseMessage.posted put_self
  case sent => exact hsn r _
  case received =>
    show ((R.source r (s.entered r-1)).any fun a => ((s.post r j).message a (s.entered r-1)).complete) = _
    simp only [hcom,standing]
  all_goals rfl

theorem standing_post_of_ne (hne : a≠r) : (s.post r j).standing R a = s.standing R a := by
  have hcom : ∀ a i, ((s.post r j).message a i).complete=(s.message a i).complete :=
    put_congr PhaseMessage.complete rfl
  have hsn : ∀ a i, ((s.post r j).message a i).sent=(s.message a i).sent := put_congr PhaseMessage.sent rfl
  exact standing_congr rfl (fun _ => congrArg PhaseMessage.posted (put_of_ne fun h => hne h.1)) (hsn a)
    (fun b i _ => hcom b i) (fun _ => rfl) (fun _ _ _ => rfl) fun _ _ _ => rfl

theorem standing_setData (x : α) : (s.setData r x).standing R a = s.standing R a := rfl

end CreditState

end PAMI.Math

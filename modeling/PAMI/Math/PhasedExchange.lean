import Mathlib.Algebra.Ring.Nat
import Mathlib.Order.Nat
import PAMI.Math.Runs

namespace PAMI.Math

open Function

/-- To whom each party sends in a phase of an execution, and from whom it receives. -/
structure PhaseTables (ι : Type*) where
  numphases : ι → ℕ
  dest : ι → ℕ → ℕ → Option ι
  source : ι → ℕ → ℕ → Option ι
  matched : ∀ a b n p, dest a n p = some b ↔ source b n p = some a
  bounded : ∀ a b n p, dest a n p = some b → p < numphases a ∧ p < numphases b

/-- What the parties do with their data: at the start of an execution; to read what they send; when a
message comes in; and at the end of a phase. -/
structure PhaseClient (ι α μ : Type*) where
  start : ι → ℕ → α → α
  payload : ι → ℕ → ℕ → α → μ
  deliver : ι → ℕ → ℕ → μ → α → α
  postrcv : ι → ℕ → ℕ → α → α

/-- The message of a party in a phase of an execution: whether its send is posted, the data once it is read,
whether its send is completed, and whether it comes in, and is received. -/
structure PhaseMessage (μ : Type*) where
  posted : Bool
  data : Option μ
  sent : Bool
  incoming : Bool
  complete : Bool
  deriving DecidableEq, Repr

def PhaseMessage.none {μ : Type*} : PhaseMessage μ := ⟨false, Option.none, false, false, false⟩

/-- Executions have the numbers from one on. Whether a party has begun its phase is whether its send, if
there is one, is posted. -/
@[ext]
structure PhasedState (ι α μ : Type*) where
  exec : ι → ℕ
  phase : ι → ℕ
  begun : ι → Bool
  data : ι → α
  message : ι → ℕ → ℕ → PhaseMessage μ

inductive PhasedEvent (ι : Type*) where
  | reset (r : ι)
  | begin (r : ι)
  | pass (r : ι)
  | transmit (a : ι) (n p : ℕ)
  | sent (a : ι) (n p : ℕ)
  | incoming (a : ι) (n p : ℕ)
  | complete (a : ι) (n p : ℕ)

namespace PhasedState

variable {ι α μ : Type*}

def init (T : PhaseTables ι) (data : ι → α) : PhasedState ι α μ where
  exec := fun _ => 0
  phase := T.numphases
  begun := fun _ => false
  data := data
  message := fun _ _ _ => .none

def Passed (s : PhasedState ι α μ) (r : ι) (n p : ℕ) : Prop := 0 < n ∧ (n < s.exec r ∨ n = s.exec r ∧ p < s.phase r)

def Begun (s : PhasedState ι α μ) (r : ι) (n p : ℕ) : Prop :=
  s.Passed r n p ∨ (0 < n ∧ n = s.exec r ∧ p = s.phase r ∧ s.begun r = true)

variable [DecidableEq ι] (T : PhaseTables ι) (C : PhaseClient ι α μ)

def setMessage (s : PhasedState ι α μ) (a : ι) (n p : ℕ) (m : PhaseMessage μ) : PhasedState ι α μ :=
  { s with message := fun a' n' p' => if a' = a ∧ n' = n ∧ p' = p then m else s.message a' n' p' }

def setData (s : PhasedState ι α μ) (r : ι) (x : α) : PhasedState ι α μ :=
  { s with data := update s.data r x }

/-- A party that is at the end of an execution starts the next one. -/
def reset (s : PhasedState ι α μ) (r : ι) : Option (PhasedState ι α μ) :=
  if T.numphases r ≤ s.phase r then
    some { s.setData r (C.start r (s.exec r + 1) (s.data r)) with
      exec := update s.exec r (s.exec r + 1)
      phase := update s.phase r 0
      begun := update s.begun r false }
  else none

def begin (s : PhasedState ι α μ) (r : ι) : Option (PhasedState ι α μ) :=
  if s.phase r < T.numphases r ∧ s.begun r = false then
    let t := { s with begun := update s.begun r true }
    some (if (T.dest r (s.exec r) (s.phase r)).isSome then
        t.setMessage r (s.exec r) (s.phase r) { s.message r (s.exec r) (s.phase r) with posted := true }
      else t)
  else none

/-- A party goes on when its send is completed and its message is received. -/
def pass (s : PhasedState ι α μ) (r : ι) : Option (PhasedState ι α μ) :=
  if s.phase r < T.numphases r ∧ s.begun r = true ∧
      ((T.dest r (s.exec r) (s.phase r)).isSome → (s.message r (s.exec r) (s.phase r)).sent = true) ∧
      ∀ a ∈ T.source r (s.exec r) (s.phase r), (s.message a (s.exec r) (s.phase r)).complete = true then
    some { s.setData r (C.postrcv r (s.exec r) (s.phase r) (s.data r)) with
      phase := update s.phase r (s.phase r + 1)
      begun := update s.begun r false }
  else none

def transmit (s : PhasedState ι α μ) (a : ι) (n p : ℕ) : Option (PhasedState ι α μ) :=
  let m := s.message a n p
  if m.posted = true ∧ m.data.isNone then
    some (s.setMessage a n p { m with data := some (C.payload a n p (s.data a)) })
  else none

def sent (s : PhasedState ι α μ) (a : ι) (n p : ℕ) : Option (PhasedState ι α μ) :=
  let m := s.message a n p
  if m.data.isSome ∧ m.sent = false then some (s.setMessage a n p { m with sent := true }) else none

def incoming (s : PhasedState ι α μ) (a : ι) (n p : ℕ) : Option (PhasedState ι α μ) :=
  let m := s.message a n p
  if m.incoming = true then none
  else (T.dest a n p).bind fun b => m.data.map fun x =>
    (s.setMessage a n p { m with incoming := true }).setData b (C.deliver b n p x (s.data b))

def complete (s : PhasedState ι α μ) (a : ι) (n p : ℕ) : Option (PhasedState ι α μ) :=
  let m := s.message a n p
  if m.data.isSome ∧ m.complete = false then some (s.setMessage a n p { m with complete := true })
  else none

def step (s : PhasedState ι α μ) : PhasedEvent ι → Option (PhasedState ι α μ)
  | .reset r => s.reset T C r
  | .begin r => s.begin T r
  | .pass r => s.pass T C r
  | .transmit a n p => s.transmit C a n p
  | .sent a n p => s.sent a n p
  | .incoming a n p => s.incoming T C a n p
  | .complete a n p => s.complete a n p

end PhasedState

/-- When a network lets messages come in, and be received. -/
structure Network (ι α μ : Type*) where
  incoming : PhasedState ι α μ → ι → ℕ → ℕ → Prop
  complete : PhasedState ι α μ → ι → ℕ → ℕ → Prop

def Network.Allows {ι α μ : Type*} (c : Network ι α μ) (s : PhasedState ι α μ) :
    PhasedEvent ι → Prop
  | .incoming a n p => c.incoming s a n p
  | .complete a n p => c.complete s a n p
  | _ => True

variable {ι α μ : Type*}

/-- A message goes through its stages in order. -/
structure PhaseMessage.Ordered (m : PhaseMessage μ) : Prop where
  data : m.data.isSome → m.posted = true
  sent : m.sent = true → m.data.isSome
  incoming : m.incoming = true → m.data.isSome
  complete : m.complete = true → m.data.isSome

namespace PhasedState

/-- What the phases of the parties say about the messages: those are posted whose phase is begun, and who
has passed a phase has sent and received what the tables say. -/
structure Timely (T : PhaseTables ι) (s : PhasedState ι α μ) : Prop where
  phase_le : ∀ r, s.phase r ≤ T.numphases r
  begun_lt : ∀ r, s.begun r = true → s.phase r < T.numphases r
  first : ∀ r, s.exec r = 0 → s.phase r = T.numphases r
  posted : ∀ a n p, (s.message a n p).posted = true ↔ (T.dest a n p).isSome = true ∧ s.Begun a n p
  ordered : ∀ a n p, (s.message a n p).Ordered
  sent : ∀ a n p, s.Passed a n p → (T.dest a n p).isSome = true → (s.message a n p).sent = true
  complete : ∀ a b n p, s.Passed b n p → T.source b n p = some a → (s.message a n p).complete = true

variable {T : PhaseTables ι} {C : PhaseClient ι α μ} {s s' : PhasedState ι α μ} {a b r : ι} {n p q : ℕ}

theorem timely_init (data : ι → α) : Timely T (init T data : PhasedState ι α μ) := by
  have hpas : ∀ r n p, ¬ (init T data : PhasedState ι α μ).Passed r n p := by
    rintro r n p ⟨hpos,hlt | ⟨heq,-⟩⟩
    · exact Nat.not_lt_zero _ hlt
    · exact hpos.ne' heq
  refine ⟨fun _ => le_rfl,fun _ hr => by contradiction,fun _ _ => rfl,fun a n p => ?_,fun a n p => ?_,
    fun a n p h => absurd h (hpas a n p),fun a b n p h => absurd h (hpas b n p)⟩
  · refine iff_of_false Bool.false_ne_true ?_
    rintro ⟨-,h | ⟨-,-,-,h⟩⟩
    · exact hpas a n p h
    · contradiction
  · exact ⟨fun h => by contradiction,fun h => by contradiction,fun h => by contradiction,fun h => by contradiction⟩

theorem Begun.passed (h : s.Begun r n p) (hq : q<p) : s.Passed r n q := by
  obtain ⟨hpos,hlt | ⟨heq,hp⟩⟩ | ⟨hpos,heq,hp,-⟩ := h
  · exact ⟨hpos,.inl hlt⟩
  · exact ⟨hpos,.inr ⟨heq,hq.trans hp⟩⟩
  · exact ⟨hpos,.inr ⟨heq,hp ▸ hq⟩⟩

theorem Begun.passed_earlier {m : ℕ} (h : s.Begun r n p) (hm : 0 < m) (hlt : m<n) :
    s.Passed r m q := by
  obtain ⟨-,hn | ⟨rfl,-⟩⟩ | ⟨-,rfl,-,-⟩ := h
  · exact ⟨hm,.inl (hlt.trans hn)⟩
  · exact ⟨hm,.inl hlt⟩
  · exact ⟨hm,.inl hlt⟩

theorem Begun.pos (h : s.Begun r n p) : 0<n := by
  obtain ⟨hpos,-⟩ | ⟨hpos,-⟩ := h <;> exact hpos

theorem Begun.le_exec (h : s.Begun r n p) : n ≤ s.exec r := by
  obtain ⟨-,hlt | ⟨rfl,-⟩⟩ | ⟨-,rfl,-⟩ := h
  · exact hlt.le
  · exact le_rfl
  · exact le_rfl

theorem Timely.begun_source (h : Timely T s) (hp : s.Passed b n p) (ha : T.source b n p = some a) :
    s.Begun a n p := by
  have hord := h.ordered a n p
  exact ((h.posted a n p).mp (hord.data (hord.complete (h.complete a b n p hp ha)))).2

theorem Timely.le_exec_succ (h : Timely T s) (hbeg : s.Begun a n p)
    (hsou : ∀ m, T.source a m q = some b) : n ≤ s.exec b+1 := by
  obtain hle | hlt := Nat.lt_or_ge n 2
  · omega
  · have hpas : s.Passed a (n-1) q := hbeg.passed_earlier (by omega) (by omega)
    have := (h.begun_source hpas (hsou _)).le_exec
    omega

theorem exec_le_of_not_passed (hn : 0<n) (h : ¬ s.Passed r n p) : s.exec r ≤ n := by
  by_contra hlt
  exact h ⟨hn,.inl (not_le.mp hlt)⟩

theorem Timely.goOn (h : Timely T s) (hmes : s'.message=s.message)
    (hle : ∀ r, s'.phase r ≤ T.numphases r)
    (hlt : ∀ r, s'.begun r = true → s'.phase r < T.numphases r)
    (hfir : ∀ r, s'.exec r = 0 → s'.phase r = T.numphases r)
    (hbeg : ∀ a n p, p < T.numphases a → (s'.Begun a n p ↔ s.Begun a n p))
    (hpas : ∀ r n p, p < T.numphases r → s'.Passed r n p → s.Passed r n p ∨
      ((T.dest r n p).isSome=true → (s.message r n p).sent=true) ∧
        ∀ a, T.source r n p = some a → (s.message a n p).complete=true) : Timely T s' := by
  refine ⟨hle,hlt,hfir,fun a n p => ?_,fun a n p => ?_,fun a n p hp hds => ?_,fun a b n p hp hsou => ?_⟩
  all_goals rw [hmes]
  · rw [h.posted a n p]
    refine and_congr_right fun hds => ?_
    obtain ⟨b,hb⟩ := Option.isSome_iff_exists.mp hds
    exact (hbeg a n p (T.bounded a b n p hb).1).symm
  · exact h.ordered a n p
  · obtain ⟨b,hb⟩ := Option.isSome_iff_exists.mp hds
    obtain hp | ⟨hsn,-⟩ := hpas a n p (T.bounded a b n p hb).1 hp
    · exact h.sent a n p hp hds
    · exact hsn hds
  · have hds := (T.matched a b n p).mpr hsou
    obtain hp | ⟨-,hcom⟩ := hpas b n p (T.bounded a b n p hds).2 hp
    · exact h.complete a b n p hp hsou
    · exact hcom a hsou

section Steps

variable [DecidableEq ι]

theorem setMessage_message (s : PhasedState ι α μ) (a : ι) (n p : ℕ) (m : PhaseMessage μ) :
    (s.setMessage a n p m).message = fun a' n' p' =>
      if a'=a ∧ n'=n ∧ p'=p then m else s.message a' n' p' := rfl

section

variable (h : Timely T s)
include h

theorem Timely.setMessage {m : PhaseMessage μ} (hpst : m.posted=(s.message a n p).posted)
    (hord : m.Ordered) (hsn : (s.message a n p).sent=true → m.sent=true)
    (hcom : (s.message a n p).complete=true → m.complete=true) :
    Timely T (s.setMessage a n p m) := by
  refine ⟨h.phase_le,h.begun_lt,h.first,fun a' n' p' => ?_,fun a' n' p' => ?_,
    fun a' n' p' hpas hds => ?_,fun a' b n' p' hpas hsou => ?_⟩
  all_goals
    rw [setMessage_message]
    simp only
    split
  case refine_1.isTrue heq =>
    obtain ⟨rfl,rfl,rfl⟩ := heq
    rw [hpst]
    exact h.posted a' n' p'
  case refine_1.isFalse => exact h.posted a' n' p'
  case refine_2.isTrue => exact hord
  case refine_2.isFalse => exact h.ordered a' n' p'
  case refine_3.isTrue heq =>
    obtain ⟨rfl,rfl,rfl⟩ := heq
    exact hsn (h.sent a' n' p' hpas hds)
  case refine_3.isFalse => exact h.sent a' n' p' hpas hds
  case refine_4.isTrue heq =>
    obtain ⟨rfl,rfl,rfl⟩ := heq
    exact hcom (h.complete a' b n' p' hpas hsou)
  case refine_4.isFalse => exact h.complete a' b n' p' hpas hsou

theorem Timely.setData (r : ι) (x : α) : Timely T (s.setData r x) :=
  ⟨h.phase_le,h.begun_lt,h.first,h.posted,h.ordered,h.sent,h.complete⟩

theorem Timely.passed_reset (hs : s.reset T C r = some s') (hp : p < T.numphases a) :
    s'.Passed a n p ↔ s.Passed a n p := by
  obtain ⟨hend,rfl⟩ := Option.ite_some_none_eq_some.mp hs
  have hpha : s.phase r = T.numphases r := le_antisymm (h.phase_le r) hend
  simp only [Passed,update_apply]
  split
  case isTrue heq =>
    subst heq
    omega
  case isFalse => rfl

omit h in
theorem passed_pass (hs : s.pass T C r = some s') :
    s'.Passed a n p ↔ s.Passed a n p ∨ (0<n ∧ a=r ∧ n = s.exec a ∧ p = s.phase a) := by
  obtain ⟨-,rfl⟩ := Option.ite_some_none_eq_some.mp hs
  simp only [Passed,update_apply,setData]
  split
  case isTrue heq =>
    subst heq
    simp only [true_and]
    omega
  case isFalse hne => simp [hne]

theorem Timely.reset (hs : s.reset T C r = some s') : Timely T s' := by
  have hpas : ∀ a n p, p<T.numphases a → (s'.Passed a n p ↔ s.Passed a n p) := fun a n p hp => h.passed_reset hs hp
  obtain ⟨hend,rfl⟩ := Option.ite_some_none_eq_some.mp hs
  refine h.goOn rfl (fun a => ?_) (fun a ha => ?_) (fun a ha => ?_) (fun a n p hp => ?_)
    fun a n p hp hpass => .inl ((hpas a n p hp).mp hpass)
  · simp only [update_apply]
    split
    · exact Nat.zero_le _
    · exact h.phase_le a
  · simp only [update_apply] at ha ⊢
    split at ha
    · contradiction
    · rw [if_neg ‹_›]
      exact h.begun_lt a ha
  · simp only [update_apply] at ha ⊢
    split at ha
    · contradiction
    · rw [if_neg ‹_›]
      exact h.first a ha
  · refine or_congr (hpas a n p hp) ?_
    simp only [update_apply]
    split
    case isTrue heq =>
      subst heq
      refine iff_of_false (fun hfal => by simp at hfal) ?_
      rintro ⟨-,-,-,hbeg⟩
      exact absurd (h.begun_lt a hbeg) (by omega)
    case isFalse => rfl

theorem Timely.pass (hs : s.pass T C r = some s') : Timely T s' := by
  have hpas : ∀ a n p, s'.Passed a n p ↔ s.Passed a n p ∨
      (0<n ∧ a=r ∧ n=s.exec a ∧ p=s.phase a) := fun a n p => passed_pass hs
  obtain ⟨⟨hlt,hbeg,hsn,hcom⟩,rfl⟩ := Option.ite_some_none_eq_some.mp hs
  refine h.goOn rfl (fun a => ?_) (fun a ha => ?_) (fun a ha => ?_) (fun a n p _ => ?_)
    fun a n p _ hpass => ?_
  · simp only [update_apply]
    split
    case isTrue heq => exact heq ▸ hlt
    case isFalse => exact h.phase_le a
  · simp only [update_apply] at ha ⊢
    split at ha
    · contradiction
    · rw [if_neg ‹_›]
      exact h.begun_lt a ha
  · simp only [update_apply]
    split
    case isTrue heq => exact absurd (h.first a ha) (by rw [heq]; omega)
    case isFalse => exact h.first a ha
  · rw [Begun,Begun]
    refine (or_congr_left (hpas a n p)).trans ?_
    simp only [update_apply]
    split
    case isTrue heq =>
      subst heq
      simp [hbeg]
    case isFalse hne => simp [hne,PhasedState.setData]
  · obtain hpass | ⟨-,rfl,rfl,rfl⟩ := (hpas a n p).mp hpass
    · exact .inl hpass
    · exact .inr ⟨hsn,fun a ha => hcom a ha⟩

theorem Timely.begin (hs : s.begin T r = some s') : Timely T s' := by
  obtain ⟨⟨hlt,hbeg⟩,rfl⟩ := Option.ite_some_none_eq_some.mp hs
  have hpos : 0 < s.exec r := by
    apply Nat.pos_of_ne_zero
    intro hzr
    exact absurd (h.first r hzr) (by omega)
  have hbgn : ∀ a n p, ({ s with begun := update s.begun r true } : PhasedState ι α μ).Begun a n p ↔
      s.Begun a n p ∨ (a=r ∧ n=s.exec r ∧ p=s.phase r) := by
    intro a n p
    rw [Begun,Begun,or_assoc]
    refine or_congr_right ?_
    simp only [update_apply]
    split
    case isTrue heq =>
      subst heq
      simp only [hbeg,Bool.false_eq_true,and_false,false_or,and_true,true_and]
      constructor
      · rintro ⟨-,hn,hp⟩
        exact ⟨hn,hp⟩
      · rintro ⟨rfl,hp⟩
        exact ⟨hpos,rfl,hp⟩
    case isFalse hne => simp [hne]
  have hbegun_lt : ∀ a, update s.begun r true a=true → s.phase a < T.numphases a := by
    intro a ha
    rw [update_apply] at ha
    split at ha
    case isTrue heq => exact heq ▸ hlt
    case isFalse => exact h.begun_lt a ha
  have hord := h.ordered r (s.exec r) (s.phase r)
  split
  case isFalse hnn =>
    refine ⟨h.phase_le,hbegun_lt,h.first,fun a n p => ?_,h.ordered,h.sent,h.complete⟩
    rw [hbgn a n p]
    refine (h.posted a n p).trans (and_congr_right fun hds => ?_)
    refine (or_iff_left ?_).symm
    rintro ⟨rfl,rfl,rfl⟩
    exact hnn hds
  case isTrue hso =>
    refine ⟨h.phase_le,hbegun_lt,h.first,fun a n p => ?_,fun a n p => ?_,fun a n p hp hds => ?_,
      fun a b n p hp hsou => ?_⟩
    all_goals
      rw [setMessage_message]
      simp only
      split
    case refine_1.isTrue heq =>
      obtain ⟨rfl,rfl,rfl⟩ := heq
      exact iff_of_true rfl ⟨hso,(hbgn a _ _).mpr (.inr ⟨rfl,rfl,rfl⟩)⟩
    case refine_1.isFalse hne =>
      refine (h.posted a n p).trans (and_congr_right fun _ => ?_)
      exact (or_iff_left hne).symm.trans (hbgn a n p).symm
    case refine_2.isTrue => exact ⟨fun _ => rfl,hord.sent,hord.incoming,hord.complete⟩
    case refine_2.isFalse => exact h.ordered a n p
    case refine_3.isTrue heq =>
      obtain ⟨rfl,rfl,rfl⟩ := heq
      exact h.sent a _ _ hp hds
    case refine_3.isFalse => exact h.sent a n p hp hds
    case refine_4.isTrue heq =>
      obtain ⟨rfl,rfl,rfl⟩ := heq
      exact h.complete a b _ _ hp hsou
    case refine_4.isFalse => exact h.complete a b n p hp hsou

theorem Timely.step {e : PhasedEvent ι} (hs : s.step T C e = some s') : Timely T s' := by
  cases e with
  | reset r => exact h.reset hs
  | begin r => exact h.begin hs
  | pass r => exact h.pass hs
  | transmit a n p =>
    obtain ⟨⟨hpst,-⟩,rfl⟩ := Option.ite_some_none_eq_some.mp hs
    have hord := h.ordered a n p
    exact h.setMessage rfl ⟨fun _ => hpst,fun _ => rfl,fun _ => rfl,fun _ => rfl⟩ id id
  | sent a n p =>
    obtain ⟨⟨hda,-⟩,rfl⟩ := Option.ite_some_none_eq_some.mp hs
    have hord := h.ordered a n p
    exact h.setMessage rfl ⟨hord.data,fun _ => hda,hord.incoming,hord.complete⟩ (fun _ => rfl) id
  | incoming a n p =>
    obtain ⟨-,hs⟩ := Option.ite_none_left_eq_some.mp hs
    obtain ⟨b,-,hs⟩ := Option.bind_eq_some_iff.mp hs
    obtain ⟨x,hx,rfl⟩ := Option.map_eq_some_iff.mp hs
    have hord := h.ordered a n p
    have hda : (s.message a n p).data.isSome := by rw [hx]; rfl
    exact (h.setMessage (m := { s.message a n p with incoming := true }) rfl
      ⟨hord.data,hord.sent,fun _ => hda,hord.complete⟩ id id).setData _ _
  | complete a n p =>
    obtain ⟨⟨hda,-⟩,rfl⟩ := Option.ite_some_none_eq_some.mp hs
    have hord := h.ordered a n p
    exact h.setMessage rfl ⟨hord.data,hord.sent,hord.incoming,fun _ => hda⟩ id fun _ => rfl

end

theorem timely_run {data : ι → α} {ok : PhasedState ι α μ → PhasedEvent ι → Prop}
    (h : Run (step T C) ok (init T data) s) : Timely T s :=
  h.invariant (timely_init data) fun _ _ _ hs _ hsp => hs.step hsp

end Steps

end PhasedState

end PAMI.Math

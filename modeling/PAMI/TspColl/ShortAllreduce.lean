import Mathlib.Algebra.BigOperators.Fin
import PAMI.TspColl.Butterfly
import PAMI.TspColl.ExchangeRuns
import PAMI.TspColl.Reduction

namespace PAMI.TspColl

open PAMI.Math Function Option

/-- The data of `Allreduce::Short`. For the statements: which halves of the phase buffers have a message that is not combined,
whether one was lost, and whether the length of a message was not the expected one. -/
structure Short (β : Type*) where
  dbuf : ℕ → β
  nelems : ℕ
  rbufln : ℕ → ℕ
  phasebuf : ℕ → ℕ → ℕ → β
  waiting : ℕ → ℕ → Bool
  overwritten : Bool
  misjudged : Bool

namespace Short

variable {β : Type*}

def MAXBUF : ℕ := 512

/-- The half of a phase buffer for an execution. -/
def half (counter : ℕ) : ℕ := (counter + 1) % 2

/-- A memory that is set to zero but for the contents of the buffers. -/
def new (dbuf : ℕ → β) (phasebuf : ℕ → ℕ → ℕ → β) : Short β where
  dbuf := dbuf
  nelems := 0
  rbufln := fun _ => 0
  phasebuf := phasebuf
  waiting := fun _ _ => false
  overwritten := false
  misjudged := false

def reset (o : Reduction) (c : Buffers β) (x : Short β) : Short β :=
  { x with
    dbuf := if c.inPlace then c.dbuf else copyElements o.count c.sbuf c.dbuf
    nelems := o.count
    rbufln := fun _ => o.bytes }

/-- `cb_switchbuf`, and the data goes to the half that it gives. -/
def cb_switchbuf (o : Reduction) (phase counter : ℕ) (m : LengthMessage β) (x : Short β) : Short β :=
  { x with
    phasebuf := update x.phasebuf phase (update (x.phasebuf phase) (half counter)
      (copyElements (m.bytes / o.sdataWidth) m.value (x.phasebuf phase (half counter))))
    waiting := update x.waiting phase
      (update (x.waiting phase) (half counter) true)
    overwritten := x.overwritten || x.waiting phase (half counter) || decide (MAXBUF < m.bytes) }

/-- `cb_incoming`: `totalRcvln` is the length that the receiver's own execution has. -/
def cb_incoming {N : ℕ} (o : Reduction) (r : Fin N) (phase counter : ℕ) (m : LengthMessage β)
    (x : Short β) : Short β :=
  let x := { x with misjudged := x.misjudged || decide (x.rbufln phase ≠ m.bytes) }
  if combines r phase then x.cb_switchbuf o phase counter m
  else { x with dbuf := copyElements (m.bytes / o.sdataWidth) m.value x.dbuf }

variable [Add β]

def cb_allreduce (phase counter : ℕ) (x : Short β) : Short β :=
  { x with
    dbuf := combine x.nelems x.dbuf (x.phasebuf phase (half counter))
    waiting := update x.waiting phase
      (update (x.waiting phase) (half counter) false) }

/-- What the ranks do in a sequence of allreduces. -/
def client {N : ℕ} (op : ℕ → Reduction) (call : Fin N → ℕ → Buffers β) :
    PhaseClient (Fin N) (Short β) (LengthMessage β) where
  start := fun r n x => x.reset (op n) (call r n)
  payload := fun _ n _ x => ⟨(op n).bytes, x.dbuf⟩
  deliver := fun b n p m x => x.cb_incoming (op n) b p n m
  postrcv := fun r n p x => if combines r p then x.cb_allreduce p n else x

/-- The tables of the constructor and of all executions. -/
def tables (N : ℕ) : PhaseTables (Fin N) where
  numphases := fun _ => rounds N
  dest := fun r _ p => roundDest r p
  source := fun r _ p => roundSource r p
  matched := fun _ _ _ _ => roundDest_iff
  bounded := fun _ _ _ _ h => ⟨lt_rounds_of_roundDest h, lt_rounds_of_roundDest h⟩

end Short

open PhasedState Exchanges

namespace Short

variable {β : Type*} {N : ℕ} {s : PhasedState (Fin N) (Short β) (LengthMessage β)} {r a b : Fin N}
  {n p q : ℕ}

section

variable (ht : Timely (tables N) s)
include ht

theorem begun_of_held (h : s.Held (tables N) (fun _ => True) r n p) :
    ∃ a, roundSource r p = some a ∧ s.Begun a n p := by
  obtain ⟨-,⟨a,ha,hinc⟩,-⟩ := h
  have hord := ht.ordered a n p
  exact ⟨a,ha,((ht.posted a n p).mp (hord.data (hord.incoming hinc))).2⟩

theorem exec_of_held (h : s.Held (tables N) (fun _ => True) r n p) : n = s.exec r ∨ n = s.exec r+1 := by
  obtain ⟨a,ha,hbeg⟩ := begun_of_held ht h
  obtain ⟨q,hq⟩ := exists_roundSource (roundDest_iff.mpr ha)
  have hle := ht.le_exec_succ hbeg fun _ => hq
  have hge := exec_le_of_not_passed hbeg.pos h.2.2
  omega

theorem exec_of_result (hq : combineRounds N ≤ q) (h : s.Held (tables N) (fun _ => True) r n q) :
    n = s.exec r := by
  obtain ⟨a,ha,hbeg⟩ := begun_of_held ht h
  obtain ⟨hpos,hfir,-⟩ := sent_of_rebroadcast hq ha
  have hle := (ht.begun_source (hbeg.passed hpos) hfir).le_exec
  have hge := exec_le_of_not_passed hbeg.pos h.2.2
  omega

theorem read_of_result (hq : combineRounds N ≤ q) (h : s.Held (tables N) (fun _ => True) r n q) {j : ℕ}
    (hds : roundDest r j = some b) : (s.message r n j).data.isSome := by
  obtain ⟨a,ha,hbeg⟩ := begun_of_held ht h
  obtain ⟨hpos,hfir,honly⟩ := sent_of_rebroadcast hq ha
  obtain rfl := honly j b hds
  exact (ht.ordered r n 0).complete (ht.complete r a n 0 (hbeg.passed hpos) hfir)

theorem exec_of_incoming (hsou : roundSource b p = some a) (hda : (s.message a n p).data.isSome)
    (hpas : ¬ s.Passed b n p) : s.Begun a n p ∧ (n = s.exec b ∨ n = s.exec b+1) := by
  have hbeg := ((ht.posted a n p).mp ((ht.ordered a n p).data hda)).2
  obtain ⟨q,hq⟩ := exists_roundSource (roundDest_iff.mpr hsou)
  have hle := ht.le_exec_succ hbeg fun _ => hq
  have hge := exec_le_of_not_passed hbeg.pos hpas
  exact ⟨hbeg,by omega⟩

end

variable [AddCommMonoid β] {known : Prop} {op : ℕ → Reduction} {call : Fin N → ℕ → Buffers β}

/-- The length that a rank expects in an execution. -/
def expected (op : ℕ → Reduction) (n : ℕ) : ℕ := if n = 0 then 0 else (op n).bytes

/-- A message comes in to a rank that expects its length. -/
def sameLength (op : ℕ → Reduction) (s : PhasedState (Fin N) (Short β) (LengthMessage β)) (a : Fin N)
    (n p : ℕ) : Prop :=
  ∀ b ∈ (tables N).dest a n p, expected op (s.exec b) = (op n).bytes

def sendValue (op : ℕ → Reduction) (call : Fin N → ℕ → Buffers β) (a : Fin N) (n p : ℕ) :
    LengthMessage β :=
  ⟨(op n).bytes, fun i =>
    if i < (op n).count then held N (contributions call n i) a p else (call a n).dbuf i⟩

/-- What a rank has at the begin of a round, with the messages that have come in; `known` is that all came in to
ranks that expect their length. -/
structure Holds (known : Prop) (op : ℕ → Reduction) (call : Fin N → ℕ → Buffers β) (r : Fin N) (n p : ℕ)
    (D : ℕ → ℕ → Prop) (x : Short β) : Prop where
  nelems : 0 < n → x.nelems = (op n).count
  rbufln : ∀ q, x.rbufln q = expected op n
  value : 0 < n → (∀ q, combineRounds N ≤ q → ¬ D n q) →
    ∀ i < (op n).count, x.dbuf i = held N (contributions call n i) r p
  result : ∀ q, combineRounds N ≤ q → D n q → ∀ i < (op n).count, x.dbuf i = held N (contributions call n i) r (q + 1)
  frame : 0 < n → ∀ i, (op n).count ≤ i → x.dbuf i = (call r n).dbuf i
  waiting : ∀ m q, q < combineRounds N → D m q → x.waiting q (half m) = true
  phasebuf : ∀ a m q, q < combineRounds N → D m q → roundSource r q = some a →
    ∀ i < (op m).count, x.phasebuf q (half m) i = held N (contributions call m i) a q
  empty : ∀ q c, (q < combineRounds N → ∀ m, half m = c → ¬ D m q) → x.waiting q c = false
  overwritten : x.overwritten = false
  misjudged : known → x.misjudged = false

theorem half_succ_ne (n : ℕ) : half (n+1) ≠ half n := by
  rw [half,half]
  omega

theorem carries_reset (op : ℕ → Reduction) (call : Fin N → ℕ → Buffers β)
    (ho : Orderly (tables N) (fun _ => True) s)
    (h : Holds known op call r (s.exec r) (s.phase r) (s.Held (tables N) (fun _ => True) r) (s.data r)) :
    Holds known op call r (s.exec r+1) 0 (s.Held (tables N) (fun _ => True) r)
      ((s.data r).reset (op (s.exec r+1)) (call r (s.exec r+1))) := by
  refine ⟨fun _ => rfl,fun q => (if_neg (Nat.succ_ne_zero _)).symm,fun _ _ i hi => ?_,
    fun q hq hhl => ?_,fun _ i hi => ?_,h.waiting,h.phasebuf,h.empty,h.overwritten,h.misjudged⟩
  · rw [held_zero,contributions_rank,Buffers.contribution]
    simp only [reset]
    split
    case isTrue => rfl
    case isFalse => exact if_pos hi
  · have := exec_of_result ho.toTimely hq hhl
    omega
  · simp only [reset]
    split
    case isTrue => rfl
    case isFalse => exact if_neg (not_lt.mpr hi)

section

variable (ho : Orderly (tables N) (fun _ => True) s)
include ho

theorem carries_transmit (hbeg : s.begun a = true) (hds : roundDest a (s.phase a) = some b)
    (hnn : (s.message a (s.exec a) (s.phase a)).data=none)
    (h : Holds known op call a (s.exec a) (s.phase a) (s.Held (tables N) (fun _ => True) a) (s.data a)) :
    (⟨(op (s.exec a)).bytes,(s.data a).dbuf⟩ : LengthMessage β) = sendValue op call a (s.exec a) (s.phase a) := by
  have hpos : 0 < s.exec a := by
    apply pos_of_ne_zero
    intro hzr
    exact absurd (ho.first a hzr) (ho.begun_lt a hbeg).ne
  have hno : ∀ q, combineRounds N≤q → ¬ s.Held (tables N) (fun _ => True) a (s.exec a) q := by
    intro q hq hhl
    have hso := read_of_result ho.toTimely hq hhl hds
    rw [hnn] at hso
    contradiction
  refine congrArg (LengthMessage.mk _) (funext fun i => ?_)
  split
  case isTrue hi => exact h.value hpos hno i hi
  case isFalse hi => exact h.frame hpos i (not_lt.mp hi)

theorem carries_combine (hcom : combines r (s.phase r))
    (hhl : s.Held (tables N) (fun _ => True) r (s.exec r) (s.phase r))
    (h : Holds known op call r (s.exec r) (s.phase r) (s.Held (tables N) (fun _ => True) r) (s.data r)) :
    Holds known op call r (s.exec r) (s.phase r+1)
      (fun n p => s.Held (tables N) (fun _ => True) r n p ∧ ¬ (n = s.exec r ∧ p = s.phase r))
      ((s.data r).cb_allreduce (s.phase r) (s.exec r)) := by
  obtain ⟨hp,hsou⟩ := combines_iff.mp hcom
  obtain ⟨a,ha⟩ := isSome_iff_exists.mp hsou
  obtain ⟨b,hb,hbeg⟩ := begun_of_held ho.toTimely hhl
  have hpos := hbeg.pos
  have hlow : ∀ m q, combineRounds N≤q → ¬ s.Held (tables N) (fun _ => True) r m q := by
    intro m q hq hD
    obtain ⟨c,hc,-⟩ := begun_of_held ho.toTimely hD
    exact absurd (rebroadcast_round hq hc).2 (not_le.mpr (lt_maxBF_of_combines hcom))
  refine ⟨h.nelems,h.rbufln,fun _ _ i hi => ?_,fun q hq hD => absurd hD.1 (hlow _ q hq),
    fun _ i hi => ?_,fun m q hq hD => ?_,fun c m q hq hD => h.phasebuf c m q hq hD.1,
    fun q c hemp => ?_,h.overwritten,h.misjudged⟩
  · have hval := h.value hpos (fun q hq => hlow _ q hq) i hi
    have hrec := h.phasebuf a _ _ hp hhl ha i hi
    rw [held_combine _ hp ha,← hval,← hrec]
    simp only [cb_allreduce,combine,h.nelems hpos,if_pos hi]
  · have hfra := h.frame hpos i hi
    simp only [cb_allreduce,combine,h.nelems hpos,if_neg (not_lt.mpr hi),hfra]
  · have hwtn := h.waiting m q hq hD.1
    simp only [cb_allreduce,update_apply]
    split
    case isFalse => exact hwtn
    case isTrue heq =>
      subst heq
      rw [update_apply,if_neg]
      · exact hwtn
      · intro hhalf
        obtain rfl | rfl := exec_of_held ho.toTimely hD.1
        · exact hD.2 ⟨rfl,rfl⟩
        · exact half_succ_ne _ hhalf
  · simp only [cb_allreduce,update_apply]
    split
    case isTrue heq =>
      subst heq
      rw [update_apply]
      split
      case isTrue => rfl
      case isFalse hne =>
        refine h.empty _ c fun hq m hm hD => hemp hq m hm ⟨hD,?_⟩
        rintro ⟨rfl,-⟩
        exact hne hm.symm
    case isFalse hne => exact h.empty q c fun hq m hm hD => hemp hq m hm ⟨hD,fun heq => hne heq.2⟩

theorem carries_keep (hlt : s.phase r < rounds N) (hcom : ¬ combines r (s.phase r))
    (hhl : ∀ a, roundSource r (s.phase r) = some a → s.Held (tables N) (fun _ => True) r (s.exec r) (s.phase r))
    (h : Holds known op call r (s.exec r) (s.phase r) (s.Held (tables N) (fun _ => True) r) (s.data r)) :
    Holds known op call r (s.exec r) (s.phase r+1)
      (fun n p => s.Held (tables N) (fun _ => True) r n p ∧ ¬ (n = s.exec r ∧ p = s.phase r))
      (s.data r) := by
  refine ⟨h.nelems,h.rbufln,fun hpos hno i hi => ?_,fun q hq hD => h.result q hq hD.1,
    h.frame,fun m q hq hD => h.waiting m q hq hD.1,fun c m q hq hD => h.phasebuf c m q hq hD.1,
    fun q c hemp => h.empty q c fun hq m hm hD => hemp hq m hm ⟨hD,?_⟩,h.overwritten,h.misjudged⟩
  · cases hsou : roundSource r (s.phase r) with
    | none =>
      rw [held_keep _ hlt hsou]
      refine h.value hpos (fun q hq hD => hno q hq ⟨hD,?_⟩) i hi
      rintro ⟨-,rfl⟩
      obtain ⟨a,ha,-⟩ := begun_of_held ho.toTimely hD
      rw [hsou] at ha
      contradiction
    | some a =>
      have hp : combineRounds N ≤ s.phase r := by
        by_contra hp
        exact hcom (combines_iff.mpr ⟨not_le.mp hp,isSome_of_eq_some hsou⟩)
      exact h.result _ hp (hhl a hsou) i hi
  · rintro ⟨-,rfl⟩
    obtain ⟨a,ha,-⟩ := begun_of_held ho.toTimely hD
    exact hcom (combines_iff.mpr ⟨hq,isSome_of_eq_some ha⟩)

theorem carries_switchbuf (hmax : (op n).bytes≤MAXBUF) (hcom : combines b p)
    (hsou : roundSource b p = some a) (hda : (s.message a n p).data.isSome) (hpas : ¬ s.Passed b n p)
    (hfre : ¬ s.Held (tables N) (fun _ => True) b n p) {x : Short β}
    (h : Holds known op call b (s.exec b) (s.phase b) (s.Held (tables N) (fun _ => True) b) x) :
    Holds known op call b (s.exec b) (s.phase b)
      (fun n' p' => s.Held (tables N) (fun _ => True) b n' p' ∨ (n'=n ∧ p'=p))
      (x.cb_switchbuf (op n) p n (sendValue op call a n p)) := by
  obtain ⟨hp,-⟩ := combines_iff.mp hcom
  have hnow := (exec_of_incoming ho.toTimely hsou hda hpas).2
  have hhalf : ∀ m, s.Held (tables N) (fun _ => True) b m p → half m ≠ half n := by
    intro m hD heq
    have hm := exec_of_held ho.toTimely hD
    have hne : m≠n := by
      rintro rfl
      exact hfre hD
    rw [half,half] at heq
    omega
  have hlate : ∀ m q, combineRounds N≤q → (s.Held (tables N) (fun _ => True) b m q ∨ (m=n ∧ q=p)) →
      s.Held (tables N) (fun _ => True) b m q := by
    rintro m q hq (hD | ⟨-,rfl⟩)
    · exact hD
    · omega
  refine ⟨h.nelems,h.rbufln,fun hpos hno => h.value hpos fun q hq hD => hno q hq (.inl hD),
    fun q hq hD => h.result q hq (hlate _ q hq hD),h.frame,fun m q hq hD => ?_,
    fun c m q hq hD hc i hi => ?_,fun q c hemp => ?_,?_,h.misjudged⟩
  · simp only [cb_switchbuf,update_apply]
    split
    case isFalse hne => exact h.waiting m q hq (hD.resolve_right fun heq => hne heq.2)
    case isTrue heq =>
      subst heq
      rw [update_apply]
      split
      case isTrue => rfl
      case isFalse hne =>
        refine h.waiting m q hq (hD.resolve_right fun heq => hne ?_)
        rw [heq.1]
  · simp only [cb_switchbuf,update_apply]
    split
    case isFalse hne => exact h.phasebuf c m q hq (hD.resolve_right fun heq => hne heq.2) hc i hi
    case isTrue heq =>
      subst heq
      rw [update_apply]
      split
      case isTrue heq =>
        obtain rfl : m=n := by
          obtain hD | ⟨rfl,-⟩ := hD
          · exact absurd heq (hhalf m hD)
          · rfl
        obtain rfl := some.inj (hc.symm.trans hsou)
        have hcou : i<(sendValue op call c m q).bytes/(op m).sdataWidth := hi
        rw [copyElements,if_pos hcou]
        exact if_pos hi
      case isFalse hne =>
        refine h.phasebuf c m q hq (hD.resolve_right fun heq => hne ?_) hc i hi
        rw [heq.1]
  · simp only [cb_switchbuf,update_apply]
    split
    case isFalse hne => exact h.empty q c fun hq m hm hD => hemp hq m hm (.inl hD)
    case isTrue heq =>
      subst heq
      rw [update_apply]
      split
      case isTrue heq => exact absurd (.inr ⟨rfl,rfl⟩) (hemp hp n heq.symm)
      case isFalse => exact h.empty q c fun hq m hm hD => hemp hq m hm (.inl hD)
  · have hfr := h.empty p (half n) fun _ m hm hD => hhalf m hD hm
    have hft : ¬ MAXBUF<(sendValue op call a n p).bytes := not_lt.mpr hmax
    simp only [cb_switchbuf,h.overwritten,hfr,decide_eq_false hft,Bool.or_false]

theorem carries_result (hp : combineRounds N ≤ p) (hsou : roundSource b p = some a)
    (hda : (s.message a n p).data.isSome) (hpas : ¬ s.Passed b n p) {x : Short β}
    (h : Holds known op call b (s.exec b) (s.phase b) (s.Held (tables N) (fun _ => True) b) x) :
    Holds known op call b (s.exec b) (s.phase b)
      (fun n' p' => s.Held (tables N) (fun _ => True) b n' p' ∨ (n'=n ∧ p'=p))
      { x with
        dbuf := copyElements ((sendValue op call a n p).bytes/(op n).sdataWidth)
          (sendValue op call a n p).value x.dbuf } := by
  obtain ⟨hbeg,-⟩ := exec_of_incoming ho.toTimely hsou hda hpas
  obtain ⟨hpos,hfir,-⟩ := sent_of_rebroadcast hp hsou
  have hle := (ho.toTimely.begun_source (hbeg.passed hpos) hfir).le_exec
  have hge := exec_le_of_not_passed hbeg.pos hpas
  obtain rfl : n=s.exec b := le_antisymm hle hge
  have hear : ∀ m q, q < combineRounds N → (s.Held (tables N) (fun _ => True) b m q ∨ (m=s.exec b ∧ q=p)) →
      s.Held (tables N) (fun _ => True) b m q := by
    rintro m q hq (hD | ⟨-,rfl⟩)
    · exact hD
    · omega
  refine ⟨h.nelems,h.rbufln,fun _ hno => absurd (.inr ⟨rfl,rfl⟩) (hno p hp),fun q hq hD i hi => ?_,
    fun hpos i hi => ?_,fun m q hq hD => h.waiting m q hq (hear m q hq hD),
    fun c m q hq hD => h.phasebuf c m q hq (hear m q hq hD),
    fun q c hemp => h.empty q c fun hq m hm hD => hemp hq m hm (.inl hD),h.overwritten,h.misjudged⟩
  · obtain rfl : q=p := by
      obtain hD | ⟨-,rfl⟩ := hD
      · obtain ⟨c,hc,-⟩ := begun_of_held ho.toTimely hD
        rw [(rebroadcast_round hq hc).1,(rebroadcast_round hp hsou).1]
      · rfl
    have hcou : i<(sendValue op call a (s.exec b) q).bytes/(op (s.exec b)).sdataWidth := hi
    simp only [copyElements,if_pos hcou]
    rw [held_rebroadcast _ hq hsou]
    exact if_pos hi
  · have hcou : ¬ i<(sendValue op call a (s.exec b) p).bytes/(op (s.exec b)).sdataWidth := not_lt.mpr hi
    simp only [copyElements,if_neg hcou]
    exact h.frame hpos i hi

end

theorem Holds.judge {D : ℕ → ℕ → Prop} {x : Short β} {r : Fin N} (h : Holds known op call r n p D x) {m : Bool}
    (hm : known → m=false) : Holds known op call r n p D { x with misjudged := x.misjudged || m } :=
  ⟨h.nelems,h.rbufln,h.value,h.result,h.frame,h.waiting,h.phasebuf,h.empty,h.overwritten,
    fun hkno => by simp only [h.misjudged hkno,hm hkno,Bool.or_false]⟩

theorem carries (known : Prop) (op : ℕ → Reduction) (call : Fin N → ℕ → Buffers β)
    (hmax : ∀ n, (op n).bytes≤MAXBUF) :
    Carries (tables N) (client op call) (fun s a n p => known → sameLength op s a n p) (fun _ => True) (sendValue op call)
      (Holds known op call) where
  reset := fun s r ho _ h => carries_reset op call ho h
  pass := by
    intro s r ho hlt hhl h
    simp only [client]
    split
    case isTrue hcom =>
      obtain ⟨a,ha⟩ := isSome_iff_exists.mp (combines_iff.mp hcom).2
      exact carries_combine ho hcom (hhl a trivial ha) h
    case isFalse hcom => exact carries_keep ho hlt hcom (fun a ha => hhl a trivial ha) h
  transmit := fun s a b ho hbeg hds hnn h => carries_transmit ho hbeg hds hnn h
  incoming := by
    intro s a b n p ho hlng _ hds hda hpas hfre h
    have hsou : roundSource b p = some a := roundDest_iff.mp hds
    have hso := isSome_of_eq_some hda
    have hjud : known → decide ((s.data b).rbufln p≠(sendValue op call a n p).bytes)=false := by
      intro hkno
      rw [decide_eq_false_iff_not,not_not,h.rbufln]
      exact hlng hkno b hds
    simp only [client,cb_incoming]
    split
    case isTrue hcom => exact carries_switchbuf ho (hmax n) hcom hsou hso hpas hfre (h.judge hjud)
    case isFalse hcom =>
      have hp : combineRounds N≤p := by
        by_contra hp
        exact hcom (combines_iff.mpr ⟨not_le.mp hp,isSome_of_eq_some hsou⟩)
      exact carries_result ho hp hsou hso hpas (h.judge hjud)
  plain := fun _ _ _ _ _ h => absurd trivial h

theorem holds_new (known : Prop) (op : ℕ → Reduction) (call : Fin N → ℕ → Buffers β) (r : Fin N) (dbuf : ℕ → β)
    (phasebuf : ℕ → ℕ → ℕ → β) :
    Holds known op call r 0 (rounds N) (fun _ _ => False) (new dbuf phasebuf) :=
  ⟨fun h => absurd h (lt_irrefl 0),fun _ => rfl,fun h => absurd h (lt_irrefl 0),
    fun _ _ h => h.elim,fun h => absurd h (lt_irrefl 0),fun _ _ _ h => h.elim,
    fun _ _ _ _ h => h.elim,fun _ _ _ => rfl,rfl,fun _ => rfl⟩

theorem carried_allreduce (known : Prop) (hmax : ∀ n, (op n).bytes≤MAXBUF) {dbuf : Fin N → ℕ → β}
    {phasebuf : Fin N → ℕ → ℕ → ℕ → β} {s : Exchanges (Fin N) (Short β) (LengthMessage β)}
    (h : Run (Exchanges.step (tables N) (client op call)) (fun s e => s.Fifo e ∧
        s.ArrivesIf (fun s a n p => known → sameLength op s a n p) (tables N) e)
      (Exchanges.new (tables N) fun r => new (dbuf r) (phasebuf r)) s) :
    (∀ r, (s.rank r).failed=false) ∧ Orderly (tables N) (fun _ => True) (s.phased (tables N)) ∧
      Carried (tables N) (fun _ => True) (sendValue op call) (Holds known op call)
        (s.phased (tables N)) := by
  obtain ⟨hex,-⟩ := exchanging_run (inTurn_run (fun _ _ _ _ => rfl) h)
  exact ⟨fun r => (hex.counts r).failed,carried_run (carries known op call hmax)
    (fun r => holds_new known op call r _ _) hex.run⟩

/-- A sequence of allreduces over an ordered network: each result has the contribution of each rank once, no message is
overwritten, and lengths that are expected are those of the messages' own executions. -/
theorem allreduce_runs (op : ℕ → Reduction) (call : Fin N → ℕ → Buffers β)
    (hmax : ∀ n, (op n).bytes ≤ MAXBUF) (dbuf : Fin N → ℕ → β) (phasebuf : Fin N → ℕ → ℕ → ℕ → β)
    (s : Exchanges (Fin N) (Short β) (LengthMessage β))
    (h : Run (Exchanges.step (tables N) (client op call)) (fun s e => s.Fifo e)
      (Exchanges.new (tables N) fun r => new (dbuf r) (phasebuf r)) s) :
    (∀ r, 0 < (s.rank r).counter → rounds N ≤ (s.rank r).phase → (∀ i < (op (s.rank r).counter).count,
          (s.rank r).data.dbuf i = ∑ a, (call a (s.rank r).counter).contribution i) ∧
        ∀ i, (op (s.rank r).counter).count ≤ i → (s.rank r).data.dbuf i = (call r (s.rank r).counter).dbuf i) ∧
      (∀ r, (s.rank r).data.overwritten = false) ∧ (∀ r, (s.rank r).failed = false) ∧
      (Run (Exchanges.step (tables N) (client op call))
          (fun s e => s.Fifo e ∧ s.ArrivesIf (sameLength op) (tables N) e)
          (Exchanges.new (tables N) fun r => new (dbuf r) (phasebuf r)) s →
        ∀ r, (s.rank r).data.misjudged = false) := by
  obtain ⟨hfai,ho,hcar⟩ := carried_allreduce False hmax
    (h.imp fun s e hok => ⟨hok,(arrivesIf_true e).imp fun _ _ _ _ hfal => hfal.elim⟩)
  refine ⟨fun r hpos hend => ⟨fun i hi => ?_,(hcar.party r).frame hpos⟩,
    fun r => (hcar.party r).overwritten,hfai,fun hkno r => ?_⟩
  · have hpha : (s.phased (tables N)).phase r = rounds N := min_eq_right hend
    have hno : ∀ q, combineRounds N≤q →
        ¬ (s.phased (tables N)).Held (tables N) (fun _ => True) r (s.rank r).counter q := by
      intro q _ hhl
      obtain ⟨a,ha,hbeg⟩ := begun_of_held ho.toTimely hhl
      refine hhl.2.2 ⟨hpos,.inr ⟨rfl,?_⟩⟩
      rw [hpha]
      exact lt_rounds_of_roundDest (roundDest_iff.mpr ha)
    have hval := (hcar.party r).value hpos hno i hi
    rw [hpha,held_rounds,Finset.sum_range] at hval
    exact hval.trans (Finset.sum_congr rfl fun a _ => contributions_rank call _ i a)
  · obtain ⟨-,-,hcar⟩ := carried_allreduce True hmax
      (hkno.imp fun s e hok => ⟨hok.1,hok.2.imp fun _ _ _ hlng _ => hlng⟩)
    exact (hcar.party r).misjudged trivial

instance (op : ℕ → Reduction) (s : Exchanges (Fin N) (Short β) (LengthMessage β))
    (e : ExchangeEvent (Fin N)) : Decidable (s.ArrivesIf (sameLength op) (tables N) e) :=
  match e with
  | .incoming a n p =>
    inferInstanceAs (Decidable (∀ b ∈ (tables N).dest a n p,
      expected op ((s.phased (tables N)).exec b) = (op n).bytes))
  | .start _ => isTrue trivial
  | .transmit _ _ _ => isTrue trivial
  | .senddone _ _ _ => isTrue trivial
  | .recvcomplete _ _ _ => isTrue trivial

/-- One element in the first execution, and two in the later ones. -/
def growing (n : ℕ) : Reduction := ⟨if n = 1 then 1 else 2, 1, 1⟩

theorem growing_le (n : ℕ) : (growing n).bytes≤MAXBUF := by
  simp only [growing,Reduction.bytes,MAXBUF]
  split <;> decide

def indices (r : Fin 2) (_ : ℕ) : Buffers ℕ := ⟨fun _ => r, fun _ => 0, false⟩

def start : Exchanges (Fin 2) (Short ℕ) (LengthMessage ℕ) :=
  Exchanges.new (tables 2) fun _ => new (fun _ => 0) fun _ _ _ => 0

def firstAllreduce : List (ExchangeEvent (Fin 2)) :=
  [.start ⟨0, Nat.zero_lt_two⟩, .start ⟨1, Nat.one_lt_two⟩, .transmit ⟨0, Nat.zero_lt_two⟩ 1 0,
    .transmit ⟨1, Nat.one_lt_two⟩ 1 0, .senddone ⟨0, Nat.zero_lt_two⟩ 1 0, .senddone ⟨1, Nat.one_lt_two⟩ 1 0,
    .incoming ⟨0, Nat.zero_lt_two⟩ 1 0, .recvcomplete ⟨0, Nat.zero_lt_two⟩ 1 0]

theorem allreduce_runs_two : ∃ s : Exchanges (Fin 2) (Short ℕ) (LengthMessage ℕ),
    (s.rank ⟨1, by decide⟩).counter = 1 ∧ (s.rank ⟨1, by decide⟩).data.dbuf 0 = 1 ∧
      (s.rank ⟨1, by decide⟩).data.misjudged = false := by
  have heve : (execEvents (fun s e =>
      if s.Fifo e ∧ s.ArrivesIf (sameLength growing) (tables 2) e then
        s.step (tables 2) (client growing indices) e else none) firstAllreduce start).map
      (fun s => ((s.rank ⟨1,by decide⟩).counter, (s.rank ⟨1,by decide⟩).phase)) = some (1, 2) := by
    decide
  obtain ⟨s,hs,hend⟩ := map_eq_some_iff.mp heve
  obtain ⟨hcnt,hpha⟩ := Prod.mk.inj hend
  have hrun := Run.refl.checked _ hs
  obtain ⟨hres,-,-,hjud⟩ := allreduce_runs growing indices growing_le _ _ s (hrun.imp fun _ _ hok => hok.1)
  refine ⟨s,hcnt,?_,hjud hrun _⟩
  have hsum := (hres ⟨1,by decide⟩ (by rw [hcnt]; decide) (by rw [hpha]; decide)).1 0
    (by rw [hcnt]; decide)
  rw [hcnt] at hsum
  exact hsum

/-- A message of the next execution comes in to a rank that expects the length of this one. -/
theorem early_length : ¬ ∀ s : Exchanges (Fin 2) (Short ℕ) (LengthMessage ℕ),
    Run (Exchanges.step (tables 2) (client growing indices)) (fun s e => s.Fifo e) start s →
      ∀ r, (s.rank r).data.misjudged = false := by
  intro hall
  have heve : (execEvents (fun s e => if s.Fifo e then
      s.step (tables 2) (client growing indices) e else none)
      (firstAllreduce ++ [.incoming ⟨1,by decide⟩ 1 0,.recvcomplete ⟨1,by decide⟩ 1 0,
        .start ⟨1,by decide⟩,.transmit ⟨1,by decide⟩ 2 0,.incoming ⟨1,by decide⟩ 2 0]) start).map
      (fun s => (s.rank ⟨0,by decide⟩).data.misjudged) = some true := by decide
  obtain ⟨s,hs,hmis⟩ := map_eq_some_iff.mp heve
  have hfal := hall s (Run.refl.checked _ hs) ⟨0,by decide⟩
  rw [hmis] at hfal
  contradiction

end Short

end PAMI.TspColl

import Mathlib.Data.BitVec
import PAMI.Math.Runs

namespace PAMI.Executor

open Option Nat

variable {ι : Type*} {e : BarrierExec}

/-- The schedule of one rank, as `ScheduleCache` keeps it. -/
structure ScheduleCache (ι : Type*) where
  start : ℕ
  nphases : ℕ
  srcTopology : ℕ → List ι
  dstTopology : ℕ → List ι

def ScheduleCache.finish (c : ScheduleCache ι) : ℕ := c.start + c.nphases

/-- `CCMI_BARRIER_MAXPHASES`. -/
def maxPhases : ℕ := 24

/-- `BarrierExec`: its two rows of counters are indexed by the bit of the iteration. -/
structure BarrierExec where
  iteration : Bool
  phase : ℕ
  senddone : Bool
  phasevec : ℕ → Bool → BitVec 8

/-- What a handler does besides changing the executor: nothing, a multicast of the phase and the
bit of the iteration, or the call of the done callback. At the end of the multicast the transport
calls the executor, or the done callback itself. -/
inductive Effect where
  | quiet
  | multicast (phase : ℕ) (iteration : Bool) (app : Bool)
  | done
  deriving DecidableEq, Repr

namespace BarrierExec

/-- The constructor with `setCommSchedule` and its assertion. -/
def setCommSchedule (c : ScheduleCache ι) : Option BarrierExec :=
  if c.start + c.nphases ≤ maxPhases then some ⟨false, c.start + c.nphases, false, fun _ _ => 0⟩
  else none

section Handlers

variable (signed : Bool) (c : ScheduleCache ι)

/-- The test `<= 0` of a counter; it depends on the platform whether a `char` is signed. -/
def nonpos (x : BitVec 8) : Bool := if signed then x.toInt ≤ 0 else x.toNat ≤ 0

/-- `internalNotifySendDone`, given what `sendNext` does. -/
def internalNotifySendDone (sendNext : BarrierExec → Option (BarrierExec × Effect))
    (e : BarrierExec) : Option (BarrierExec × Effect) :=
  if nonpos signed (e.phasevec e.phase e.iteration) then
    sendNext { e with senddone := true, phase := e.phase + 1 }
  else some ({ e with senddone := true }, .quiet)

/-- `sendNext`, with as much fuel as there may be phases without a destination; `none` for its
assertion. After the done callback it clears `_senddone`. -/
@[grind =] def sendNext : ℕ → BarrierExec → Option (BarrierExec × Effect)
  | 0, _ => none
  | fuel + 1, e =>
    if e.phase ≤ c.start + c.nphases then
      if e.phase = c.start + c.nphases then some (e, .done)
      else if c.dstTopology e.phase ≠ [] then
        if e.phase = c.start + c.nphases - 1 ∧ nonpos signed (e.phasevec e.phase e.iteration) then
          some ({ e with senddone := false, phase := e.phase + 1 }, .multicast e.phase e.iteration true)
        else some ({ e with senddone := false }, .multicast e.phase e.iteration false)
      else internalNotifySendDone signed (sendNext fuel) { e with senddone := false }
    else none

/-- The fuel a call of `sendNext` gets. -/
def fuel : ℕ := c.nphases + 1

/-- The next iteration, with the messages it expects added to its row. -/
def reset (e : BarrierExec) : BarrierExec := ⟨!e.iteration, c.start, false, fun p b =>
    if c.start ≤ p ∧ p < c.start + c.nphases ∧ b = !e.iteration then
      e.phasevec p b + BitVec.ofNat 8 (c.srcTopology p).length
    else e.phasevec p b⟩

/-- `resetVector`, with its assertion. -/
def resetVector (e : BarrierExec) : Option BarrierExec :=
  if e.phase = c.start + c.nphases then some (reset c e) else none

def start (e : BarrierExec) : Option (BarrierExec × Effect) := (resetVector c e).bind (sendNext signed c (fuel c))

def count (phase : ℕ) (iteration : Bool) (e : BarrierExec) : BarrierExec :=
  { e with phasevec := fun p b =>
      if p = phase ∧ b = iteration then e.phasevec p b - 1 else e.phasevec p b }

/-- `notifyRecv` for a message of a phase and a bit of an iteration. -/
def notifyRecv (phase : ℕ) (iteration : Bool) (e : BarrierExec) :
    Option (BarrierExec × Effect) :=
  let e := count phase iteration e
  if e.phase = c.start + c.nphases then some (e, .quiet)
  else if nonpos signed (e.phasevec e.phase e.iteration) ∧ e.senddone then
    sendNext signed c (fuel c) { e with phase := e.phase + 1 }
  else some (e, .quiet)

end Handlers

section SendNext

variable {signed : Bool} {c : ScheduleCache ι}

/-- How `sendNext` ends: with the done callback, in a phase without destinations that lacks a
message, in a phase it has sent, or behind the last phase, which it has sent. It has skipped the
phases before. -/
inductive Ends (signed : Bool) (c : ScheduleCache ι) (e e' : BarrierExec) : Effect → Prop
  | done (h : e'.phase = c.finish)
      (hskip : ∀ p, e.phase ≤ p → p < c.finish → c.dstTopology p = []) : Ends signed c e e' .done
  | waits (h : e'.phase < c.finish) (hs : e'.senddone = true)
      (hlac : nonpos signed (e'.phasevec e'.phase e'.iteration) = false)
      (hskip : ∀ p, e.phase ≤ p → p ≤ e'.phase → c.dstTopology p = []) : Ends signed c e e' .quiet
  | sends (h : e'.phase < c.finish) (hs : e'.senddone = false)
      (hskip : ∀ p, e.phase ≤ p → p < e'.phase → c.dstTopology p = []) :
      Ends signed c e e' (.multicast e'.phase e.iteration false)
  | sendsLast (p : ℕ) (hp : e.phase ≤ p) (h : e'.phase = p + 1) (hf : e'.phase = c.finish)
      (hs : e'.senddone = false)
      (hskip : ∀ q, e.phase ≤ q → q < p → c.dstTopology q = []) :
      Ends signed c e e' (.multicast p e.iteration true)

/-- `sendNext` goes on to a later phase, past phases whose messages have all arrived. -/
structure Advances (signed : Bool) (c : ScheduleCache ι) (e e' : BarrierExec) : Prop where
  iteration : e'.iteration = e.iteration
  phasevec : e'.phasevec = e.phasevec
  le : e.phase ≤ e'.phase
  le_finish : e'.phase ≤ c.finish
  arrived : ∀ p, e.phase ≤ p → p < e'.phase → nonpos signed (e.phasevec p e.iteration) = true

theorem sendNext_spec (signed : Bool) (n : ℕ) (hn : c.finish-e.phase<n) (hle : e.phase ≤ c.finish) :
    ∃ e' eff, sendNext signed c n e = some (e', eff) ∧ Advances signed c e e' ∧ Ends signed c e e' eff := by
  induction n generalizing e with
  | zero => exact absurd hn (Nat.not_lt_zero _)
  | succ n ih =>
    rw [sendNext,if_pos (show e.phase ≤ c.start+c.nphases from hle)]
    by_cases hf : e.phase=c.start+c.nphases
    · rw [if_pos hf]
      refine ⟨e,.done,rfl,⟨rfl,rfl,le_refl _,hle,fun p h1 h2 => by omega⟩,.done hf ?_⟩
      intro p h1 h2
      have hfin : c.finish=c.start+c.nphases := rfl
      omega
    · have hlt : e.phase < c.finish := lt_of_le_of_ne hle hf
      rw [if_neg hf]
      by_cases hdst : c.dstTopology e.phase = []
      · rw [if_neg (not_not.mpr hdst),internalNotifySendDone]
        by_cases hv : nonpos signed (e.phasevec e.phase e.iteration)=true
        · rw [if_pos hv]
          obtain ⟨e',eff,hrun,hadv,hen⟩ :=
            ih (e := { e with senddone := true, phase := e.phase+1 }) (by simp only; omega)
              (by simp only; omega)
          have hskip : ∀ q, (∀ p, e.phase+1≤p → p<q → c.dstTopology p = []) →
              ∀ p, e.phase≤p → p<q → c.dstTopology p = [] := by
            intro q h p h1 h2
            rcases eq_or_lt_of_le h1 with rfl | h1
            · exact hdst
            · exact h p h1 h2
          refine ⟨e',eff,hrun,⟨hadv.iteration,hadv.phasevec,?_,hadv.le_finish,?_⟩,?_⟩
          · exact le_trans (le_succ _) hadv.le
          · intro p h1 h2
            rcases eq_or_lt_of_le h1 with rfl | h1
            · exact hv
            · exact hadv.arrived p h1 h2
          · cases hen with
            | done h hs => exact .done h (hskip _ hs)
            | waits h hs hl hk =>
              refine .waits h hs hl fun p h1 h2 => ?_
              exact hskip (e'.phase+1) (fun p h1 h2 => hk p h1 (le_of_lt_succ h2)) p h1
                (lt_succ_of_le h2)
            | sends h hs hk => exact .sends h hs (hskip _ hk)
            | sendsLast p hp h hf hs hk => exact .sendsLast p (le_trans (le_succ _) hp) h hf hs (hskip _ hk)
        · rw [if_neg hv]
          refine ⟨_,.quiet,rfl,⟨rfl,rfl,le_refl _,hle,fun p h1 h2 => ?_⟩,
            .waits hlt rfl (by simpa using hv) fun p h1 h2 => ?_⟩
          · exact absurd h2 (not_lt.mpr h1)
          · rw [le_antisymm h2 h1]
            exact hdst
      · rw [if_pos hdst]
        by_cases hla : e.phase=c.start+c.nphases-1 ∧ nonpos signed (e.phasevec e.phase e.iteration)=true
        · rw [if_pos hla]
          refine ⟨_,_,rfl,⟨rfl,rfl,le_succ _,hlt,fun p h1 h2 => ?_⟩,
            .sendsLast e.phase (le_refl _) rfl ?_ rfl fun q h1 h2 => ?_⟩
          · rw [le_antisymm (le_of_lt_succ h2) h1]
            exact hla.2
          · have hfin : c.finish=c.start+c.nphases := rfl
            show e.phase+1=c.finish
            omega
          · exact absurd h2 (not_lt.mpr h1)
        · rw [if_neg hla]
          refine ⟨{ e with senddone := false },_,rfl,
            ⟨rfl,rfl,le_refl _,hle,fun p h1 h2 => ?_⟩,.sends hlt rfl fun p h1 h2 => ?_⟩
          · exact absurd h2 (not_lt.mpr h1)
          · exact absurd h2 (not_lt.mpr h1)

theorem of_sendNext {r : BarrierExec × Effect} (h : sendNext signed c (fuel c) e = some r)
    (hlow : c.start≤e.phase) : e.phase ≤ c.finish ∧ Advances signed c e r.1 ∧ Ends signed c e r.1 r.2 := by
  have hle : e.phase ≤ c.finish := by
    by_contra hgt
    have hno : ¬ e.phase ≤ c.start+c.nphases := hgt
    rw [fuel,sendNext,if_neg hno] at h
    cases h
  obtain ⟨e',eff,hrun,hadv,hen⟩ := sendNext_spec signed (fuel c)
    (show c.finish-e.phase < c.nphases+1 by
      have hfin : c.finish=c.start+c.nphases := rfl
      omega) hle
  obtain rfl := some.inj (h.symm.trans hrun)
  exact ⟨hle,hadv,hen⟩

end SendNext

end BarrierExec

/-- An executor and what is under way around it: multicasts that are to end with a call of it or of the done callback, and the
done callbacks that have not returned. It also counts the calls of `start` and of the done callback. -/
structure Rank where
  exec : BarrierExec
  own : ℕ
  app : ℕ
  callbacks : ℕ
  starts : ℕ
  dones : ℕ

/-- What can happen to an executor. -/
inductive Event where
  | start
  | notifyRecv (phase : ℕ) (iteration : Bool)
  | sendDone
  | appDone
  | callbackReturns
  deriving DecidableEq, Repr

namespace Rank

/-- The new executor and the effect of a handler. -/
def put (s : Rank) (r : BarrierExec × Effect) : Rank :=
  match r.2 with
  | .quiet => { s with exec := r.1 }
  | .multicast _ _ false => { s with exec := r.1, own := s.own + 1 }
  | .multicast _ _ true => { s with exec := r.1, app := s.app + 1 }
  | .done => { s with exec := r.1, callbacks := s.callbacks + 1, dones := s.dones + 1 }

/-- The handler of an event and what it does. A done callback or a call of the transport may
happen while a done callback is running, so it may start the next barrier and complete its sends
before it returns. -/
def handle (signed : Bool) (c : ScheduleCache ι) (s : Rank) : Event → Option (Rank × Effect)
  | .start => (s.exec.start signed c).map fun r => ({ s with starts := s.starts + 1 }.put r, r.2)
  | .notifyRecv phase iteration => (s.exec.notifyRecv signed c phase iteration).map fun r => (s.put r, r.2)
  | .sendDone =>
    if s.own = 0 then none
    else (s.exec.internalNotifySendDone signed (BarrierExec.sendNext signed c (BarrierExec.fuel c))).map
      fun r => ({ s with own := s.own - 1 }.put r, r.2)
  | .appDone =>
    if s.app = 0 then none
    else some ({ s with app := s.app - 1, dones := s.dones + 1 }, .quiet)
  | .callbackReturns =>
    if s.callbacks = 0 then none
    else some ({ s with
      callbacks := s.callbacks - 1, exec := { s.exec with senddone := false } }, .quiet)

/-- A step of one executor, whatever the others do. -/
def step (signed : Bool) (c : ScheduleCache ι) (s : Rank) (e : Event) : Option Rank :=
  (s.handle signed c e).map Prod.fst

section Inversion

variable {signed : Bool} {c : ScheduleCache ι} {s s' : Rank} {eff : Effect}

open BarrierExec

theorem handle_start (h : s.handle signed c .start = some (s', eff)) :
    s.exec.phase=c.finish ∧ ∃ e', s' = { s with starts := s.starts+1 }.put (e', eff) ∧
      Advances signed c (reset c s.exec) e' ∧ Ends signed c (reset c s.exec) e' eff := by
  obtain ⟨r,hr,hs'⟩ := map_eq_some_iff.mp h
  obtain ⟨e0,he0,hnx⟩ := bind_eq_some_iff.mp hr
  rw [resetVector] at he0
  split_ifs at he0 with hpha
  obtain rfl := some.inj he0
  obtain ⟨-,hadv,hen⟩ := of_sendNext hnx (le_refl _)
  obtain ⟨rfl,rfl⟩ := Prod.mk.inj hs'
  exact ⟨hpha,r.1,rfl,hadv,hen⟩

theorem handle_notifyRecv {phase : ℕ} {iteration : Bool}
    (h : s.handle signed c (.notifyRecv phase iteration) = some (s', eff))
    (hlow : c.start ≤ s.exec.phase) :
    (s' = { s with exec := count phase iteration s.exec } ∧ eff = .quiet ∧
      (s.exec.phase=c.finish ∨ s.exec.senddone=false ∨
        nonpos signed ((count phase iteration s.exec).phasevec s.exec.phase s.exec.iteration) = false)) ∨
    (s.exec.phase < c.finish ∧ s.exec.senddone=true ∧
      nonpos signed ((count phase iteration s.exec).phasevec s.exec.phase s.exec.iteration) = true ∧
      ∃ e', s' = s.put (e', eff) ∧
        Advances signed c { count phase iteration s.exec with phase := s.exec.phase+1 } e' ∧
        Ends signed c { count phase iteration s.exec with phase := s.exec.phase+1 } e' eff) := by
  obtain ⟨r,hr,hs'⟩ := map_eq_some_iff.mp h
  obtain ⟨rfl,rfl⟩ := Prod.mk.inj hs'
  simp only [notifyRecv] at hr
  split_ifs at hr with hfin hadv
  · obtain rfl := some.inj hr
    exact .inl ⟨rfl,rfl,.inl hfin⟩
  · obtain ⟨hle,hmov,hen⟩ := of_sendNext hr (le_trans hlow (le_succ _))
    exact .inr ⟨hle,hadv.2,hadv.1,r.1,rfl,hmov,hen⟩
  · obtain rfl := some.inj hr
    refine .inl ⟨rfl,rfl,.inr ?_⟩
    by_cases hs : s.exec.senddone=true
    · exact .inr (Bool.eq_false_iff.mpr fun hv => hadv ⟨hv,hs⟩)
    · exact .inl (Bool.eq_false_iff.mpr hs)

theorem handle_sendDone (h : s.handle signed c .sendDone = some (s', eff))
    (hlow : c.start ≤ s.exec.phase) :
    s.own≠0 ∧ ((s' = { s with own := s.own-1, exec := { s.exec with senddone := true } } ∧
          eff = .quiet ∧ nonpos signed (s.exec.phasevec s.exec.phase s.exec.iteration) = false) ∨
        (s.exec.phase < c.finish ∧ nonpos signed (s.exec.phasevec s.exec.phase s.exec.iteration) = true ∧
          ∃ e', s' = { s with own := s.own-1 }.put (e', eff) ∧
            Advances signed c { s.exec with senddone := true, phase := s.exec.phase+1 } e' ∧
            Ends signed c { s.exec with senddone := true, phase := s.exec.phase+1 } e' eff)) := by
  rw [handle] at h
  split_ifs at h with hown
  refine ⟨hown,?_⟩
  obtain ⟨r,hr,hs'⟩ := map_eq_some_iff.mp h
  obtain ⟨rfl,rfl⟩ := Prod.mk.inj hs'
  rw [internalNotifySendDone] at hr
  split_ifs at hr with hv
  · obtain ⟨hle,hmov,hen⟩ := of_sendNext hr (le_trans hlow (le_succ _))
    exact .inr ⟨hle,hv,r.1,rfl,hmov,hen⟩
  · obtain rfl := some.inj hr
    exact .inl ⟨rfl,rfl,Bool.eq_false_iff.mpr hv⟩

theorem handle_appDone (h : s.handle signed c .appDone = some (s', eff)) :
    s.app≠0 ∧ s' = { s with app := s.app-1, dones := s.dones+1 } ∧ eff = .quiet := by
  rw [handle] at h
  split_ifs at h with happ
  obtain ⟨rfl,rfl⟩ := Prod.mk.inj (some.inj h)
  exact ⟨happ,rfl,rfl⟩

theorem handle_callbackReturns (h : s.handle signed c .callbackReturns = some (s', eff)) :
    s' = { s with callbacks := s.callbacks-1, exec := { s.exec with senddone := false } } ∧ eff = .quiet := by
  rw [handle] at h
  split_ifs at h
  obtain ⟨rfl,rfl⟩ := Prod.mk.inj (some.inj h)
  exact ⟨rfl,rfl⟩

end Inversion

def init (e : BarrierExec) : Rank := ⟨e, 0, 0, 0, 0, 0⟩

/-- The phase is one of the schedule or the one behind it, and at most one multicast is to call the
executor, that of the current phase. -/
structure Valid (c : ScheduleCache ι) (s : Rank) : Prop where
  start_le : c.start ≤ s.exec.phase
  le_finish : s.exec.phase ≤ c.finish
  own : s.own = 0 ∨ (s.own = 1 ∧ s.exec.senddone = false ∧ s.exec.phase < c.finish)

section Valid

variable {signed : Bool} {c : ScheduleCache ι} {s s' : Rank} {eff : Effect}

open BarrierExec

theorem init_valid (h : setCommSchedule c = some e) : Valid c (init e) := by
  rw [setCommSchedule] at h
  split_ifs at h
  obtain rfl := some.inj h
  exact ⟨Nat.le_add_right _ _,le_refl _,.inl rfl⟩

theorem put_valid {e' : BarrierExec} (hlow : c.start≤e.phase) (hadv : Advances signed c e e')
    (hen : Ends signed c e e' eff) (hown : s.own=0) : Valid c (s.put (e', eff)) := by
  have hle := le_trans hlow hadv.le
  cases hen with
  | done | waits => exact ⟨hle,hadv.le_finish,.inl hown⟩
  | sends h hs => exact ⟨hle,hadv.le_finish,.inr ⟨congrArg (· + 1) hown,hs,h⟩⟩
  | sendsLast => exact ⟨hle,hadv.le_finish,.inl hown⟩

theorem Valid.own_eq_zero (h : Valid c s)
    (hd : s.exec.phase=c.finish ∨ s.exec.senddone=true) : s.own=0 := by
  rcases h.own with h | ⟨-,hs,hp⟩
  · exact h
  · rcases hd with hd | hd
    · exact absurd hd hp.ne
    · rw [hs] at hd
      cases hd

theorem Valid.own_sub (h : Valid c s) : s.own-1=0 := by
  rcases h.own with h | ⟨h,-⟩ <;> rw [h]

theorem Valid.handle {ev : Event} (hv : Valid c s)
    (h : s.handle signed c ev = some (s', eff)) : Valid c s' := by
  have hlow : c.start ≤ s.exec.phase+1 := le_trans hv.start_le (le_succ _)
  cases ev with
  | start =>
    obtain ⟨hpha,e',rfl,hadv,hen⟩ := handle_start h
    exact put_valid (le_refl _) hadv hen (hv.own_eq_zero (.inl hpha))
  | notifyRecv phase iteration =>
    rcases handle_notifyRecv h hv.start_le with ⟨rfl,-,-⟩ | ⟨-,hs,-,e',rfl,hadv,hen⟩
    · exact ⟨hv.start_le,hv.le_finish,hv.own⟩
    · exact put_valid hlow hadv hen (hv.own_eq_zero (.inr hs))
  | sendDone =>
    obtain ⟨-,⟨rfl,-,-⟩ | ⟨-,-,e',rfl,hadv,hen⟩⟩ := handle_sendDone h hv.start_le
    · exact ⟨hv.start_le,hv.le_finish,.inl hv.own_sub⟩
    · exact put_valid hlow hadv hen hv.own_sub
  | appDone =>
    obtain ⟨-,rfl,-⟩ := handle_appDone h
    exact ⟨hv.start_le,hv.le_finish,hv.own⟩
  | callbackReturns =>
    obtain ⟨rfl,-⟩ := handle_callbackReturns h
    refine ⟨hv.start_le,hv.le_finish,?_⟩
    rcases hv.own with h | ⟨h,-,hp⟩
    · exact .inl h
    · exact .inr ⟨h,rfl,hp⟩

end Valid

end Rank

variable {ι : Type*}

open PAMI.Math

namespace Rank

section Progress

variable {signed : Bool} {c : ScheduleCache ι} {s s' : Rank} {eff : Effect} {ev : Event}

open BarrierExec

/-- The barrier is finished, or its phase lacks a message or the end of its send. -/
def Due (signed : Bool) (c : ScheduleCache ι) (s : Rank) : Prop :=
  s.exec.phase = c.finish ∨ nonpos signed (s.exec.phasevec s.exec.phase s.exec.iteration) = false ∨ s.own ≠ 0

/-- The store behind the done callback in `sendNext` does not meet the end of a send that the
executor still has to remember. -/
def KeepsSendDone (c : ScheduleCache ι) (s : Rank) (ev : Event) : Prop :=
  ev = .callbackReturns → s.exec.senddone = false ∨ s.exec.phase = c.finish

/-- A phase whose send has ended is marked so, and waits for a message. -/
def Waits (signed : Bool) (c : ScheduleCache ι) (s : Rank) : Prop := s.exec.phase < c.finish → s.own = 0 →
    s.exec.senddone = true ∧ nonpos signed (s.exec.phasevec s.exec.phase s.exec.iteration) = false

theorem put_waits {e e' : BarrierExec} (hen : Ends signed c e e' eff) :
    Waits signed c (s.put (e', eff)) := by
  intro hlt hown
  cases hen with
  | done h => exact absurd h hlt.ne
  | waits _ hs hlac => exact ⟨hs,hlac⟩
  | sends => exact absurd hown (succ_ne_zero _)
  | sendsLast _ _ _ h => exact absurd h hlt.ne

theorem Waits.handle (hv : Valid c s) (hw : Waits signed c s) (hok : KeepsSendDone c s ev)
    (h : s.handle signed c ev = some (s', eff)) : Waits signed c s' := by
  cases ev with
  | start =>
    obtain ⟨-,e',rfl,-,hen⟩ := handle_start h
    exact put_waits hen
  | notifyRecv phase iteration =>
    rcases handle_notifyRecv h hv.start_le with ⟨rfl,-,hwhy⟩ | ⟨-,-,-,e',rfl,-,hen⟩
    · intro hlt hown
      obtain ⟨hs,-⟩ := hw hlt hown
      rcases hwhy with hfin | hsd | hlac
      · exact absurd hfin hlt.ne
      · rw [hs] at hsd
        cases hsd
      · exact ⟨hs,hlac⟩
    · exact put_waits hen
  | sendDone =>
    obtain ⟨-,⟨rfl,-,hlac⟩ | ⟨-,-,e',rfl,-,hen⟩⟩ := handle_sendDone h hv.start_le
    · exact fun _ _ => ⟨rfl,hlac⟩
    · exact put_waits hen
  | appDone =>
    obtain ⟨-,rfl,-⟩ := handle_appDone h
    exact hw
  | callbackReturns =>
    obtain ⟨rfl,-⟩ := handle_callbackReturns h
    intro hlt hown
    obtain ⟨hs,-⟩ := hw hlt hown
    rcases hok rfl with hcle | hfin
    · rw [hs] at hcle
      cases hcle
    · exact absurd hfin (show s.exec.phase < c.finish from hlt).ne

theorem Waits.due (hv : Valid c s) (hw : Waits signed c s) : Due signed c s := by
  rcases hv.le_finish.eq_or_lt with hfin | hlt
  · exact .inl hfin
  · by_cases hown : s.own=0
    · exact .inr (.inl (hw hlt hown).2)
    · exact .inr (.inr hown)

theorem handle_of_step (h : step signed c s ev = some s') : ∃ eff, s.handle signed c ev = some (s', eff) := by
  obtain ⟨r,hr,rfl⟩ := map_eq_some_iff.mp h
  exact ⟨r.2,hr⟩

/-- In every run in which no return of a done callback clears the mark of a send that the barrier
in progress has ended, the executor never waits without an event that is due. -/
theorem run_due {e : BarrierExec} (he : setCommSchedule c = some e)
    (hrun : Run (step signed c) (KeepsSendDone c) (init e) s) : Due signed c s := by
  have h : Valid c s ∧ Waits signed c s := by
    refine hrun.invariant (P := fun s => Valid c s ∧ Waits signed c s)
      ⟨init_valid he,fun hlt _ => ?_⟩ fun s ev s' ⟨hv,hw⟩ hok hsp => ?_
    · rw [setCommSchedule] at he
      split_ifs at he
      obtain rfl := some.inj he
      exact absurd hlt (lt_irrefl _)
    · obtain ⟨eff,heff⟩ := handle_of_step hsp
      exact ⟨hv.handle heff,hw.handle hv hok heff⟩
  exact h.2.due h.1

def pairSchedule : ScheduleCache ℕ := ⟨1, 1, fun p => if p = 1 then [1] else [], fun p => if p = 1 then [1] else []⟩

theorem run_due_pair : setCommSchedule pairSchedule = some ⟨false, 2, false, fun _ _ => 0⟩ ∧
    ∃ s, Run (step true pairSchedule) (KeepsSendDone pairSchedule)
      (init ⟨false, 2, false, fun _ _ => 0⟩) s ∧ s.dones = 1 ∧ s.exec.phase = 1 ∧
      Due true pairSchedule s := by
  have hrun : ∃ s, Run (step true pairSchedule) (KeepsSendDone pairSchedule)
      (init ⟨false,2,false,fun _ _ => 0⟩) s ∧ s.dones=1 ∧ s.exec.phase=1 := by
    refine ⟨_,Run.execEvents .refl [.start,.sendDone,.notifyRecv 1 true,.start] ?_ rfl,rfl,rfl⟩
    rintro s ev hev rfl
    exact absurd hev (by decide)
  obtain ⟨s,hs,hdon,hpha⟩ := hrun
  exact ⟨rfl,s,hs,hdon,hpha,run_due rfl hs⟩

/-- The done callback of the first barrier starts the second one, whose send ends at once; when it
returns, that end is forgotten, and the message of the peer does not end the barrier. -/
theorem run_strands : ∃ s, Run (step true pairSchedule) (fun _ _ => True)
    (init ⟨false, 2, false, fun _ _ => 0⟩) s ∧
    setCommSchedule pairSchedule = some ⟨false, 2, false, fun _ _ => 0⟩ ∧
    s.callbacks = 0 ∧ s.app = 0 ∧ s.starts = 2 ∧ s.dones = 1 ∧ ¬ Due true pairSchedule s := by
  refine ⟨_,Run.execEvents .refl [.start,.sendDone,.notifyRecv 1 true,.start,.sendDone,
    .callbackReturns,.notifyRecv 1 false] (fun _ _ _ => trivial) rfl,rfl,rfl,rfl,rfl,rfl,?_⟩
  unfold Due
  decide

end Progress

end Rank

end PAMI.Executor

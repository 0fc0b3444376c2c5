import PAMI.Math.Tally
import PAMI.TspColl.GatherExchange

namespace PAMI.TspColl

open PAMI.Math Function List Nat Option

/-- What a rank calls an alltoall with. -/
structure A2aCall (β : Type*) where
  sbuf : ℕ → β
  rbuf : ℕ → β
  sextent : ℕ
  stypecount : ℕ
  scell : ℕ → ℕ
  rtype : RecvType
  rtypecount : ℕ

namespace A2aCall

variable {β : Type*} (c : A2aCall β)

def len : ℕ := c.rtype.dataSize * c.rtypecount

def spwqlen : ℕ := c.sextent * c.stypecount

def rpwqlen : ℕ := c.rtype.extent * c.rtypecount

/-- The cell of a byte of a block of the receive buffer. -/
def rcell (a q : ℕ) : ℕ := a * c.rpwqlen + c.rtype.cell q

def source (b q : ℕ) : β := c.sbuf (b * c.spwqlen + c.scell q)

def sendBlock (b : ℕ) : List β := (List.range c.len).map (c.source b)

end A2aCall

/-- The calls of all ranks; the blocks of an operation have the same length, and the cells of those that come to a rank
are different ones. -/
structure A2aCalls (N : ℕ) (β : Type*) where
  call : Fin N → ℕ → A2aCall β
  len_eq : ∀ a b n, (call a n).len = (call b n).len
  distinct : ∀ r n, Set.InjOn (call r n).rtype.cell (Set.Iio (N * (call r n).len))

/-- A `kick_internal` that is under way: the index of its loop, whether the send of this round is behind it, and whether it is
the work queue that called it, or `kick`; and, for the statements, the operation that it is for. -/
structure Loop where
  j : ℕ
  posted : Bool
  repost : Bool
  exec : ℕ
  deriving DecidableEq

/-- An alltoall of a rank. `sndpwq` has for each destination the operation that it is configured for, and `work` is how
often the work is in its queue. For the statements: the number of the operation, and those whose callback was called. -/
structure Alltoall (N : ℕ) (β : Type*) where
  sndcount : Bool → ℕ
  sndstartedcount : Bool → ℕ
  rcvcount : Bool → ℕ
  odd : Bool
  current : Fin N
  rbuf : ℕ → β
  sndpwq : Fin N → ℕ
  loops : List Loop
  work : ℕ
  counter : ℕ
  completions : List ℕ

namespace Alltoall

variable {N : ℕ} {β : Type*}

/-- The constructor does not set `_sndstartedcount`. -/
def new (r : Fin N) (sndstartedcount : Bool → ℕ) (rbuf : ℕ → β) : Alltoall N β where
  sndcount := fun _ => N
  sndstartedcount := sndstartedcount
  rcvcount := fun _ => N
  odd := true
  current := r
  rbuf := rbuf
  sndpwq := fun _ => 0
  loops := []
  work := 0
  counter := 0
  completions := []

def reset (r : Fin N) (c : A2aCall β) (x : Alltoall N β) : Alltoall N β :=
  { x with
    odd := !x.odd
    sndcount := update x.sndcount (!x.odd) 0
    sndstartedcount := update x.sndstartedcount (!x.odd) 0
    rcvcount := update x.rcvcount (!x.odd) 0
    rbuf := c.rbuf
    current := r
    counter := x.counter + 1 }

def started (x : Alltoall N β) : ℕ := x.sndstartedcount x.odd

def sent (x : Alltoall N β) : ℕ := x.sndcount x.odd

def received (x : Alltoall N β) : ℕ := x.rcvcount x.odd

def isdone (x : Alltoall N β) : Bool := decide (x.sent = x.started) && decide (N ≤ x.sent) && decide (N ≤ x.received)

/-- The difference is converted to an unsigned one. -/
def bufferFull (maxPending : ℕ) (x : Alltoall N β) : Bool :=
  decide (maxPending ≤ x.started - x.sent) || decide (x.started < x.sent)

def allSent (x : Alltoall N β) : Bool := decide (N ≤ x.started)

def incStarted (x : Alltoall N β) : Alltoall N β :=
  { x with sndstartedcount := update x.sndstartedcount x.odd (x.started + 1) }

def incSent (x : Alltoall N β) : Alltoall N β :=
  { x with sndcount := update x.sndcount x.odd (x.sent + 1) }

def incReceived (x : Alltoall N β) : Alltoall N β :=
  { x with rcvcount := update x.rcvcount x.odd (x.received + 1) }

/-- The callback is called if the operation is done. -/
def check (x : Alltoall N β) : Alltoall N β :=
  { x with completions := x.completions ++ if x.isdone then [x.counter] else [] }

/-- `kick_internal` begins. -/
def enter (repost : Bool) (x : Alltoall N β) : Alltoall N β :=
  { x with loops := ⟨x.started, false, repost, x.counter⟩ :: x.loops }

def increment (l : Loop) (ls : List Loop) (x : Alltoall N β) : Alltoall N β :=
  { x with
    current := if h : (x.current + 1 : ℕ) < N then ⟨x.current + 1, h⟩ else ⟨0, x.current.pos⟩
    loops := { l with j := l.j + 1, posted := false } :: ls }

/-- `kick_internal` ends: `kick` posts the work if sends are left, and the work stays in its queue as long. -/
def leave (l : Loop) (ls : List Loop) (x : Alltoall N β) : Alltoall N β :=
  { x with
    loops := ls
    work := if l.repost then if x.allSent then x.work - 1 else x.work
      else if x.allSent then x.work else x.work + 1 }

def copyOwn (r : Fin N) (c : A2aCall β) (x : Alltoall N β) : Alltoall N β :=
  { x.incSent.incStarted.incReceived with rbuf := write (c.rcell r) (c.sendBlock r) x.rbuf }

def post (x : Alltoall N β) : Alltoall N β :=
  { x.incStarted with sndpwq := update x.sndpwq x.current x.counter }

/-- A step of the innermost `kick_internal`: a round up to its send, or the end of a round, or its end. The second value is
to whom it sends. -/
def round (maxPending : ℕ) (r : Fin N) (c : A2aCall β) (x : Alltoall N β) :
    Option (Alltoall N β × Option (Fin N)) :=
  match x.loops with
  | [] => none
  | l :: ls =>
    if l.posted then some (x.increment l ls, none)
    else if N ≤ l.j ∨ x.bufferFull maxPending then some (x.leave l ls, none)
    else if x.current = r then some ({ x.copyOwn r c with loops := { l with posted := true } :: ls }.check, none)
    else some ({ x.post with loops := { l with posted := true } :: ls }, some x.current)

end Alltoall

/-- All ranks, and the messages between them; a message is named by its sender, its operation and its destination, of which
it has only the sender with it. -/
structure Alltoalls (N : ℕ) (β : Type*) where
  rank : Fin N → Alltoall N β
  message : Fin N → ℕ → Fin N → PhaseMessage (List β)

/-- A rank starts its next operation; the innermost `kick_internal` of a rank makes a step; the work queue calls it; the data
of a message is read; its send completes; it comes in at its destination; or its receive completes. -/
inductive A2aEvent (N : ℕ) where
  | start (r : Fin N)
  | round (r : Fin N)
  | repost (r : Fin N)
  | transmit (a : Fin N) (n : ℕ) (b : Fin N)
  | senddone (a : Fin N) (n : ℕ) (b : Fin N)
  | incoming (a : Fin N) (n : ℕ) (b : Fin N)
  | recvcomplete (a : Fin N) (n : ℕ) (b : Fin N)

namespace Alltoalls

variable {N : ℕ} {β : Type*} (maxPending : ℕ) (call : Fin N → ℕ → A2aCall β)

def new (sndstartedcount : Fin N → Bool → ℕ) (rbuf : Fin N → ℕ → β) : Alltoalls N β where
  rank := fun r => .new r (sndstartedcount r) (rbuf r)
  message := fun _ _ _ => .none

def setRank (s : Alltoalls N β) (r : Fin N) (x : Alltoall N β) : Alltoalls N β :=
  { s with rank := update s.rank r x }

def setMessage (s : Alltoalls N β) (a : Fin N) (n : ℕ) (b : Fin N) (m : PhaseMessage (List β)) : Alltoalls N β :=
  { s with message := fun a' n' b' => if a' = a ∧ n' = n ∧ b' = b then m else s.message a' n' b' }

/-- `reset` and `kick`, once the callback of the operation before was called. -/
def start (s : Alltoalls N β) (r : Fin N) : Option (Alltoalls N β) :=
  let x := s.rank r
  if x.counter = 0 ∨ x.counter ∈ x.completions then
    some (s.setRank r ((x.reset r (call r (x.counter + 1))).enter false))
  else none

def round (s : Alltoalls N β) (r : Fin N) : Option (Alltoalls N β) :=
  let x := s.rank r
  (x.round maxPending r (call r x.counter)).map fun k =>
    match k.2 with
    | none => s.setRank r k.1
    | some b => (s.setRank r k.1).setMessage r x.counter b { s.message r x.counter b with posted := true }

/-- The work queue is not advanced within a `kick_internal`. -/
def repost (s : Alltoalls N β) (r : Fin N) : Option (Alltoalls N β) :=
  let x := s.rank r
  if 0 < x.work ∧ x.loops.isEmpty then some (s.setRank r (x.enter true)) else none

def transmit (s : Alltoalls N β) (a : Fin N) (n : ℕ) (b : Fin N) : Option (Alltoalls N β) :=
  let m := s.message a n b
  if m.posted = true ∧ m.data.isNone then
    some (s.setMessage a n b { m with data := some ((call a ((s.rank a).sndpwq b)).sendBlock b) })
  else none

/-- `cb_senddone` -/
def senddone (s : Alltoalls N β) (a : Fin N) (n : ℕ) (b : Fin N) : Option (Alltoalls N β) :=
  let m := s.message a n b
  if m.data.isSome ∧ m.sent = false then
    some ((s.setMessage a n b { m with sent := true }).setRank a (s.rank a).incSent.check)
  else none

/-- `cb_incoming`, and the data goes to the buffer that the receiver has now. -/
def incoming (s : Alltoalls N β) (a : Fin N) (n : ℕ) (b : Fin N) : Option (Alltoalls N β) :=
  let m := s.message a n b
  let x := s.rank b
  if m.incoming = true then none
  else m.data.map fun data => (s.setMessage a n b { m with incoming := true }).setRank b
      { x with rbuf := write ((call b x.counter).rcell a) data x.rbuf }

/-- `cb_recvcomplete` -/
def recvcomplete (s : Alltoalls N β) (a : Fin N) (n : ℕ) (b : Fin N) : Option (Alltoalls N β) :=
  let m := s.message a n b
  if m.incoming = true ∧ m.complete = false then
    some ((s.setMessage a n b { m with complete := true }).setRank b (s.rank b).incReceived.check)
  else none

def step (s : Alltoalls N β) : A2aEvent N → Option (Alltoalls N β)
  | .start r => s.start call r
  | .round r => s.round maxPending call r
  | .repost r => s.repost r
  | .transmit a n b => s.transmit call a n b
  | .senddone a n b => s.senddone a n b
  | .incoming a n b => s.incoming call a n b
  | .recvcomplete a n b => s.recvcomplete a n b

/-- A message comes in to a rank that has started its operation; and a `kick_internal` within another one, of an operation
that was started in a callback, does not end for a full buffer with sends left. -/
def InTime (s : Alltoalls N β) : A2aEvent N → Prop
  | .incoming _ n b => n ≤ (s.rank b).counter
  | .round r => (s.rank r).loops.tail = [] ∨ (s.rank r).allSent = true ∨ (s.rank r).bufferFull maxPending = false
  | _ => True

instance (s : Alltoalls N β) (e : A2aEvent N) : Decidable (s.InTime maxPending e) :=
  match e with
  | .incoming _ n b => inferInstanceAs (Decidable (n ≤ (s.rank b).counter))
  | .round r => inferInstanceAs (Decidable
      ((s.rank r).loops.tail = [] ∨ (s.rank r).allSent = true ∨ (s.rank r).bufferFull maxPending = false))
  | .start _ => isTrue trivial
  | .repost _ => isTrue trivial
  | .transmit _ _ _ => isTrue trivial
  | .senddone _ _ _ => isTrue trivial
  | .recvcomplete _ _ _ => isTrue trivial

end Alltoalls

variable {N : ℕ} {β : Type*}

def mark (f : ℕ → Fin N → Bool) (n : ℕ) (b : Fin N) (m : ℕ) (c : Fin N) : Bool := f m c || decide (m = n ∧ c = b)

section Mark

variable {f : ℕ → Fin N → Bool} {n m : ℕ} {b c : Fin N}

theorem mark_iff : mark f n b m c = true ↔ f m c = true ∨ m=n ∧ c=b := by
  rw [mark,Bool.or_eq_true,decide_eq_true_iff]

theorem tally_mark (h : f n b = false) : tally (mark f n b n) = tally (f n)+1 :=
  tally_set h fun c => by rw [mark,decide_eq_decide.mpr (and_iff_right rfl)]

end Mark

/-- What a rank has sent: the sends of its operation are those of the next ranks, so many as it has started, and its own
block is counted with them. -/
structure Sends (r : Fin N) (counter started sent : ℕ) (sndpwq : Fin N → ℕ) (posted done : ℕ → Fin N → Bool) : Prop where
  started_le : 0 < counter → started ≤ N
  posted_iff : ∀ m b, posted m b = true ↔ 0 < m ∧ b ≠ r ∧ (m < counter ∨ m = counter ∧ offset r b < started)
  done_posted : ∀ m b, done m b = true → posted m b = true
  count : 0 < counter → sent = min started 1 + tally (done counter)
  past : ∀ m b, 0 < m → m < counter → b ≠ r → done m b = true
  configured : ∀ b, posted counter b = true → sndpwq b = counter

/-- What a rank has received; its own block is counted once it has sent it. -/
structure Recvs (r : Fin N) (counter started received : ℕ) (incoming complete : ℕ → Fin N → Bool) : Prop where
  count : 0 < counter → received = min started 1 + tally (complete counter)
  past : ∀ m a, 0 < m → m < counter → a ≠ r → complete m a = true
  came : ∀ m a, incoming m a = true → 0 < m ∧ m ≤ counter ∧ a ≠ r
  complete_incoming : ∀ m a, complete m a = true → incoming m a = true

structure Over (r : Fin N) (counter started : ℕ) (done complete : ℕ → Fin N → Bool) : Prop where
  started_eq : started = N
  done : ∀ b, b ≠ r → done counter b = true
  complete : ∀ a, a ≠ r → complete counter a = true

section Counts

variable {r b : Fin N} {counter started sent received : ℕ} {sndpwq : Fin N → ℕ}
  {posted done incoming complete : ℕ → Fin N → Bool}

section

variable (h : Sends r counter started sent sndpwq posted done)
include h

theorem Sends.own_posted (m : ℕ) : posted m r = false := by
  rw [← Bool.not_eq_true,h.posted_iff]
  exact fun hr => hr.2.1 rfl

theorem Sends.own_done (m : ℕ) : done m r = false := by
  rw [← Bool.not_eq_true]
  intro hr
  have hpst := h.done_posted m r hr
  rw [h.own_posted] at hpst
  contradiction

omit h in
theorem Recvs.own_complete (h : Recvs r counter started received incoming complete) (m : ℕ) :
    complete m r = false := by
  rw [← Bool.not_eq_true]
  exact fun hr => (h.came m r (h.complete_incoming m r hr)).2.2 rfl

omit h in
theorem over_iff (hs : Sends r counter started sent sndpwq posted done)
    (hr : Recvs r counter started received incoming complete) (hn : 0 < counter) :
    (sent=started ∧ N ≤ sent) ∧ N ≤ received ↔ Over r counter started done complete := by
  have hle := hs.started_le hn
  have hsn := hs.count hn
  have hrec := hr.count hn
  have hdn := tally_add_one_eq_card (hs.own_done counter)
  have hcom := tally_add_one_eq_card (hr.own_complete counter)
  have hfew := tally_lt_card (hs.own_done counter)
  have hfew' := tally_lt_card (hr.own_complete counter)
  rw [Fintype.card_fin] at hdn hcom hfew hfew'
  constructor
  · rintro ⟨⟨heq,hall⟩,hall'⟩
    exact ⟨by omega,hdn.mp (by omega),hcom.mp (by omega)⟩
  · rintro ⟨hstr,hdon,hcmp⟩
    have := hdn.mpr hdon
    have := hcom.mpr hcmp
    omega

theorem Sends.reset (hov : 0 < counter → Over r counter started done complete) :
    Sends r (counter+1) 0 0 sndpwq posted done := by
  have hnn : ∀ b, posted (counter+1) b=false := by
    intro b
    rw [← Bool.not_eq_true,h.posted_iff]
    omega
  have hdn : ∀ b, done (counter+1) b=false := by
    intro b
    rw [← Bool.not_eq_true]
    intro hb
    have hpst := h.done_posted _ b hb
    rw [hnn] at hpst
    contradiction
  refine ⟨fun _ => zero_le _,fun m b => ?_,h.done_posted,fun _ => ?_,fun m b hm hlt hb => ?_,fun b hb => ?_⟩
  · rw [h.posted_iff]
    refine and_congr_right fun hm => and_congr_right fun _ => ?_
    constructor
    · rintro (hlt | ⟨rfl,-⟩)
      · exact .inl (by omega)
      · exact .inl (lt_succ_self _)
    · rintro (hlt | ⟨-,hlt⟩)
      · obtain hlt | rfl := Nat.lt_succ_iff_lt_or_eq.mp hlt
        · exact .inl hlt
        · exact .inr ⟨rfl,(hov hm).started_eq ▸ offset_lt r b⟩
      · exact absurd hlt (Nat.not_lt_zero _)
  · rw [tally_eq_zero hdn,Nat.zero_min]
  · obtain hlt | rfl := Nat.lt_succ_iff_lt_or_eq.mp hlt
    · exact h.past m b hm hlt hb
    · exact (hov hm).done b hb
  · rw [hnn] at hb
    contradiction

omit h in
theorem Sends.own (h : Sends r counter 0 sent sndpwq posted done) :
    Sends r counter 1 (sent+1) sndpwq posted done := by
  refine ⟨fun _ => r.pos,fun m b => ?_,h.done_posted,fun hn => ?_,h.past,h.configured⟩
  · rw [h.posted_iff]
    refine and_congr_right fun _ => and_congr_right fun hb => or_congr_right (and_congr_right fun _ => ?_)
    have hpos := Nat.pos_of_ne_zero (mt offset_eq_zero.mp hb)
    omega
  · rw [h.count hn,Nat.zero_min,Nat.zero_add,Nat.add_comm]
    rfl

theorem Sends.post (hn : 0 < counter) (hlt : started<N) (hb : b≠r) (hoft : offset r b = started) :
    Sends r counter (started+1) sent (update sndpwq b counter) (mark posted counter b) done := by
  have hpos : 0 < started := hoft ▸ Nat.pos_of_ne_zero (mt offset_eq_zero.mp hb)
  refine ⟨fun _ => hlt,fun m c => ?_,fun m c hc => mark_iff.mpr (.inl (h.done_posted m c hc)),fun _ => ?_,h.past,
    fun c hc => ?_⟩
  · rw [mark_iff,h.posted_iff]
    have hsm : offset r c=started ↔ c=b := by rw [offset_eq_iff hlt,← hoft,forward_offset,eq_comm]
    constructor
    · rintro (⟨hm,hc,hlt | ⟨rfl,hlt⟩⟩ | ⟨rfl,rfl⟩)
      · exact ⟨hm,hc,.inl hlt⟩
      · exact ⟨hm,hc,.inr ⟨rfl,lt_succ_of_lt hlt⟩⟩
      · exact ⟨hn,hb,.inr ⟨rfl,hoft ▸ lt_succ_self _⟩⟩
    · rintro ⟨hm,hc,hlt | ⟨rfl,hlt⟩⟩
      · exact .inl ⟨hm,hc,.inl hlt⟩
      · obtain hlt | heq := Nat.lt_succ_iff_lt_or_eq.mp hlt
        · exact .inl ⟨hm,hc,.inr ⟨rfl,hlt⟩⟩
        · exact .inr ⟨rfl,hsm.mp heq⟩
  · rw [h.count hn]
    omega
  · by_cases heq : c=b
    · rw [heq,update_self]
    · rw [update_of_ne heq]
      exact h.configured c ((mark_iff.mp hc).resolve_right fun hcb => heq hcb.2)

theorem Sends.senddone (hpst : posted counter b = true) (hfre : done counter b = false) :
    Sends r counter started (sent+1) sndpwq posted (mark done counter b) := by
  refine ⟨h.started_le,h.posted_iff,fun m c hc => ?_,fun hn => ?_,fun m c hm hlt hc => ?_,h.configured⟩
  · obtain hc | ⟨rfl,rfl⟩ := mark_iff.mp hc
    · exact h.done_posted m c hc
    · exact hpst
  · rw [h.count hn,tally_mark hfre,add_assoc]
  · exact mark_iff.mpr (.inl (h.past m c hm hlt hc))

end

section

variable (h : Recvs r counter started received incoming complete)
include h

theorem Recvs.reset (hov : 0 < counter → Over r counter started done complete) :
    Recvs r (counter+1) 0 0 incoming complete := by
  have hnn : ∀ a, complete (counter+1) a=false := by
    intro a
    rw [← Bool.not_eq_true]
    intro ha
    have := h.came _ a (h.complete_incoming _ a ha)
    omega
  refine ⟨fun _ => ?_,fun m a hm hlt ha => ?_,fun m a ha => ?_,h.complete_incoming⟩
  · rw [tally_eq_zero hnn,Nat.zero_min]
  · obtain hlt | rfl := Nat.lt_succ_iff_lt_or_eq.mp hlt
    · exact h.past m a hm hlt ha
    · exact (hov hm).complete a ha
  · obtain ⟨hm,hle,hne⟩ := h.came m a ha
    exact ⟨hm,le_succ_of_le hle,hne⟩

omit h in
theorem Recvs.own (h : Recvs r counter 0 received incoming complete) :
    Recvs r counter 1 (received+1) incoming complete := by
  refine ⟨fun hn => ?_,h.past,h.came,h.complete_incoming⟩
  rw [h.count hn,Nat.zero_min,zero_add,add_comm]
  rfl

theorem Recvs.post (hpos : 0 < started) : Recvs r counter (started+1) received incoming complete := by
  refine ⟨fun hn => ?_,h.past,h.came,h.complete_incoming⟩
  rw [h.count hn]
  omega

theorem Recvs.arrive (hn : 0 < counter) (hb : b≠r) :
    Recvs r counter started received (mark incoming counter b) complete := by
  refine ⟨h.count,h.past,fun m a ha => ?_,fun m a ha => mark_iff.mpr (.inl (h.complete_incoming m a ha))⟩
  obtain ha | ⟨rfl,rfl⟩ := mark_iff.mp ha
  · exact h.came m a ha
  · exact ⟨hn,le_rfl,hb⟩

theorem Recvs.recvcomplete (hinc : incoming counter b = true) (hfre : complete counter b = false) :
    Recvs r counter started (received+1) incoming (mark complete counter b) := by
  refine ⟨fun hn => ?_,fun m a hm hlt ha => mark_iff.mpr (.inl (h.past m a hm hlt ha)),h.came,fun m a ha => ?_⟩
  · rw [h.count hn,tally_mark hfre,add_assoc]
  · obtain ha | ⟨rfl,rfl⟩ := mark_iff.mp ha
    · exact h.complete_incoming m a ha
    · exact hinc

end

end Counts

def Loop.Finished (N : ℕ) (l : Loop) : Prop := l.j + l.posted.toNat = N

structure Loop.At (r : Fin N) (started : ℕ) (current : Fin N) (l : Loop) : Prop where
  j : l.j + l.posted.toNat = started
  current : l.posted = true → current = forward l.j r

def Queued (work : ℕ) : List Loop → Prop
  | [] => True
  | l :: ls => (ls = [] → work = l.repost.toNat) ∧ (ls ≠ [] → l.repost = false) ∧ Queued work ls

/-- The calls of `kick_internal` that are under way: those around the innermost one are of earlier operations. The work is in
the queue, once, if there are none, and sends are left. -/
structure Loops (r : Fin N) (counter started : ℕ) (current : Fin N) (loops : List Loop) (work : ℕ) : Prop where
  first : counter = 0 → loops = []
  outer : ∀ l ∈ loops.tail, l.exec < counter ∧ l.Finished N
  top : ∀ l ∈ loops.head?, l.exec < counter ∧ l.Finished N ∧ N ≤ started ∨ l.exec = counter ∧ l.At r started current
  current : 0 < counter → started < N → (∀ l ∈ loops.head?, l.posted = false) → current = forward started r
  idle : loops = [] → work = if 0 < counter ∧ started < N then 1 else 0
  queued : Queued work loops

section Loops

variable {r current : Fin N} {counter started work : ℕ} {l : Loop} {ls loops : List Loop}

section

variable (h : Loops r counter started current (l :: ls) work)
include h

theorem Loops.counter_pos : 0 < counter := Nat.pos_of_ne_zero fun hzr => absurd (h.first hzr) (cons_ne_nil _ _)

omit h in
theorem Loops.reset (h : Loops r counter started current loops work) (hall : 0 < counter → started=N) :
    Loops r (counter+1) 0 r (⟨0,false,false,counter+1⟩ :: loops) work := by
  refine ⟨fun h => absurd h (succ_ne_zero _),fun l hl => ?_,fun l hl => ?_,fun _ _ _ => (forward_zero r).symm,
    fun hnil => absurd hnil (cons_ne_nil _ _),fun hnil => ?_,fun _ => rfl,h.queued⟩
  · cases loops with
    | nil => contradiction
    | cons l' ls =>
      have hpos := h.counter_pos
      obtain rfl | hl := mem_cons.mp hl
      · obtain ⟨hlt,hfin,-⟩ | ⟨heq,hat⟩ := h.top l rfl
        · exact ⟨lt_succ_of_lt hlt,hfin⟩
        · exact ⟨heq ▸ lt_succ_self _,hat.j.trans (hall hpos)⟩
      · obtain ⟨hlt,hfin⟩ := h.outer l hl
        exact ⟨lt_succ_of_lt hlt,hfin⟩
  · obtain rfl := some.inj hl
    exact .inr ⟨rfl,⟨rfl,fun hpst => by contradiction⟩⟩
  · rw [h.idle hnil,if_neg]
    · rfl
    · rintro ⟨hpos,hlt⟩
      exact hlt.ne (hall hpos)

omit h in
theorem Loops.repost (h : Loops r counter started current [] work) (hwr : 0<work) :
    Loops r counter started current [⟨started,false,true,counter⟩] work := by
  have hpos : 0 < counter ∧ started<N := by
    by_contra hnot
    rw [h.idle rfl,if_neg hnot] at hwr
    contradiction
  refine ⟨fun hzr => absurd hzr hpos.1.ne',fun l hl => by contradiction,fun l hl => ?_,fun hn hlt _ => ?_,
    fun hnil => absurd hnil (cons_ne_nil _ _),fun _ => ?_,fun hne => absurd rfl hne,trivial⟩
  · obtain rfl := some.inj hl
    exact .inr ⟨rfl,⟨rfl,fun hpst => by contradiction⟩⟩
  · exact h.current hn hlt fun l hl => by contradiction
  · rw [h.idle rfl,if_pos hpos]
    rfl

theorem Loops.post (hpst : l.posted=false) (hlt : l.j<N) : started<N ∧ current = forward started r ∧
      Loops r counter (started+1) current ({ l with posted := true } :: ls) work := by
  obtain ⟨-,hfin,-⟩ | ⟨heq,hat⟩ := h.top l rfl
  · rw [Loop.Finished,hpst] at hfin
    exact absurd hfin hlt.ne
  · have hj : l.j=started := by
      have hj := hat.j
      rwa [hpst] at hj
    have hcur : current=forward started r := by
      refine h.current h.counter_pos (hj ▸ hlt) fun l' hl' => ?_
      obtain rfl := some.inj hl'
      exact hpst
    refine ⟨hj ▸ hlt,hcur,fun hzr => absurd hzr h.counter_pos.ne',h.outer,fun l' hl' => ?_,fun _ _ hnot => ?_,
      fun hnil => absurd hnil (cons_ne_nil _ _),h.queued⟩
    · obtain rfl := some.inj hl'
      exact .inr ⟨heq,⟨congrArg (· + 1) hj,fun _ => hj ▸ hcur⟩⟩
    · have hfal := hnot _ rfl
      contradiction

theorem Loops.increment (hpst : l.posted=true) {next : Fin N} (hnx : next = forward 1 current) :
    Loops r counter started next ({ l with j := l.j+1, posted := false } :: ls) work := by
  refine ⟨fun hzr => absurd hzr h.counter_pos.ne',h.outer,fun l' hl' => ?_,fun _ hlt _ => ?_,
    fun hnil => absurd hnil (cons_ne_nil _ _),h.queued⟩
  · obtain rfl := some.inj hl'
    refine (h.top l rfl).imp (fun ⟨hlt,hfin,hall⟩ => ⟨hlt,?_,hall⟩) fun ⟨heq,hat⟩ =>
      ⟨heq,?_,fun hp => by contradiction⟩
    · rwa [Loop.Finished,hpst] at hfin
    · have hj := hat.j
      rwa [hpst] at hj
  · obtain ⟨-,-,hall⟩ | ⟨-,hat⟩ := h.top l rfl
    · exact absurd hlt (not_lt.mpr hall)
    · have hj := hat.j
      rw [hpst] at hj
      rw [hnx,hat.current hpst,← forward_add,← hj,add_comm]
      rfl

theorem Loops.leave (hpst : l.posted=false) (hok : ls = [] ∨ N ≤ started) :
    Loops r counter started current ls
      (if l.repost then if decide (N ≤ started) then work-1 else work
        else if decide (N ≤ started) then work else work+1) := by
  have hpos := h.counter_pos
  obtain ⟨hla,hkick,hque⟩ := h.queued
  have hcur : started<N → current=forward started r := by
    refine fun hlt => h.current hpos hlt fun l' hl' => ?_
    obtain rfl := some.inj hl'
    exact hpst
  cases ls with
  | nil =>
    refine ⟨fun _ => rfl,fun l' hl' => by contradiction,fun l' hl' => by contradiction,fun _ hlt _ => hcur hlt,
      fun _ => ?_,trivial⟩
    rw [hla rfl]
    obtain hlf | hall := lt_or_ge started N
    · have hbt : 0 < counter ∧ started<N := ⟨hpos,hlf⟩
      simp only [hbt,decide_eq_false (not_le.mpr hlf),and_self,if_true]
      cases l.repost <;> rfl
    · have hnot : ¬ (0 < counter ∧ started<N) := fun h => absurd h.2 (not_lt.mpr hall)
      simp only [hnot,decide_eq_true hall,if_true,if_false]
      cases l.repost <;> rfl
  | cons l' ls =>
    have hall : N ≤ started := hok.resolve_left (cons_ne_nil _ _)
    rw [hkick (cons_ne_nil _ _),decide_eq_true hall]
    refine ⟨fun hzr => absurd hzr hpos.ne',fun l'' hl'' => h.outer l'' (mem_of_mem_tail hl''),
      fun l'' hl'' => ?_,fun _ hlt _ => hcur hlt,fun hnil => absurd hnil (cons_ne_nil _ _),hque⟩
    obtain rfl := some.inj hl''
    obtain ⟨hlt,hfin⟩ := h.outer _ mem_cons_self
    exact .inl ⟨hlt,hfin,hall⟩

end

end Loops

end PAMI.TspColl

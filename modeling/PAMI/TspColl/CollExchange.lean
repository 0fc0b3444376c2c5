import PAMI.Math.PhasedExchange

namespace PAMI.TspColl

open PAMI.Math

/-- What the phase tables of a rank say in an execution: in which phases `_sbuf` and `_rbuf` are not NULL,
and the post-receive functions. -/
structure PhaseTable (α : Type*) where
  numphases : ℕ
  sbuf : ℕ → Bool
  rbuf : ℕ → Bool
  postrcv : ℕ → α → α

/-- The state machine of a rank, with the data that its post-receive functions work on. The counters are of type `int`: there
are less than 2^31 executions. Whether an assertion failed, and the calls of post-receive functions and of the completion
callback, with the execution, are for the statements. -/
structure CollExchange (α : Type*) where
  phase : ℕ
  counter : ℕ
  sendstarted : ℕ
  sendcomplete : ℕ
  recvcomplete : ℕ → ℕ
  data : α
  failed : Bool
  postrcvs : List (ℕ × ℕ)
  completions : List ℕ

/-- How a round of the loop of `kick` ends: with a send, which returns; with a return; or with the next
phase. -/
inductive Round (α : Type*) where
  | send (x : CollExchange α)
  | stop (x : CollExchange α)
  | next (x : CollExchange α)

namespace CollExchange

variable {α : Type*}

/-- The constructor, with the settings that those of the derived classes end with. -/
def new (numphases : ℕ) (data : α) : CollExchange α where
  phase := numphases
  counter := 0
  sendstarted := 0
  sendcomplete := numphases
  recvcomplete := fun _ => 0
  data := data
  failed := false
  postrcvs := []
  completions := []

def reset (x : CollExchange α) (data : α) : CollExchange α :=
  { x with
    sendstarted := 0
    sendcomplete := 0
    counter := x.counter + 1
    phase := 0
    data := data }

def isdone (numphases : ℕ) (x : CollExchange α) : Bool :=
  decide (numphases ≤ x.phase) && decide (numphases ≤ x.sendcomplete)

variable (t : PhaseTable α)

/-- The end of a round: the message of the phase is not there, or the phase is over. -/
def advance (x : CollExchange α) : Round α :=
  if x.recvcomplete x.phase < x.counter then .stop x
  else .next { x with
    data := t.postrcv x.phase x.data
    postrcvs := x.postrcvs ++ [(x.counter, x.phase)]
    phase := x.phase + 1 }

def incRecvcomplete (x : CollExchange α) (p : ℕ) : CollExchange α :=
  { x with recvcomplete := Function.update x.recvcomplete p (x.recvcomplete p + 1) }

/-- A round after its send: a phase without a receive counts one, and asserts that it was not counted
before. -/
def receive (x : CollExchange α) : Round α :=
  if x.sendcomplete ≤ x.phase then .stop x
  else if t.rbuf x.phase then x.advance t
  else if (x.incRecvcomplete x.phase).recvcomplete x.phase ≤ x.counter then
    (x.incRecvcomplete x.phase).advance t
  else .stop { x.incRecvcomplete x.phase with failed := true }

/-- A round of the loop of `kick`. -/
def round (x : CollExchange α) : Round α :=
  if x.sendstarted ≤ x.phase then
    if t.sbuf x.phase then .send { x with sendstarted := x.sendstarted + 1 }
    else receive t { x with sendstarted := x.sendstarted + 1, sendcomplete := x.sendcomplete + 1 }
  else x.receive t

/-- The end of `kick` after the loop. -/
def finish (x : CollExchange α) : CollExchange α :=
  if x.phase = t.numphases then
    { x with phase := x.phase + 1, completions := x.completions ++ [x.counter] }
  else x

/-- The rounds of `kick`; the second value is whether it ends with a send. -/
def kickLoop : ℕ → CollExchange α → CollExchange α × Bool
  | 0, x => (x.finish t, false)
  | k + 1, x => match x.round t with
    | .send x => (x, true)
    | .stop x => (x, false)
    | .next x => kickLoop k x

def kick (x : CollExchange α) : CollExchange α × Bool := x.kickLoop t (t.numphases - x.phase)

end CollExchange

/-- The tables of all ranks, as their resets set them for an execution: where `_sbuf` is not NULL, with `_dest`,
and where `_rbuf` is not NULL. -/
structure CollTables (ι : Type*) where
  numphases : ι → ℕ
  dest : ι → ℕ → ℕ → Option ι
  rbuf : ι → ℕ → ℕ → Bool

def matching {ι : Type*} (T : PhaseTables ι) : CollTables ι where
  numphases := T.numphases
  dest := T.dest
  rbuf := fun r n p => (T.source r n p).isSome

instance {ι : Type*} : Coe (PhaseTables ι) (CollTables ι) := ⟨matching⟩

/-- All ranks, and the messages between them; a message is named by its sender, execution and phase. -/
structure Exchanges (ι α μ : Type*) where
  rank : ι → CollExchange α
  message : ι → ℕ → ℕ → PhaseMessage μ

/-- A rank starts its next execution; the data of a message is read; its send completes; it comes in at its
receiver; or its receive completes. -/
inductive ExchangeEvent (ι : Type*) where
  | start (r : ι)
  | transmit (a : ι) (n p : ℕ)
  | senddone (a : ι) (n p : ℕ)
  | incoming (a : ι) (n p : ℕ)
  | recvcomplete (a : ι) (n p : ℕ)

namespace Exchanges

variable {ι α μ : Type*} [DecidableEq ι] (T : CollTables ι) (C : PhaseClient ι α μ)

def new (data : ι → α) : Exchanges ι α μ where
  rank := fun r => .new (T.numphases r) (data r)
  message := fun _ _ _ => .none

def table (r : ι) (n : ℕ) : PhaseTable α where
  numphases := T.numphases r
  sbuf := fun p => (T.dest r n p).isSome
  rbuf := T.rbuf r n
  postrcv := C.postrcv r n

def setRank (s : Exchanges ι α μ) (r : ι) (x : CollExchange α) : Exchanges ι α μ :=
  { s with rank := Function.update s.rank r x }

def setMessage (s : Exchanges ι α μ) (a : ι) (n p : ℕ) (m : PhaseMessage μ) : Exchanges ι α μ :=
  { s with message := fun a' n' p' => if a' = a ∧ n' = n ∧ p' = p then m else s.message a' n' p' }

/-- `kick`, where `send` posts the message of the phase. -/
def kick (s : Exchanges ι α μ) (r : ι) : Exchanges ι α μ :=
  let k := (s.rank r).kick (table T C r (s.rank r).counter)
  if k.2 then
    (s.setRank r k.1).setMessage r k.1.counter k.1.phase
      { s.message r k.1.counter k.1.phase with posted := true }
  else s.setRank r k.1

def start (s : Exchanges ι α μ) (r : ι) : Option (Exchanges ι α μ) :=
  let x := s.rank r
  if x.isdone (T.numphases r) then
    some ((s.setRank r (x.reset (C.start r (x.counter + 1) x.data))).kick T C r)
  else none

def transmit (s : Exchanges ι α μ) (a : ι) (n p : ℕ) : Option (Exchanges ι α μ) :=
  let m := s.message a n p
  if m.posted = true ∧ m.data.isNone then
    some (s.setMessage a n p { m with data := some (C.payload a n p (s.rank a).data) })
  else none

/-- `cb_senddone` -/
def senddone (s : Exchanges ι α μ) (a : ι) (n p : ℕ) : Option (Exchanges ι α μ) :=
  let m := s.message a n p
  let x := s.rank a
  if m.data.isSome ∧ m.sent = false then
    some (((s.setMessage a n p { m with sent := true }).setRank a
      { x with sendcomplete := x.sendcomplete + 1 }).kick T C a)
  else none

/-- `cb_incoming`, and the data goes to the buffer that it gives. -/
def incoming (s : Exchanges ι α μ) (a : ι) (n p : ℕ) : Option (Exchanges ι α μ) :=
  let m := s.message a n p
  if m.incoming = true then none
  else (T.dest a n p).bind fun b => m.data.map fun data =>
    let x := s.rank b
    (s.setMessage a n p { m with incoming := true }).setRank b
      { x with data := C.deliver b n p data x.data }

/-- `cb_recvcomplete` -/
def recvcomplete (s : Exchanges ι α μ) (a : ι) (n p : ℕ) : Option (Exchanges ι α μ) :=
  let m := s.message a n p
  if m.incoming = true ∧ m.complete = false then
    (T.dest a n p).map fun b =>
      let x := (s.rank b).incRecvcomplete p
      let s := (s.setMessage a n p { m with complete := true }).setRank b x
      if x.recvcomplete p ≤ x.counter then s.kick T C b else s
  else none

def step (s : Exchanges ι α μ) : ExchangeEvent ι → Option (Exchanges ι α μ)
  | .start r => s.start T C r
  | .transmit a n p => s.transmit C a n p
  | .senddone a n p => s.senddone T C a n p
  | .incoming a n p => s.incoming T C a n p
  | .recvcomplete a n p => s.recvcomplete T C a n p

end Exchanges

end PAMI.TspColl

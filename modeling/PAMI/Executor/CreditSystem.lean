import PAMI.Math.CreditRounds

namespace PAMI.Executor

open PAMI.Math

/-- A multicast that an executor calls: the message that its buffer for a phase is available, whose header has the number of
the phase behind it, or the data of a phase. -/
inductive Multicast where
  | avail (phase : ℕ)
  | data (phase : ℕ)
  deriving DecidableEq, Repr

/-- What the executors that tell their partners when a buffer is available differ in. A function calls at most one multicast
before the call that it is in goes on. `entered` is the number of phases that a rank is at or behind, `availDone` is
whether the message of a buffer has a callback, and `place` is the phase whose buffer data is received in. -/
structure CreditProgram (ι X : Type*) where
  entered : X → ℕ
  availDone : Bool
  place : X → ℕ
  start : ι → X → X × Option Multicast
  resume : ι → X → Option (X × Option Multicast)
  notifySendDone : ι → X → X × Option Multicast
  notifyRecvDone : ι → X → X × Option Multicast
  notifyAvailRecvDone : ι → X → X × Option Multicast
  notifyAvailSendDone : ι → X → X × Option Multicast
  notifyRecvAvail : ι → ι → ℕ → X → X
  notifyRecvData : ι → ι → ℕ → X → X

/-- All ranks with their buffers, and the messages between them, by sender and phase. For the statements: the phases whose
data each rank has sent. -/
structure CreditSystem (ι X α μ : Type*) where
  exec : ι → X
  data : ι → α
  permission : ι → ℕ → Permission
  message : ι → ℕ → PhaseMessage μ
  sends : ι → List ℕ

/-- A rank starts; the innermost multicast of a rank returns; the send of a message that a buffer is available completes, the
message comes in, or is received; and data is read, its send completes, it comes in, or is received. -/
inductive CreditEvent (ι : Type*) where
  | start (r : ι)
  | resume (r : ι)
  | availSent (a : ι) (p : ℕ)
  | availIncoming (a : ι) (p : ℕ)
  | availComplete (a : ι) (p : ℕ)
  | transmit (a : ι) (p : ℕ)
  | sent (a : ι) (p : ℕ)
  | incoming (a : ι) (p : ℕ)
  | complete (a : ι) (p : ℕ)

namespace CreditSystem

variable {ι X α μ : Type*} [DecidableEq ι] (R : RoundTables ι) (P : CreditProgram ι X) (C : CreditClient ι α μ)

def new (exec : ι → X) (data : ι → α) : CreditSystem ι X α μ where
  exec := exec
  data := data
  permission := fun _ _ => .none
  message := fun _ _ => .none
  sends := fun _ => []

def setPermission (s : CreditSystem ι X α μ) (a : ι) (p : ℕ) (m : Permission) : CreditSystem ι X α μ :=
  { s with permission := put s.permission a p m }

def setMessage (s : CreditSystem ι X α μ) (a : ι) (p : ℕ) (m : PhaseMessage μ) : CreditSystem ι X α μ :=
  { s with message := put s.message a p m }

def setData (s : CreditSystem ι X α μ) (r : ι) (x : α) : CreditSystem ι X α μ :=
  { s with data := Function.update s.data r x }

def setExec (s : CreditSystem ι X α μ) (r : ι) (x : X) : CreditSystem ι X α μ :=
  { s with exec := Function.update s.exec r x }

def act (s : CreditSystem ι X α μ) (r : ι) (o : X × Option Multicast) : CreditSystem ι X α μ :=
  match o.2 with
  | none => s.setExec r o.1
  | some (.avail p) => (s.setExec r o.1).setPermission r p { s.permission r p with posted := true }
  | some (.data p) =>
    { (s.setExec r o.1).setMessage r p { s.message r p with posted := true } with
      sends := Function.update s.sends r (s.sends r ++ [p]) }

def start (s : CreditSystem ι X α μ) (r : ι) : Option (CreditSystem ι X α μ) :=
  if P.entered (s.exec r) = 0 then
    some ((s.setData r (C.start r (s.data r))).act r (P.start r (s.exec r)))
  else none

def resume (s : CreditSystem ι X α μ) (r : ι) : Option (CreditSystem ι X α μ) := (P.resume r (s.exec r)).map (s.act r)

/-- A send completes; it may do so before the multicast that sent it returns. -/
def availSent (s : CreditSystem ι X α μ) (a : ι) (p : ℕ) : Option (CreditSystem ι X α μ) :=
  let m := s.permission a p
  if P.availDone = true ∧ m.posted = true ∧ m.sent = false then
    some ((s.setPermission a p { m with sent := true }).act a (P.notifyAvailSendDone a (s.exec a)))
  else none

def availIncoming (s : CreditSystem ι X α μ) (a : ι) (p : ℕ) : Option (CreditSystem ι X α μ) :=
  let m := s.permission a p
  if m.posted = true ∧ m.incoming = false then
    (R.source a p).map fun b =>
      (s.setPermission a p { m with incoming := true }).setExec b (P.notifyRecvAvail b a p (s.exec b))
  else none

def availComplete (s : CreditSystem ι X α μ) (a : ι) (p : ℕ) : Option (CreditSystem ι X α μ) :=
  let m := s.permission a p
  if m.incoming = true ∧ m.complete = false then
    (R.source a p).map fun b =>
      (s.setPermission a p { m with complete := true }).act b (P.notifyAvailRecvDone b (s.exec b))
  else none

def transmit (s : CreditSystem ι X α μ) (a : ι) (p : ℕ) : Option (CreditSystem ι X α μ) :=
  let m := s.message a p
  if m.posted = true ∧ m.data.isNone then
    some (s.setMessage a p { m with data := some (C.payload a p (s.data a)) })
  else none

def sent (s : CreditSystem ι X α μ) (a : ι) (p : ℕ) : Option (CreditSystem ι X α μ) :=
  let m := s.message a p
  if m.data.isSome ∧ m.sent = false then
    some ((s.setMessage a p { m with sent := true }).act a (P.notifySendDone a (s.exec a)))
  else none

def incoming (s : CreditSystem ι X α μ) (a : ι) (p : ℕ) : Option (CreditSystem ι X α μ) :=
  let m := s.message a p
  if m.incoming = true then none
  else (R.dest a p).bind fun b => m.data.map fun x =>
    ((s.setMessage a p { m with incoming := true }).setExec b (P.notifyRecvData b a p (s.exec b))).setData b
      (C.deliver b (P.place (s.exec b)) x (s.data b))

def complete (s : CreditSystem ι X α μ) (a : ι) (p : ℕ) : Option (CreditSystem ι X α μ) :=
  let m := s.message a p
  if m.incoming = true ∧ m.complete = false then
    (R.dest a p).map fun b => (s.setMessage a p { m with complete := true }).act b (P.notifyRecvDone b (s.exec b))
  else none

def step (s : CreditSystem ι X α μ) : CreditEvent ι → Option (CreditSystem ι X α μ)
  | .start r => s.start P C r
  | .resume r => s.resume P r
  | .availSent a p => s.availSent P a p
  | .availIncoming a p => s.availIncoming R P a p
  | .availComplete a p => s.availComplete R P a p
  | .transmit a p => s.transmit C a p
  | .sent a p => s.sent P a p
  | .incoming a p => s.incoming R P C a p
  | .complete a p => s.complete R P a p

def rounds (s : CreditSystem ι X α μ) : CreditState ι α μ where
  entered := fun r => P.entered (s.exec r)
  data := s.data
  permission := s.permission
  message := s.message
  sends := s.sends

end CreditSystem

end PAMI.Executor

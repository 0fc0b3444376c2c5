import PAMI.Math.PhasedExchange

namespace PAMI.Executor

/-- A place in the temporary buffer for what comes in. Places and lengths are in blocks of `_buflen` bytes. -/
structure Window where
  offset : ℕ
  length : ℕ
  deriving DecidableEq, Repr

/-- One of the partners of a phase: whose message is received, and where to; and who is sent the first blocks of the
temporary buffer. -/
structure Partner (ι : Type*) where
  source : ι
  window : Option Window
  dest : Option ι
  length : ℕ

/-- `RecvStruct`, with the place that its `pwq` is configured to. -/
structure RecvStruct (ι : Type*) where
  rank : ι
  pwq : Window

structure PhaseRecvStr (ι : Type*) where
  donecount : ℤ
  partnercnt : ℤ
  exec : Bool
  recvstr : List (Option (RecvStruct ι))

/-- The buffers that an executor changes. -/
@[ext]
structure Working (V R : Type*) where
  tmpbuf : ℕ → V
  rbuf : R

/-- What the executors that pass through phases of partners differ in, for one rank: the partners, what `notifyRecv` works out
for an early message, and what is done at the end of a phase and at the end. With `nothing` to do, `start` is done. -/
structure PartnerProgram (ι V R : Type*) where
  nothing : Bool
  nphases : ℕ
  partners : ℕ → List (Partner ι)
  early : ℕ → ℕ → List (Partner ι)
  earlycnt : ℤ
  admits : ℕ → Bool
  localReduce : ℕ → Working V R → Working V R
  finish : Working V R → Working V R

/-- An executor. For the statements: the phases whose sends are posted, the calls of the done callback, and whether an
assertion failed or a message did not fit. -/
structure PartnerExec (ι V R : Type*) where
  started : Bool
  curphase : ℕ
  donecount : ℤ
  mrecvstr : ℕ → PhaseRecvStr ι
  data : Working V R
  posted : ℕ → Bool
  dones : ℕ
  failed : Bool

namespace Working

variable {V R : Type*}

def write (offset : ℕ) (m : List V) (x : Working V R) : Working V R :=
  { x with tmpbuf := fun i => if offset ≤ i then (m[i - offset]?).getD (x.tmpbuf i) else x.tmpbuf i }

end Working

namespace PartnerExec

variable {ι V R : Type*}

/-- The constructor with `setSchedule` and `setBuffers`. -/
def new (data : Working V R) : PartnerExec ι V R where
  started := false
  curphase := 0
  donecount := 0
  mrecvstr := fun _ => ⟨0, 0, false, []⟩
  data := data
  posted := fun _ => false
  dones := 0
  failed := false

def setMrecvstr (x : PartnerExec ι V R) (p : ℕ) (m : PhaseRecvStr ι) : PartnerExec ι V R :=
  { x with mrecvstr := Function.update x.mrecvstr p m }

def recvstrs (qs : List (Partner ι)) : List (Option (RecvStruct ι)) :=
  qs.map fun q => q.window.map fun w => ⟨q.source, w⟩

variable (P : PartnerProgram ι V R)

/-- The part of `sendNext` for the current phase: a partner that nothing comes from counts as received, and one that
nothing is sent to as sent. -/
def beginPhase (x : PartnerExec ι V R) : PartnerExec ι V R :=
  let qs := P.partners x.curphase
  let m := x.mrecvstr x.curphase
  { x.setMrecvstr x.curphase (if m.exec then m else
      ⟨m.donecount + qs.countP (·.window.isNone), qs.length, true, recvstrs qs⟩) with
    donecount := qs.length - qs.countP (·.dest.isNone)
    posted := Function.update x.posted x.curphase true
    failed := x.failed || (!m.exec && decide (m.donecount ≠ 0)) }

/-- The next phase, after `localReduce`. -/
def advance (x : PartnerExec ι V R) : PartnerExec ι V R :=
  { x with
    curphase := x.curphase + 1
    donecount := 0
    data := P.localReduce (x.curphase + 1) x.data }

/-- All sends of the phase are done: its messages are waited for, unless they are all there. -/
def sendsDone (sendNext : PartnerExec ι V R → PartnerExec ι V R) (x : PartnerExec ι V R) :
    PartnerExec ι V R :=
  let m := x.mrecvstr x.curphase
  if m.donecount - m.partnercnt = 0 then
    sendNext ((x.setMrecvstr x.curphase { m with donecount := 0, partnercnt := 0 }).advance P)
  else x.setMrecvstr x.curphase { m with donecount := m.donecount - m.partnercnt }

/-- `sendNext`, with as much fuel as it may call itself. -/
@[grind =] def sendNext : ℕ → PartnerExec ι V R → PartnerExec ι V R
  | 0, x => { x with failed := true }
  | fuel + 1, x =>
    if x.donecount ≠ 0 then { x with failed := true }
    else if x.curphase < P.nphases then
      let y := x.beginPhase P
      if y.donecount = 0 ∧ (P.partners x.curphase).any (·.dest.isNone) then y.sendsDone P (sendNext fuel)
      else y
    else { x with data := P.finish x.data, dones := x.dones + 1 }

/-- The fuel a call of `sendNext` gets. -/
def fuel : ℕ := P.nphases + 1

def start (sbuf : V) (x : PartnerExec ι V R) : PartnerExec ι V R :=
  if P.nothing then { x with started := true, dones := x.dones + 1 }
  else sendNext P (fuel P) { x with
    started := true
    curphase := 0
    donecount := 0
    data := { x.data with tmpbuf := Function.update x.data.tmpbuf 0 sbuf } }

def notifySendDone (x : PartnerExec ι V R) : PartnerExec ι V R :=
  let y := { x with donecount := x.donecount - 1 }
  if y.donecount = 0 then y.sendsDone P (sendNext P (fuel P)) else y

def notifyRecvDone (p : ℕ) (x : PartnerExec ι V R) : PartnerExec ι V R :=
  let m := x.mrecvstr p
  let y := x.setMrecvstr p { m with donecount := m.donecount + 1 }
  if m.donecount + 1 = 0 then sendNext P (fuel P) (y.advance P) else y

variable [DecidableEq ι]

/-- The index of a source: the last one of those that are worked out for an early message, or the first one of those
that are counted; zero if there is none. -/
def lastIndex (qs : List (Partner ι)) (src : ι) : ℕ :=
  qs.zipIdx.foldl (fun k q => if q.1.source = src then q.2 else k) 0

def firstIndex (m : PhaseRecvStr ι) (src : ι) : ℕ :=
  ((m.recvstr.take m.partnercnt.toNat).findIdx? fun r => r.any fun r => decide (r.rank = src)).getD 0

/-- `notifyRecv`, and the place it gives for the message. -/
def notifyRecv (src : ι) (p : ℕ) (x : PartnerExec ι V R) : PartnerExec ι V R × Option Window :=
  let m := x.mrecvstr p
  if m.exec then
    (x, ((m.recvstr[firstIndex m src]?).bind id).map RecvStruct.pwq)
  else
    let qs := P.early x.curphase p
    ({ x.setMrecvstr p ⟨m.donecount, P.earlycnt, true, recvstrs qs⟩ with
        failed := x.failed || decide (m.donecount ≠ 0) || !P.admits p },
      (((recvstrs qs)[lastIndex qs src]?).bind id).map RecvStruct.pwq)

def receive (src : ι) (p : ℕ) (m : List V) (x : PartnerExec ι V R) : PartnerExec ι V R :=
  let y := x.notifyRecv P src p
  match y.2 with
  | none => { y.1 with failed := true }
  | some w =>
    { y.1 with
      data := y.1.data.write w.offset m
      failed := y.1.failed || decide (w.length ≠ m.length) }

end PartnerExec

/-- A message: its blocks once they are read, whether its send is completed, and whether it comes in, and is received. -/
structure Transfer (V : Type*) where
  data : Option (List V)
  sent : Bool
  incoming : Bool
  complete : Bool

/-- All ranks, and their messages, by sender, phase and partner. -/
structure PartnerSystem (ι V R : Type*) where
  rank : ι → PartnerExec ι V R
  message : ι → ℕ → ℕ → Transfer V

inductive PartnerEvent (ι : Type*) where
  | start (r : ι)
  | transmit (a : ι) (p i : ℕ)
  | sent (a : ι) (p i : ℕ)
  | incoming (a : ι) (p i : ℕ)
  | complete (a : ι) (p i : ℕ)

namespace PartnerSystem

variable {ι V R : Type*} [DecidableEq ι] (P : ι → PartnerProgram ι V R) (sbuf : ι → V)

def new (data : ι → Working V R) : PartnerSystem ι V R where
  rank := fun r => .new (data r)
  message := fun _ _ _ => ⟨none, false, false, false⟩

def setRank (s : PartnerSystem ι V R) (r : ι) (x : PartnerExec ι V R) : PartnerSystem ι V R :=
  { s with rank := Function.update s.rank r x }

def setMessage (s : PartnerSystem ι V R) (a : ι) (p i : ℕ) (m : Transfer V) : PartnerSystem ι V R :=
  { s with message := fun a' p' i' => if a' = a ∧ p' = p ∧ i' = i then m else s.message a' p' i' }

def dest (a : ι) (p i : ℕ) : Option ι := (((P a).partners p)[i]?).bind Partner.dest

def start (s : PartnerSystem ι V R) (r : ι) : Option (PartnerSystem ι V R) :=
  if (s.rank r).started then none else some (s.setRank r ((s.rank r).start (P r) (sbuf r)))

def transmit (s : PartnerSystem ι V R) (a : ι) (p i : ℕ) : Option (PartnerSystem ι V R) :=
  let m := s.message a p i
  if (s.rank a).posted p = true ∧ m.data.isNone ∧ (dest P a p i).isSome then
    (((P a).partners p)[i]?).map fun q =>
      s.setMessage a p i { m with data := some ((List.range q.length).map (s.rank a).data.tmpbuf) }
  else none

/-- A send completes; it may do so before the call that posted it returns. -/
def sent (s : PartnerSystem ι V R) (a : ι) (p i : ℕ) : Option (PartnerSystem ι V R) :=
  let m := s.message a p i
  if m.data.isSome ∧ m.sent = false then
    some ((s.setMessage a p i { m with sent := true }).setRank a ((s.rank a).notifySendDone (P a)))
  else none

def incoming (s : PartnerSystem ι V R) (a : ι) (p i : ℕ) : Option (PartnerSystem ι V R) :=
  let m := s.message a p i
  if m.incoming = true then none
  else (dest P a p i).bind fun b => m.data.map fun x =>
    (s.setMessage a p i { m with incoming := true }).setRank b ((s.rank b).receive (P b) a p x)

def complete (s : PartnerSystem ι V R) (a : ι) (p i : ℕ) : Option (PartnerSystem ι V R) :=
  let m := s.message a p i
  if m.incoming = true ∧ m.complete = false then
    (dest P a p i).map fun b =>
      (s.setMessage a p i { m with complete := true }).setRank b ((s.rank b).notifyRecvDone (P b) p)
  else none

def step (s : PartnerSystem ι V R) : PartnerEvent ι → Option (PartnerSystem ι V R)
  | .start r => s.start P sbuf r
  | .transmit a p i => s.transmit P a p i
  | .sent a p i => s.sent P a p i
  | .incoming a p i => s.incoming P a p i
  | .complete a p i => s.complete P a p i

end PartnerSystem

def Starts {ι σ : Type*} (member : ι → Prop) (_ : σ) : PartnerEvent ι → Prop
  | .start r => member r
  | _ => True

instance {ι σ : Type*} (member : ι → Prop) [DecidablePred member] (s : σ) (e : PartnerEvent ι) :
    Decidable (Starts member s e) :=
  match e with
  | .start r => inferInstanceAs (Decidable (member r))
  | .transmit _ _ _ => .isTrue trivial
  | .sent _ _ _ => .isTrue trivial
  | .incoming _ _ _ => .isTrue trivial
  | .complete _ _ _ => .isTrue trivial

end PAMI.Executor

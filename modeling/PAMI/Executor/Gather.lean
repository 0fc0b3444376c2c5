import PAMI.Math.ByteMemory
import PAMI.Schedule.SingleTree

namespace PAMI.Executor

open PAMI.Math PAMI.Schedule

/-- What `setSchedule` keeps of the schedule of a rank, and its lists of neighbors with their lengths. -/
structure GatherSchedule where
  startphase : ℕ
  nphases : ℕ
  mynphases : ℕ
  maxsrcs : ℕ
  getRList : ℕ → List (ℕ × ℕ)
  getLList : ℕ → List (ℕ × ℕ)

namespace GatherSchedule

def maxConcurrent : ℕ := 32

/-- The k-nomial schedule of a rank; `none` if the assertion of `setSchedule` fails. -/
def ofTree (ports : ℕ) (topo : Topology) (root me : ℕ) : Option GatherSchedule :=
  (GenericTreeSchedule.init (knomial ports) topo root me).bind fun s =>
    if ports ≤ maxConcurrent then
      some
        { startphase := s.lstartph.toNat
          nphases := s.nphs.toNat
          mynphases := s.mynphs.toNat
          maxsrcs := ports
          getRList := fun p => (s.getRList p).zip (s.getRLens p)
          getLList := fun p => (s.getLList p).zip (s.getLLens p) }
    else none

def tree (ports : ℕ) (topo : Topology) (root me : ℕ) : GatherSchedule :=
  (ofTree ports topo root me).getD ⟨0, 0, 0, 0, fun _ => [], fun _ => []⟩

/-- The schedule of a rank that the gathers with vectors are registered with. -/
def flat (topo : Topology) (root me : ℕ) : GatherSchedule :=
  let s := FlatTreeSchedule.init topo root me
  { startphase := s.lstartph
    nphases := s.nphs
    mynphases := s.mynphs
    maxsrcs := 1
    getRList := s.getRList
    getLList := s.getLList }

end GatherSchedule

/-- The buffers and counts that a rank is given, with the sizes of its types, which are contiguous. -/
structure GatherCall (V : Type*) where
  sbuf : ℕ → V
  count : ℕ
  ssize : ℕ
  rsize : ℕ

/-- `_disps` and `_rcvcounts`. -/
structure GatherVectors where
  disps : ℕ → ℕ
  rcvcounts : ℕ → ℕ

/-- A `RecvStruct`: where the data goes in the temporary buffer, and what it counts. -/
structure GatherExec.RecvStruct where
  offset : ℕ
  buflen : ℕ
  subsize : ℕ

/-- The executor of a rank. For the statements: whether it was started, whether it has posted its message, the calls of
the done callback, and whether an assertion failed or something did not fit. -/
structure GatherExec (V : Type*) where
  bufcnt : ℕ
  donecount : ℤ
  totallen : ℕ
  dst : Option ℕ
  tmpbuf : ℕ → V
  rbuf : ℕ → V
  mrecvstr : ℕ → GatherExec.RecvStruct
  started : Bool
  posted : Bool
  dones : ℕ
  failed : Bool

namespace GatherExec

variable {V : Type*}

/-- The constructor, with what is in the buffers. -/
def new (tmpbuf rbuf : ℕ → V) : GatherExec V where
  bufcnt := 0
  donecount := -1
  totallen := 0
  dst := none
  tmpbuf := tmpbuf
  rbuf := rbuf
  mrecvstr := fun _ => ⟨0, 0, 0⟩
  started := false
  posted := false
  dones := 0
  failed := false

section

variable (topo : Topology) (root me : ℕ) (S : GatherSchedule) (c : GatherCall V) (vec : Option GatherVectors)

/-- `setVectors` sets them at the root only. -/
def vectors : Option GatherVectors := if me = root then vec else none

def setBuffers (x : GatherExec V) : GatherExec V :=
  let y := { x with bufcnt := c.count }
  if me = root then
    match vectors root me vec with
    | some v =>
      { y with
        bufcnt := ((List.range topo.size).map v.rcvcounts).sum
        donecount := topo.size - (List.range topo.size).countP fun i =>
          decide (v.rcvcounts i = 0 ∧ i ≠ topo.endpoint2Index root) }
    | none => { y with donecount := topo.size }
  else
    match S.getLList S.startphase with
    | [(ep, len)] => { y with dst := some ep, donecount := len, totallen := len }
    | _ => { y with failed := true }

/-- The blocks in the temporary buffer begin with the one of the root, those in the receive buffer with the first one. -/
def rotate (x : GatherExec V) : ℕ → V :=
  let myindex := topo.endpoint2Index me
  let len := x.bufcnt * c.rsize
  if topo.endpoint2Index root ≠ 0 then
    writeBytes
      (writeBytes x.rbuf ((myindex + 1) % topo.size * len) (readBytes x.tmpbuf len ((topo.size - myindex - 1) * len))) 0
      (readBytes x.tmpbuf ((topo.size - myindex) * len) (myindex * len))
  else writeBytes x.rbuf len (readBytes x.tmpbuf len ((topo.size - 1) * len))

def sendNext (x : GatherExec V) : GatherExec V :=
  if me = root then
    { x with
      rbuf := if (vectors root me vec).isSome then x.rbuf else rotate topo root me c x
      dones := x.dones + 1 }
  else { x with posted := true }

/-- What the rank has is counted; with the last of it, it goes on. -/
def countDown (n : ℕ) (x : GatherExec V) : GatherExec V :=
  let y := { x with donecount := x.donecount - n }
  if y.donecount = 0 then sendNext topo root me c vec y else y

/-- The copy of its own block that a rank makes in `start`. -/
def copyOwn (x : GatherExec V) : GatherExec V :=
  if me = root then
    match vectors root me vec with
    | some v =>
      let rootindex := topo.endpoint2Index root
      let own := readBytes c.sbuf 0 (v.rcvcounts rootindex * c.rsize)
      { x with rbuf := writeBytes x.rbuf (v.disps rootindex * c.rsize) own }
    | none =>
      let own := readBytes c.sbuf 0 (x.bufcnt * c.rsize)
      { x with rbuf := writeBytes x.rbuf (topo.endpoint2Index root * x.bufcnt * c.rsize) own }
  else if 1 < S.mynphases then { x with tmpbuf := writeBytes x.tmpbuf 0 (readBytes c.sbuf 0 (x.bufcnt * c.ssize)) }
  else x

def start (x : GatherExec V) : GatherExec V :=
  let y := { x with started := true }
  if x.bufcnt = 0 then { y with dones := x.dones + 1 }
  else countDown topo root me c vec 1 (copyOwn topo root me S c vec y)

/-- What `_pwq` has: the temporary buffer, or the send buffer of a rank that receives nothing. -/
def payload (x : GatherExec V) : List V :=
  readBytes (if 1 < S.mynphases then x.tmpbuf else c.sbuf) 0 (x.totallen * x.bufcnt * c.ssize)

/-- The index `i` of a source in a phase. -/
def sourceIndex (src phase : ℕ) : ℕ := (S.getRList phase).findIdx (·.1 == src)

/-- The index `ind` of the record for a source in a phase. -/
def recvIndex (src phase : ℕ) : ℕ := (S.nphases - phase - 1) * S.maxsrcs + sourceIndex S src phase

/-- `notifyRecv`; the offset is an `unsigned`. -/
def notifyRecv (src phase : ℕ) (x : GatherExec V) : GatherExec V :=
  match (S.getRList phase)[sourceIndex S src phase]? with
  | none => { x with failed := true }
  | some (ep, len) =>
    let srcindex := topo.endpoint2Index ep
    let record : RecvStruct := match vectors root me vec with
      | some v => ⟨v.disps srcindex * c.rsize % 2 ^ 32, v.rcvcounts srcindex * c.rsize, 1⟩
      | none =>
        ⟨(srcindex + topo.size - topo.endpoint2Index me) % topo.size * x.bufcnt * c.rsize % 2 ^ 32,
          len * x.bufcnt * c.rsize, len⟩
    { x with
      mrecvstr := Function.update x.mrecvstr (recvIndex S src phase) record
      failed := x.failed || decide (S.maxsrcs * S.mynphases ≤ recvIndex S src phase) ||
        ((vectors root me vec).isSome && decide (me ≠ root)) }

/-- The size of the temporary buffer of a rank that has one. -/
def tmpsize (x : GatherExec V) : ℕ :=
  if me = root then topo.size * c.count * c.rsize
  else if 1 < S.mynphases then x.totallen * x.bufcnt * c.ssize else 0

/-- The data of a message goes where the record says; in a gather with vectors that is the receive buffer. -/
def receive (ind : ℕ) (m : List V) (x : GatherExec V) : GatherExec V :=
  let r := x.mrecvstr ind
  if (vectors root me vec).isSome then
    { x with
      rbuf := writeBytes x.rbuf r.offset m
      failed := x.failed || decide (r.buflen < m.length) }
  else
    { x with
      tmpbuf := writeBytes x.tmpbuf r.offset m
      failed := x.failed || decide (r.buflen < m.length) ||
        decide (tmpsize topo root me S c x < r.offset + m.length) }

def notifyRecvDone (ind : ℕ) (x : GatherExec V) : GatherExec V :=
  countDown topo root me c vec (x.mrecvstr ind).subsize x

end

end GatherExec

/-- The message of a rank: its data once it is read, whether its send is complete, whether it has come in, and whether
its data has arrived and its completion was told. -/
structure GatherMessage (V : Type*) where
  data : Option (List V)
  sent : Bool
  incoming : Bool
  arrived : Bool
  complete : Bool

/-- All ranks, and their messages. -/
structure GatherSystem (V : Type*) where
  rank : ℕ → GatherExec V
  message : ℕ → GatherMessage V

inductive GatherEvent where
  | start (r : ℕ)
  | transmit (a : ℕ)
  | sent (a : ℕ)
  | incoming (a : ℕ)
  | arrive (a : ℕ)
  | complete (a : ℕ)

namespace GatherSystem

open GatherExec

variable {V : Type*} (topo : Topology) (root : ℕ) (S : ℕ → GatherSchedule) (c : ℕ → GatherCall V)
  (vec : Option GatherVectors)

/-- The ranks with their buffers set, before they start. -/
def new (tmpbuf rbuf : ℕ → ℕ → V) : GatherSystem V where
  rank := fun r => setBuffers topo root r (S r) (c r) vec (GatherExec.new (tmpbuf r) (rbuf r))
  message := fun _ => ⟨none, false, false, false, false⟩

def setRank (s : GatherSystem V) (r : ℕ) (x : GatherExec V) : GatherSystem V :=
  { s with rank := Function.update s.rank r x }

def setMessage (s : GatherSystem V) (a : ℕ) (m : GatherMessage V) : GatherSystem V :=
  { s with message := Function.update s.message a m }

def start (s : GatherSystem V) (r : ℕ) : Option (GatherSystem V) :=
  if r ∈ topo ∧ (s.rank r).started = false then
    some (s.setRank r ((s.rank r).start topo root r (S r) (c r) vec))
  else none

def transmit (s : GatherSystem V) (a : ℕ) : Option (GatherSystem V) :=
  let m := s.message a
  if (s.rank a).posted = true ∧ m.data.isNone then
    some (s.setMessage a { m with data := some ((s.rank a).payload (S a) (c a)) })
  else none

def sent (s : GatherSystem V) (a : ℕ) : Option (GatherSystem V) :=
  let m := s.message a
  if m.data.isSome ∧ m.sent = false then
    some ((s.setMessage a { m with sent := true }).setRank a { s.rank a with dones := (s.rank a).dones + 1 })
  else none

/-- The header of a message comes in: it has the first phase of its sender. -/
def incoming (s : GatherSystem V) (a : ℕ) : Option (GatherSystem V) :=
  let m := s.message a
  if m.data.isSome ∧ m.incoming = false then
    (s.rank a).dst.map fun b => (s.setMessage a { m with incoming := true }).setRank b
        ((s.rank b).notifyRecv topo root b (S b) (c b) vec a (S a).startphase)
  else none

def arrive (s : GatherSystem V) (a : ℕ) : Option (GatherSystem V) :=
  let m := s.message a
  if m.incoming = true ∧ m.arrived = false then
    (s.rank a).dst.bind fun b => m.data.map fun x => (s.setMessage a { m with arrived := true }).setRank b
        ((s.rank b).receive topo root b (S b) (c b) vec (recvIndex (S b) a (S a).startphase) x)
  else none

def complete (s : GatherSystem V) (a : ℕ) : Option (GatherSystem V) :=
  let m := s.message a
  if m.arrived = true ∧ m.complete = false then
    (s.rank a).dst.map fun b => (s.setMessage a { m with complete := true }).setRank b
        ((s.rank b).notifyRecvDone topo root b (c b) vec (recvIndex (S b) a (S a).startphase))
  else none

def step (s : GatherSystem V) : GatherEvent → Option (GatherSystem V)
  | .start r => s.start topo root S c vec r
  | .transmit a => s.transmit S c a
  | .sent a => s.sent a
  | .incoming a => s.incoming topo root S c vec a
  | .arrive a => s.arrive topo root S c vec a
  | .complete a => s.complete topo root S c vec a

end GatherSystem

end PAMI.Executor

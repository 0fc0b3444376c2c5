import Mathlib.Algebra.Order.Ring.Int
import Mathlib.Data.List.Range
import PAMI.Math.Runs

namespace PAMI.Pwq

open PAMI.Math List Option

/-- A size that is converted to `int`. -/
def toInt (n : ℕ) : ℤ := (BitVec.ofNat 32 n).toInt

/-- An `IncomingPacket`; which chunk it is, and whether its data is in the buffer already, is for the
statements. -/
structure IncomingPacket (β : Type*) where
  size : ℤ
  offset : ℕ
  seqNo : BitVec 32
  data : List β
  chunk : ℕ
  arrived : Bool
  deriving DecidableEq, Repr

/-- A `PWQMessage`, with whether its work is on the generic device. The bytes produced into the receive
queue, the chunks enqueued and freed, and the calls of `cb_done`, are for the statements. -/
structure PWQMessage (β : Type*) where
  packetQueue : List (IncomingPacket β)
  totalRecvln : ℕ
  seqNo : BitVec 32
  workPosted : Bool
  allocated : Bool
  onDevice : Bool
  produced : List β
  enqueued : List ℕ
  freed : List ℕ
  done : ℕ
  deriving DecidableEq, Repr

/-- How a round of the copy loop ends: the loop is over, or the call is, since the next packet is not
there, or the next round goes on with a packet. -/
inductive Copied (β : Type*) where
  | ended (m : PWQMessage β)
  | waiting (m : PWQMessage β)
  | next (m : PWQMessage β) (i : ℕ)

/-- A chunk comes with its data; or a buffer for it is enqueued, and the data arrives later; or the work
function runs. A call of `recvPWQ` comes with what the receive queue offers at each of its questions,
before it offers nothing. -/
inductive RecvEvent (β : Type*) where
  | deliver (i : ℕ) (offers : List ℕ)
  | announce (i : ℕ) (buffer : List β)
  | arrive (i : ℕ) (offers : List ℕ)
  | work (offers : List ℕ)

namespace PWQMessage

variable {β : Type*}

def new (totalRecvln : ℕ) : PWQMessage β where
  packetQueue := []
  totalRecvln := totalRecvln
  seqNo := 0
  workPosted := false
  allocated := true
  onDevice := false
  produced := []
  enqueued := []
  freed := []
  done := 0

/-- The packet of a chunk, with its data, or with a buffer that the data is to come into. -/
def enqueuePacket (m : PWQMessage β) (chunk : ℕ) (data : List β) (arrived : Bool) : PWQMessage β :=
  { m with
    packetQueue := m.packetQueue ++
      [⟨toInt data.length, 0, BitVec.ofNat 32 chunk, data, chunk, arrived⟩]
    enqueued := m.enqueued ++ [chunk] }

/-- The data of a chunk comes into its buffer; there is no result when the buffer was freed. -/
def arriveData (m : PWQMessage β) (chunk : ℕ) (data : List β) : Option (PWQMessage β) :=
  if ∃ p ∈ m.packetQueue, p.chunk = chunk ∧ p.arrived = false then
    some { m with
      packetQueue := m.packetQueue.map fun p =>
        if p.chunk = chunk then { p with data := data, arrived := true } else p }
  else none

/-- It takes the packet at the head of the queue. -/
def dequeuePacket (m : PWQMessage β) : Option (PWQMessage β) := m.packetQueue.head?.map fun p =>
    { m with
      packetQueue := m.packetQueue.tail
      seqNo := m.seqNo + 1
      freed := m.freed ++ [p.chunk] }

/-- A part of the packet at a place of the queue is produced. -/
def produce (m : PWQMessage β) (i : ℕ) (p : IncomingPacket β) (bytes : ℕ) : PWQMessage β :=
  { m with
    packetQueue := m.packetQueue.set i { p with size := p.size - bytes, offset := p.offset + bytes }
    totalRecvln := if bytes ≤ m.totalRecvln then m.totalRecvln - bytes
      else m.totalRecvln + 2^64 - bytes
    produced := m.produced ++ (p.data.drop p.offset).take bytes }

/-- A round of the copy loop with the packet at a place of the queue; there is none when the packet is
not there, or a negative number of bytes would be copied. -/
def copyPacket (m : PWQMessage β) (i : ℕ) (bytesAvail : ℤ) : Option (Copied β) :=
  if bytesAvail = 0 ∨ m.totalRecvln = 0 then some (.ended m)
  else m.packetQueue[i]?.bind fun p =>
    if p.size = 0 then some (.ended m)
    else
      let bytesToCopy := if p.size ≥ bytesAvail then bytesAvail else p.size
      if bytesToCopy < 0 then none
      else if p.size - bytesToCopy = 0 then
        (m.produce i p bytesToCopy.toNat).dequeuePacket.map fun m =>
          if m.packetQueue = [] ∧ m.totalRecvln ≠ 0 then .waiting m else .next m 0
      else some (.next (m.produce i p bytesToCopy.toNat) i)

/-- The copy loop, with the offers after the first one: the message, and whether the next packet is not
there. -/
@[grind =] def copyPackets : List ℕ → PWQMessage β → ℕ → ℤ → Option (PWQMessage β × Bool)
  | [], m, i, bytesAvail => (m.copyPacket i bytesAvail).map fun
    | .ended m => (m, false)
    | .waiting m => (m, true)
    | .next m _ => (m, false)
  | o :: offers, m, i, bytesAvail => (m.copyPacket i bytesAvail).bind fun
    | .ended m => some (m, false)
    | .waiting m => some (m, true)
    | .next m i => copyPackets offers m i (toInt o)

/-- The message is posted to the device, if it is not done and not already there. The second value is
whether the call returns PAMI_EAGAIN. -/
def postWork (m : PWQMessage β) : PWQMessage β × Bool :=
  if m.workPosted then (m, true)
  else if m.totalRecvln ≠ 0 then ({ m with workPosted := true, onDevice := true }, false)
  else (m, false)

/-- `recvPWQ`; there is no result when its assertion fails. -/
def recvPWQ (m : PWQMessage β) (offers : List ℕ) : Option (PWQMessage β × Bool) :=
  let bytesAvail := toInt (offers.headD 0)
  if 0 < bytesAvail then
    match m.packetQueue.findIdx? fun p => p.seqNo = m.seqNo with
    | none => some m.postWork
    | some i => m.packetQueue[i]?.bind fun p =>
      if 0 ≤ p.size ∧ p.size ≤ m.totalRecvln then
        (copyPackets offers.tail m i bytesAvail).map fun
          | (m, true) => (m, m.workPosted)
          | (m, false) => if m.totalRecvln = 0 then ({ m with workPosted := false }, false) else m.postWork
      else none
  else some m.postWork

def cleanupMsg (m : PWQMessage β) : PWQMessage β :=
  if m.allocated then { m with allocated := false, done := m.done + 1 } else m

/-- `RecvPWQ` -/
def recv (m : PWQMessage β) (offers : List ℕ) : Option (PWQMessage β) := (m.recvPWQ offers).map fun r =>
    if r.1.totalRecvln = 0 then r.1.cleanupMsg else r.1

/-- `recvPWQ_work_function` -/
def work (m : PWQMessage β) (offers : List ℕ) : Option (PWQMessage β) := (m.recvPWQ offers).map fun r =>
    if r.1.totalRecvln = 0 then { r.1.cleanupMsg with onDevice := false }
    else { r.1 with onDevice := r.2 }

variable (chunks : List (List β))

def step (m : PWQMessage β) : RecvEvent β → Option (PWQMessage β)
  | .deliver i offers => if i ∈ m.enqueued then none
    else chunks[i]?.bind fun data => (m.enqueuePacket i data true).recv offers
  | .announce i buffer => if i ∈ m.enqueued then none
    else chunks[i]?.bind fun data =>
      if buffer.length = data.length then some (m.enqueuePacket i buffer false) else none
  | .arrive i offers => chunks[i]?.bind fun data => (m.arriveData i data).bind fun m => m.recv offers
  | .work offers => if m.onDevice then m.work offers else none

/-- The bytes of the packets before the first one whose data is not there. -/
@[grind =] def ready : List (IncomingPacket β) → ℕ
  | [] => 0
  | p :: q => if p.arrived then p.size.toNat + ready q else 0

def Within (m : PWQMessage β) (offers : List ℕ) : Prop :=
  ((∀ p ∈ m.packetQueue, p.arrived) ∨ offers.sum ≤ ready m.packetQueue) ∧ ∀ o ∈ offers, o < 2^31

def InSequence (m : PWQMessage β) (i : ℕ) : Prop :=
  i = m.enqueued.length ∧ ∀ data ∈ chunks[i]?, data ≠ [] ∧ data.length < 2^31

/-- The chunks come in sequence, and the receive queue offers no space for data that is not there. -/
def Clean (m : PWQMessage β) : RecvEvent β → Prop
  | .deliver i offers => InSequence chunks m i ∧
    ∀ data ∈ chunks[i]?, (m.enqueuePacket i data true).Within offers
  | .announce i _ => InSequence chunks m i
  | .arrive i offers => ∀ data ∈ chunks[i]?, ∀ m' ∈ m.arriveData i data, m'.Within offers
  | .work offers => m.Within offers

end PWQMessage

variable {β : Type*} {chunks : List (List β)}

theorem toInt_of_lt {n : ℕ} (h : n<2^31) : toInt n = n := by
  rw [toInt,BitVec.toInt_eq_toNat_of_lt (by rw [BitVec.toNat_ofNat]; omega),BitVec.toNat_ofNat,
    Nat.mod_eq_of_lt (by omega)]

/-- The packet of a chunk that is not copied to the end. -/
structure IncomingPacket.Holds (chunks : List (List β)) (p : IncomingPacket β) : Prop where
  seqNo : p.seqNo = BitVec.ofNat 32 p.chunk
  length : p.data.length = (chunks.getD p.chunk []).length
  data : p.arrived = true → p.data = chunks.getD p.chunk []
  size : p.size + p.offset = p.data.length
  pos : 0 < p.size

namespace PWQMessage

variable {m m' : PWQMessage β} {p : IncomingPacket β} {q : List (IncomingPacket β)}

@[grind =] def headOffset : List (IncomingPacket β) → ℕ
  | [] => 0
  | p :: _ => p.offset

/-- The chunks up to the last one enqueued are freed or wait in the queue, in the order of their numbers,
and the bytes produced are those of the chunks freed and the part of the first packet that is copied. -/
structure InOrder (chunks : List (List β)) (m : PWQMessage β) : Prop where
  enqueued : m.enqueued = List.range m.enqueued.length
  exist : m.enqueued.length ≤ chunks.length
  freed : m.freed = List.range m.freed.length
  count : m.freed.length + m.packetQueue.length = m.enqueued.length
  waiting : m.packetQueue.map IncomingPacket.chunk = List.range' m.freed.length m.packetQueue.length
  seqNo : m.seqNo = BitVec.ofNat 32 m.freed.length
  holds : ∀ p ∈ m.packetQueue, p.Holds chunks
  untouched : ∀ p ∈ m.packetQueue.tail, p.offset = 0
  produced : m.produced = (chunks.take m.freed.length).flatten ++
    (chunks.getD m.freed.length []).take (headOffset m.packetQueue)
  total : m.totalRecvln + m.produced.length = chunks.flatten.length

theorem flatten_take_succ (chunks : List (List β)) (f : ℕ) :
    (chunks.take (f+1)).flatten = (chunks.take f).flatten ++ chunks.getD f [] := by
  rw [take_add_one,flatten_append,getD_eq_getElem?_getD]
  cases chunks[f]? <;> simp

theorem flatten_take_isPrefix (chunks : List (List β)) (f : ℕ) :
    (chunks.take f).flatten <+: chunks.flatten := by
  refine ⟨(chunks.drop f).flatten,?_⟩
  rw [← flatten_append,take_append_drop]

theorem InOrder.flags (h : InOrder chunks m) (posted allocated onDevice : Bool) (done : ℕ) :
    InOrder chunks { m with
      workPosted := posted, allocated := allocated, onDevice := onDevice, done := done } :=
  ⟨h.enqueued,h.exist,h.freed,h.count,h.waiting,h.seqNo,h.holds,h.untouched,h.produced,h.total⟩

section

variable (h : InOrder chunks m) (hq : m.packetQueue = p :: q)
include h hq

theorem InOrder.chunk_eq : p.chunk=m.freed.length := by
  have hwtn := h.waiting
  rw [hq,map_cons,length_cons,range'_succ] at hwtn
  exact (List.cons.inj hwtn).1

theorem InOrder.produced_eq (harr : p.arrived=true) (c : ℕ) :
    (m.produce 0 p c).produced = (chunks.take m.freed.length).flatten ++
      (chunks.getD m.freed.length []).take (p.offset+c) := by
  have hp := h.holds p (by simp [hq])
  have hpro := h.produced
  rw [hq] at hpro
  simp only [produce,hpro,headOffset,hp.data harr,h.chunk_eq hq,List.append_assoc]
  rw [take_add]

theorem InOrder.size_le : p.size ≤ m.totalRecvln := by
  have hp := h.holds p (by simp [hq])
  have htot := h.total
  have hpre := (flatten_take_isPrefix chunks (m.freed.length+1)).length_le
  have hsi := hp.size
  have hpos := hp.pos
  rw [flatten_take_succ,length_append,← h.chunk_eq hq,← hp.length] at hpre
  have hlen : m.produced.length=(chunks.take m.freed.length).flatten.length+p.offset := by
    rw [h.produced,hq,length_append,headOffset,length_take,← h.chunk_eq hq,← hp.length,min_eq_left (by omega)]
  rw [h.chunk_eq hq] at hpre
  omega

end

/-- What a round of the copy loop leaves as it is. -/
structure Kept (m m' : PWQMessage β) : Prop where
  workPosted : m'.workPosted = m.workPosted
  allocated : m'.allocated = m.allocated
  onDevice : m'.onDevice = m.onDevice
  enqueued : m'.enqueued = m.enqueued
  done : m'.done = m.done

theorem Kept.refl (m : PWQMessage β) : Kept m m := ⟨rfl,rfl,rfl,rfl,rfl⟩

theorem Kept.trans {m'' : PWQMessage β} (h : Kept m m') (h' : Kept m' m'') : Kept m m'' :=
  ⟨h'.workPosted.trans h.workPosted,h'.allocated.trans h.allocated,h'.onDevice.trans h.onDevice,
    h'.enqueued.trans h.enqueued,h'.done.trans h.done⟩

/-- A number of bytes is copied. -/
structure Copying (chunks : List (List β)) (m m' : PWQMessage β) (bytes : ℕ) : Prop where
  inOrder : InOrder chunks m'
  kept : Kept m m'
  produced : m'.produced.length = m.produced.length + bytes
  ready : ready m'.packetQueue + bytes = ready m.packetQueue
  arrived : (∀ p ∈ m.packetQueue, p.arrived) → ∀ p ∈ m'.packetQueue, p.arrived

theorem InOrder.copy_part (h : InOrder chunks m) (hq : m.packetQueue = p :: q)
    (harr : p.arrived=true) {c : ℕ} (hc : (c : ℤ)<p.size) :
    Copying chunks m (m.produce 0 p c) c := by
  have hp := h.holds p (by simp [hq])
  have hsi := hp.size
  have hle := h.size_le hq
  have hpro := h.produced_eq hq harr c
  have hlen : (m.produce 0 p c).produced.length=m.produced.length+c := by
    simp only [produce,length_append,length_take,length_drop]
    omega
  have htot : (m.produce 0 p c).totalRecvln=m.totalRecvln-c := if_pos (by omega)
  have hque : (m.produce 0 p c).packetQueue =
      { p with size := p.size-c, offset := p.offset+c } :: q := by simp [produce,hq]
  refine ⟨?_,⟨rfl,rfl,rfl,rfl,rfl⟩,hlen,?_,?_⟩
  · refine ⟨h.enqueued,h.exist,h.freed,?_,?_,h.seqNo,?_,?_,?_,?_⟩
    · simpa [produce] using h.count
    · have hwtn := h.waiting
      rw [hq] at hwtn
      rw [hque]
      exact hwtn
    · intro r hr
      rw [hque] at hr
      obtain rfl | hr := mem_cons.mp hr
      · exact ⟨hp.seqNo,hp.length,hp.data,by simp only [Nat.cast_add]; omega,by simp only; omega⟩
      · exact h.holds r (by simp [hq,hr])
    · intro r hr
      rw [hque] at hr
      exact h.untouched r (by simpa [hq] using hr)
    · rw [hpro,hque]
      rfl
    · have := h.total
      rw [hlen,htot]
      omega
  · rw [hque,hq]
    simp only [PWQMessage.ready,harr,if_true]
    omega
  · intro hall r hr
    rw [hque] at hr
    obtain rfl | hr := mem_cons.mp hr
    · exact harr
    · exact hall r (by simp [hq,hr])

theorem InOrder.copy_rest (h : InOrder chunks m) (hq : m.packetQueue = p :: q)
    (harr : p.arrived=true) {c : ℕ} (hc : (c : ℤ)=p.size) :
    ∃ m', (m.produce 0 p c).dequeuePacket = some m' ∧ m'.packetQueue=q ∧ Copying chunks m m' c := by
  have hp := h.holds p (by simp [hq])
  have hsi := hp.size
  have hle := h.size_le hq
  have hchu := h.chunk_eq hq
  have hpro := h.produced_eq hq harr c
  have hcou := h.count
  have hwtn := h.waiting
  rw [hq,length_cons] at hcou hwtn
  rw [map_cons,range'_succ] at hwtn
  have hoft : headOffset q=0 := by
    cases hq' : q with
    | nil => rfl
    | cons r q => exact h.untouched r (by simp [hq,hq'])
  have hlen : (m.produce 0 p c).produced.length=m.produced.length+c := by
    simp only [produce,length_append,length_take,length_drop]
    omega
  have htot : (m.produce 0 p c).totalRecvln=m.totalRecvln-c := if_pos (by omega)
  refine ⟨{ m.produce 0 p c with
    packetQueue := q, seqNo := m.seqNo+1, freed := m.freed ++ [p.chunk] },?_,rfl,?_⟩
  · simp [dequeuePacket,produce,hq]
  · refine ⟨⟨h.enqueued,h.exist,?_,?_,?_,?_,fun r hr => h.holds r (by simp [hq,hr]),?_,?_,?_⟩,
      ⟨rfl,rfl,rfl,rfl,rfl⟩,hlen,?_,fun hall r hr => hall r (by simp [hq,hr])⟩
    · simp only [length_append,length_singleton,range_succ,hchu]
      rw [← h.freed]
    · simp only [length_append,length_singleton]
      exact (add_right_comm _ _ _).trans hcou
    · simpa using (List.cons.inj hwtn).2
    · simp [h.seqNo,BitVec.ofNat_add]
    · intro r hr
      exact h.untouched r (by simpa [hq] using mem_of_mem_tail hr)
    · simp only [length_append,length_singleton,hoft,take_zero,append_nil]
      have hall : (chunks.getD m.freed.length []).length≤p.offset+c := by
        rw [← hchu,← hp.length]
        omega
      rw [hpro,flatten_take_succ,take_of_length_le hall]
    · have := h.total
      rw [hlen,htot]
      omega
    · rw [hq]
      simp only [PWQMessage.ready,harr,if_true]
      omega

end PWQMessage

variable {β : Type*}

/-- The message that a round of the copy loop ends with. -/
def Copied.message : Copied β → PWQMessage β
  | .ended m => m
  | .waiting m => m
  | .next m _ => m

namespace PWQMessage

variable {m m' : PWQMessage β}

theorem kept_dequeuePacket (h : m.dequeuePacket = some m') : Kept m m' := by
  obtain ⟨p,-,rfl⟩ := map_eq_some_iff.mp h
  exact ⟨rfl,rfl,rfl,rfl,rfl⟩

theorem kept_copyPacket {i : ℕ} {bytesAvail : ℤ} {r : Copied β}
    (h : m.copyPacket i bytesAvail = some r) : Kept m r.message := by
  rw [copyPacket] at h
  split at h
  case isTrue =>
    obtain rfl := some.inj h
    exact .refl m
  case isFalse =>
    obtain ⟨p,-,h⟩ := bind_eq_some_iff.mp h
    by_cases hzr : p.size=0
    · rw [if_pos hzr] at h
      obtain rfl := some.inj h
      exact .refl m
    · rw [if_neg hzr] at h
      obtain ⟨-,h⟩ := ite_none_left_eq_some.mp h
      generalize (if p.size ≥ bytesAvail then bytesAvail else p.size)=bytesToCopy at h
      split at h
      case isTrue =>
        obtain ⟨m1,hdeq,rfl⟩ := map_eq_some_iff.mp h
        have hprd : Kept m (m.produce i p bytesToCopy.toNat) := ⟨rfl,rfl,rfl,rfl,rfl⟩
        have hkp := hprd.trans (kept_dequeuePacket hdeq)
        split <;> exact hkp
      case isFalse =>
        obtain rfl := some.inj h
        exact ⟨rfl,rfl,rfl,rfl,rfl⟩

theorem kept_copyPackets {offers : List ℕ} {i : ℕ} {bytesAvail : ℤ} {waiting : Bool}
    (h : copyPackets offers m i bytesAvail = some (m', waiting)) :
    Kept m m' ∧ (m.totalRecvln=0 → m'=m) := by
  constructor
  · induction offers generalizing m i bytesAvail with
    | nil =>
      obtain ⟨r,hr,hm'⟩ := map_eq_some_iff.mp h
      have hkp := kept_copyPacket hr
      cases r <;> obtain ⟨rfl,-⟩ := Prod.mk.inj hm' <;> exact hkp
    | cons o offers ih =>
      obtain ⟨r,hr,hrs⟩ := bind_eq_some_iff.mp h
      have hkp := kept_copyPacket hr
      cases r with
      | ended m1 | waiting m1 =>
        obtain ⟨rfl,-⟩ := Prod.mk.inj (some.inj hrs)
        exact hkp
      | next m1 i1 => exact hkp.trans (ih hrs)
  · intro hzr
    have hrou : m.copyPacket i bytesAvail = some (.ended m) := if_pos (.inr hzr)
    cases offers with
    | nil | cons o offers =>
      rw [copyPackets,hrou] at h
      exact (Prod.mk.inj (some.inj h)).1.symm

/-- The same message, up to whether its work is posted. -/
structure Alike (m m' : PWQMessage β) : Prop where
  packetQueue : m'.packetQueue = m.packetQueue
  totalRecvln : m'.totalRecvln = m.totalRecvln
  allocated : m'.allocated = m.allocated
  produced : m'.produced = m.produced
  done : m'.done = m.done

theorem alike_postWork (m : PWQMessage β) : Alike m m.postWork.1 := by
  rw [postWork]
  split
  case isTrue => exact ⟨rfl,rfl,rfl,rfl,rfl⟩
  case isFalse => split <;> exact ⟨rfl,rfl,rfl,rfl,rfl⟩

section

variable {offers : List ℕ} {again : Bool} (h : m.recvPWQ offers = some (m', again))
include h

theorem recvPWQ_cases : ∃ m1, Alike m1 m' ∧ (m1=m ∨ ∃ o rest i waiting, offers = o :: rest ∧
      (m.packetQueue.findIdx? fun p => p.seqNo=m.seqNo) = some i ∧
      copyPackets rest m i (toInt o) = some (m1, waiting)) := by
  have hps : ∀ m1 : PWQMessage β, some m1.postWork = some (m', again) → Alike m1 m' := by
    intro m1 heq
    have := alike_postWork m1
    rwa [some.inj heq] at this
  simp only [recvPWQ] at h
  split at h
  case isFalse => exact ⟨m,hps m h,.inl rfl⟩
  case isTrue hpos =>
    split at h
    case h_1 => exact ⟨m,hps m h,.inl rfl⟩
    case h_2 i hi =>
      obtain ⟨p,-,h⟩ := bind_eq_some_iff.mp h
      obtain ⟨-,h⟩ := ite_none_right_eq_some.mp h
      obtain ⟨⟨m1,waiting⟩,hloop,h⟩ := map_eq_some_iff.mp h
      obtain ⟨o,rest,rfl⟩ : ∃ o rest, offers=o :: rest := by
        apply exists_cons_of_ne_nil
        intro hnil
        simp [hnil,toInt] at hpos
      refine ⟨m1,?_,.inr ⟨o,rest,i,waiting,rfl,hi,hloop⟩⟩
      cases waiting with
      | true =>
        obtain ⟨rfl,-⟩ := Prod.mk.inj h
        exact ⟨rfl,rfl,rfl,rfl,rfl⟩
      | false =>
        by_cases hzr : m1.totalRecvln=0
        · simp only [if_pos hzr] at h
          obtain ⟨rfl,-⟩ := Prod.mk.inj h
          exact ⟨rfl,rfl,rfl,rfl,rfl⟩
        · simp only [if_neg hzr] at h
          exact hps m1 (congrArg some h)

theorem recvPWQ_frame :
    m'.allocated=m.allocated ∧ m'.done=m.done ∧ (m.totalRecvln=0 → m'.totalRecvln=0) := by
  obtain ⟨m1,hali,rfl | ⟨o,rest,i,waiting,-,-,hloop⟩⟩ := recvPWQ_cases h
  · exact ⟨hali.allocated,hali.done,hali.totalRecvln.trans⟩
  · obtain ⟨hkp,hstay⟩ := kept_copyPackets hloop
    refine ⟨hali.allocated.trans hkp.allocated,hali.done.trans hkp.done,fun hzr => ?_⟩
    rw [hali.totalRecvln,hstay hzr,hzr]

end

/-- Whatever chunks came, a call keeps the message allocated or completes it, once, when nothing is left
to receive. -/
structure Proceeds (m m' : PWQMessage β) : Prop where
  allocated : m'.allocated = true → m.allocated = true
  done : m.done = (if m.allocated = true then 0 else 1) → m'.done = if m'.allocated = true then 0 else 1
  finished : (m.allocated = false → m.totalRecvln = 0) → m'.allocated = false → m'.totalRecvln = 0
  cleaned : m'.totalRecvln = 0 → m'.allocated = false ∨ (m.totalRecvln = 0 ∧ m'.allocated = m.allocated)

theorem proceeds_call {offers : List ℕ} {again onDevice : Bool}
    (h : m.recvPWQ offers = some (m', again)) :
    Proceeds m (if m'.totalRecvln=0 then { m'.cleanupMsg with onDevice := onDevice } else m') := by
  obtain ⟨hall,hdn,htot⟩ := recvPWQ_frame h
  by_cases hzr : m'.totalRecvln=0
  · rw [if_pos hzr,cleanupMsg]
    by_cases hm : m'.allocated=true
    · rw [if_pos hm]
      refine ⟨by simp,fun hd => ?_,fun _ _ => hzr,fun _ => .inl rfl⟩
      rw [← hdn,← hall,if_pos hm] at hd
      simp [hd]
    · rw [if_neg hm]
      refine ⟨fun h => absurd h hm,fun hd => ?_,fun _ _ => hzr,fun _ => .inl (by simpa using hm)⟩
      rw [← hdn,← hall] at hd
      exact hd
  · rw [if_neg hzr]
    refine ⟨fun h => hall.symm.trans h,fun hd => by rw [hdn,hall,hd],fun hfin hm => ?_,fun h => absurd h hzr⟩
    exact absurd (htot (hfin (hall.symm.trans hm))) hzr

theorem proceeds_recv {offers : List ℕ} (h : m.recv offers = some m') : Proceeds m m' := by
  obtain ⟨⟨m1,again⟩,hcall,rfl⟩ := map_eq_some_iff.mp h
  exact proceeds_call hcall

theorem proceeds_work {offers : List ℕ} (h : m.work offers = some m') : Proceeds m m' := by
  obtain ⟨⟨m1,again⟩,hcall,rfl⟩ := map_eq_some_iff.mp h
  have hprc := @proceeds_call _ _ _ _ _ false hcall
  by_cases hzr : m1.totalRecvln=0
  · simpa only [if_pos hzr] using hprc
  · simp only [if_neg hzr] at hprc ⊢
    exact ⟨hprc.allocated,hprc.done,hprc.finished,hprc.cleaned⟩

end PWQMessage

end PAMI.Pwq

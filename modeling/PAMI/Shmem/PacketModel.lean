import Mathlib.Data.List.Forall2
import PAMI.Math.Packing
import PAMI.Math.Runs

namespace PAMI.Shmem

open PAMI.Math List Nat

/-- A packet of a fifo: its metadata with the dispatch id, and its payload. -/
structure Packet (μ β : Type*) where
  header : μ
  payload : List β
  deriving DecidableEq, Repr

/-- A writer with the payload that is left to it: a `MultiPacketWriter`, or one of the writers of a
single packet. -/
structure Writer (μ β : Type*) where
  multi : Bool
  header : μ
  payload : List β
  deriving DecidableEq, Repr

namespace Writer

variable {μ β : Type*} (size : ℕ)

def produce (w : Writer μ β) : Packet μ β × Writer μ β :=
  if w.multi ∧ size ≤ w.payload.length then
    (⟨w.header, w.payload.take size⟩, { w with payload := w.payload.drop size })
  else (⟨w.header, w.payload⟩, { w with payload := [] })

/-- For the writers of a single packet it is asked only after a packet was produced. -/
def isDone (w : Writer μ β) : Bool := w.payload.isEmpty

/-- The loop of `PacketMessage::write`, when the fifo takes `room` packets before it is full: the
packets, the writer afterwards, and whether the message is done. -/
@[grind =] def write : ℕ → Writer μ β → List (Packet μ β) × Writer μ β × Bool
  | 0, w => ([], w, false)
  | room + 1, w =>
    let produced := w.produce size
    if produced.2.isDone then ([produced.1], produced.2, true)
    else (produced.1 :: (write room produced.2).1, (write room produced.2).2)

/-- The loop of `postMultiPacket_impl`, which asks the writer also after an attempt that failed. -/
@[grind =] def writeAtPost : ℕ → Writer μ β → List (Packet μ β) × Writer μ β × Bool
  | 0, w => ([], w, w.isDone)
  | room + 1, w =>
    let produced := w.produce size
    if produced.2.isDone then ([produced.1], produced.2, true)
    else (produced.1 :: (writeAtPost room produced.2).1, (writeAtPost room produced.2).2)

/-- All packets of a message, or of what is left of it: consecutive slices of its payload, or one
empty packet. -/
def packets (w : Writer μ β) : List (Packet μ β) :=
  if w.multi then
    (List.range (max 1 (packetCount size w.payload))).map fun i => ⟨w.header, (w.payload.drop (i*size)).take size⟩
  else [⟨w.header, w.payload⟩]

end Writer

/-- `Initialized` and `Done` of the status of a message. -/
inductive MessageStatus where
  | initialized
  | done
  deriving DecidableEq, Repr

/-- A `PacketMessage`, and whether it is on the completion queue and its work object on a queue of the
generic device. -/
structure PacketMessage (μ β κ : Type*) where
  writer : Writer μ β
  fn : Option κ
  status : MessageStatus
  onQueue : Bool
  working : Bool

/-- A context that sends to one fifo. The packets produced, the callbacks run, and all posts that the
calls have taken, in their orders, are for the statements. -/
structure Sender (μ β κ : Type*) where
  sendQ : List (PacketMessage μ β κ)
  fifo : List (Packet μ β)
  callbacks : List κ
  posted : List (Writer μ β × Option κ)

/-- Calls of the packet model and steps of the generic device, with how many packets the fifo takes
before it is full. A callback that posts is followed by the posts it makes. -/
inductive SenderEvent (μ β κ : Type*) where
  | postPacket (header : μ) (payload : List β) (fn : Option κ) (room : ℕ)
  | postImmediate (header : μ) (payload : List β) (room : ℕ)
  | postMultiPacket (header : μ) (payload : List β) (fn : Option κ) (room : ℕ)
  | work (i room : ℕ)
  | complete (i : ℕ)

namespace PacketMessage

variable {μ β κ : Type*}

def postNext (m : PacketMessage μ β κ) : PacketMessage μ β κ :=
  { m with onQueue := true, working := true }

def pending (size : ℕ) (m : PacketMessage μ β κ) : List (Packet μ β) :=
  if m.status = .done then [] else m.writer.packets size

end PacketMessage

namespace Sender

variable {μ β κ : Type*} (size : ℕ)

def initial : Sender μ β κ := ⟨[], [], [], []⟩

def post (s : Sender μ β κ) (w : Writer μ β) (fn : Option κ) : Sender μ β κ :=
  let message : PacketMessage μ β κ := ⟨w, fn, .initialized, false, false⟩
  { s with sendQ := s.sendQ ++ [if s.sendQ.isEmpty then message.postNext else message] }

/-- The overloads of `postPacket_impl` with a state, which differ in the kind of their payload. -/
def postPacket (s : Sender μ β κ) (header : μ) (payload : List β) (fn : Option κ) (room : ℕ) :
    Sender μ β κ × Bool :=
  let w : Writer μ β := ⟨false, header, payload⟩
  let s := { s with posted := s.posted ++ [(w, fn)] }
  if s.sendQ.isEmpty ∧ 0 < room then
    ({ s with fifo := s.fifo ++ [(w.produce size).1], callbacks := s.callbacks ++ fn.toList }, true)
  else (s.post w fn, false)

/-- The immediate `postPacket_impl` -/
def postImmediate (s : Sender μ β κ) (header : μ) (payload : List β) (room : ℕ) :
    Sender μ β κ × Bool :=
  let w : Writer μ β := ⟨false, header, payload⟩
  if s.sendQ.isEmpty ∧ 0 < room then
    ({ s with posted := s.posted ++ [(w, none)], fifo := s.fifo ++ [(w.produce size).1] }, true)
  else (s, false)

def postMultiPacket (s : Sender μ β κ) (header : μ) (payload : List β) (fn : Option κ) (room : ℕ) :
    Sender μ β κ × Bool :=
  let w : Writer μ β := ⟨true, header, payload⟩
  let s := { s with posted := s.posted ++ [(w, fn)] }
  if s.sendQ.isEmpty then
    let written := w.writeAtPost size room
    let s := { s with fifo := s.fifo ++ written.1 }
    if written.2.2 then ({ s with callbacks := s.callbacks ++ fn.toList }, true)
    else (s.post written.2.1 fn, false)
  else (s.post w fn, false)

/-- The generic device runs the work of a message, and takes it off its queue when that succeeds. -/
def work (s : Sender μ β κ) (i room : ℕ) : Option (Sender μ β κ) := (s.sendQ[i]?).bind fun m =>
    if m.working then
      let written := m.writer.write size room
      let m := { m with writer := written.2.1 }
      let m := if written.2.2 then { m with status := .done, working := false } else m
      some { s with sendQ := s.sendQ.set i m, fifo := s.fifo ++ written.1 }
    else none

/-- The completion pass meets a message that is done. -/
def complete (s : Sender μ β κ) (i : ℕ) : Option (Sender μ β κ) := (s.sendQ[i]?).bind fun m =>
    if m.onQueue ∧ m.status = .done then
      some { s with
        sendQ := (s.sendQ.eraseIdx i).modifyHead PacketMessage.postNext
        callbacks := s.callbacks ++ m.fn.toList }
    else none

def step (s : Sender μ β κ) : SenderEvent μ β κ → Option (Sender μ β κ × Option Bool)
  | .postPacket header payload fn room => some ((postPacket size s header payload fn room).map id some)
  | .postImmediate header payload room => some ((postImmediate size s header payload room).map id some)
  | .postMultiPacket header payload fn room => some ((postMultiPacket size s header payload fn room).map id some)
  | .work i room => (work size s i room).map (·, none)
  | .complete i => (complete s i).map (·, none)

end Sender

namespace Writer

variable {μ β : Type*} {size : ℕ}

theorem packets_produce (hsi : 0 < size) (w : Writer μ β) :
    w.packets size = (w.produce size).1 ::
      if (w.produce size).2.isDone then [] else (w.produce size).2.packets size := by
  by_cases hmul : w.multi
  · by_cases hfull : size≤w.payload.length
    · by_cases hdn : size=w.payload.length
      · have hcou : max 1 (packetCount size w.payload)=1 := by
          rw [packetCount,← hdn,Nat.add_sub_assoc hsi,add_div_left _ hsi,
            div_eq_of_lt (by omega),zero_add,max_self]
        simp [packets,produce,isDone,hmul,hcou,← hdn]
      · have hrs : packetCount size w.payload = packetCount size (w.payload.drop size)+1 := by
          rw [packetCount,packetCount,length_drop,← add_div_right _ hsi]
          congr 1
          omega
        have hpos : 0<packetCount size (w.payload.drop size) := by
          rw [lt_packetCount hsi,length_drop]
          omega
        have hmax : max 1 (packetCount size w.payload) = max 1 (packetCount size (w.payload.drop size))+1 := by omega
        have hlf : ¬ w.payload.length ≤ size := by omega
        simp only [packets,produce,isDone,hmul,hfull,and_self,if_true,hmax,
          range_succ_eq_map,map_cons,List.map_map,List.isEmpty_iff,
          drop_eq_nil_iff,hlf,if_false,zero_mul,drop_zero]
        congr 1
        apply map_congr_left
        intro i _
        simp [drop_drop,succ_mul,add_comm]
    · have hcou : max 1 (packetCount size w.payload)=1 := by
        have : packetCount size w.payload<2 := by
          rw [packetCount,Nat.div_lt_iff_lt_mul hsi]
          omega
        omega
      have htake : w.payload.take size=w.payload := take_of_length_le (by omega)
      simp [packets,produce,isDone,hmul,hfull,hcou,htake]
  · simp [packets,produce,isDone,hmul]

theorem packets_write (hsi : 0 < size) (room : ℕ) (w : Writer μ β) :
    w.packets size = (w.write size room).1 ++
      if (w.write size room).2.2 then [] else (w.write size room).2.1.packets size := by
  induction room generalizing w with
  | zero => simp [write]
  | succ room ih =>
    rw [packets_produce hsi w]
    by_cases hdn : (w.produce size).2.isDone
    · simp [write,hdn]
    · simp [write,hdn,← ih]

theorem write_nonempty (room : ℕ) (w : Writer μ β) : 0<(w.write size (room+1)).1.length := by
  rw [write]
  split <;> simp

theorem writeAtPost_eq_write {room : ℕ} {w : Writer μ β} (h : room=0 → ¬ w.isDone) :
    w.writeAtPost size room = w.write size room := by
  induction room generalizing w with
  | zero => simp [writeAtPost,write,h]
  | succ room ih =>
    by_cases hdn : (w.produce size).2.isDone
    · simp [writeAtPost,write,hdn]
    · simp [writeAtPost,write,hdn,ih fun _ => hdn]

end Writer

namespace Sender

variable {μ β κ : Type*} (size : ℕ)

/-- Of the posts taken, those before the queued ones have all their packets in the fifo and had their
callbacks run, and each queued message stands for its post with its last packets pending. -/
structure InOrder (s : Sender μ β κ) (finished waiting : List (Writer μ β × Option κ)) : Prop where
  posted : s.posted = finished ++ waiting
  callbacks : s.callbacks = finished.filterMap Prod.snd
  fifo : s.fifo ++ s.sendQ.flatMap (PacketMessage.pending size) = s.posted.flatMap fun p => p.1.packets size
  queued : List.Forall₂ (fun m p => m.fn = p.2 ∧ m.pending size <:+ p.1.packets size) s.sendQ waiting

def Idle (m : PacketMessage μ β κ) : Prop := m.status = .initialized ∧ m.onQueue = false ∧ m.working = false

structure Driven (s : Sender μ β κ) : Prop where
  head : ∀ m ∈ s.sendQ.head?, m.onQueue = true ∧ (m.working = true ↔ m.status ≠ .done)
  tail : ∀ m ∈ s.sendQ.tail, Idle m

/-- What an event must not be: the post of an empty message with `postMultiPacket` when nothing is
queued and the fifo is full. -/
def Clean (s : Sender μ β κ) : SenderEvent μ β κ → Prop
  | .postMultiPacket _ payload _ room => ¬ (payload = [] ∧ s.sendQ = [] ∧ room = 0)
  | _ => True

variable {size} {s s' : Sender μ β κ} {finished waiting : List (Writer μ β × Option κ)}

theorem pending_length_le {q : List (PacketMessage μ β κ)}
    (h : List.Forall₂ (fun m p => m.fn=p.2 ∧ m.pending size <:+ p.1.packets size) q waiting) :
    (q.flatMap (PacketMessage.pending size)).length≤(waiting.flatMap fun p => p.1.packets size).length := by
  induction h with
  | nil => simp
  | cons hm _ ih =>
    have := hm.2.length_le
    simp only [flatMap_cons,length_append]
    omega

section

variable (h : InOrder size s finished waiting)
include h

theorem InOrder.finished_prefix : (finished.flatMap fun p => p.1.packets size) <+: s.fifo := by
  have hpen := pending_length_le h.queued
  have hspl := h.fifo
  rw [h.posted,flatMap_append] at hspl
  have hlen := congrArg List.length hspl
  simp only [length_append] at hlen
  exact prefix_of_prefix_length_le ⟨_,rfl⟩ ⟨_,hspl⟩ (by omega)

theorem InOrder.of_empty (hq : s.sendQ = []) : s.fifo=(s.posted.flatMap fun p => p.1.packets size) ∧
      s.callbacks = s.posted.filterMap Prod.snd := by
  have hwtn : waiting = [] := by
    have := h.queued
    rwa [hq,forall₂_nil_left_iff] at this
  have hfifo := h.fifo
  constructor
  · simpa [hq] using hfifo
  · rw [h.callbacks,h.posted,hwtn,append_nil]

theorem InOrder.post (w w' : Writer μ β) (fn : Option κ) (front : List (Packet μ β))
    (hpac : w.packets size = front ++ w'.packets size) (hemp : s.sendQ = [] ∨ front = []) :
    InOrder size (Sender.post { s with posted := s.posted ++ [(w, fn)], fifo := s.fifo ++ front } w' fn)
      finished (waiting ++ [(w, fn)]) := by
  have hpen : ∀ b : Bool, (if b then
      (⟨w',fn,.initialized,false,false⟩ : PacketMessage μ β κ).postNext
      else ⟨w',fn,.initialized,false,false⟩).pending size = w'.packets size := by
    intro b
    cases b <;> simp [PacketMessage.pending,PacketMessage.postNext]
  have hfn : ∀ b : Bool, (if b then
      (⟨w',fn,.initialized,false,false⟩ : PacketMessage μ β κ).postNext
      else ⟨w',fn,.initialized,false,false⟩).fn=fn := by
    intro b
    cases b <;> rfl
  refine ⟨by simp [Sender.post,h.posted],h.callbacks,?_,?_⟩
  · have hfifo := h.fifo
    simp only [Sender.post,flatMap_append,flatMap_singleton,hpen,← hfifo,hpac]
    obtain hq | hfro := hemp
    · simp [hq]
    · simp [hfro]
  · refine rel_append h.queued (.cons ⟨hfn _,?_⟩ .nil)
    rw [hpen,hpac]
    exact suffix_append _ _

theorem InOrder.direct (hq : s.sendQ = []) (w : Writer μ β) (fn : Option κ) : InOrder size { s with
        posted := s.posted ++ [(w, fn)]
        fifo := s.fifo ++ w.packets size
        callbacks := s.callbacks ++ fn.toList } (finished ++ waiting ++ [(w, fn)]) [] := by
  obtain ⟨hfifo,hcal⟩ := h.of_empty hq
  refine ⟨by simp [h.posted],?_,by simp [hq,hfifo],by simp [hq]⟩
  rw [← h.posted,filterMap_append,← hcal]
  cases fn <;> rfl

end

theorem Driven.post (h : Driven s) (w : Writer μ β) (fn : Option κ) : Driven (s.post w fn) := by
  cases hq : s.sendQ with
  | nil =>
    constructor <;> simp [Sender.post,hq,PacketMessage.postNext]
  | cons m rest =>
    constructor
    · simpa [Sender.post,hq] using h.head
    · have hta := h.tail
      rw [hq] at hta
      intro m' hm'
      obtain hm' | rfl : m' ∈ rest ∨ m' = ⟨w,fn,.initialized,false,false⟩ := by simpa [Sender.post,hq] using hm'
      · exact hta m' hm'
      · exact ⟨rfl,rfl,rfl⟩

end Sender

end PAMI.Shmem

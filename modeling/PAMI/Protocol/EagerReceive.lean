import PAMI.Math.Packing
import PAMI.Protocol.EagerSimple

namespace PAMI.Protocol.EagerSimple

open PAMI.Math PAMI.Datatype List Nat

/-- A packet at the target, with the fields of its metadata and the payload behind them. -/
inductive Packet where
  | packed (heas dataBytes : ℕ) (payload : List Byte)
  | envelope (bytes metabytes : ℕ) (payload : List Byte)
  | longEnvelope (bytes metabytes : ℕ)
  | header (payload : List Byte)
  | data (payload : List Byte)
  deriving Repr

/-- A send of contiguous data. -/
inductive Send where
  | immediate (header data : List Byte)
  | simple (header data : List Byte)
  deriving Repr

/-- A call of the application's dispatch function: with the data, or with a receive to fill in, the
bytes written to its buffer and the calls of its completion function. -/
structure Message where
  header : List Byte
  dataBytes : ℕ
  data : List Byte
  hasReceive : Bool
  completions : ℕ
  deriving DecidableEq, Repr

/-- The target's state of a message which takes more packets: the header as far as it has come, the
counters, and which of the messages is being received. -/
structure Connection where
  header : List Byte
  headerReceived : ℕ
  headerTotal : ℕ
  bytesReceived : ℕ
  bytesTotal : ℕ
  message : ℕ
  deriving DecidableEq, Repr

/-- A target as to one origin: the slot of its connection, the dispatched messages and the calls that
found the slot in the wrong state. -/
structure Receiver where
  connection : Option Connection
  messages : List Message
  badCalls : ℕ
  deriving DecidableEq, Repr

variable (m : PacketModel) (option : SendOption) (filler : Byte)

/-- The packet of `send_packed`; the counts are 16 bits wide. -/
def packedPacket (header data : List Byte) : Packet := .packed (header.length % 65536) (data.length % 65536)
    (packet filler m.maximumShortPacketPayload (header ++ data) 0)

/-- The packets of `send_envelope`. -/
def envelopePackets (header : List Byte) (dataBytes : ℕ) : List Packet :=
  if isLongHeader m option header.length then
    .longEnvelope dataBytes header.length :: (List.range (packetCount m.payloadBytes header)).map fun i =>
        .header (packet filler m.payloadBytes header i)
  else
    [.envelope dataBytes (header.length % 65536) (packet filler m.maximumEagerPacketPayload header 0)]

/-- The packets of `send_data` of contiguous data. -/
def dataPackets (data : List Byte) : List Packet := (List.range (packetCount m.payloadBytes data)).map fun i =>
    .data (packet filler m.payloadBytes data i)

/-- All packets of a send, in the order of their posts. -/
def Send.packets : Send → List Packet
  | .immediate header data => [packedPacket m filler header data]
  | .simple header data =>
    if isPacked m option header.length data.length then [packedPacket m filler header data]
    else if data.length = 0 then envelopePackets m option filler header data.length
    else envelopePackets m option filler header data.length ++ dataPackets m filler data

namespace Receiver

def dispatchFn (message : Message) (r : Receiver) : Receiver :=
  { r with messages := r.messages ++ [message] }

def setConnection (c : Connection) (r : Receiver) : Receiver :=
  { r with
    connection := some c
    badCalls := if r.connection.isSome then r.badCalls + 1 else r.badCalls }

def clearConnection (r : Receiver) : Receiver :=
  { r with
    connection := none
    badCalls := if r.connection.isSome then r.badCalls else r.badCalls + 1 }

/-- The completion function of a receive is called. -/
def complete (message : ℕ) (r : Receiver) : Receiver :=
  { r with messages := r.messages.modify message fun x => { x with completions := x.completions + 1 } }

/-- Bytes are written to the buffer of a receive. -/
def write (message : ℕ) (bytes : List Byte) (r : Receiver) : Receiver :=
  { r with messages := r.messages.modify message fun x => { x with data := x.data ++ bytes } }

def dispatchPacked (heas dataBytes : ℕ) (payload : List Byte) (r : Receiver) : Receiver :=
  let header := payload.take heas
  let data := (payload.drop heas).take dataBytes
  if option.recvImmediateForceOff then
    (r.dispatchFn ⟨header, dataBytes, data, true, 0⟩).complete r.messages.length
  else r.dispatchFn ⟨header, dataBytes, data, false, 0⟩

def dispatchEnvelopePacked (bytes metabytes : ℕ) (payload : List Byte) (r : Receiver) : Receiver :=
  let r' := r.dispatchFn ⟨payload.take metabytes, bytes, [], true, 0⟩
  if bytes = 0 then r'.complete r.messages.length
  else r'.setConnection ⟨[], 0, metabytes, 0, bytes, r.messages.length⟩

def dispatchEnvelopeMetadata (bytes metabytes : ℕ) (r : Receiver) : Receiver :=
  r.setConnection ⟨[], 0, metabytes, 0, bytes, r.messages.length⟩

def dispatchEnvelopeHeader (payload : List Byte) (r : Receiver) : Receiver :=
  match r.connection with
  | none => { r with badCalls := r.badCalls + 1 }
  | some c =>
    let n := min m.payloadBytes (c.headerTotal - c.headerReceived)
    let c := { c with
      header := c.header ++ payload.take n, headerReceived := c.headerReceived + n }
    let r := { r with connection := some c }
    if c.headerTotal = c.headerReceived then
      if c.bytesTotal = 0 then (r.dispatchFn ⟨c.header, 0, [], false, 0⟩).clearConnection
      else
        { r.dispatchFn ⟨c.header, c.bytesTotal, [], true, 0⟩ with
          connection := some { c with message := r.messages.length } }
    else r

/-- `dispatch_data`, for a packet which is reported with the full payload size. -/
def dispatchData (payload : List Byte) (r : Receiver) : Receiver :=
  match r.connection with
  | none => { r with badCalls := r.badCalls + 1 }
  | some c =>
    let nbyte := c.bytesReceived
    let ncopy := min (c.bytesTotal - nbyte) m.payloadBytes
    let r := { r.write c.message (payload.take ncopy) with
      connection := some { c with bytesReceived := nbyte + ncopy } }
    if c.bytesTotal ≤ nbyte + m.payloadBytes then r.clearConnection.complete c.message else r

def dispatch (r : Receiver) : Packet → Receiver
  | .packed heas dataBytes payload => r.dispatchPacked option heas dataBytes payload
  | .envelope bytes metabytes payload => r.dispatchEnvelopePacked bytes metabytes payload
  | .longEnvelope bytes metabytes => r.dispatchEnvelopeMetadata bytes metabytes
  | .header payload => r.dispatchEnvelopeHeader m payload
  | .data payload => r.dispatchData m payload

end Receiver

/-- A send the application may make: what must go in one packet fits. -/
def Send.Valid : Send → Prop
  | .immediate header data => header.length + data.length ≤ m.maximumShortPacketPayload
  | .simple header data => option.recvImmediateForceOn → header.length + data.length ≤ m.maximumShortPacketPayload

/-- Whether a send is dispatched with a receive. -/
def Send.hasReceive : Send → Bool
  | .immediate _ _ => option.recvImmediateForceOff
  | .simple header data =>
    if isPacked m option header.length data.length then option.recvImmediateForceOff
    else !(isLongHeader m option header.length && data.length == 0)

/-- What is to arrive of a send: its header and its data, with the receive completed once. -/
def Send.message (send : Send) : Message :=
  let (header, data) := match send with
    | .immediate header data => (header, data)
    | .simple header data => (header, data)
  let hasReceive := send.hasReceive m option
  ⟨header, data.length, data, hasReceive, if hasReceive then 1 else 0⟩

section Reassembly

variable {m option filler} {r : Receiver} {messages : List Message} {bad : ℕ}
  {header data hedr : List Byte}

theorem modify_concat (l : List Message) (x : Message) (f : Message → Message) :
    (l ++ [x]).modify l.length f = l ++ [f x] := by
  induction l with
  | nil => rfl
  | cons a l ih => simp [ih]

theorem PacketModel.maximumShort_le : m.maximumShortPacketPayload ≤ m.payloadBytes := sub_le _ _

theorem PacketModel.maximumEager_le : m.maximumEagerPacketPayload ≤ m.payloadBytes := sub_le _ _

theorem take_packet {width : ℕ} {message : List Byte} (h : message.length≤width) :
    packet filler width message 0 = message ++ List.replicate (width-message.length) filler := by
  have hpart : (message.drop (0*width)).take width=message := by
    rw [zero_mul,drop_zero]
    exact take_of_length_le h
  rw [packet,hpart]

open Receiver

theorem dispatch_packed (h : header.length+data.length ≤ m.maximumShortPacketPayload) :
    dispatch m option ⟨none,messages,bad⟩ (packedPacket m filler header data) =
      ⟨none,messages ++ [⟨header,data.length,data,option.recvImmediateForceOff,
        if option.recvImmediateForceOff then 1 else 0⟩],bad⟩ := by
  have hmax := m.le_ushrtMax
  have hsho := m.maximumShort_le
  have hhea : header.length%65536=header.length := mod_eq_of_lt (by omega)
  have hda : data.length%65536=data.length := mod_eq_of_lt (by omega)
  have hfit : (header ++ data).length ≤ m.maximumShortPacketPayload := by
    rw [length_append]
    exact h
  rw [packedPacket,take_packet hfit,hhea,hda,dispatch,dispatchPacked,
    append_assoc,take_left,drop_left,take_left]
  by_cases hoff : option.recvImmediateForceOff=true
  · simp only [hoff,if_true,dispatchFn,complete,modify_concat]
  · simp only [hoff,Bool.false_eq_true,if_false,dispatchFn]

/-- The target between two packets of the data of its last message. -/
def receivingData (header hedr : List Byte) (headerReceived headerTotal : ℕ)
    (data : List Byte) (messages : List Message) (bad n : ℕ) : Receiver :=
  ⟨some ⟨hedr, headerReceived, headerTotal, n*m.payloadBytes, data.length, messages.length⟩,
    messages ++ [⟨header, data.length, data.take (n*m.payloadBytes), true, 0⟩], bad⟩

theorem dispatch_data {headerReceived headerTotal n : ℕ} (hn : n*m.payloadBytes<data.length) :
    dispatch m option (receivingData (m := m) header hedr headerReceived headerTotal data messages bad n)
        (.data (packet filler m.payloadBytes data n)) =
      if data.length≤(n+1)*m.payloadBytes then
        ⟨none,messages ++ [⟨header,data.length,data,true,1⟩],bad⟩
      else receivingData (m := m) header hedr headerReceived headerTotal data messages bad (n+1) := by
  have hsc : (n+1)*m.payloadBytes=n*m.payloadBytes+m.payloadBytes := succ_mul _ _
  have hrcv : data.take (n*m.payloadBytes) ++ (packet filler m.payloadBytes data n).take
      (min (data.length-n*m.payloadBytes) m.payloadBytes) = data.take ((n+1)*m.payloadBytes) := by
    rw [Nat.min_comm]
    exact take_packet_of_lt hn
  rw [dispatch,dispatchData,receivingData]
  simp only [Receiver.write,modify_concat,hrcv]
  by_cases hla : data.length≤(n+1)*m.payloadBytes
  · rw [if_pos (by omega),if_pos hla,take_of_length_le hla]
    simp only [clearConnection,complete,modify_concat,Option.isSome_some,if_true]
  · rw [if_neg (by omega),if_neg hla,receivingData,min_eq_right (by omega),hsc]

variable (m) in
/-- The packets of a text, where each but the last one leads to the state before the next. -/
theorem foldl_packets {σ : Type*} {step : σ → Packet → σ} {between : ℕ → σ} {last : σ} {make : List Byte → Packet}
    {text : List Byte} (hne : text.length≠0) (hstep : ∀ n, n*m.payloadBytes<text.length →
      step (between n) (make (packet filler m.payloadBytes text n)) =
        if text.length≤(n+1)*m.payloadBytes then last else between (n+1)) :
    ((List.range (packetCount m.payloadBytes text)).map fun i =>
      make (packet filler m.payloadBytes text i)).foldl step (between 0) = last := by
  have hwid : 0 < m.payloadBytes := by have := m.address_le; omega
  have hpar (n : ℕ) (hn : n*m.payloadBytes<text.length) :
      ((List.range n).map fun i => make (packet filler m.payloadBytes text i)).foldl step (between 0) = between n := by
    induction n with
    | zero => rfl
    | succ n ih =>
      have hsc : (n+1)*m.payloadBytes=n*m.payloadBytes+m.payloadBytes := succ_mul _ _
      rw [range_succ,map_append,foldl_append,ih (by omega)]
      simp only [map_cons,map_nil,foldl_cons,foldl_nil]
      rw [hstep n (by omega),if_neg (by omega)]
  obtain ⟨n,hcou⟩ : ∃ n, packetCount m.payloadBytes text=n+1 := by
    have hfir : 0<packetCount m.payloadBytes text := (lt_packetCount hwid).mpr (by omega)
    exact ⟨packetCount m.payloadBytes text-1,by omega⟩
  have hlt : n*m.payloadBytes<text.length := (lt_packetCount hwid).mp (by omega)
  have hle : text.length≤(n+1)*m.payloadBytes := by
    rw [← hcou]
    exact length_le_packetCount hwid
  rw [hcou,range_succ,map_append,foldl_append,hpar n hlt]
  simp only [map_cons,map_nil,foldl_cons,foldl_nil]
  rw [hstep n hlt,if_pos hle]

theorem dispatch_dataPackets {headerReceived headerTotal : ℕ} (hda : data.length≠0) :
    (dataPackets m filler data).foldl (dispatch m option)
        (receivingData (m := m) header hedr headerReceived headerTotal data messages bad 0) =
      ⟨none,messages ++ [⟨header,data.length,data,true,1⟩],bad⟩ :=
  foldl_packets m hda fun _ hn => dispatch_data hn

/-- The target between two packets of a long header. -/
def receivingHeader (header : List Byte) (dataBytes : ℕ) (messages : List Message) (bad n : ℕ) :
    Receiver :=
  ⟨some ⟨header.take (n*m.payloadBytes), n*m.payloadBytes, header.length, 0, dataBytes,
    messages.length⟩, messages, bad⟩

theorem dispatch_header {dataBytes n : ℕ} (hn : n*m.payloadBytes<header.length) :
    dispatch m option (receivingHeader (m := m) header dataBytes messages bad n)
        (.header (packet filler m.payloadBytes header n)) =
      if header.length≤(n+1)*m.payloadBytes then
        if dataBytes=0 then ⟨none,messages ++ [⟨header,0,[],false,0⟩],bad⟩
        else ⟨some ⟨header,header.length,header.length,0,dataBytes,messages.length⟩,
          messages ++ [⟨header,dataBytes,[],true,0⟩],bad⟩
      else receivingHeader (m := m) header dataBytes messages bad (n+1) := by
  have hsc : (n+1)*m.payloadBytes=n*m.payloadBytes+m.payloadBytes := succ_mul _ _
  have hrcv : header.take (n*m.payloadBytes) ++ (packet filler m.payloadBytes header n).take
      (min m.payloadBytes (header.length-n*m.payloadBytes)) =
        header.take ((n+1)*m.payloadBytes) := take_packet_of_lt hn
  rw [dispatch,dispatchEnvelopeHeader,receivingHeader]
  simp only [hrcv]
  by_cases hla : header.length≤(n+1)*m.payloadBytes
  · have hall : n*m.payloadBytes+min m.payloadBytes (header.length-n*m.payloadBytes)=header.length := by omega
    rw [hall,if_pos rfl,if_pos hla,take_of_length_le hla]
    by_cases hzr : dataBytes=0
    · rw [if_pos hzr,if_pos hzr]
      rfl
    · rw [if_neg hzr,if_neg hzr]
      rfl
  · rw [if_neg (by omega),if_neg hla,receivingHeader,min_eq_left (by omega),hsc]

theorem dispatch_headerPackets {dataBytes : ℕ} (hhea : header.length≠0) :
    ((List.range (packetCount m.payloadBytes header)).map fun i =>
        Packet.header (packet filler m.payloadBytes header i)).foldl (dispatch m option)
        (receivingHeader (m := m) header dataBytes messages bad 0) =
      if dataBytes=0 then ⟨none,messages ++ [⟨header,0,[],false,0⟩],bad⟩
      else ⟨some ⟨header,header.length,header.length,0,dataBytes,messages.length⟩,
        messages ++ [⟨header,dataBytes,[],true,0⟩],bad⟩ :=
  foldl_packets m hhea fun _ hn => dispatch_header hn

theorem dispatch_longEnvelope (header : List Byte) (dataBytes : ℕ) :
    dispatch m option ⟨none,messages,bad⟩ (.longEnvelope dataBytes header.length) =
      receivingHeader (m := m) header dataBytes messages bad 0 := by
  rw [receivingHeader,zero_mul,take_zero]
  rfl

theorem dispatch_envelopePackets_zero (hlong : option.longHeaderDisable=false) (header : List Byte) :
    (envelopePackets m option filler header 0).foldl (dispatch m option)
        ⟨none,messages,bad⟩ =
      ⟨none,messages ++ [⟨header,0,[],!isLongHeader m option header.length,
        if isLongHeader m option header.length then 0 else 1⟩],bad⟩ := by
  rw [envelopePackets]
  by_cases h : isLongHeader m option header.length=true
  · have hne : header.length≠0 := by
      simp only [isLongHeader,hlong,Bool.not_false,Bool.true_and,decide_eq_true_eq] at h
      omega
    rw [if_pos h,h,foldl_cons,dispatch_longEnvelope,dispatch_headerPackets hne,if_pos rfl]
    rfl
  · have hmax := m.le_ushrtMax
    have heag := m.maximumEager_le
    simp only [isLongHeader,hlong,Bool.not_false,Bool.true_and,decide_eq_true_eq] at h
    have hhea : header.length%65536=header.length := mod_eq_of_lt (by omega)
    have hnot : isLongHeader m option header.length=false := by
      simp only [isLongHeader,hlong,Bool.not_false,Bool.true_and,decide_eq_false_iff_not]
      exact h
    rw [hnot,if_neg (by decide),hhea,take_packet (by omega),foldl_cons,foldl_nil,
      dispatch,dispatchEnvelopePacked,take_left,if_pos rfl]
    simp only [dispatchFn,complete,modify_concat]
    rfl

theorem dispatch_envelopePackets (m : PacketModel) (filler : Byte) (messages : List Message) (bad : ℕ)
    (hlong : option.longHeaderDisable=false) (header : List Byte) (hda : data.length≠0) :
    ∃ hedr headerReceived headerTotal, (envelopePackets m option filler header data.length).foldl (dispatch m option)
          ⟨none,messages,bad⟩ =
        receivingData (m := m) header hedr headerReceived headerTotal data messages bad 0 := by
  rw [envelopePackets]
  by_cases h : isLongHeader m option header.length=true
  · have hne : header.length≠0 := by
      simp only [isLongHeader,hlong,Bool.not_false,Bool.true_and,decide_eq_true_eq] at h
      omega
    refine ⟨header,header.length,header.length,?_⟩
    rw [if_pos h,foldl_cons,dispatch_longEnvelope,dispatch_headerPackets hne,if_neg hda,
      receivingData,zero_mul,take_zero]
  · have hmax := m.le_ushrtMax
    have heag := m.maximumEager_le
    rw [if_neg h]
    simp only [isLongHeader,hlong,Bool.not_false,Bool.true_and,decide_eq_true_eq] at h
    have hhea : header.length%65536=header.length := mod_eq_of_lt (by omega)
    refine ⟨[],0,header.length,?_⟩
    rw [hhea,take_packet (by omega),foldl_cons,foldl_nil,dispatch,dispatchEnvelopePacked,take_left,if_neg hda]
    simp only [dispatchFn,setConnection,receivingData,zero_mul,take_zero]
    rfl

theorem dispatch_send (hlong : option.longHeaderDisable=false) {send : Send}
    (hval : send.Valid m option) :
    (send.packets m option filler).foldl (dispatch m option) ⟨none,messages,bad⟩ =
      ⟨none,messages ++ [send.message m option],bad⟩ := by
  cases send with
  | immediate header data => exact dispatch_packed hval
  | simple header data =>
    rw [Send.packets,Send.message,Send.hasReceive]
    by_cases hpac : isPacked m option header.length data.length=true
    · have hfit : header.length+data.length ≤ m.maximumShortPacketPayload := by
        simp only [isPacked,Bool.or_eq_true,Bool.and_eq_true,decide_eq_true_eq] at hpac
        rcases hpac with hon | ⟨-,hfit⟩
        · exact hval hon
        · exact hfit
      rw [if_pos hpac,if_pos hpac,foldl_cons,foldl_nil]
      exact dispatch_packed hfit
    · rw [if_neg hpac,if_neg hpac]
      by_cases hzr : data.length=0
      · obtain rfl := length_eq_zero_iff.mp hzr
        rw [if_pos hzr,length_nil,dispatch_envelopePackets_zero hlong]
        cases isLongHeader m option header.length <;> rfl
      · obtain ⟨hedr,headerReceived,headerTotal,henv⟩ :=
          dispatch_envelopePackets m filler messages bad hlong header hzr
        rw [if_neg hzr,foldl_append,henv,dispatch_dataPackets hzr]
        simp [hzr]

/-- All sends of an origin arrive as one message each, in their order, with their header and data and
one completion; the connection is set only when it is free and used only when it is set. -/
theorem reassembly (hlong : option.longHeaderDisable = false) (sends : List Send)
    (hval : ∀ send ∈ sends, send.Valid m option) :
    (sends.flatMap (Send.packets m option filler)).foldl (dispatch m option)
        ⟨none, [], 0⟩ =
      ⟨none, sends.map (Send.message m option), 0⟩ := by
  have hall (sends : List Send) (messages : List Message)
      (hval : ∀ send ∈ sends, send.Valid m option) :
      (sends.flatMap (Send.packets m option filler)).foldl (dispatch m option)
          ⟨none,messages,0⟩ =
        ⟨none,messages ++ sends.map (Send.message m option),0⟩ := by
    induction sends generalizing messages with
    | nil => simp
    | cons send sends ih =>
      rw [flatMap_cons,foldl_append,dispatch_send hlong (hval send mem_cons_self),
        ih _ (fun send hs => hval send (mem_cons_of_mem _ hs)),map_cons,append_assoc]
      rfl
  exact hall sends [] hval

theorem reassembly_three_sends :
    let m : PacketModel := ⟨8,16,by decide,by decide⟩
    let option : SendOption := ⟨false,false,false⟩
    (([.simple [1,2,3,4,5,6,7,8,9] [1,1,1,1,1,1,1,1,1],.immediate [3] [4],
        .simple [] []] : List Send).flatMap (Send.packets m option 0)).foldl (dispatch m option)
        ⟨none,[],0⟩ =
      ⟨none,[⟨[1,2,3,4,5,6,7,8,9],9,[1,1,1,1,1,1,1,1,1],true,1⟩,
        ⟨[3],1,[4],false,0⟩,⟨[],0,[],false,0⟩],0⟩ := by
  intro m option
  refine (reassembly rfl _ ?_).trans rfl
  intro send hsd
  simp only [mem_cons,not_mem_nil,or_false] at hsd
  rcases hsd with rfl | rfl | rfl
  · intro h
    cases h
  · show 2 ≤ m.maximumShortPacketPayload
    decide
  · intro h
    cases h

end Reassembly

end PAMI.Protocol.EagerSimple

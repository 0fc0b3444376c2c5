import PAMI.Datatype.PackUnpack

namespace PAMI.Protocol.EagerSimple

open PAMI.Math PAMI.Datatype

/-- The sizes of a packet model, with what the constructor of the protocol asserts of them. -/
structure PacketModel where
  payloadBytes : ℕ
  metadataBytes : ℕ
  address_le : 8 ≤ payloadBytes
  le_ushrtMax : payloadBytes ≤ 65535

/-- The options of the protocol that decide how a message is sent. -/
structure SendOption where
  longHeaderDisable : Bool
  recvImmediateForceOn : Bool
  recvImmediateForceOff : Bool
  deriving DecidableEq, Repr

/-- The event functions of the posts of a send. -/
inductive Callback where
  | completeData
  | sendComplete
  deriving DecidableEq, Repr

/-- `sizeof` of `packed_metadata_t` and of `shortheader_metadata_t`. -/
def packedMetadataSize : ℕ := 8
def shortheaderMetadataSize : ℕ := 16

namespace PacketModel

variable (m : PacketModel)

def maximumShortPacketPayload : ℕ :=
  m.payloadBytes - if m.metadataBytes < packedMetadataSize then packedMetadataSize else 0

def maximumEagerPacketPayload : ℕ :=
  m.payloadBytes - if m.metadataBytes < shortheaderMetadataSize then shortheaderMetadataSize else 0

end PacketModel

variable {M : Type*} (pack : M → ℕ → List Byte × M) (m : PacketModel) (option : SendOption)

/-- Whether a message is sent as one packed packet. -/
def isPacked (heas dataBytes : ℕ) : Bool := option.recvImmediateForceOn ||
    !option.recvImmediateForceOff && decide (heas + dataBytes ≤ m.maximumShortPacketPayload)

/-- Whether the header of a message takes packets of its own. -/
def isLongHeader (heas : ℕ) : Bool := !option.longHeaderDisable && decide (m.maximumEagerPacketPayload < heas)

/-- `send_envelope`: one packet with the protocol metadata and the header, or a packet with the metadata
and the header by itself. -/
def sendEnvelope (header : List Byte) (done : Option Callback) : List (Post Byte Callback) :=
  if isLongHeader m option header.length then [⟨none, [], none⟩, ⟨none, header, done⟩]
  else [⟨none, header, done⟩]

def sendPacked (header data : List Byte) : List (Post Byte Callback) := [⟨none, header ++ data, some .sendComplete⟩]

/-- `immediate_impl`, where the packet is posted with a state of its own. -/
def immediateImpl (header data : List Byte) (machine : M) : Transfer M Byte Callback :=
  Transfer.start machine 0 0 (sendPacked header data)

/-- `simple_impl`. -/
def simpleImpl (header data : List Byte) (machine : M) : Transfer M Byte Callback :=
  if isPacked m option header.length data.length then
    Transfer.start machine 0 0 (sendPacked header data)
  else if data.length = 0 then
    Transfer.start machine 0 0 (sendEnvelope m option header (some .sendComplete))
  else
    Transfer.start machine 0 0
      (sendEnvelope m option header none ++ [⟨none, data, some .sendComplete⟩])

/-- `send_data` of a typed send up to its first post, with the machine moved to the start offset; `none`
where it aborts. -/
def sendData (atomSize bytes starts : ℕ) (envelope : List (Post Byte Callback)) (machine : M) :
    Option (Transfer M Byte Callback) :=
  let s := Transfer.start machine bytes starts envelope
  if m.payloadBytes % atomSize ≠ 0 then none
  else if bytes ≤ m.payloadBytes then some (s.packAndPost pack 0 bytes (some .sendComplete))
  else if bytes ≤ m.payloadBytes*2 then
    some { s.packAndPost pack 0 m.payloadBytes none with
      second := some (bytes - m.payloadBytes, some .sendComplete) }
  else
    some { Transfer.packAndPost pack 0 m.payloadBytes (some .completeData) { s with starts := 2 } with
      second := some (m.payloadBytes, some .completeData) }

/-- `typed_impl` for a message that is not packed. -/
def typedImpl (atomSize bytes starts : ℕ) (header : List Byte) (machine : M) :
    Option (Transfer M Byte Callback) :=
  if bytes = 0 then
    some (Transfer.start machine bytes starts (sendEnvelope m option header (some .sendComplete)))
  else sendData pack m atomSize bytes starts (sendEnvelope m option header none) machine

def completeData (s : Transfer M Byte Callback) : Transfer M Byte Callback :=
  let s := s.use
  let which := s.starts &&& 1
  let s := { s with starts := s.starts + 1 }
  if s.remaining ≤ m.payloadBytes then
    s.packAndPost pack which s.remaining (some .sendComplete)
  else if s.remaining ≤ m.payloadBytes*2 then
    { s with remaining := s.remaining - m.payloadBytes }.packAndPost pack which m.payloadBytes none
  else
    { s with remaining := s.remaining - m.payloadBytes }.packAndPost pack which m.payloadBytes
      (some .completeData)

/-- `send_complete`: it returns the state, and then reads `remote_fn` from it. -/
def sendComplete (s : Transfer M Byte Callback) : Transfer M Byte Callback := s.finish.use

def run : Callback → Transfer M Byte Callback → Transfer M Byte Callback
  | .completeData => completeData pack m
  | .sendComplete => sendComplete

def step (s : Transfer M Byte Callback) (e : TransferEvent) : Option (Transfer M Byte Callback) :=
  s.step pack (run pack m) e

end PAMI.Protocol.EagerSimple

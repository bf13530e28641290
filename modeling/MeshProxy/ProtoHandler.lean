import MeshProxy.Platform

/-!
# proto_handler.c

Decoding of the routing fields and the three messages the proxy encodes
itself. The nonce of a `config_complete_id` frame is not part of
`FromradioInfo`; the session decodes it a second time.
-/

namespace MeshProxy

structure FromradioInfo where
  whichVariant : FromRadioVariant := .other 0
  packetFrom : UInt32 := 0
  packetTo : UInt32 := 0
  isDecoded : Bool := false
  portnum : UInt32 := 0
  payloadBytes : List UInt8 := []
  deriving DecidableEq, Repr

structure ToradioInfo where
  hasWantConfig : Bool := false
  wantConfigId : UInt32 := 0
  hasHeartbeat : Bool := false
  isPacket : Bool := false
  portnum : UInt32 := 0
  payloadBytes : List UInt8 := []
  deriving DecidableEq, Repr

variable (p : Platform)

def protoDecodeFromradio (buf : List UInt8) : Except Errno FromradioInfo :=
  match p.decodeFromRadio buf with
  | none => .error .einval
  | some fr =>
    if fr.whichPayloadVariant ≠ .packet then
      .ok { whichVariant := fr.whichPayloadVariant }
    else if fr.packet.whichPayloadVariant ≠ .decoded then
      .ok { whichVariant := fr.whichPayloadVariant, packetFrom := fr.packet.fromNode,
            packetTo := fr.packet.toNode }
    else
      .ok { whichVariant := fr.whichPayloadVariant, packetFrom := fr.packet.fromNode,
            packetTo := fr.packet.toNode, isDecoded := true, portnum := fr.packet.portnum,
            payloadBytes := fr.packet.payload }

def protoDecodeToradio (buf : List UInt8) : Except Errno ToradioInfo :=
  match p.decodeToRadio buf with
  | none => .error .einval
  | some tr =>
    match tr.whichPayloadVariant with
    | .wantConfigId => .ok { hasWantConfig := true, wantConfigId := tr.wantConfigId }
    | .heartbeat => .ok { hasHeartbeat := true }
    | _ =>
      if tr.whichPayloadVariant = .packet ∧ tr.packet.whichPayloadVariant = .decoded then
        .ok { isPacket := true, portnum := tr.packet.portnum, payloadBytes := tr.packet.payload }
      else .ok {}

/-- `decode_config_complete_nonce` of the upstream session. -/
def decodeConfigCompleteNonce (payload : List UInt8) : Option UInt32 :=
  match p.decodeFromRadio payload with
  | none => none
  | some fr => if fr.whichPayloadVariant = .configCompleteId then some fr.configCompleteId else none

/-- The shared tail of the encoders: what is left in the caller's buffer and
the return code, with the length on success. -/
def protoEncode (enc : PbEncoded) (bufSize : Nat) : List UInt8 × Except Errno Nat :=
  if enc.ok then (enc.written, .ok enc.written.length)
  else (enc.written, .error (if bufSize ≤ enc.written.length then .enomem else .einval))

def protoEncodeConfigComplete (nonce : UInt32) (bufSize : Nat) : List UInt8 × Except Errno Nat :=
  protoEncode (p.encodeFromRadio
    { whichPayloadVariant := .configCompleteId, configCompleteId := nonce } bufSize) bufSize

def protoEncodeHeartbeat (nonce : UInt32) (bufSize : Nat) : List UInt8 × Except Errno Nat :=
  protoEncode (p.encodeToRadio
    { whichPayloadVariant := .heartbeat, heartbeatNonce := nonce } bufSize) bufSize

def protoEncodeQueueStatus (bufSize : Nat) : List UInt8 × Except Errno Nat :=
  protoEncode (p.encodeFromRadio
    { whichPayloadVariant := .queueStatus,
      queueStatus := { res := 0, free := 16, maxlen := 16, meshPacketId := 0 } } bufSize) bufSize

theorem protoEncode_ok (h : (protoEncode enc size).2 = .ok n) :
    enc.ok = true ∧ n = enc.written.length ∧ (protoEncode enc size).1 = enc.written := by
  cases ho : enc.ok with
  | true => simpa [protoEncode, ho, eq_comm] using h
  | false => simp [protoEncode, ho] at h

/-- The proxy's encoders give at least one byte, as any protobuf message with
a set variant does. -/
structure Platform.NonemptyMessages (p : Platform) : Prop where
  configComplete : ∀ nonce, (protoEncodeConfigComplete p nonce 16).2 ≠ .ok 0
  queueStatus : (protoEncodeQueueStatus p 16).2 ≠ .ok 0

/-- `proto_encode_config_complete` succeeds within 16 bytes and encodes exactly
its nonce. -/
structure Platform.EncodesConfigComplete (p : Platform) : Prop where
  succeeds : ∀ nonce, ∃ n, (protoEncodeConfigComplete p nonce 16).2 = .ok n
  echoes : ∀ nonce,
    decodeConfigCompleteNonce p (protoEncodeConfigComplete p nonce 16).1 = some nonce

end MeshProxy

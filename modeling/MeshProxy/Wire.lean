import MeshProxy.Lib.Varint
import MeshProxy.System

/-!
# A concrete platform

An executable stand-in for nanopb on the messages that the runs below use:
the varint fields `config_complete_id` and `want_config_id`, the two messages
with a nested varint, and any submessage without content. Everything else is
rejected. `mainSteps` and `shortBurst` are the parts that the runs share.
-/

namespace MeshProxy

def fromRadioField (n : Nat) : FromRadioVariant :=
  match n with
  | 2 => .packet
  | 4 => .nodeInfo
  | 11 => .queueStatus
  | n => .other n

def toRadioField (n : Nat) : ToRadioVariant :=
  match n with
  | 1 => .packet
  | 7 => .heartbeat
  | n => .other n

def wireDecodeFromRadio : List UInt8 → Option FromRadio
  | 0x38 :: rest =>
    (decodeVarint rest).map fun n =>
      { whichPayloadVariant := .configCompleteId, configCompleteId := UInt32.ofNat n }
  | [tag, 0] =>
    if tag.toNat % 8 = 2 then some { whichPayloadVariant := fromRadioField (tag.toNat / 8) } else none
  | _ => none

def wireDecodeToRadio : List UInt8 → Option ToRadio
  | 0x18 :: rest =>
    (decodeVarint rest).map fun n =>
      { whichPayloadVariant := .wantConfigId, wantConfigId := UInt32.ofNat n }
  | [tag, 0] =>
    if tag.toNat % 8 = 2 then some { whichPayloadVariant := toRadioField (tag.toNat / 8) } else none
  | _ => none

def wireVarint (n : UInt32) : List UInt8 := encodeVarint 5 n.toNat

def wireEncodeFromRadio (m : FromRadio) : List UInt8 :=
  match m.whichPayloadVariant with
  | .configCompleteId => 0x38 :: wireVarint m.configCompleteId
  | .queueStatus =>
    let body := 0x10 :: wireVarint m.queueStatus.free ++ 0x18 :: wireVarint m.queueStatus.maxlen
    0x5A :: UInt8.ofNat body.length :: body
  | _ => []

def wireEncodeToRadio (m : ToRadio) : List UInt8 :=
  match m.whichPayloadVariant with
  | .wantConfigId => 0x18 :: wireVarint m.wantConfigId
  | .heartbeat =>
    let body := 0x08 :: wireVarint m.heartbeatNonce
    0x3A :: UInt8.ofNat body.length :: body
  | _ => []

/-- A message that does not fit is not written at all. -/
def wireWrite (bytes : List UInt8) (size : Nat) : PbEncoded :=
  if bytes.length ≤ size then ⟨true, bytes⟩ else ⟨false, []⟩

theorem wireWrite_le (bytes : List UInt8) (size : Nat) : (wireWrite bytes size).written.length ≤ size := by
  unfold wireWrite
  split
  · assumption
  · exact Nat.zero_le _

def wirePlatform (rand : UInt32) : Platform where
  decodeFromRadio := wireDecodeFromRadio
  decodeToRadio := wireDecodeToRadio
  encodeFromRadio m size := wireWrite (wireEncodeFromRadio m) size
  encodeToRadio m size := wireWrite (wireEncodeToRadio m) size
  encodeFromRadio_le _ size := wireWrite_le _ size
  encodeToRadio_le _ size := wireWrite_le _ size
  toRadioSize := 512
  attrRead len offset value :=
    if offset ≤ value.length then .ok ((value.drop offset).take len) else .error .invalidOffset
  attrRead_eq _ _ _ h := if_pos h
  rand
  uartBringUp := .ok ()

theorem wire_configComplete (rand nonce : UInt32) :
    protoEncodeConfigComplete (wirePlatform rand) nonce 16 =
      (0x38 :: wireVarint nonce, .ok (wireVarint nonce).length.succ) := by
  have hl : (0x38 :: wireVarint nonce).length ≤ 16 :=
    Nat.succ_le_succ (Nat.le_trans (encodeVarint_length 5 nonce.toNat) (by decide))
  have hw : wireWrite (0x38 :: wireVarint nonce) 16 = ⟨true, 0x38 :: wireVarint nonce⟩ := if_pos hl
  exact congrArg (fun enc => protoEncode enc 16) hw

theorem decode_wireVarint (nonce : UInt32) : decodeVarint (wireVarint nonce) = some nonce.toNat :=
  decode_encodeVarint (Nat.lt_trans nonce.toNat_lt (by decide)) (by decide)

theorem wire_decodeNonce (rand nonce : UInt32) :
    decodeConfigCompleteNonce (wirePlatform rand) (0x38 :: wireVarint nonce) = some nonce := by
  simp [decodeConfigCompleteNonce, wirePlatform, wireDecodeFromRadio, decode_wireVarint]

theorem wire_encodesConfigComplete (rand : UInt32) : (wirePlatform rand).EncodesConfigComplete where
  succeeds nonce := ⟨_, by rw [wire_configComplete]⟩
  echoes nonce := by rw [wire_configComplete]; exact wire_decodeNonce rand nonce

theorem wire_nonemptyMessages (rand : UInt32) : (wirePlatform rand).NonemptyMessages where
  configComplete nonce := by simp [wire_configComplete]
  queueStatus := by
    have h : (protoEncodeQueueStatus (wirePlatform rand) 16).2 = .ok 6 := rfl
    simp [h]

/-- A packet whose decoded data is on portnum 256 and shorter than 128 bytes in
all, and what `wireDecodeFromRadio` reads. -/
def wireDecodePacket : List UInt8 → Option FromRadio
  | 0x12 :: n :: 0x22 :: m :: 0x08 :: 0x80 :: 0x02 :: 0x12 :: k :: payload =>
    if k.toNat = payload.length ∧ m.toNat = payload.length + 5 ∧ n.toNat = payload.length + 7 ∧
        n < 128 then
      some
        { whichPayloadVariant := .packet
          packet := { whichPayloadVariant := .decoded, portnum := 256, payload } }
    else none
  | bytes => wireDecodeFromRadio bytes

def packetPlatform (rand : UInt32) : Platform :=
  { wirePlatform rand with decodeFromRadio := wireDecodePacket }

/-- A packet from id 9 to the id whose last byte is `dst`. -/
def addressedFrame (dst : UInt8) : List UInt8 :=
  [0x12, 16, 0x22, 14, 0x08, 0x80, 0x02, 0x12, 9, 1, 0, 0, 0, 9, 0, 0, 0, dst]

/-- A submessage with nothing in it but a field 15, which no message here has,
and what `wireDecodeFromRadio` reads. -/
def wireDecodePadded (bytes : List UInt8) : Option FromRadio :=
  match bytes with
  | tag :: n :: 0x7A :: m :: pad =>
    if tag.toNat % 8 = 2 ∧ m.toNat = pad.length ∧ n.toNat = pad.length + 2 ∧ n < 128 then
      some { whichPayloadVariant := fromRadioField (tag.toNat / 8) }
    else wireDecodeFromRadio bytes
  | _ => wireDecodeFromRadio bytes

def paddedPlatform (rand : UInt32) : Platform :=
  { wirePlatform rand with decodeFromRadio := wireDecodePadded }

def paddedFrame (tag : UInt8) (k : Nat) : List UInt8 :=
  tag :: UInt8.ofNat (k + 2) :: 0x7A :: UInt8.ofNat k :: List.replicate k 0

def mainSteps : List (Event Nat) := List.replicate 8 .mainStep

def shortBurst : List (Event Nat) := [.uartFrame [0x22, 0], .uartFrame [0x38, 9]]

end MeshProxy

import Mathlib.Data.UInt

/-!
# What the firmware is built on

The protobuf messages as the generated header exposes them to the proxy, and
the calls the proxy makes into code outside the repository: nanopb, the GATT
helper of the Bluetooth stack, the random number generator and the bring-up
of UART1. A `Platform` is any implementation of these; its proof fields are
the contracts the calls are documented with.
-/

namespace MeshProxy

inductive Errno
  | enoent
  | enomem
  | einval
  | emsgsize
  | enodev
  deriving DecidableEq, Repr

inductive AttError
  | invalidOffset
  | invalidAttributeLen
  | unlikely
  deriving DecidableEq, Repr

/-- `CONFIG_BT_MAX_CONN` of `prj.conf`. -/
def configBtMaxConn : Nat := 6

-- ---------------------------------------------------------------------------
-- Messages
-- ---------------------------------------------------------------------------

/-- `meshtastic_FromRadio_*_tag`. Only the tags the proxy compares with have a
name; `other` is any further one, with `other 0` for no variant at all. -/
inductive FromRadioVariant
  | packet
  | nodeInfo
  | configCompleteId
  | queueStatus
  | other (tag : Nat)
  deriving DecidableEq, Repr

inductive ToRadioVariant
  | packet
  | wantConfigId
  | heartbeat
  | other (tag : Nat)
  deriving DecidableEq, Repr

inductive MeshPacketVariant
  | decoded
  | other (tag : Nat)
  deriving DecidableEq, Repr

structure MeshPacket where
  fromNode : UInt32 := 0
  toNode : UInt32 := 0
  whichPayloadVariant : MeshPacketVariant := .other 0
  portnum : UInt32 := 0
  payload : List UInt8 := []
  deriving DecidableEq, Repr

structure QueueStatus where
  res : Int := 0
  free : UInt32 := 0
  maxlen : UInt32 := 0
  meshPacketId : UInt32 := 0
  deriving DecidableEq, Repr

structure FromRadio where
  whichPayloadVariant : FromRadioVariant := .other 0
  packet : MeshPacket := {}
  configCompleteId : UInt32 := 0
  queueStatus : QueueStatus := {}
  deriving DecidableEq, Repr

structure ToRadio where
  whichPayloadVariant : ToRadioVariant := .other 0
  packet : MeshPacket := {}
  wantConfigId : UInt32 := 0
  heartbeatNonce : UInt32 := 0
  deriving DecidableEq, Repr

-- ---------------------------------------------------------------------------
-- Calls out of the repository
-- ---------------------------------------------------------------------------

/-- The result of `pb_encode` into a buffer: whether it succeeded, and the
bytes it left in the buffer, which on failure are a partial message. -/
structure PbEncoded where
  ok : Bool
  written : List UInt8
  deriving DecidableEq, Repr

structure Platform where
  decodeFromRadio : List UInt8 → Option FromRadio
  decodeToRadio : List UInt8 → Option ToRadio
  encodeFromRadio : FromRadio → Nat → PbEncoded
  encodeToRadio : ToRadio → Nat → PbEncoded
  /-- A stream over a buffer never writes past the buffer. -/
  encodeFromRadio_le : ∀ m size, (encodeFromRadio m size).written.length ≤ size
  encodeToRadio_le : ∀ m size, (encodeToRadio m size).written.length ≤ size
  /-- `meshtastic_ToRadio_size` of the generated header. -/
  toRadioSize : Nat
  /-- `bt_gatt_attr_read`: buffer length, offset and the attribute's value. -/
  attrRead : Nat → Nat → List UInt8 → Except AttError (List UInt8)
  attrRead_eq : ∀ len offset value, offset ≤ value.length →
    attrRead len offset value = .ok ((value.drop offset).take len)
  /-- The value `sys_rand32_get` gives at the session start. -/
  rand : UInt32
  /-- What the device and driver calls of `uart_meshtastic_init` return. -/
  uartBringUp : Except Errno Unit

end MeshProxy

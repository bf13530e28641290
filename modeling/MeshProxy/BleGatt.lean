import MeshProxy.Lib.Ring
import MeshProxy.ProxyProtocol
import MeshProxy.UpstreamSession

/-!
# ble_gatt.c

The connection table and the GATT callbacks. A slot keeps its phone's
config-session state, a circular queue of outbound packets and the packet
being read. The handlers take the slot's lock for their whole critical
section, so each of them is one function of the table.

`calls` records what crosses the module's boundary: calls into the Bluetooth
stack, the result of every enqueue, and for each fresh FROMRADIO read the state
and the queue length it found and the packet it staged.
-/

namespace MeshProxy

abbrev maxBleConnections : Nat := configBtMaxConn
def fromradioQueueDepth : Nat := 8
def fromradioMaxPktSize : Nat := 512
def ccFrameSize : Nat := 16

instance : NeZero configBtMaxConn := ⟨by decide⟩
instance : NeZero fromradioQueueDepth := ⟨by decide⟩

inductive PhoneState
  | connected
  | awaitWantConfig
  | pending
  | replaying
  | active
  deriving DecidableEq, Repr

structure PktEntry where
  data : Cells fromradioMaxPktSize UInt8 := Cells.zero
  len : Nat := 0

def PktEntry.bytes (e : PktEntry) : List UInt8 := e.data.slice 0 e.len

structure ProxyConn (κ : Type) where
  conn : Option κ := none
  proxyId : ProxyId := Cells.zero
  fromnum : UInt32 := 0
  state : PhoneState := .connected
  nonce : UInt32 := 0
  replayCursor : Nat := 0
  ccFrame : Cells ccFrameSize UInt8 := Cells.zero
  ccLen : Nat := 0
  /-- `queue`, `head`, `tail` and `count`. -/
  queue : Ring fromradioQueueDepth PktEntry := ⟨fun _ => {}, 0, 0, 0⟩
  staged : Cells fromradioMaxPktSize UInt8 := Cells.zero
  stagedLen : Nat := 0

inductive GattCall (κ : Type)
  | ref (conn : κ)
  | unref (conn : κ)
  | disconnect (conn : κ)
  | advStart
  | notify (conn : κ) (fromnum : UInt32)
  | enqueue (conn : κ) (data : List UInt8) (rc : Except Errno Unit)
  | armed (conn : κ) (nonce : UInt32)
  | staged (conn : κ) (state : PhoneState) (queued : Nat) (packet : List UInt8)

structure BleGatt (κ : Type) where
  conns : Cells maxBleConnections (ProxyConn κ) := fun _ => {}
  activeConnCount : Nat := 0
  /-- `s_qs` and `s_qs_len`: the queueStatus encoded on first use. -/
  qs : Cells ccFrameSize UInt8 := Cells.zero
  qsLen : Nat := 0
  calls : List (GattCall κ) := []

variable {κ : Type}

-- ---------------------------------------------------------------------------
-- One slot
-- ---------------------------------------------------------------------------

namespace ProxyConn

def stagedBytes (pc : ProxyConn κ) : List UInt8 := pc.staged.slice 0 pc.stagedLen

def packets (pc : ProxyConn κ) : List (List UInt8) := pc.queue.toList.map PktEntry.bytes

/-- The resets shared by `alloc_slot` and `free_slot`. The terminator, the
queue cells and the staging buffer keep their bytes. -/
def clear (pc : ProxyConn κ) (conn : Option κ) : ProxyConn κ :=
  { pc with
    conn, proxyId := Cells.zero, fromnum := 0, queue := pc.queue.reset, stagedLen := 0,
    state := .connected, nonce := 0, replayCursor := 0 }

/-- The store at the tail in `ble_gatt_enqueue_fromradio`. -/
def push (pc : ProxyConn κ) (data : List UInt8) : ProxyConn κ :=
  let slot := pc.queue.cells pc.queue.tail
  { pc with
    queue := pc.queue.put { data := slot.data.memcpy 0 data, len := data.length }
    fromnum := pc.fromnum + 1 }

def stage (pc : ProxyConn κ) (bytes : List UInt8) : ProxyConn κ :=
  { pc with staged := pc.staged.memcpy 0 bytes, stagedLen := bytes.length }

/-- The skip loop of `fromradio_read`: the first index from `cursor` on that is
in the phone's segment, or the frame count. -/
def skip (cache : ConfigCache) (nonce : UInt32) : (fuel cursor : Nat) → Nat
  | 0, cursor => cursor
  | fuel + 1, cursor =>
    if cursor < cacheFrameCount cache ∧ cacheFrameInSegment cache cursor nonce = false then
      skip cache nonce fuel (u16 (cursor + 1))
    else cursor

/-- A replay step of `fromradio_read` with the cursor past the skip loop: a
cached frame, the terminator, or the end of the replay. -/
def stageReplay (cache : ConfigCache) (pc : ProxyConn κ) (cursor : Nat) : ProxyConn κ :=
  let n := cacheFrameCount cache
  if cursor < n then
    let pc := match cacheFrameAt cache cursor with
      | some ref => pc.stage (cacheFrameBytes cache ref)
      | none => { pc with stagedLen := 0 }
    { pc with replayCursor := u16 (cursor + 1) }
  else if cursor = n then
    { pc.stage (pc.ccFrame.slice 0 pc.ccLen) with replayCursor := u16 (cursor + 1) }
  else { pc with replayCursor := cursor, state := .active, stagedLen := 0 }

/-- The `offset == 0` branch of `fromradio_read`. -/
def stageNext (cache : ConfigCache) (pc : ProxyConn κ) : ProxyConn κ :=
  if pc.state = .replaying then
    pc.stageReplay cache
      (skip cache pc.nonce (cacheFrameCount cache - pc.replayCursor) pc.replayCursor)
  else if 0 < pc.queue.count then
    { pc.stage pc.queue.front.bytes with queue := pc.queue.pop }
  else { pc with stagedLen := 0 }

/-- The nonce `ble_gatt_replay_cached_burst` works with: 0 means the stored
one. -/
def takeNonce (pc : ProxyConn κ) (nonce : UInt32) : ProxyConn κ :=
  if nonce ≠ 0 then { pc with nonce } else pc

def arm (pc : ProxyConn κ) (cc : List UInt8) : ProxyConn κ :=
  { pc with
    ccFrame := pc.ccFrame.memcpy 0 cc, ccLen := cc.length % 256, replayCursor := 0,
    state := .replaying, fromnum := pc.fromnum + 1 }

def park (pc : ProxyConn κ) (nonce : UInt32) : ProxyConn κ := { pc with state := .pending, nonce }

end ProxyConn

-- ---------------------------------------------------------------------------
-- The table
-- ---------------------------------------------------------------------------

namespace BleGatt

def setSlot (g : BleGatt κ) (i : Fin maxBleConnections) (pc : ProxyConn κ) : BleGatt κ :=
  { g with conns := Function.update g.conns i pc }

def log (g : BleGatt κ) (calls : List (GattCall κ)) : BleGatt κ := { g with calls := g.calls ++ calls }

end BleGatt

variable [DecidableEq κ]

def findSlot (g : BleGatt κ) (conn : κ) : Option (Fin maxBleConnections) :=
  (List.finRange maxBleConnections).find? fun i => (g.conns i).conn = some conn

def freeIndex (g : BleGatt κ) : Option (Fin maxBleConnections) :=
  (List.finRange maxBleConnections).find? fun i => (g.conns i).conn = none

def allocSlot (g : BleGatt κ) (conn : κ) : Option (BleGatt κ) :=
  (freeIndex g).map fun i => (g.setSlot i ((g.conns i).clear (some conn))).log [.ref conn]

def freeSlot (g : BleGatt κ) (i : Fin maxBleConnections) : BleGatt κ :=
  match (g.conns i).conn with
  | some conn => (g.setSlot i ((g.conns i).clear none)).log [.unref conn]
  | none => g.setSlot i ((g.conns i).clear none)

def bleGattStartAdvertising (g : BleGatt κ) : BleGatt κ := g.log [.advStart]

def onConnected (g : BleGatt κ) (conn : κ) (err : UInt8) : BleGatt κ :=
  if err ≠ 0 then g
  else
    match allocSlot g conn with
    | none => g.log [.disconnect conn]
    | some g =>
      let g := { g with activeConnCount := (g.activeConnCount + 1) % 256 }
      if g.activeConnCount < maxBleConnections then bleGattStartAdvertising g else g

def onDisconnected (g : BleGatt κ) (conn : κ) : BleGatt κ :=
  match findSlot g conn with
  | some i =>
    let g := freeSlot g i
    bleGattStartAdvertising { g with activeConnCount := (g.activeConnCount + 255) % 256 }
  | none => bleGattStartAdvertising g

def bleGattEnqueueFromradio (g : BleGatt κ) (conn : κ) (data : List UInt8) :
    BleGatt κ × Except Errno Unit :=
  if fromradioMaxPktSize < data.length then
    (g.log [.enqueue conn data (.error .emsgsize)], .error .emsgsize)
  else
    match findSlot g conn with
    | none => (g.log [.enqueue conn data (.error .enoent)], .error .enoent)
    | some i =>
      let pc := g.conns i
      if fromradioQueueDepth ≤ pc.queue.count then
        (g.log [.enqueue conn data (.error .enomem)], .error .enomem)
      else
        let pc := pc.push data
        ((g.setSlot i pc).log [.notify conn pc.fromnum, .enqueue conn data (.ok ())], .ok ())

def bleGattGetConnByProxyId (g : BleGatt κ) (id : ProxyId) : Option κ :=
  if proxyIdIsZero id then none
  else
    (List.finRange maxBleConnections).findSome? fun i =>
      if proxyIdEqual (g.conns i).proxyId id then (g.conns i).conn else none

def bleGattRegisterProxyId (g : BleGatt κ) (conn : κ) (id : ProxyId) :
    BleGatt κ × Except Errno Unit :=
  match findSlot g conn with
  | none => (g, .error .enoent)
  | some i => (g.setSlot i { g.conns i with proxyId := id }, .ok ())

/-- The body of the broadcast loop, with the number of copies so far. -/
def broadcastSlot (data : List UInt8) (acc : BleGatt κ × Nat) (i : Fin maxBleConnections) :
    BleGatt κ × Nat :=
  match (acc.1.conns i).conn with
  | none => acc
  | some conn =>
    match bleGattEnqueueFromradio acc.1 conn data with
    | (g, .ok ()) => (g, acc.2 + 1)
    | (g, .error _) => (g, acc.2)

def bleGattBroadcastFromradio (g : BleGatt κ) (data : List UInt8) : BleGatt κ × Nat :=
  (List.finRange maxBleConnections).foldl (broadcastSlot data) (g, 0)

variable (p : Platform)

def bleGattReplayCachedBurst (conn : κ) (nonce : UInt32) (g : BleGatt κ) : BleGatt κ :=
  match findSlot g conn with
  | none => g
  | some i =>
    let pc := (g.conns i).takeNonce nonce
    match protoEncodeConfigComplete p pc.nonce ccFrameSize with
    | (written, .error _) => g.setSlot i { pc with ccFrame := pc.ccFrame.memcpy 0 written }
    | (cc, .ok _) =>
      let pc := pc.arm cc
      (g.setSlot i pc).log [.armed conn pc.nonce, .notify conn pc.fromnum]

def bleGattParkPending (g : BleGatt κ) (up : UpstreamSession κ) (cache : ConfigCache) (conn : κ)
    (nonce : UInt32) : UpstreamSession κ × BleGatt κ :=
  match findSlot g conn with
  | none => (up, g)
  | some i =>
    upstreamOnPendingPhone up cache (bleGattReplayCachedBurst p) conn
      (g.setSlot i ((g.conns i).park nonce))

def bleGattReplyQueuestatus (g : BleGatt κ) (conn : κ) : BleGatt κ :=
  if g.qsLen = 0 then
    match protoEncodeQueueStatus p ccFrameSize with
    | (written, .error _) => { g with qs := g.qs.memcpy 0 written }
    | (written, .ok len) =>
      let g := { g with qs := g.qs.memcpy 0 written, qsLen := len }
      (bleGattEnqueueFromradio g conn (g.qs.slice 0 g.qsLen)).1
  else (bleGattEnqueueFromradio g conn (g.qs.slice 0 g.qsLen)).1

-- ---------------------------------------------------------------------------
-- GATT callbacks
-- ---------------------------------------------------------------------------

/-- A `uint32_t` as it lies in memory. -/
def le32 (n : UInt32) : List UInt8 :=
  [n.toUInt8, (n >>> 8).toUInt8, (n >>> 16).toUInt8, (n >>> 24).toUInt8]

def fromnumRead (g : BleGatt κ) (conn : κ) (len offset : Nat) : Except AttError (List UInt8) :=
  match findSlot g conn with
  | none => .error .unlikely
  | some i => p.attrRead len offset (le32 (g.conns i).fromnum)

/-- What a slot answers to a read: the staged packet from `offset` on, or
nothing when none is staged. -/
def ProxyConn.serveStaged (pc : ProxyConn κ) (len offset : Nat) : Except AttError (List UInt8) :=
  if 0 < pc.stagedLen then p.attrRead len offset pc.stagedBytes else .ok []

def fromradioRead (cache : ConfigCache) (g : BleGatt κ) (conn : κ) (len offset : Nat) :
    BleGatt κ × Except AttError (List UInt8) :=
  match findSlot g conn with
  | none => (g, .error .unlikely)
  | some i =>
    if offset = 0 then
      let pc := (g.conns i).stageNext cache
      ((g.setSlot i pc).log
          [.staged conn (g.conns i).state (g.conns i).queue.count pc.stagedBytes],
        pc.serveStaged p len offset)
    else (g, (g.conns i).serveStaged p len offset)

def nodeRegWrite (g : BleGatt κ) (conn : κ) (data : List UInt8) (offset : Nat) :
    BleGatt κ × Except AttError Nat :=
  if offset ≠ 0 ∨ data.length ≠ proxyIdSize then (g, .error .invalidAttributeLen)
  else ((bleGattRegisterProxyId g conn (ProxyId.ofBytes data 0)).1, .ok data.length)

end MeshProxy

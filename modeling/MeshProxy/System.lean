import MeshProxy.BleGatt
import MeshProxy.Lib.Machine

/-!
# The whole proxy

`router.c` and `main.c`, and the machine they make with the other modules.
The state is every module's static data and the program counter of the main
thread, from the moment `main` has started advertising. An event is one
callback, one work item or one step of the main thread. The Bluetooth thread
and the work queue are cooperative, so their handlers run to completion; the
main thread can be preempted between any two of its steps.
-/

namespace MeshProxy

/-- Where `main` stands after `ble_gatt_start_advertising`. -/
inductive MainPc
  | uartInit
  | setServeCb
  | start (pc : StartPc)
  | returned
  deriving DecidableEq, Repr

structure Proxy (κ : Type) where
  gatt : BleGatt κ := {}
  cache : ConfigCache := {}
  upstream : UpstreamSession κ := {}
  uart : UartTx := {}
  /-- `fromradio_cb` is set. -/
  fromradioCb : Bool := false
  main : MainPc := .uartInit

variable {κ : Type} [DecidableEq κ] (p : Platform)

-- ---------------------------------------------------------------------------
-- router.c
-- ---------------------------------------------------------------------------

def Proxy.broadcast (s : Proxy κ) (raw : List UInt8) : Proxy κ :=
  { s with gatt := (bleGattBroadcastFromradio s.gatt raw).1 }

/-- The part of `router_dispatch` after the config-fetch gate. -/
def routerRoute (s : Proxy κ) (raw : List UInt8) (info : FromradioInfo) : Proxy κ :=
  if info.whichVariant ≠ .packet then
    if info.whichVariant = .queueStatus then
      match upstreamSwallowLiveQueuestatus s.upstream with
      | (upstream, true) => { s with upstream }
      | (_, false) => s.broadcast raw
    else s.broadcast raw
  else if ¬ info.isDecoded then s.broadcast raw
  else if info.portnum = proxyPortnum then
    match proxyHeaderParse info.payloadBytes with
    | none => s.broadcast raw
    | some hdr =>
      match bleGattGetConnByProxyId s.gatt hdr.dst with
      | some conn => { s with gatt := (bleGattEnqueueFromradio s.gatt conn raw).1 }
      | none => s.broadcast raw
  else s.broadcast raw

def routerDispatch (s : Proxy κ) (raw : List UInt8) (info : FromradioInfo) : Proxy κ :=
  if s.upstream.state = .fetching then
    match upstreamOnFromradio p s.upstream s.cache (bleGattReplayCachedBurst p) s.gatt raw info with
    | (upstream, cache, gatt, true) => { s with upstream, cache, gatt }
    | (upstream, cache, gatt, false) => routerRoute { s with upstream, cache, gatt } raw info
  else routerRoute s raw info

-- ---------------------------------------------------------------------------
-- main.c
-- ---------------------------------------------------------------------------

def onFromradioUart (s : Proxy κ) (payload : List UInt8) : Proxy κ :=
  match protoDecodeFromradio p payload with
  | .error _ => s.broadcast payload
  | .ok info => routerDispatch p s payload info

def Proxy.forward (s : Proxy κ) (data : List UInt8) : Proxy κ :=
  { s with uart := (uartMeshtasticTx s.uart data).1 }

def onToradioBle (s : Proxy κ) (conn : κ) (data : List UInt8) : Proxy κ :=
  match protoDecodeToradio p data with
  | .error _ => s.forward data
  | .ok ti =>
    if ti.hasWantConfig then
      if s.upstream.state = .cacheReady ∨ s.upstream.state = .live then
        { s with gatt := bleGattReplayCachedBurst p conn ti.wantConfigId s.gatt }
      else
        let (upstream, gatt) :=
          bleGattParkPending p s.gatt s.upstream s.cache conn ti.wantConfigId
        { s with upstream, gatt }
    else if ti.hasHeartbeat then { s with gatt := bleGattReplyQueuestatus p s.gatt conn }
    else s.forward data

/-- `toradio_write` of `ble_gatt.c`, with the handler `main` registers. -/
def toradioWrite (s : Proxy κ) (conn : κ) (data : List UInt8) (offset : Nat) :
    Proxy κ × Except AttError Nat :=
  if offset ≠ 0 then (s, .error .invalidOffset) else (onToradioBle p s conn data, .ok data.length)

def mainStep (s : Proxy κ) : Proxy κ :=
  match s.main with
  | .uartInit =>
    let s := { s with fromradioCb := true, uart := { s.uart with inProgress := false } }
    match p.uartBringUp with
    | .ok () => { s with main := .setServeCb }
    | .error _ => { s with main := .returned }
  | .setServeCb => { s with upstream := { s.upstream with serveCb := true }, main := .start .pickNonce }
  | .start pc =>
    let (pc, upstream, cache, uart) := upstreamSessionStart p pc s.upstream s.cache s.uart
    { s with main := .start pc, upstream, cache, uart }
  | .returned => s

-- ---------------------------------------------------------------------------
-- The machine
-- ---------------------------------------------------------------------------

inductive Event (κ : Type)
  | connected (conn : κ) (err : UInt8)
  | disconnected (conn : κ)
  | fromnumRead (conn : κ) (len offset : Nat)
  | fromradioRead (conn : κ) (len offset : Nat)
  | toradioWrite (conn : κ) (data : List UInt8) (offset : Nat)
  | nodeRegWrite (conn : κ) (data : List UInt8) (offset : Nat)
  | uartFrame (payload : List UInt8)
  | keepalive
  | mainStep
  | txWork (failed : Bool)
  | uartTxDone
  | uartTxAborted
  deriving DecidableEq, Repr

/-- What the phone that caused the event gets back. -/
inductive Reply
  | none
  | read (result : Except AttError (List UInt8))
  | write (result : Except AttError Nat)

def Proxy.step (s : Proxy κ) : Event κ → Proxy κ × Reply
  | .connected conn err => ({ s with gatt := onConnected s.gatt conn err }, .none)
  | .disconnected conn => ({ s with gatt := onDisconnected s.gatt conn }, .none)
  | .fromnumRead conn len offset => (s, .read (MeshProxy.fromnumRead p s.gatt conn len offset))
  | .fromradioRead conn len offset =>
    let (gatt, result) := MeshProxy.fromradioRead p s.cache s.gatt conn len offset
    ({ s with gatt }, .read result)
  | .toradioWrite conn data offset =>
    let (s, result) := MeshProxy.toradioWrite p s conn data offset
    (s, .write result)
  | .nodeRegWrite conn data offset =>
    let (gatt, result) := MeshProxy.nodeRegWrite s.gatt conn data offset
    ({ s with gatt }, .write result)
  | .uartFrame payload => (if s.fromradioCb then onFromradioUart p s payload else s, .none)
  | .keepalive =>
    if s.upstream.keepaliveArmed then
      let (upstream, uart) := keepaliveWorkHandler p s.upstream s.uart
      ({ s with upstream, uart }, .none)
    else (s, .none)
  | .mainStep => (MeshProxy.mainStep p s, .none)
  | .txWork failed =>
    (if s.uart.workPending then { s with uart := txWorkHandler s.uart failed } else s, .none)
  | .uartTxDone => ({ s with uart := MeshProxy.uartTxDone s.uart }, .none)
  | .uartTxAborted => ({ s with uart := MeshProxy.uartTxAborted s.uart }, .none)

/-- The stack reports no second connect for a link that has a slot, and the
UART parser delivers payloads of 1 to 512 bytes. -/
def Proxy.Enabled (s : Proxy κ) : Event κ → Prop
  | .connected conn err => err = 0 → findSlot s.gatt conn = none
  | .uartFrame payload => 1 ≤ payload.length ∧ payload.length ≤ meshtasticMaxPayload
  | _ => True

instance (s : Proxy κ) : (e : Event κ) → Decidable (s.Enabled e)
  | .connected conn err => inferInstanceAs (Decidable (err = 0 → findSlot s.gatt conn = none))
  | .uartFrame payload =>
    inferInstanceAs (Decidable (1 ≤ payload.length ∧ payload.length ≤ meshtasticMaxPayload))
  | .disconnected _ | .fromnumRead .. | .fromradioRead .. | .toradioWrite .. | .nodeRegWrite ..
  | .keepalive | .mainStep | .txWork _ | .uartTxDone | .uartTxAborted =>
    inferInstanceAs (Decidable True)

def proxyMachine (κ : Type) [DecidableEq κ] : Machine (Proxy κ) (Event κ) Reply where
  enabled := Proxy.Enabled
  step := Proxy.step p

instance (s : Proxy κ) (e : Event κ) : Decidable ((proxyMachine p κ).enabled s e) :=
  inferInstanceAs (Decidable (s.Enabled e))

/-- The state in which `main` has started advertising. -/
def Proxy.boot : Proxy κ := {}

end MeshProxy

import MeshProxy.ConfigCache
import MeshProxy.ProtoHandler
import MeshProxy.UartTx

/-!
# upstream_session.c

The proxy's own config session with the node. The module knows phones only
as connection pointers: the replay of a parked phone goes through a callback,
here the argument `serve` acting on whatever state `γ` it belongs to.

`upstream_session_start` runs on the preemptible main thread, so it is a
sequence of steps with a program counter, `StartPc`; every other entry point
runs to completion.
-/

namespace MeshProxy

inductive UpstreamState
  | boot
  | fetching
  | cacheReady
  | live
  deriving DecidableEq, Repr

structure UpstreamSession (κ : Type) where
  state : UpstreamState := .boot
  nonce : UInt32 := 0
  /-- `s_pending[0 .. s_pending_count)`. -/
  pending : List κ := []
  /-- `s_serve_cb` is set. -/
  serveCb : Bool := false
  keepaliveArmed : Bool := false
  keepaliveNonce : UInt32 := 2
  keepalivePending : Bool := false

variable {κ γ : Type} (p : Platform)

def serveOnePending (up : UpstreamSession κ) (serve : κ → UInt32 → γ → γ) (conn : κ) (g : γ) : γ :=
  if up.serveCb then serve conn 0 g else g

def servePendingPhones (up : UpstreamSession κ) (serve : κ → UInt32 → γ → γ) (g : γ) :
    UpstreamSession κ × γ :=
  ({ up with pending := [] }, up.pending.foldl (fun g conn => serveOnePending up serve conn g) g)

/-- The session's reaction to one decoded frame, with `true` when the frame is
consumed. -/
def upstreamOnFromradio (up : UpstreamSession κ) (cache : ConfigCache)
    (serve : κ → UInt32 → γ → γ) (g : γ) (payload : List UInt8) (info : FromradioInfo) :
    UpstreamSession κ × ConfigCache × γ × Bool :=
  if up.state ≠ .fetching then (up, cache, g, false)
  else if info.whichVariant = .packet then (up, cache, g, false)
  else if info.whichVariant = .configCompleteId then
    match decodeConfigCompleteNonce p payload with
    | none => (up, (cacheAddFrame cache payload info.whichVariant).1, g, true)
    | some gotNonce =>
      if gotNonce ≠ up.nonce then (up, (cacheAddFrame cache payload info.whichVariant).1, g, true)
      else
        let cache := cacheMarkReady cache
        let (up, g) := servePendingPhones { up with state := .cacheReady } serve g
        ({ up with state := .live }, cache, g, true)
  else (up, (cacheAddFrame cache payload info.whichVariant).1, g, true)

def upstreamOnPendingPhone [DecidableEq κ] (up : UpstreamSession κ) (cache : ConfigCache)
    (serve : κ → UInt32 → γ → γ) (conn : κ) (g : γ) : UpstreamSession κ × γ :=
  if cacheIsReady cache then (up, serveOnePending up serve conn g)
  else if conn ∈ up.pending then (up, g)
  else if configBtMaxConn ≤ up.pending.length then (up, g)
  else ({ up with pending := up.pending ++ [conn] }, g)

def upstreamSwallowLiveQueuestatus (up : UpstreamSession κ) : UpstreamSession κ × Bool :=
  if up.keepalivePending then ({ up with keepalivePending := false }, true) else (up, false)

def keepaliveNextNonce (n : UInt32) : UInt32 := if n + 1 = 0 ∨ n + 1 = 1 then 2 else n + 1

def keepaliveWorkHandler (up : UpstreamSession κ) (uart : UartTx) : UpstreamSession κ × UartTx :=
  let nonce := up.keepaliveNonce
  let up := { up with keepaliveNonce := keepaliveNextNonce nonce }
  match protoEncodeHeartbeat p nonce 16 with
  | (buf, .ok _) =>
    match uartMeshtasticTx uart buf with
    | (uart, .ok ()) => ({ up with keepalivePending := true }, uart)
    | (uart, .error _) => ({ up with keepalivePending := false }, uart)
  | (_, .error _) => (up, uart)

-- ---------------------------------------------------------------------------
-- upstream_session_start
-- ---------------------------------------------------------------------------

/-- Where `upstream_session_start` stands; `buf` is its local with the encoded
want_config. -/
inductive StartPc
  | pickNonce
  | cacheBegin (buf : List UInt8)
  | resetPending (buf : List UInt8)
  | tx (buf : List UInt8)
  | setFetching
  | armKeepalive
  | done
  deriving DecidableEq, Repr

/-- The random nonce with 0 and 1 bumped to 2. -/
def startNonce (rand : UInt32) : UInt32 := if rand = 0 ∨ rand = 1 then 2 else rand

def encodeWantConfig (nonce : UInt32) : PbEncoded :=
  p.encodeToRadio { whichPayloadVariant := .wantConfigId, wantConfigId := nonce } p.toRadioSize

/-- One step of `upstream_session_start`. A failed encode or transmit returns
early with the session still in BOOT. -/
def upstreamSessionStart (pc : StartPc) (up : UpstreamSession κ) (cache : ConfigCache)
    (uart : UartTx) : StartPc × UpstreamSession κ × ConfigCache × UartTx :=
  match pc with
  | .pickNonce =>
    let nonce := startNonce p.rand
    let enc := encodeWantConfig p nonce
    if enc.ok then (.cacheBegin enc.written, { up with nonce }, cache, uart)
    else (.done, { up with nonce }, cache, uart)
  | .cacheBegin buf => (.resetPending buf, up, cacheBegin cache, uart)
  | .resetPending buf => (.tx buf, { up with pending := [] }, cache, uart)
  | .tx buf =>
    match uartMeshtasticTx uart buf with
    | (uart, .ok ()) => (.setFetching, up, cache, uart)
    | (uart, .error _) => (.done, up, cache, uart)
  | .setFetching => (.armKeepalive, { up with state := .fetching }, cache, uart)
  | .armKeepalive => (.done, { up with keepaliveArmed := true }, cache, uart)
  | .done => (.done, up, cache, uart)

end MeshProxy

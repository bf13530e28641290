import MeshProxy.GattOps
import MeshProxy.System

/-!
# What one step does

For every event, the operations it performs on the connection table
(`gattOps`, `step_gatt`) and what it does to the cache and the session
(`FrameStep`, `MainStep`, `step_quiet`). The facts about runs are derived from
these and do not unfold the step function again.
-/

namespace MeshProxy

variable {κ : Type} (p : Platform)

-- ---------------------------------------------------------------------------
-- Steps that do not drive the session
-- ---------------------------------------------------------------------------

/-- The step leaves the cache, the main thread and the session's progress
alone; it may still park a phone or note a keepalive. -/
structure Quiet (s s' : Proxy κ) : Prop where
  cache : s'.cache = s.cache
  main : s'.main = s.main
  fromradioCb : s'.fromradioCb = s.fromradioCb
  state : s'.upstream.state = s.upstream.state
  nonce : s'.upstream.nonce = s.upstream.nonce
  serveCb : s'.upstream.serveCb = s.upstream.serveCb

/-- A frame or a step of the main thread: the only events that drive the
session. -/
def Event.IsSession : Event κ → Prop
  | .uartFrame _ | .mainStep => True
  | _ => False

theorem Quiet.of_upstream_eq {s s' : Proxy κ} (hc : s'.cache = s.cache) (hm : s'.main = s.main)
    (hf : s'.fromradioCb = s.fromradioCb) (hu : s'.upstream = s.upstream) : Quiet s s' :=
  ⟨hc, hm, hf, by rw [hu], by rw [hu], by rw [hu]⟩

theorem Quiet.refl (s : Proxy κ) : Quiet s s := .of_upstream_eq rfl rfl rfl rfl

theorem keepalive_quiet (s : Proxy κ) :
    Quiet s { s with
      upstream := (keepaliveWorkHandler p s.upstream s.uart).1
      uart := (keepaliveWorkHandler p s.upstream s.uart).2 } ∧
    (keepaliveWorkHandler p s.upstream s.uart).1.pending = s.upstream.pending := by
  unfold keepaliveWorkHandler
  simp only
  repeat' split
  all_goals exact ⟨⟨rfl, rfl, rfl, rfl, rfl, rfl⟩, rfl⟩

-- ---------------------------------------------------------------------------
-- The main thread
-- ---------------------------------------------------------------------------

inductive MainStep (s : Proxy κ) : Proxy κ → Prop
  | uartUp (hm : s.main = .uartInit) (hu : p.uartBringUp = .ok ()) :
      MainStep s { s with
        fromradioCb := true, uart := { s.uart with inProgress := false }, main := .setServeCb }
  | uartFailed (hm : s.main = .uartInit) :
      MainStep s { s with
        fromradioCb := true, uart := { s.uart with inProgress := false }, main := .returned }
  | serveCbSet (hm : s.main = .setServeCb) :
      MainStep s { s with
        upstream := { s.upstream with serveCb := true }, main := .start .pickNonce }
  | noncePicked (hm : s.main = .start .pickNonce) (buf : List UInt8) :
      MainStep s { s with
        upstream := { s.upstream with nonce := startNonce p.rand }, main := .start (.cacheBegin buf) }
  | encodeFailed (hm : s.main = .start .pickNonce) :
      MainStep s { s with
        upstream := { s.upstream with nonce := startNonce p.rand }, main := .start .done }
  | cacheBegun (buf : List UInt8) (hm : s.main = .start (.cacheBegin buf)) :
      MainStep s { s with cache := cacheBegin s.cache, main := .start (.resetPending buf) }
  | pendingReset (buf : List UInt8) (hm : s.main = .start (.resetPending buf)) :
      MainStep s { s with upstream := { s.upstream with pending := [] }, main := .start (.tx buf) }
  | sent (buf : List UInt8) (hm : s.main = .start (.tx buf)) (uart : UartTx)
      (hok : uartMeshtasticTx s.uart buf = (uart, .ok ())) :
      MainStep s { s with uart, main := .start .setFetching }
  | sendFailed (buf : List UInt8) (hm : s.main = .start (.tx buf)) (uart : UartTx) :
      MainStep s { s with uart, main := .start .done }
  | fetching (hm : s.main = .start .setFetching) :
      MainStep s { s with
        upstream := { s.upstream with state := .fetching }, main := .start .armKeepalive }
  | armed (hm : s.main = .start .armKeepalive) :
      MainStep s { s with
        upstream := { s.upstream with keepaliveArmed := true }, main := .start .done }
  | idle (hm : s.main = .start .done ∨ s.main = .returned) : MainStep s s

theorem mainStep_step (s : Proxy κ) : MainStep p s (mainStep p s) := by
  unfold mainStep
  cases hm : s.main with
  | uartInit =>
    simp only
    cases hu : p.uartBringUp with
    | ok => exact .uartUp hm hu
    | error => exact .uartFailed hm
  | setServeCb => exact .serveCbSet hm
  | returned => exact .idle (.inr hm)
  | start pc =>
    cases pc with
    | pickNonce =>
      simp only [upstreamSessionStart]
      split
      · exact .noncePicked hm _
      · exact .encodeFailed hm
    | cacheBegin buf => exact .cacheBegun buf hm
    | resetPending buf => exact .pendingReset buf hm
    | tx buf =>
      simp only [upstreamSessionStart]
      split
      · rename_i hok
        exact .sent buf hm _ hok
      · exact .sendFailed buf hm _
    | setFetching => exact .fetching hm
    | armKeepalive => exact .armed hm
    | done =>
      have hself : ({ s with main := .start .done } : Proxy κ) = s := by rw [← hm]
      simp only [upstreamSessionStart, hself]
      exact .idle (.inl hm)

variable [DecidableEq κ]

-- ---------------------------------------------------------------------------
-- Frames from the node
-- ---------------------------------------------------------------------------

/-- Where `router_dispatch` sends a frame the session did not consume. -/
inductive Route (κ : Type)
  | swallow
  | targeted (conn : κ)
  | broadcast

def route (s : Proxy κ) (info : FromradioInfo) : Route κ :=
  if info.whichVariant ≠ .packet then
    if info.whichVariant = .queueStatus ∧ s.upstream.keepalivePending = true then .swallow
    else .broadcast
  else if info.isDecoded = true ∧ info.portnum = proxyPortnum then
    match (proxyHeaderParse info.payloadBytes).bind fun hdr => bleGattGetConnByProxyId s.gatt hdr.dst with
    | some conn => .targeted conn
    | none => .broadcast
  else .broadcast

def broadcastOps (g : BleGatt κ) (data : List UInt8) : List (GattOp κ) :=
  (List.finRange maxBleConnections).filterMap fun i => (g.conns i).conn.map fun conn => .enqueue conn data

def Route.ops (g : BleGatt κ) (raw : List UInt8) : Route κ → List (GattOp κ)
  | .swallow => []
  | .targeted conn => [.enqueue conn raw]
  | .broadcast => broadcastOps g raw

def applyOps (cache : ConfigCache) (g : BleGatt κ) (ops : List (GattOp κ)) : BleGatt κ :=
  ops.foldl (GattOp.apply p cache) g

theorem broadcast_foldl (cache : ConfigCache) (data : List UInt8) (l : List (Fin maxBleConnections))
    (g : BleGatt κ) (n : Nat) :
    (l.foldl (broadcastSlot data) (g, n)).1 =
      applyOps p cache g (l.filterMap fun i => (g.conns i).conn.map fun conn => .enqueue conn data) := by
  induction l generalizing g n with
  | nil => rfl
  | cons i l ih =>
    rw [List.foldl_cons, List.filterMap_cons]
    cases hc : (g.conns i).conn with
    | none =>
      have hb : broadcastSlot data (g, n) i = (g, n) := by simp [broadcastSlot, hc]
      rw [hb, ih]
      rfl
    | some conn =>
      have hb : ∃ m, broadcastSlot data (g, n) i = ((bleGattEnqueueFromradio g conn data).1, m) := by
        simp only [broadcastSlot, hc]
        obtain ⟨g', _ | _⟩ := bleGattEnqueueFromradio g conn data <;> exact ⟨_, rfl⟩
      obtain ⟨m, hb⟩ := hb
      have hinner : (GattOp.enqueue conn data).Inner := trivial
      have hconn (j : Fin maxBleConnections) :
          ((bleGattEnqueueFromradio g conn data).1.conns j).conn = (g.conns j).conn :=
        apply_inner_conn p cache g hinner j
      rw [hb, ih]
      simp only [hconn]
      rfl

theorem broadcast_ops (cache : ConfigCache) (g : BleGatt κ) (data : List UInt8) :
    (bleGattBroadcastFromradio g data).1 = applyOps p cache g (broadcastOps g data) :=
  broadcast_foldl p cache data _ g 0

theorem routerRoute_eq (s : Proxy κ) (raw : List UInt8) (info : FromradioInfo) :
    routerRoute s raw info =
      { s with
        gatt := applyOps p s.cache s.gatt ((route s info).ops s.gatt raw)
        upstream := match route s info with
          | .swallow => { s.upstream with keepalivePending := false }
          | _ => s.upstream } := by
  unfold routerRoute route
  simp only [upstreamSwallowLiveQueuestatus, Proxy.broadcast, broadcast_ops p s.cache]
  by_cases hv : info.whichVariant = .packet
  · simp only [hv, ne_eq, not_true_eq_false, ↓reduceIte]
    cases hdec : info.isDecoded with
    | false => simp [Route.ops]
    | true =>
      by_cases hp : info.portnum = proxyPortnum
      · simp only [hp, not_true_eq_false, ↓reduceIte, and_self]
        cases proxyHeaderParse info.payloadBytes with
        | none => simp [Route.ops]
        | some hdr =>
          simp only [Option.bind_some]
          cases bleGattGetConnByProxyId s.gatt hdr.dst with
          | none => simp [Route.ops]
          | some conn => simp [Route.ops, applyOps, GattOp.apply]
      · simp [hp, Route.ops]
  · simp only [hv, ne_eq, not_false_eq_true, ↓reduceIte]
    by_cases hq : info.whichVariant = .queueStatus
    · cases hk : s.upstream.keepalivePending with
      | true => simp [hq, Route.ops, applyOps]
      | false => simp [hq, Route.ops]
    · simp [hq, Route.ops]

def serveOps (up : UpstreamSession κ) : List (GattOp κ) :=
  if up.serveCb then up.pending.map fun conn => .replay conn 0 else []

theorem servePendingPhones_ops (cache : ConfigCache) (up : UpstreamSession κ) (g : BleGatt κ) :
    servePendingPhones up (bleGattReplayCachedBurst p) g =
      ({ up with pending := [] }, applyOps p cache g (serveOps up)) := by
  simp only [servePendingPhones, serveOps, applyOps, Prod.mk.injEq, true_and]
  cases hs : up.serveCb with
  | true => simp [serveOnePending, hs, GattOp.apply, List.foldl_map]
  | false => simp [serveOnePending, hs]

def Proxy.goLive (s : Proxy κ) : Proxy κ :=
  { s with
    cache := cacheMarkReady s.cache
    gatt := applyOps p s.cache s.gatt (serveOps s.upstream)
    upstream := { s.upstream with pending := [], state := .live } }

/-- The four fates of a payload. -/
inductive FrameStep (s : Proxy κ) (payload : List UInt8) : Proxy κ → Prop
  | undecodable (hd : p.decodeFromRadio payload = none) :
      FrameStep s payload
        { s with gatt := applyOps p s.cache s.gatt (broadcastOps s.gatt payload) }
  | stored (info : FromradioInfo) (hd : protoDecodeFromradio p payload = .ok info)
      (hf : s.upstream.state = .fetching) (hv : info.whichVariant ≠ .packet)
      (hn : decodeConfigCompleteNonce p payload ≠ some s.upstream.nonce) :
      FrameStep s payload { s with cache := (cacheAddFrame s.cache payload info.whichVariant).1 }
  | closed (hf : s.upstream.state = .fetching)
      (hn : decodeConfigCompleteNonce p payload = some s.upstream.nonce) :
      FrameStep s payload (s.goLive p)
  | routed (info : FromradioInfo) (hd : protoDecodeFromradio p payload = .ok info)
      (h : s.upstream.state ≠ .fetching ∨ info.whichVariant = .packet) :
      FrameStep s payload
        { s with
          gatt := applyOps p s.cache s.gatt ((route s info).ops s.gatt payload)
          upstream := match route s info with
            | .swallow => { s.upstream with keepalivePending := false }
            | _ => s.upstream }

theorem protoDecodeFromradio_variant (h : protoDecodeFromradio p payload = .ok info) :
    ∃ fr, p.decodeFromRadio payload = some fr ∧ info.whichVariant = fr.whichPayloadVariant := by
  unfold protoDecodeFromradio at h
  cases hd : p.decodeFromRadio payload with
  | none => simp [hd] at h
  | some fr =>
    simp only [hd] at h
    refine ⟨fr, rfl, ?_⟩
    split at h
    · cases h
      rfl
    · split at h <;> cases h <;> rfl

theorem protoDecodeFromradio_error (h : protoDecodeFromradio p payload = .error e) :
    p.decodeFromRadio payload = none := by
  unfold protoDecodeFromradio at h
  cases hd : p.decodeFromRadio payload with
  | none => rfl
  | some fr =>
    simp only [hd] at h
    repeat' split at h
    all_goals cases h

theorem decodeNonce_variant (hd : protoDecodeFromradio p payload = .ok info)
    (h : decodeConfigCompleteNonce p payload = some n) : info.whichVariant = .configCompleteId := by
  obtain ⟨fr, hfr, hv⟩ := protoDecodeFromradio_variant p hd
  simp only [decodeConfigCompleteNonce, hfr] at h
  split at h
  · rename_i hc
    rw [hv, hc]
  · cases h

theorem decodes_of_nonce (h : decodeConfigCompleteNonce p payload = some n) :
    ∃ info, protoDecodeFromradio p payload = .ok info ∧ info.whichVariant = .configCompleteId := by
  cases hd : protoDecodeFromradio p payload with
  | ok info => exact ⟨info, rfl, decodeNonce_variant p hd h⟩
  | error e =>
    have hn := protoDecodeFromradio_error p hd
    simp [decodeConfigCompleteNonce, hn] at h

theorem onFromradioUart_step (s : Proxy κ) (payload : List UInt8) :
    FrameStep p s payload (onFromradioUart p s payload) := by
  unfold onFromradioUart
  cases hd : protoDecodeFromradio p payload with
  | error e =>
    have hn := protoDecodeFromradio_error p hd
    simpa only [Proxy.broadcast, broadcast_ops p s.cache] using
      FrameStep.undecodable (p := p) (s := s) hn
  | ok info =>
    simp only [routerDispatch]
    by_cases hf : s.upstream.state = .fetching
    · simp only [hf, ↓reduceIte, upstreamOnFromradio, ne_eq, not_true_eq_false]
      by_cases hv : info.whichVariant = .packet
      · simp only [hv, ↓reduceIte]
        rw [routerRoute_eq p]
        exact .routed info hd (.inr hv)
      · simp only [hv, ↓reduceIte]
        by_cases hc : info.whichVariant = .configCompleteId
        · cases hn : decodeConfigCompleteNonce p payload with
          | none =>
            simp only [hc, ↓reduceIte]
            rw [← hc]
            exact .stored info hd hf hv (by simp [hn])
          | some n =>
            by_cases hs : n = s.upstream.nonce
            · simp only [hc, hs, ↓reduceIte, not_true_eq_false, servePendingPhones_ops p s.cache]
              exact .closed hf (hs ▸ hn)
            · simp only [hc, hs, ↓reduceIte, not_false_eq_true]
              rw [← hc]
              exact .stored info hd hf hv (by simpa [hn] using hs)
        · simp only [hc, ↓reduceIte]
          exact .stored info hd hf hv fun hn => hc (decodeNonce_variant p hd hn)
    · simp only [hf, ↓reduceIte]
      rw [routerRoute_eq p]
      exact .routed info hd (.inl hf)

-- ---------------------------------------------------------------------------
-- Writes from a phone
-- ---------------------------------------------------------------------------

def wantConfigOf (data : List UInt8) : Option UInt32 :=
  match protoDecodeToradio p data with
  | .ok ti => if ti.hasWantConfig then some ti.wantConfigId else none
  | .error _ => none

/-- What the list of parked phones becomes when `conn` asks before the cache
is ready. -/
def UpstreamSession.enqueuePending (up : UpstreamSession κ) (conn : κ) : UpstreamSession κ :=
  if conn ∈ up.pending then up
  else if configBtMaxConn ≤ up.pending.length then up
  else { up with pending := up.pending ++ [conn] }

def parkSession (s : Proxy κ) (conn : κ) : UpstreamSession κ :=
  if (findSlot s.gatt conn).isSome ∧ s.cache.ready = false then s.upstream.enqueuePending conn
  else s.upstream

def parkOps (s : Proxy κ) (conn : κ) (nonce : UInt32) : List (GattOp κ) :=
  if (findSlot s.gatt conn).isSome then
    .park conn nonce ::
      (if s.cache.ready = true ∧ s.upstream.serveCb = true then [.replay conn 0] else [])
  else []

def heartbeatOps (g : BleGatt κ) (conn : κ) : List (GattOp κ) :=
  if g.qsLen = 0 then
    match protoEncodeQueueStatus p ccFrameSize with
    | (written, .error _) => [.setQs (g.qs.memcpy 0 written) 0]
    | (written, .ok len) =>
      [.setQs (g.qs.memcpy 0 written) len, .enqueue conn ((g.qs.memcpy 0 written).slice 0 len)]
  else [.enqueue conn (g.qs.slice 0 g.qsLen)]

theorem bleGattParkPending_eq (s : Proxy κ) (conn : κ) (nonce : UInt32) :
    bleGattParkPending p s.gatt s.upstream s.cache conn nonce =
      (parkSession s conn, applyOps p s.cache s.gatt (parkOps s conn nonce)) := by
  unfold bleGattParkPending parkSession parkOps
  cases hf : findSlot s.gatt conn with
  | none => simp [applyOps]
  | some i =>
    have hpark : parkSlot s.gatt conn nonce = s.gatt.setSlot i ((s.gatt.conns i).park nonce) := by
      simp [parkSlot, hf]
    simp only [upstreamOnPendingPhone, cacheIsReady, Option.isSome_some, true_and, ↓reduceIte,
      applyOps, List.foldl_cons, GattOp.apply, hpark]
    by_cases hr : s.cache.ready = true
    · by_cases hs : s.upstream.serveCb = true <;> simp [serveOnePending, hr, hs, GattOp.apply]
    · simp only [UpstreamSession.enqueuePending, hr, Bool.false_eq_true, ↓reduceIte, false_and,
        List.foldl_nil]
      split
      · rfl
      · split <;> rfl

theorem bleGattReplyQueuestatus_eq (cache : ConfigCache) (g : BleGatt κ) (conn : κ) :
    bleGattReplyQueuestatus p g conn = applyOps p cache g (heartbeatOps p g conn) := by
  unfold bleGattReplyQueuestatus heartbeatOps
  split
  · rename_i h0
    generalize protoEncodeQueueStatus p ccFrameSize = enc
    obtain ⟨written, _ | _⟩ := enc
    · simp [applyOps, GattOp.apply, h0]
    · rfl
  · rfl

inductive ToradioStep (s : Proxy κ) (conn : κ) (data : List UInt8) : Proxy κ → Prop
  | forwarded (hw : wantConfigOf p data = none) : ToradioStep s conn data (s.forward data)
  | heartbeat (hw : wantConfigOf p data = none) :
      ToradioStep s conn data
        { s with gatt := applyOps p s.cache s.gatt (heartbeatOps p s.gatt conn) }
  | replayed (nonce : UInt32) (hw : wantConfigOf p data = some nonce)
      (hs : s.upstream.state = .cacheReady ∨ s.upstream.state = .live) :
      ToradioStep s conn data { s with gatt := applyOps p s.cache s.gatt [.replay conn nonce] }
  | parked (nonce : UInt32) (hw : wantConfigOf p data = some nonce)
      (hs : ¬ (s.upstream.state = .cacheReady ∨ s.upstream.state = .live)) :
      ToradioStep s conn data
        { s with
          gatt := applyOps p s.cache s.gatt (parkOps s conn nonce)
          upstream := parkSession s conn }

theorem onToradioBle_step (s : Proxy κ) (conn : κ) (data : List UInt8) :
    ToradioStep p s conn data (onToradioBle p s conn data) := by
  unfold onToradioBle
  cases hd : protoDecodeToradio p data with
  | error e => exact .forwarded (by simp [wantConfigOf, hd])
  | ok ti =>
    simp only
    by_cases hw : ti.hasWantConfig = true
    · have hn : wantConfigOf p data = some ti.wantConfigId := by simp [wantConfigOf, hd, hw]
      rw [if_pos hw]
      by_cases hs : s.upstream.state = .cacheReady ∨ s.upstream.state = .live
      · rw [if_pos hs]
        exact .replayed _ hn hs
      · rw [if_neg hs, bleGattParkPending_eq]
        exact .parked _ hn hs
    · have hn : wantConfigOf p data = none := by simp [wantConfigOf, hd, hw]
      rw [if_neg hw]
      split
      · rw [bleGattReplyQueuestatus_eq p s.cache]
        exact .heartbeat hn
      · exact .forwarded hn

-- ---------------------------------------------------------------------------
-- Every event
-- ---------------------------------------------------------------------------

/-- The operations an event performs on the table. -/
def gattOps (s : Proxy κ) : Event κ → List (GattOp κ)
  | .connected conn err => [.connected conn err]
  | .disconnected conn => [.disconnected conn]
  | .fromradioRead conn _ offset => if offset = 0 then [.stage conn] else []
  | .toradioWrite conn data offset =>
    if offset ≠ 0 then []
    else
      match protoDecodeToradio p data with
      | .error _ => []
      | .ok ti =>
        if ti.hasWantConfig then
          if s.upstream.state = .cacheReady ∨ s.upstream.state = .live then
            [.replay conn ti.wantConfigId]
          else parkOps s conn ti.wantConfigId
        else if ti.hasHeartbeat then heartbeatOps p s.gatt conn
        else []
  | .nodeRegWrite conn data offset =>
    if offset ≠ 0 ∨ data.length ≠ proxyIdSize then [] else [.register conn (ProxyId.ofBytes data 0)]
  | .uartFrame payload =>
    if s.fromradioCb = false then []
    else
      match protoDecodeFromradio p payload with
      | .error _ => broadcastOps s.gatt payload
      | .ok info =>
        if s.upstream.state = .fetching ∧ info.whichVariant ≠ .packet then
          if decodeConfigCompleteNonce p payload = some s.upstream.nonce then serveOps s.upstream
          else []
        else (route s info).ops s.gatt payload
  | .fromnumRead .. | .keepalive | .mainStep | .txWork _ | .uartTxDone | .uartTxAborted => []

theorem frame_gattOps (s : Proxy κ) (payload : List UInt8) (hcb : s.fromradioCb = true) :
    (onFromradioUart p s payload).gatt = applyOps p s.cache s.gatt (gattOps p s (.uartFrame payload)) := by
  simp only [gattOps, hcb, Bool.true_eq_false, ↓reduceIte]
  have hstep := onFromradioUart_step p s payload
  generalize onFromradioUart p s payload = s' at hstep ⊢
  cases hstep with
  | undecodable hd =>
    have he : protoDecodeFromradio p payload = .error .einval := by simp [protoDecodeFromradio, hd]
    simp only [he]
  | stored info hd hf hv hn => simp [hd, hf, hv, hn, applyOps]
  | closed hf hn =>
    obtain ⟨info, hd, hv⟩ := decodes_of_nonce p hn
    simp [hd, hf, hv, hn, Proxy.goLive]
  | routed info hd h =>
    have hno : ¬ (s.upstream.state = .fetching ∧ info.whichVariant ≠ .packet) := by tauto
    simp only [hd]
    rw [if_neg hno]

theorem toradio_gattOps (s : Proxy κ) (conn : κ) (data : List UInt8) :
    (onToradioBle p s conn data).gatt =
      applyOps p s.cache s.gatt (gattOps p s (.toradioWrite conn data 0)) := by
  simp only [gattOps, onToradioBle, ne_eq, not_true_eq_false, ↓reduceIte]
  cases protoDecodeToradio p data with
  | error e => rfl
  | ok ti =>
    simp only
    split
    · split
      · rfl
      · rw [bleGattParkPending_eq]
    · split
      · rw [bleGattReplyQueuestatus_eq p s.cache]
      · rfl

theorem step_gatt (s : Proxy κ) (e : Event κ) :
    (s.step p e).1.gatt = applyOps p s.cache s.gatt (gattOps p s e) := by
  cases e with
  | connected | disconnected | fromnumRead | txWork | uartTxDone | uartTxAborted =>
    first | rfl | (simp only [Proxy.step]; split <;> rfl)
  | fromradioRead conn len offset =>
    simp only [Proxy.step, gattOps]
    by_cases ho : offset = 0
    · simp only [ho, ↓reduceIte, applyOps, List.foldl_cons, List.foldl_nil, GattOp.apply, fromradioRead]
      split <;> rfl
    · simp only [ho, ↓reduceIte, applyOps, List.foldl_nil, fromradioRead]
      split <;> rfl
  | toradioWrite conn data offset =>
    simp only [Proxy.step, toradioWrite]
    by_cases ho : offset = 0
    · subst ho
      exact toradio_gattOps p s conn data
    · simp [ho, gattOps, applyOps]
  | nodeRegWrite conn data offset =>
    simp only [Proxy.step, gattOps, nodeRegWrite]
    split <;> rfl
  | uartFrame payload =>
    simp only [Proxy.step]
    by_cases hcb : s.fromradioCb = true
    · rw [if_pos hcb]
      exact frame_gattOps p s payload hcb
    · simp [hcb, gattOps, applyOps]
  | keepalive =>
    simp only [Proxy.step]
    split <;> rfl
  | mainStep =>
    simp only [Proxy.step, mainStep]
    cases s.main with
    | uartInit => cases p.uartBringUp <;> rfl
    | setServeCb | start _ | returned => rfl

-- ---------------------------------------------------------------------------
-- The cache and the session
-- ---------------------------------------------------------------------------

theorem parkSession_quiet (s : Proxy κ) (conn : κ) (g : BleGatt κ) :
    Quiet s { s with gatt := g, upstream := parkSession s conn } := by
  unfold parkSession UpstreamSession.enqueuePending
  repeat' split
  all_goals exact ⟨rfl, rfl, rfl, rfl, rfl, rfl⟩

theorem step_quiet (s : Proxy κ) (e : Event κ) (he : ¬ e.IsSession) :
    Quiet s (s.step p e).1 ∧
    ((s.step p e).1.upstream.pending = s.upstream.pending ∨
      ∃ conn data nonce, e = .toradioWrite conn data 0 ∧ wantConfigOf p data = some nonce ∧
        ¬ (s.upstream.state = .cacheReady ∨ s.upstream.state = .live) ∧
        (s.step p e).1.upstream = parkSession s conn) := by
  cases e with
  | uartFrame | mainStep => exact absurd trivial he
  | connected | disconnected | fromnumRead | uartTxDone | uartTxAborted | nodeRegWrite |
    fromradioRead => exact ⟨.of_upstream_eq rfl rfl rfl rfl, .inl rfl⟩
  | txWork failed =>
    simp only [Proxy.step]
    split <;> exact ⟨.of_upstream_eq rfl rfl rfl rfl, .inl rfl⟩
  | keepalive =>
    simp only [Proxy.step]
    split
    · exact ⟨(keepalive_quiet p s).1, .inl (keepalive_quiet p s).2⟩
    · exact ⟨.refl s, .inl rfl⟩
  | toradioWrite conn data offset =>
    simp only [Proxy.step, toradioWrite]
    split
    · exact ⟨.refl s, .inl rfl⟩
    · rename_i ho
      rw [ne_eq, not_not] at ho
      subst ho
      have hstep := onToradioBle_step p s conn data
      generalize onToradioBle p s conn data = s' at hstep ⊢
      cases hstep with
      | forwarded | heartbeat | replayed => exact ⟨.of_upstream_eq rfl rfl rfl rfl, .inl rfl⟩
      | parked nonce hw hs =>
        exact ⟨parkSession_quiet s conn _, .inr ⟨conn, data, nonce, rfl, hw, hs, rfl⟩⟩

/-- What an event does to the session, the cache and the main thread. -/
inductive ProxyStep (s : Proxy κ) : Event κ → Proxy κ → Prop
  | frame (payload : List UInt8) (hcb : s.fromradioCb = true) (h : FrameStep p s payload s') :
      ProxyStep s (.uartFrame payload) s'
  | deaf (payload : List UInt8) (hcb : s.fromradioCb = false) : ProxyStep s (.uartFrame payload) s
  | main (h : MainStep p s s') : ProxyStep s .mainStep s'
  | quiet (he : ¬ e.IsSession) (h : Quiet s s') : ProxyStep s e s'

theorem proxy_step (s : Proxy κ) (e : Event κ) : ProxyStep p s e (s.step p e).1 := by
  by_cases he : e.IsSession
  · cases e with
    | uartFrame payload =>
      by_cases hcb : s.fromradioCb = true
      · simp only [Proxy.step, hcb, ↓reduceIte]
        exact .frame payload hcb (onFromradioUart_step p s payload)
      · simp only [Proxy.step, hcb]
        exact .deaf payload (by simpa using hcb)
    | mainStep => exact .main (mainStep_step p s)
    | _ => exact he.elim
  · exact .quiet he (step_quiet p s e he).1

end MeshProxy

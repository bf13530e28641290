import MeshProxy.Arena
import MeshProxy.SlotOps
import MeshProxy.System
import MeshProxy.TxPath

/-!
# What the proxy is for

The proxy without its storage. A `Phone` is a mailbox, the rest of a replay and
the packet being read; the cache is the list of the frames it took; the uplink
is a list of payloads. There are no rings, buffers, cursors, lengths or publish
flags here. `hubMachine` has the events and the replies of `proxyMachine`, so
the two can be compared step by step.
-/

namespace MeshProxy

variable {κ : Type} (p : Platform)

-- ---------------------------------------------------------------------------
-- Segments of a burst
-- ---------------------------------------------------------------------------

/-- Of the node_infos only the first, which is the node's own. -/
def withOwn : List Frame → List Frame
  | [] => []
  | f :: fs => if f.isNodeInfo then f :: fs.filter fun g => !g.isNodeInfo else f :: withOwn fs

/-- The part of a burst that a want_config with this nonce asks for. -/
def burstFor (fs : List Frame) (nonce : UInt32) : List Frame :=
  let content := fs.filter fun f => f.variant ≠ .configCompleteId
  if nonce = meshNonceOnlyNodes then content.filter Frame.isNodeInfo
  else if nonce = meshNonceOnlyConfig then withOwn content
  else content

-- ---------------------------------------------------------------------------
-- One phone
-- ---------------------------------------------------------------------------

structure Phone (κ : Type) where
  conn : κ
  id : ProxyId := Cells.zero
  fromnum : UInt32 := 0
  phase : PhoneState := .connected
  nonce : UInt32 := 0
  /-- The rest of its replay, the terminator last. -/
  owed : List (List UInt8) := []
  mailbox : List (List UInt8) := []
  /-- The packet that reads past the start go on with. -/
  reading : List UInt8 := []

namespace Phone

def HasRoom (ph : Phone κ) (data : List UInt8) : Prop :=
  data.length ≤ fromradioMaxPktSize ∧ ph.mailbox.length < fromradioQueueDepth

instance (ph : Phone κ) (data : List UInt8) : Decidable (ph.HasRoom data) :=
  inferInstanceAs (Decidable (_ ∧ _))

def post (ph : Phone κ) (data : List UInt8) : Phone κ :=
  { ph with mailbox := ph.mailbox ++ [data], fromnum := ph.fromnum + 1 }

/-- A fresh read: the replay goes first, and its end is an empty packet. -/
def take (ph : Phone κ) : Phone κ :=
  if ph.phase = .replaying then
    match ph.owed with
    | pkt :: owed => { ph with reading := pkt, owed }
    | [] => { ph with reading := [], phase := .active }
  else
    match ph.mailbox with
    | pkt :: mailbox => { ph with reading := pkt, mailbox }
    | [] => { ph with reading := [] }

/-- The nonce 0 stands for the one the phone was parked with. -/
def replay (frames : List Frame) (ph : Phone κ) (nonce : UInt32) : Phone κ :=
  let nonce := if nonce ≠ 0 then nonce else ph.nonce
  { ph with
    nonce, phase := .replaying, fromnum := ph.fromnum + 1
    owed := (burstFor frames nonce).map Frame.bytes ++ [terminator p nonce] }

def park (ph : Phone κ) (nonce : UInt32) : Phone κ := { ph with phase := .pending, nonce, owed := [] }

def answer (ph : Phone κ) (len offset : Nat) : Except AttError (List UInt8) :=
  if ph.reading = [] then .ok [] else p.attrRead len offset ph.reading

end Phone

-- ---------------------------------------------------------------------------
-- The uplink
-- ---------------------------------------------------------------------------

structure Outbox where
  queue : List (List UInt8) := []
  /-- The work item is queued. -/
  wake : Bool := false
  busy : Bool := false
  passed : List (List UInt8) := []
  /-- The frames handed to the driver. -/
  sent : List (List UInt8) := []

namespace Outbox

def Takes (o : Outbox) (payload : List UInt8) : Prop :=
  payload.length ≤ meshtasticMaxPayload ∧ o.queue.length < txQueueDepth

instance (o : Outbox) (payload : List UInt8) : Decidable (o.Takes payload) :=
  inferInstanceAs (Decidable (_ ∧ _))

def pass (o : Outbox) (payload : List UInt8) : Outbox :=
  let o' := { o with passed := o.passed ++ [payload] }
  if o.Takes payload then { o' with queue := o.queue ++ [payload], wake := true } else o'

def run (o : Outbox) (failed : Bool) : Outbox :=
  if o.wake = false then o
  else if o.busy then { o with wake := false }
  else
    match o.queue with
    | [] => { o with wake := false }
    | payload :: queue =>
      { o with queue, sent := o.sent ++ [wireFrame payload], busy := !failed, wake := failed }

def release (o : Outbox) : Outbox := { o with busy := false, wake := true }

end Outbox

-- ---------------------------------------------------------------------------
-- The hub
-- ---------------------------------------------------------------------------

structure Hub (κ : Type) where
  phones : Fin maxBleConnections → Option (Phone κ) := fun _ => none
  frames : List Frame := []
  session : UpstreamState := .boot
  nonce : UInt32 := 0
  /-- The connections to serve when the fetch ends. -/
  waiting : List κ := []
  keepaliveArmed : Bool := false
  keepaliveNonce : UInt32 := 2
  keepalivePending : Bool := false
  outbox : Outbox := {}
  receiving : Bool := false
  main : MainPc := .uartInit
  /-- The FROMNUM notifications so far. -/
  notified : List (κ × UInt32) := []

namespace Hub

def setPhone (h : Hub κ) (i : Fin maxBleConnections) (ph : Option (Phone κ)) : Hub κ :=
  { h with phones := Function.update h.phones i ph }

def notify (h : Hub κ) (conn : κ) (fromnum : UInt32) : Hub κ :=
  { h with notified := h.notified ++ [(conn, fromnum)] }

def pass (h : Hub κ) (payload : List UInt8) : Hub κ := { h with outbox := h.outbox.pass payload }

variable [DecidableEq κ]

def find (h : Hub κ) (conn : κ) : Option (Fin maxBleConnections) :=
  (List.finRange maxBleConnections).find? fun i => (h.phones i).map Phone.conn = some conn

def phone (h : Hub κ) (conn : κ) : Option (Phone κ) := (h.find conn).bind h.phones

def alter (h : Hub κ) (conn : κ) (f : Phone κ → Phone κ) : Hub κ :=
  match h.find conn with
  | none => h
  | some i => h.setPhone i ((h.phones i).map f)

def connect (h : Hub κ) (conn : κ) : Hub κ :=
  match (List.finRange maxBleConnections).find? fun i => (h.phones i).isNone with
  | none => h
  | some i => h.setPhone i (some { conn })

def disconnect (h : Hub κ) (conn : κ) : Hub κ :=
  match h.find conn with
  | none => h
  | some i => h.setPhone i none

def deliver (h : Hub κ) (conn : κ) (data : List UInt8) : Hub κ :=
  match h.phone conn with
  | none => h
  | some ph =>
    if ph.HasRoom data then (h.alter conn (·.post data)).notify conn (ph.fromnum + 1) else h

def broadcast (h : Hub κ) (data : List UInt8) : Hub κ :=
  (List.finRange maxBleConnections).foldl
    (fun h i => match h.phones i with | none => h | some ph => h.deliver ph.conn data) h

def owner (h : Hub κ) (id : ProxyId) : Option κ :=
  if proxyIdIsZero id then none
  else
    (List.finRange maxBleConnections).findSome? fun i =>
      (h.phones i).bind fun ph => if proxyIdEqual ph.id id then some ph.conn else none

def replay (h : Hub κ) (conn : κ) (nonce : UInt32) : Hub κ :=
  match h.phone conn with
  | none => h
  | some ph =>
    (h.alter conn fun ph => ph.replay p h.frames nonce).notify conn (ph.fromnum + 1)

def park (h : Hub κ) (conn : κ) (nonce : UInt32) : Hub κ :=
  match h.phone conn with
  | none => h
  | some _ =>
    let waiting :=
      if conn ∈ h.waiting then h.waiting
      else if configBtMaxConn ≤ h.waiting.length then h.waiting
      else h.waiting ++ [conn]
    { h.alter conn (·.park nonce) with waiting }

/-- The fetch is over: the parked phones get their replay. -/
def goLive (h : Hub κ) : Hub κ :=
  { h.waiting.foldl (fun h conn => h.replay p conn 0) h with session := .live, waiting := [] }

-- ---------------------------------------------------------------------------
-- Events
-- ---------------------------------------------------------------------------

def route (h : Hub κ) (raw : List UInt8) (info : FromradioInfo) : Hub κ :=
  if info.whichVariant ≠ .packet then
    if info.whichVariant = .queueStatus ∧ h.keepalivePending = true then
      { h with keepalivePending := false }
    else h.broadcast raw
  else if info.isDecoded = true ∧ info.portnum = proxyPortnum then
    match (proxyHeaderParse info.payloadBytes).bind fun hdr => h.owner hdr.dst with
    | some conn => h.deliver conn raw
    | none => h.broadcast raw
  else h.broadcast raw

def onFrame (h : Hub κ) (payload : List UInt8) : Hub κ :=
  match protoDecodeFromradio p payload with
  | .error _ => h.broadcast payload
  | .ok info =>
    if h.session = .fetching ∧ info.whichVariant ≠ .packet then
      if decodeConfigCompleteNonce p payload = some h.nonce then h.goLive p
      else { h with frames := store h.frames ⟨payload, info.whichVariant⟩ }
    else h.route payload info

def onWrite (h : Hub κ) (conn : κ) (data : List UInt8) : Hub κ :=
  match protoDecodeToradio p data with
  | .error _ => h.pass data
  | .ok ti =>
    if ti.hasWantConfig then
      if h.session = .live then h.replay p conn ti.wantConfigId else h.park conn ti.wantConfigId
    else if ti.hasHeartbeat then
      match protoEncodeQueueStatus p ccFrameSize with
      | (written, .ok _) => h.deliver conn written
      | (_, .error _) => h
    else h.pass data

def keepalive (h : Hub κ) : Hub κ :=
  if h.keepaliveArmed = false then h
  else
    let h' := { h with keepaliveNonce := keepaliveNextNonce h.keepaliveNonce }
    match protoEncodeHeartbeat p h.keepaliveNonce 16 with
    | (buf, .ok _) => { h'.pass buf with keepalivePending := h.outbox.Takes buf }
    | (_, .error _) => h'

def mainStep (h : Hub κ) : Hub κ :=
  match h.main with
  | .uartInit =>
    { h with
      receiving := true, outbox := { h.outbox with busy := false }
      main := match p.uartBringUp with | .ok () => .setServeCb | .error _ => .returned }
  | .setServeCb => { h with main := .start .pickNonce }
  | .start .pickNonce =>
    let enc := encodeWantConfig p (startNonce p.rand)
    { h with
      nonce := startNonce p.rand
      main := .start (if enc.ok then .cacheBegin enc.written else .done) }
  | .start (.cacheBegin buf) => { h with frames := [], main := .start (.resetPending buf) }
  | .start (.resetPending buf) => { h with waiting := [], main := .start (.tx buf) }
  | .start (.tx buf) =>
    { h.pass buf with main := .start (if h.outbox.Takes buf then .setFetching else .done) }
  | .start .setFetching => { h with session := .fetching, main := .start .armKeepalive }
  | .start .armKeepalive => { h with keepaliveArmed := true, main := .start .done }
  | .start .done | .returned => h

def read (h : Hub κ) (conn : κ) (len offset : Nat) : Hub κ × Except AttError (List UInt8) :=
  match h.phone conn with
  | none => (h, .error .unlikely)
  | some ph =>
    if offset = 0 then (h.alter conn Phone.take, ph.take.answer p len offset)
    else (h, ph.answer p len offset)

def readFromnum (h : Hub κ) (conn : κ) (len offset : Nat) : Except AttError (List UInt8) :=
  match h.phone conn with
  | none => .error .unlikely
  | some ph => p.attrRead len offset (le32 ph.fromnum)

def step (h : Hub κ) : Event κ → Hub κ × Reply
  | .connected conn err => (if err ≠ 0 then h else h.connect conn, .none)
  | .disconnected conn => (h.disconnect conn, .none)
  | .fromnumRead conn len offset => (h, .read (h.readFromnum p conn len offset))
  | .fromradioRead conn len offset =>
    ((h.read p conn len offset).1, .read (h.read p conn len offset).2)
  | .toradioWrite conn data offset =>
    if offset ≠ 0 then (h, .write (.error .invalidOffset))
    else (h.onWrite p conn data, .write (.ok data.length))
  | .nodeRegWrite conn data offset =>
    if offset ≠ 0 ∨ data.length ≠ proxyIdSize then (h, .write (.error .invalidAttributeLen))
    else (h.alter conn fun ph => { ph with id := ProxyId.ofBytes data 0 }, .write (.ok data.length))
  | .uartFrame payload => (if h.receiving then h.onFrame p payload else h, .none)
  | .keepalive => (h.keepalive p, .none)
  | .mainStep => (h.mainStep p, .none)
  | .txWork failed => ({ h with outbox := h.outbox.run failed }, .none)
  | .uartTxDone | .uartTxAborted => ({ h with outbox := h.outbox.release }, .none)

def Enabled (h : Hub κ) : Event κ → Prop
  | .connected conn err => err = 0 → h.find conn = none
  | .uartFrame payload => 1 ≤ payload.length ∧ payload.length ≤ meshtasticMaxPayload
  | _ => True

end Hub

def hubMachine (κ : Type) [DecidableEq κ] : Machine (Hub κ) (Event κ) Reply where
  enabled := Hub.Enabled
  step := Hub.step p

end MeshProxy

import MeshProxy.Downlink
import MeshProxy.Registration

/-!
# Broadcasts that wait

`bt_gatt_notify` waits when the stack is out of buffers, and while the work
queue waits the Bluetooth thread runs. Here the loop of
`ble_gatt_broadcast_fromradio` stops before every slot, and links, writes and
reads of any phone come in between. To a phone that keeps its link the broadcast
of a LIVE proxy still happens at one instant (`broadcast_at_once`), unless its
addressee registers meanwhile.
-/

namespace MeshProxy

variable {κ : Type} (p : Platform)

/-- The proxy, and the packet that the work queue broadcasts with the slots its
loop has yet to visit. -/
structure Broadcasting (κ : Type) where
  proxy : Proxy κ := {}
  pending : Option (List UInt8 × List (Fin maxBleConnections)) := none

inductive TurnEvent (κ : Type)
  | event (e : Event κ)
  /-- The loop goes on to its next slot, or returns after the last. -/
  | turn
  deriving DecidableEq

def Event.onWorkQueue : Event κ → Bool
  | .uartFrame _ | .keepalive | .txWork _ => true
  | _ => false

/-- `on_fromradio_uart` passes the payload to `ble_gatt_broadcast_fromradio`. -/
def Proxy.broadcasts (s : Proxy κ) (payload : List UInt8) : Bool :=
  s.fromradioCb &&
    match protoDecodeFromradio p payload with
    | .error _ => true
    | .ok info => !decide (s.upstream.state = .fetching ∧ info.whichVariant ≠ .packet) &&
        match route s info with
        | .broadcast => true
        | .swallow | .targeted _ => false

def Proxy.startsBroadcast (s : Proxy κ) : Event κ → Option (List UInt8)
  | .uartFrame payload => if s.broadcasts p payload then some payload else none
  | _ => none

theorem broadcasts_congr {s : Proxy κ} {W : κ → Prop} (h : Agree W s.gatt g') (payload : List UInt8) :
    (s.withGatt g').broadcasts p payload = s.broadcasts p payload := by
  simp only [Proxy.broadcasts, h.route]
  rfl

theorem LiveEq.symm {pc pc' : ProxyConn κ} (h : LiveEq pc pc') : LiveEq pc' pc where
  conn := h.conn.symm
  proxyId := h.proxyId.symm
  fromnum := h.fromnum.symm
  state := h.state.symm
  nonce := h.nonce.symm
  replayCursor := h.replayCursor.symm
  ring := h.ring'
  ring' := h.ring
  packets := h.packets.symm
  staged := h.staged.symm
  ccLen hr := (h.ccLen (h.state.symm.trans hr)).symm
  ccFrame hr := by
    have hr' := h.state.symm.trans hr
    rw [h.ccLen hr']
    exact (h.ccFrame hr').symm

def copyAt (g : BleGatt κ) (payload : List UInt8) (i : Fin maxBleConnections) : List (GattOp κ) :=
  (g.conns i).conn.toList.map fun conn => .enqueue conn payload

theorem mem_copyAt {g : BleGatt κ} (h : op ∈ copyAt g payload i) :
    ∃ conn, (g.conns i).conn = some conn ∧ op = .enqueue conn payload := by
  obtain ⟨conn, hconn, rfl⟩ := List.mem_map.mp h
  exact ⟨conn, Option.mem_toList.mp hconn, rfl⟩

theorem copyAt_inner {g : BleGatt κ} (h : op ∈ copyAt g payload i) : op.Inner := by
  obtain ⟨conn, -, rfl⟩ := mem_copyAt h
  trivial

theorem broadcastOps_inner {g : BleGatt κ} (h : op ∈ broadcastOps g data) :
    op.Inner ∧ ∀ conn id, op ≠ .register conn id := by
  obtain ⟨conn, rfl⟩ := mem_broadcastOps h
  exact ⟨trivial, by simp⟩

theorem holds_cleared {id : ProxyId} {g a : BleGatt κ} {pc : ProxyConn κ} (hid : id ≠ Cells.zero)
    (ha : a.conns = Function.update g.conns j (pc.clear conn)) (h : Holds a id i) : Holds g id i := by
  unfold Holds at h
  rw [ha] at h
  by_cases hij : i = j
  · subst hij
    rw [Function.update_self] at h
    exact absurd h.2.symm hid
  · rwa [Function.update_of_ne hij] at h

section
variable [DecidableEq κ]

namespace Broadcasting

def step (w : Broadcasting κ) : TurnEvent κ → Broadcasting κ × Reply
  | .event e =>
    match w.proxy.startsBroadcast p e with
    | some payload => ({ w with pending := some (payload, List.finRange maxBleConnections) }, .none)
    | none => ({ w with proxy := (w.proxy.step p e).1 }, (w.proxy.step p e).2)
  | .turn =>
    match w.pending with
    | none => (w, .none)
    | some (_, []) => ({ w with pending := none }, .none)
    | some (payload, i :: slots) =>
      ({ proxy := w.proxy.withGatt (broadcastSlot payload (w.proxy.gatt, 0) i).1
         pending := some (payload, slots) }, .none)

/-- The work queue starts nothing else while it waits. -/
def Enabled (w : Broadcasting κ) : TurnEvent κ → Prop
  | .event e => w.proxy.Enabled e ∧ (e.onWorkQueue = true → w.pending = none)
  | .turn => w.pending ≠ none

instance (w : Broadcasting κ) : (e : TurnEvent κ) → Decidable (w.Enabled e)
  | .event e =>
    inferInstanceAs (Decidable (w.proxy.Enabled e ∧ (e.onWorkQueue = true → w.pending = none)))
  | .turn => inferInstanceAs (Decidable (w.pending ≠ none))

end Broadcasting

def turnMachine (κ : Type) [DecidableEq κ] : Machine (Broadcasting κ) (TurnEvent κ) Reply where
  enabled := Broadcasting.Enabled
  step := Broadcasting.step p

instance (w : Broadcasting κ) (e : TurnEvent κ) : Decidable ((turnMachine p κ).enabled w e) :=
  inferInstanceAs (Decidable (w.Enabled e))

/-- `fs` takes the events of the run `es` from `w` in their order, but a frame
may come later, while the loop of its broadcast is under way. `owed` is a frame
that has not come yet. -/
inductive Postpones (w : Broadcasting κ) : List (TurnEvent κ) → (fs owed : List (Event κ)) → Prop
  | nil : Postpones w [] [] []
  | both (h : Postpones w es fs owed) (hw : e.onWorkQueue = true → owed = []) :
      Postpones w (es ++ [.event e]) (fs ++ [e]) owed
  | hold (h : Postpones w es fs []) (payload : List UInt8) :
      Postpones w (es ++ [.event (.uartFrame payload)]) fs [.uartFrame payload]
  | turn (h : Postpones w es fs owed) : Postpones w (es ++ [.turn]) fs owed
  | release (h : Postpones w es fs [.uartFrame payload])
      (hloop : ((turnMachine p κ).exec w es).pending = some (payload, slots)) :
      Postpones w es (fs ++ [.uartFrame payload]) []

-- ---------------------------------------------------------------------------
-- A broadcast that does not wait
-- ---------------------------------------------------------------------------

theorem broadcastSlot_ops (cache : ConfigCache) (g : BleGatt κ) (data : List UInt8) (n : Nat)
    (i : Fin maxBleConnections) :
    (broadcastSlot data (g, n) i).1 = applyOps p cache g (copyAt g data i) := by
  have h := broadcast_foldl p cache data [i] g n
  rw [List.foldl_cons, List.foldl_nil] at h
  rw [h]
  cases hc : (g.conns i).conn <;> simp [copyAt, hc]

theorem broadcasts_step {s : Proxy κ} (h : s.broadcasts p payload = true) :
    (s.step p (.uartFrame payload)).1 =
      s.withGatt (applyOps p s.cache s.gatt (broadcastOps s.gatt payload)) := by
  unfold Proxy.broadcasts at h
  cases hcb : s.fromradioCb with
  | false => simp [hcb] at h
  | true =>
    simp only [hcb, Bool.true_and] at h
    simp only [Proxy.step, hcb, ↓reduceIte]
    have hstep := onFromradioUart_step p s payload
    generalize onFromradioUart p s payload = s' at hstep ⊢
    cases hstep with
    | undecodable hd => rfl
    | stored info hd hf hv hn => simp [hd, hf, hv] at h
    | closed hf hn =>
      obtain ⟨info, hd, hv⟩ := decodes_of_nonce p hn
      simp [hd, hf, hv] at h
    | routed info hd hlive =>
      simp only [hd] at h
      cases hr : route s info with
      | broadcast => rfl
      | swallow | targeted conn => simp [hr] at h

theorem exec_turns (s : Proxy κ) (payload : List UInt8) (n : Nat) (slots : List (Fin maxBleConnections)) :
    (turnMachine p κ).exec ⟨s, some (payload, slots)⟩ (List.replicate (slots.length + 1) .turn) =
      ⟨s.withGatt (slots.foldl (broadcastSlot payload) (s.gatt, n)).1, none⟩ := by
  induction slots generalizing s n with
  | nil => rfl
  | cons i slots ih =>
    have hslot : (broadcastSlot payload (s.gatt, 0) i).1 = (broadcastSlot payload (s.gatt, n) i).1 := by
      rw [broadcastSlot_ops p s.cache, broadcastSlot_ops p s.cache]
    have hnext : (turnMachine p κ).next ⟨s, some (payload, i :: slots)⟩ .turn =
        ⟨s.withGatt (broadcastSlot payload (s.gatt, n) i).1, some (payload, slots)⟩ := by
      rw [← hslot]
      rfl
    rw [List.length_cons, List.replicate_succ, Machine.exec_cons, hnext,
      ih _ (broadcastSlot payload (s.gatt, n) i).2]
    rfl

theorem broadcast_uninterrupted {s : Proxy κ} (h : s.broadcasts p payload = true) :
    (turnMachine p κ).exec ⟨s, none⟩
        (.event (.uartFrame payload) :: List.replicate (maxBleConnections + 1) .turn) =
      ⟨(s.step p (.uartFrame payload)).1, none⟩ := by
  have hstart : (turnMachine p κ).next ⟨s, none⟩ (.event (.uartFrame payload)) =
      ⟨s, some (payload, List.finRange maxBleConnections)⟩ := by
    simp [Machine.next, turnMachine, Broadcasting.step, Proxy.startsBroadcast, h]
  have hloop := exec_turns p s payload 0 (List.finRange maxBleConnections)
  rw [List.length_finRange] at hloop
  rw [Machine.exec_cons, hstart, hloop, broadcasts_step p h, ← broadcast_ops]
  rfl

-- ---------------------------------------------------------------------------
-- A packet to broadcast stays one
-- ---------------------------------------------------------------------------

variable {id : ProxyId}

theorem holds_apply {cache : ConfigCache} {g : BleGatt κ} {op : GattOp κ} (hop : op.Inner)
    (hreg : ∀ conn, op ≠ .register conn id) (h : Holds (op.apply p cache g) id i) : Holds g id i := by
  obtain ⟨hconn, hid⟩ := h
  rw [apply_inner_conn p cache g hop] at hconn
  refine ⟨hconn, ?_⟩
  obtain ⟨conn, j, -, -, ha⟩ | ⟨-, ha⟩ := apply_inner p cache g hop
  · rw [ha, setSlot_conns] at hid
    by_cases hij : i = j
    · subst hij
      rw [Function.update_self] at hid
      cases op with
      | register conn' id' =>
        have hid' : id' = id := hid
        exact absurd (hid' ▸ rfl) (hreg conn')
      | _ => rwa [onSlot_proxyId p cache _ (by simp)] at hid
    · rwa [Function.update_of_ne hij] at hid
  · rwa [ha] at hid

theorem holds_applyOps {cache : ConfigCache} {g : BleGatt κ} {ops : List (GattOp κ)}
    (hops : ∀ op ∈ ops, op.Inner ∧ ∀ conn, op ≠ .register conn id)
    (h : Holds (applyOps p cache g ops) id i) : Holds g id i := by
  induction ops generalizing g with
  | nil => exact h
  | cons op ops ih =>
    obtain ⟨hin, hreg⟩ := hops op List.mem_cons_self
    exact holds_apply p hin hreg (ih (fun op' hop' => hops op' (List.mem_cons_of_mem op hop')) h)

variable {s : Proxy κ} {e : Event κ}

theorem holds_step (hid : id ≠ Cells.zero)
    (hreg : ∀ conn data offset, e = .nodeRegWrite conn data offset → regId data offset ≠ some id)
    (h : Holds (s.step p e).1.gatt id i) : Holds s.gatt id i := by
  by_cases hl : e.IsLink
  · cases e with
    | connected conn err =>
      have h' : Holds (onConnected s.gatt conn err) id i := h
      obtain ⟨j, -, -, ha⟩ | ⟨-, ha⟩ := onConnected_conns s.gatt conn err
      · exact holds_cleared hid ha h'
      · unfold Holds at h' ⊢
        rwa [ha] at h'
    | disconnected conn =>
      have h' : Holds (onDisconnected s.gatt conn) id i := h
      obtain ⟨j, -, ha⟩ | ⟨-, ha⟩ := onDisconnected_conns s.gatt conn
      · exact holds_cleared hid ha h'
      · unfold Holds at h' ⊢
        rwa [ha] at h'
    | _ => exact hl.elim
  · rw [step_gatt] at h
    refine holds_applyOps p (fun op hop => ⟨(gattOps_stepOp p s e hl hop).inner, ?_⟩) h
    rintro conn rfl
    have hstep := gattOps_stepOp p s e hl hop
    cases hstep with
    | register _ data _ =>
      refine hreg conn data 0 rfl ?_
      have hset : data.length = proxyIdSize ∧ id = ProxyId.ofBytes data 0 := by
        simpa [gattOps] using hop
      simp [regId, hset.1, hset.2]

theorem getConn_step (hreg : ∀ conn data offset, e = .nodeRegWrite conn data offset →
    regId data offset ≠ some id) (h : bleGattGetConnByProxyId s.gatt id = none) :
    bleGattGetConnByProxyId (s.step p e).1.gatt id = none := by
  rw [getConnByProxyId_none] at h ⊢
  by_cases hz : id = Cells.zero
  · exact .inl hz
  · obtain hz' | hno := h
    · exact absurd hz' hz
    · exact .inr fun i hi => hno i (holds_step p hz hreg hi)

theorem step_flags (hw : e.onWorkQueue = false) (hcb : s.fromradioCb = true) :
    (s.step p e).1.upstream.keepalivePending = s.upstream.keepalivePending ∧
      (s.step p e).1.fromradioCb = true := by
  cases e with
  | uartFrame | keepalive | txWork => cases hw
  | toradioWrite conn data offset =>
    simp only [Proxy.step, toradioWrite]
    split
    · exact ⟨rfl, hcb⟩
    · have hstep := onToradioBle_step p s conn data
      generalize onToradioBle p s conn data = s' at hstep ⊢
      cases hstep with
      | forwarded | heartbeat | replayed => exact ⟨rfl, hcb⟩
      | parked =>
        refine ⟨?_, hcb⟩
        simp only [parkSession, UpstreamSession.enqueuePending]
        repeat' split
        all_goals rfl
  | mainStep =>
    have hstep := mainStep_step p s
    simp only [Proxy.step]
    generalize mainStep p s = s' at hstep ⊢
    cases hstep with
    | uartUp | uartFailed => exact ⟨rfl, rfl⟩
    | _ => exact ⟨rfl, hcb⟩
  | _ => exact ⟨rfl, hcb⟩

theorem route_step (info : FromradioInfo) (hp : (s.step p e).1.upstream.keepalivePending =
      s.upstream.keepalivePending)
    (hreg : ∀ hdr, info.proxyHeader = some hdr → ∀ conn data offset,
      e = .nodeRegWrite conn data offset → regId data offset ≠ some hdr.dst)
    (h : route s info = .broadcast) : route (s.step p e).1 info = .broadcast := by
  unfold route at h ⊢
  rw [hp]
  by_cases hv : info.whichVariant ≠ .packet
  · rw [if_pos hv] at h ⊢
    exact h
  · rw [if_neg hv] at h ⊢
    by_cases hd : info.isDecoded = true ∧ info.portnum = proxyPortnum
    · rw [if_pos hd] at h ⊢
      cases hparse : proxyHeaderParse info.payloadBytes with
      | none => rfl
      | some hdr =>
        have hhdr : info.proxyHeader = some hdr := by
          rw [FromradioInfo.proxyHeader, if_pos ⟨not_not.mp hv, hd⟩, hparse]
        have hnone : bleGattGetConnByProxyId s.gatt hdr.dst = none := by
          cases hc : bleGattGetConnByProxyId s.gatt hdr.dst with
          | none => rfl
          | some conn => simp [hparse, hc] at h
        simp [getConn_step p (hreg hdr hhdr) hnone]
    · rw [if_neg hd]

theorem broadcasts_kept (hw : e.onWorkQueue = false) (hphase : Phase s)
    (hl : s.upstream.state = .live)
    (hreg : ∀ hdr, proxyHeaderOf p payload = some hdr → ∀ conn data offset,
      e = .nodeRegWrite conn data offset → regId data offset ≠ some hdr.dst)
    (h : s.broadcasts p payload = true) : (s.step p e).1.broadcasts p payload = true := by
  unfold Proxy.broadcasts at h ⊢
  obtain ⟨hcb, h⟩ := Bool.and_eq_true_iff.mp h
  obtain ⟨hpending, hcb'⟩ := step_flags p hw hcb
  rw [hcb', Bool.true_and]
  cases hd : protoDecodeFromradio p payload with
  | error err => rfl
  | ok info =>
    have hlive' := step_live p hphase hl e
    simp only [hd] at h
    simp only [hlive', reduceCtorEq, false_and, decide_false, Bool.not_false, Bool.true_and]
    have hroute : route s info = .broadcast := by
      cases hr : route s info with
      | broadcast => rfl
      | swallow | targeted conn => simp [hr] at h
    have hkept := route_step p info hpending
      (fun hdr hhdr => hreg hdr (by simpa [proxyHeaderOf, hd] using hhdr)) hroute
    rw [hkept]

-- ---------------------------------------------------------------------------
-- One phone's share of a broadcast
-- ---------------------------------------------------------------------------

variable {g g' : BleGatt κ} {cache : ConfigCache} {c : κ}

theorem SameView.symm (h : SameView c g g') : SameView c g' g where
  agree :=
    { conn i := (h.agree.conn i).symm
      proxyId i hi := (h.agree.proxyId i (h.agree.conn i ▸ hi)).symm
      live i conn hi hc := (h.agree.live i conn ((h.agree.conn i).symm.trans hi) hc).symm }
  notified := h.notified.symm

theorem SameView.own {ops : List (GattOp κ)} (h : SameView c g g')
    (hops : ∀ op ∈ ops, op.Inner ∧ ∀ conn id, op ≠ .register conn id) :
    SameView c (MeshProxy.applyOps p cache g (opsFor c ops)) (MeshProxy.applyOps p cache g' ops) := by
  induction ops generalizing g g' with
  | nil => exact h
  | cons op ops ih =>
    obtain ⟨hin, hreg⟩ := hops op List.mem_cons_self
    have hrest := fun op' hop' => hops op' (List.mem_cons_of_mem op hop')
    by_cases ht : op.target = some c
    · have hown : opsFor c (op :: ops) = op :: opsFor c ops := by simp [opsFor, ht]
      rw [hown]
      exact ih (h.apply hin) hrest
    · have hown : opsFor c (op :: ops) = opsFor c ops := by simp [opsFor, ht]
      rw [hown]
      exact ih (h.symm.left hin ht hreg).symm hrest

theorem opsFor_broadcast_none (hno : ∀ i, (g.conns i).conn ≠ some c) (data : List UInt8) :
    opsFor c (MeshProxy.broadcastOps g data) = [] :=
  opsFor_copies_none (fun i _ => hno i) data

theorem step_keeps_conn (hstay : e ≠ .disconnected c) (h : (s.gatt.conns i).conn = some c) :
    ((s.step p e).1.gatt.conns i).conn = some c := by
  obtain hsame | ⟨conn, -, hold, -⟩ | ⟨conn, rfl, hold, -⟩ := step_conn_cases p s e i
  · exact hsame.trans h
  · rw [h] at hold
    cases hold
  · obtain rfl : c = conn := Option.some.inj (h.symm.trans hold)
    exact absurd rfl hstay

theorem step_conn_before (h : ((s.step p e).1.gatt.conns i).conn = some c) :
    (s.gatt.conns i).conn = some c ∨ e = .connected c 0 := by
  obtain hsame | ⟨conn, rfl, -, hnew⟩ | ⟨conn, -, -, hnew⟩ := step_conn_cases p s e i
  · exact .inl (hsame.symm.trans h)
  · obtain rfl : conn = c := Option.some.inj (hnew.symm.trans h)
    exact .inr rfl
  · rw [h] at hnew
    cases hnew

-- ---------------------------------------------------------------------------
-- The loop and the single step
-- ---------------------------------------------------------------------------

variable {s' : Proxy κ}

theorem Beside.enabled (h : Beside p c s s') (he : s.Enabled e) : s'.Enabled e := by
  cases e with
  | connected conn err =>
    intro h0
    rw [h.view.agree.findSlot]
    exact he h0
  | uartFrame => exact he
  | _ => trivial

theorem Beside.withGatt (h : Beside p c s s') (hq : QsOk p g) (hv : SameView c g s'.gatt) :
    Beside p c (s.withGatt g) s' where
  rest := h.rest
  live := h.live
  phase := ⟨h.phase.ready_iff, h.phase.settled, h.phase.early, h.phase.started, h.phase.fetched⟩
  qs := hq
  qs' := h.qs'
  view := hv

theorem Beside.broadcasts (h : Beside p c s s') (hb : s.broadcasts p payload = true) :
    s'.broadcasts p payload = true := by
  rw [h.rest, broadcasts_congr p h.view.agree]
  exact hb

theorem Beside.broadcastOps (h : Beside p c s s') (data : List UInt8) :
    MeshProxy.broadcastOps s'.gatt data = MeshProxy.broadcastOps s.gatt data := by
  simp [MeshProxy.broadcastOps, h.view.agree.conn]

theorem QsOk.enqueues {ops : List (GattOp κ)} (h : QsOk p g)
    (hops : ∀ op ∈ ops, ∃ conn data, op = .enqueue conn data) :
    QsOk p (MeshProxy.applyOps p cache g ops) := by
  refine h.applyOps p fun op hop => ?_
  obtain ⟨conn, data, rfl⟩ := hops op hop
  exact ⟨trivial, by simp [GattOp.target]⟩

theorem Beside.frame (h : Beside p c s s') (hb : s.broadcasts p payload = true) :
    Beside p c
      (s.withGatt (applyOps p s.cache s.gatt (opsFor c (MeshProxy.broadcastOps s.gatt payload))))
      (s'.step p (.uartFrame payload)).1 := by
  have hops (op : GattOp κ) (hop : op ∈ opsFor c (MeshProxy.broadcastOps s.gatt payload)) :
      ∃ conn data, op = .enqueue conn data := by
    obtain ⟨conn, rfl⟩ := mem_broadcastOps (mem_opsFor.mp hop).1
    exact ⟨conn, payload, rfl⟩
  have hcache : s'.cache = s.cache := by rw [h.rest]; rfl
  have hstep := broadcasts_step p (h.broadcasts p hb)
  rw [h.broadcastOps p, hcache] at hstep
  have hq' := h.qs'.step p (.uartFrame payload)
  rw [hstep] at hq' ⊢
  refine ⟨?_, h.live, ?_, h.qs.enqueues p hops, hq', ?_⟩
  · rw [h.rest]
    rfl
  · exact ⟨h.phase.ready_iff, h.phase.settled, h.phase.early, h.phase.started, h.phase.fetched⟩
  · exact h.view.own p fun op hop => broadcastOps_inner hop

/-- How far the single steps are behind the loop. The step of the broadcast is
owed as long as the loop has not come to a slot of `c`. -/
def Owed (c : κ) (w : Broadcasting κ) (owed : List (Event κ)) : Prop :=
  match w.pending with
  | none => owed = []
  | some (payload, slots) =>
    w.proxy.broadcasts p payload = true ∧ w.proxy.Enabled (.uartFrame payload) ∧ slots.Nodup ∧
      (owed = [.uartFrame payload] ∧ (∀ i, (w.proxy.gatt.conns i).conn = some c → i ∈ slots) ∨
        owed = [] ∧ ∃ i, (w.proxy.gatt.conns i).conn = some c ∧ i ∉ slots)

structure Behind (c : κ) (w : Broadcasting κ) (s' : Proxy κ) (owed : List (Event κ)) : Prop where
  beside : Beside p c w.proxy s'
  distinct : Distinct w.proxy.gatt
  owed : Owed p c w owed

def Broadcasting.ownReads (c : κ) (w : Broadcasting κ) : TurnEvent κ → List Reply
  | .event e => MeshProxy.ownReads p c w.proxy e
  | .turn => []

/-- The event does not register the addressee of the packet that waits. -/
def Broadcasting.Unclaimed (w : Broadcasting κ) : TurnEvent κ → Prop
  | .event (.nodeRegWrite _ data offset) =>
    match w.pending with
    | some (payload, _) => ∀ hdr ∈ proxyHeaderOf p payload, regId data offset ≠ some hdr.dst
    | none => True
  | _ => True

/-- The single steps `es` answer the event `e`. -/
structure Answers (c : κ) (w : Broadcasting κ) (s' : Proxy κ) (owed : List (Event κ))
    (e : TurnEvent κ) (es owed' : List (Event κ)) : Prop where
  admits : (proxyMachine p κ).Admits s' es
  behind : Behind p c (w.step p e).1 ((proxyMachine p κ).exec s' es) owed'
  order : ∀ w₀ before single, (turnMachine p κ).exec w₀ before = w →
    Postpones p w₀ before single owed → Postpones p w₀ (before ++ [e]) (single ++ es) owed'
  reads : (proxyMachine p κ).collect (ownReads p c) s' es = w.ownReads p c e

variable {w : Broadcasting κ} {owed : List (Event κ)}

theorem Behind.start (h : Behind p c w s' owed) (he : w.Enabled (.event e))
    (hs : w.proxy.startsBroadcast p e = some payload) :
    Answers p c w s' owed (.event e) [] [.uartFrame payload] := by
  obtain ⟨rfl, hb⟩ : e = .uartFrame payload ∧ w.proxy.broadcasts p payload = true := by
    cases e with
    | uartFrame payload' =>
      simp only [Proxy.startsBroadcast] at hs
      split at hs
      · rename_i hb
        obtain rfl : payload' = payload := Option.some.inj hs
        exact ⟨rfl, hb⟩
      · cases hs
    | _ => cases hs
  have hidle : w.pending = none := he.2 rfl
  have howed : owed = [] := by
    have h' := h.owed
    rwa [Owed, hidle] at h'
  have hstep : w.step p (.event (.uartFrame payload)) =
      ({ w with pending := some (payload, List.finRange maxBleConnections) }, .none) := by
    simp [Broadcasting.step, hs]
  subst howed
  refine ⟨trivial, ?_, fun w₀ before single _ ho => ?_, rfl⟩
  swap
  · rw [List.append_nil]
    exact ho.hold payload
  rw [hstep]
  exact ⟨h.beside, h.distinct, hb, he.1, List.nodup_finRange _,
    .inl ⟨rfl, fun i _ => List.mem_finRange i⟩⟩

theorem step_event (hs : w.proxy.startsBroadcast p e = none) :
    (w.step p (.event e)).1 = { w with proxy := (w.proxy.step p e).1 } := by
  simp [Broadcasting.step, hs]

theorem Behind.both (h : Behind p c w s' owed) (he : w.Enabled (.event e))
    (hs : w.proxy.startsBroadcast p e = none) (hw : e.onWorkQueue = true → owed = [])
    (ho : Owed p c { w with proxy := (w.proxy.step p e).1 } owed) :
    Answers p c w s' owed (.event e) [e] owed := by
  obtain ⟨hbeside, hreads⟩ := h.beside.keep p e
  refine ⟨⟨h.beside.enabled p he.1, trivial⟩, ?_, fun _ _ _ _ ho => ho.both hw, ?_⟩
  · rw [step_event p hs]
    exact ⟨hbeside, step_distinct p h.distinct he.1, ho⟩
  · rw [Machine.collect_cons, hreads]
    exact List.append_nil _

theorem Behind.catchUp (h : Behind p c w s' [.uartFrame payload]) (he : w.Enabled (.event e))
    (hs : w.proxy.startsBroadcast p e = none) (hb : w.proxy.broadcasts p payload = true)
    (hsized : w.proxy.Enabled (.uartFrame payload)) (hloop : w.pending = some (payload, slots))
    (hno : ∀ i, (w.proxy.gatt.conns i).conn ≠ some c)
    (ho : Owed p c { w with proxy := (w.proxy.step p e).1 } []) :
    Answers p c w s' [.uartFrame payload] (.event e) [.uartFrame payload, e] [] := by
  have hframe := h.beside.frame p hb
  rw [opsFor_broadcast_none hno] at hframe
  have hframe' : Beside p c w.proxy (s'.step p (.uartFrame payload)).1 := hframe
  obtain ⟨hbeside, hreads⟩ := hframe'.keep p e
  refine ⟨⟨hsized, hframe'.enabled p he.1, trivial⟩, ?_, fun w₀ before single hw ho => ?_, ?_⟩
  · rw [step_event p hs]
    exact ⟨hbeside, step_distinct p h.distinct he.1, ho⟩
  · rw [show single ++ [.uartFrame payload, e] = single ++ [.uartFrame payload] ++ [e] by simp]
    exact (ho.release ((congrArg (·.pending) hw).trans hloop)).both fun _ => rfl
  · rw [Machine.collect_cons, Machine.collect_cons]
    exact (congrArg (· ++ []) hreads).trans (List.append_nil _)

theorem Behind.event (h : Behind p c w s' owed) (he : w.Enabled (.event e))
    (hs : w.proxy.startsBroadcast p e = none) (hstay : e ≠ .disconnected c)
    (hun : w.Unclaimed p (.event e)) :
    ∃ es owed', Answers p c w s' owed (.event e) es owed' := by
  cases hp : w.pending with
  | none =>
    have howed : owed = [] := by
      have h' := h.owed
      rwa [Owed, hp] at h'
    refine ⟨_, _, h.both p he hs (fun _ => howed) ?_⟩
    rw [Owed, hp]
    exact howed
  | some loop =>
    obtain ⟨payload, slots⟩ := loop
    have hw : e.onWorkQueue = false := by
      rw [Bool.eq_false_iff]
      intro hq
      rw [he.2 hq] at hp
      cases hp
    have howed := h.owed
    rw [Owed, hp] at howed
    obtain ⟨hb, hsized, hnodup, howed⟩ := howed
    have hb' : (w.proxy.step p e).1.broadcasts p payload = true := by
      refine broadcasts_kept p hw h.beside.phase h.beside.live (fun hdr hhdr => ?_) hb
      rintro conn data offset rfl
      have hun' := hun
      simp only [Broadcasting.Unclaimed, hp] at hun'
      exact hun' hdr hhdr
    obtain ⟨rfl, hahead⟩ | ⟨rfl, i, hi, hpassed⟩ := howed
    · by_cases hnew : ∃ i, ((w.proxy.step p e).1.gatt.conns i).conn = some c ∧ i ∉ slots
      · -- `c` has come to a slot the loop has passed, so it misses the broadcast
        obtain ⟨i, hi, hpassed⟩ := hnew
        have hno : ∀ j, (w.proxy.gatt.conns j).conn ≠ some c := by
          obtain hold | rfl := step_conn_before p hi
          · exact absurd (hahead i hold) hpassed
          · exact findSlot_eq_none.mp (he.1 rfl)
        refine ⟨_, _, h.catchUp p he hs hb hsized hp hno ?_⟩
        rw [Owed, hp]
        exact ⟨hb', hsized, hnodup, .inr ⟨rfl, i, hi, hpassed⟩⟩
      · refine ⟨_, _, h.both p he hs (fun hq => absurd (hw.symm.trans hq) (by simp)) ?_⟩
        rw [Owed, hp]
        refine ⟨hb', hsized, hnodup, .inl ⟨rfl, fun i hi => ?_⟩⟩
        by_contra hpassed
        exact hnew ⟨i, hi, hpassed⟩
    · refine ⟨_, _, h.both p he hs (fun _ => rfl) ?_⟩
      rw [Owed, hp]
      exact ⟨hb', hsized, hnodup, .inr ⟨rfl, i, step_keeps_conn p hstay hi, hpassed⟩⟩

theorem copyAt_agree (cache : ConfigCache) (g : BleGatt κ) (payload : List UInt8)
    (i : Fin maxBleConnections) :
    Agree (fun _ => False) g (applyOps p cache g (copyAt g payload i)) where
  conn := applyOps_conn p cache (fun _ hop => copyAt_inner hop) g
  proxyId j _ := by
    unfold copyAt
    cases (g.conns i).conn with
    | none => rfl
    | some conn =>
      have hin : (GattOp.enqueue conn payload).Inner := trivial
      show ((GattOp.apply p cache g (.enqueue conn payload)).conns j).proxyId = _
      obtain ⟨_, k, -, -, ha⟩ | ⟨-, ha⟩ := apply_inner p cache g hin
      · rw [ha, setSlot_conns]
        by_cases hjk : j = k
        · subst hjk
          rw [Function.update_self, onSlot_proxyId p cache _ (by simp)]
        · rw [Function.update_of_ne hjk]
      · rw [ha]
  live _ _ _ h := h.elim

theorem step_turn {s : Proxy κ} :
    (Broadcasting.step p ⟨s, some (payload, i :: slots)⟩ .turn).1 =
      ⟨s.withGatt (applyOps p s.cache s.gatt (copyAt s.gatt payload i)), some (payload, slots)⟩ := by
  rw [← broadcastSlot_ops p s.cache s.gatt payload 0 i]
  rfl

theorem Behind.finish {s : Proxy κ} (h : Behind p c ⟨s, some (payload, [])⟩ s' owed) :
    ∃ es owed', Answers p c ⟨s, some (payload, [])⟩ s' owed .turn es owed' := by
  obtain ⟨hb, hsized, -, ⟨rfl, hahead⟩ | ⟨rfl, -⟩⟩ := h.owed
  · have hno : ∀ i, (s.gatt.conns i).conn ≠ some c := fun i hi => by
      cases hahead i hi
    have hframe := h.beside.frame p hb
    rw [opsFor_broadcast_none hno] at hframe
    exact ⟨[.uartFrame payload], [], ⟨hsized, trivial⟩, ⟨hframe, h.distinct, rfl⟩,
      fun _ _ _ hw ho => (ho.release (congrArg (·.pending) hw)).turn, rfl⟩
  · refine ⟨[], [], trivial, ⟨h.beside, h.distinct, rfl⟩, fun _ _ single _ ho => ?_, rfl⟩
    exact single.append_nil.symm ▸ ho.turn

/-- The loop comes to the slot of `c`: the single step is due. -/
theorem Behind.arrive {s : Proxy κ} (h : Behind p c ⟨s, some (payload, i :: slots)⟩ s' owed)
    (hc : (s.gatt.conns i).conn = some c) :
    ∃ es owed', Answers p c ⟨s, some (payload, i :: slots)⟩ s' owed .turn es owed' := by
  obtain ⟨hb, hsized, hnodup, howed⟩ := h.owed
  obtain ⟨hi, hnodup'⟩ := List.nodup_cons.mp hnodup
  obtain ⟨rfl, -⟩ | ⟨-, j, hj, hpassed⟩ := howed
  · have hown : opsFor c (MeshProxy.broadcastOps s.gatt payload) = copyAt s.gatt payload i := by
      rw [opsFor_broadcast h.distinct (h.distinct.slotOf_eq.mpr ⟨i, hc, rfl⟩), copyAt, hc]
      rfl
    have hframe := h.beside.frame p hb
    rw [hown] at hframe
    have hagree := copyAt_agree p s.cache s.gatt payload i
    refine ⟨[.uartFrame payload], [], ⟨hsized, trivial⟩, ?_,
      fun _ _ _ hw ho => (ho.release (congrArg (·.pending) hw)).turn, rfl⟩
    rw [step_turn]
    exact ⟨hframe, h.distinct.applyOps p fun _ hop => copyAt_inner hop,
      (broadcasts_congr p hagree payload).trans hb, hsized, hnodup',
      .inr ⟨rfl, i, (hagree.conn i).trans hc, hi⟩⟩
  · exact absurd (h.distinct i j c hc hj ▸ List.mem_cons_self) hpassed

theorem Behind.pass {s : Proxy κ} (h : Behind p c ⟨s, some (payload, i :: slots)⟩ s' owed)
    (hc : (s.gatt.conns i).conn ≠ some c) :
    Answers p c ⟨s, some (payload, i :: slots)⟩ s' owed .turn [] owed := by
  obtain ⟨hb, hsized, hnodup, howed⟩ := h.owed
  have hagree := copyAt_agree p s.cache s.gatt payload i
  refine ⟨trivial, ?_, fun _ _ single _ ho => single.append_nil.symm ▸ ho.turn, rfl⟩
  rw [step_turn]
  refine ⟨?_, h.distinct.applyOps p fun _ hop => copyAt_inner hop,
    (broadcasts_congr p hagree payload).trans hb, hsized, (List.nodup_cons.mp hnodup).2, ?_⟩
  · refine h.beside.withGatt p (h.beside.qs.enqueues p fun op hop => ?_)
      (h.beside.view.leftOps fun op hop => ?_)
    · obtain ⟨conn, -, rfl⟩ := mem_copyAt hop
      exact ⟨conn, payload, rfl⟩
    · obtain ⟨conn, hconn, rfl⟩ := mem_copyAt hop
      refine ⟨trivial, ?_, by simp⟩
      rintro ⟨⟩
      exact hc hconn
  · obtain ⟨rfl, hahead⟩ | ⟨rfl, j, hj, hpassed⟩ := howed
    · refine .inl ⟨rfl, fun j hj => ?_⟩
      have hj' := (hagree.conn j).symm.trans hj
      obtain rfl | hm := List.mem_cons.mp (hahead j hj')
      · exact absurd hj' hc
      · exact hm
    · exact .inr ⟨rfl, j, (hagree.conn j).trans hj, fun hm => hpassed (List.mem_cons_of_mem _ hm)⟩

theorem Behind.turn (h : Behind p c w s' owed) (he : w.Enabled .turn) :
    ∃ es owed', Answers p c w s' owed .turn es owed' := by
  obtain ⟨s, pending⟩ := w
  cases pending with
  | none => exact absurd rfl he
  | some loop =>
    obtain ⟨payload, slots⟩ := loop
    cases slots with
    | nil => exact h.finish p
    | cons i slots =>
      by_cases hc : (s.gatt.conns i).conn = some c
      · exact h.arrive p hc
      · exact ⟨[], owed, h.pass p hc⟩

theorem Behind.step {e : TurnEvent κ} (h : Behind p c w s' owed) (he : w.Enabled e)
    (hstay : e ≠ .event (.disconnected c)) (hun : w.Unclaimed p e) :
    ∃ es owed', Answers p c w s' owed e es owed' := by
  cases e with
  | turn => exact h.turn p he
  | event e =>
    cases hs : w.proxy.startsBroadcast p e with
    | some payload => exact ⟨_, _, h.start p he hs⟩
    | none => exact h.event p he hs (fun heq => hstay (heq ▸ rfl)) hun

-- ---------------------------------------------------------------------------
-- Whole runs
-- ---------------------------------------------------------------------------

theorem behind_start (hr : s.Reachable p) (hl : s.upstream.state = .live) (c : κ) :
    Behind p c ⟨s, none⟩ s [] := by
  have hinv := inv_reachable p hr
  have hqs := qsOk_reachable p hr
  refine ⟨⟨rfl, hl, hinv.phase, hqs, hqs, ⟨fun _ => rfl, fun _ _ => rfl, fun i conn hi _ => ?_⟩, rfl⟩,
    hinv.distinct, rfl⟩
  exact .refl (hinv.slots conn _ (hinv.distinct.slotOf_eq.mpr ⟨i, hi, rfl⟩)).ring

/-- The two runs from `w₀`, with what they have read so far. -/
def Trails (c : κ) (w₀ : Broadcasting κ) (es : List (TurnEvent κ)) (fs : List (Event κ))
    (w : Broadcasting κ) (s' : Proxy κ) : Prop :=
  (turnMachine p κ).exec w₀ es = w ∧ ∃ owed, Behind p c w s' owed ∧ Postpones p w₀ es fs owed

theorem Trails.step {es : List (TurnEvent κ)} {fs : List (Event κ)} {e : TurnEvent κ}
    (he : w.Enabled e ∧ e ≠ .event (.disconnected c) ∧ w.Unclaimed p e)
    (h : Trails p c w₀ es fs w s') : ∃ es', (proxyMachine p κ).Admits s' es' ∧
      Trails p c w₀ (es ++ [e]) (fs ++ es') ((turnMachine p κ).next w e)
        ((proxyMachine p κ).exec s' es') ∧
      (proxyMachine p κ).collect (ownReads p c) s' es' = w.ownReads p c e := by
  obtain ⟨rfl, owed, hbehind, horder⟩ := h
  obtain ⟨es', owed', ha⟩ := hbehind.step p he.1 he.2.1 he.2.2
  exact ⟨es', ha.admits,
    ⟨Machine.exec_append _ _ _ _, owed', ha.behind, ha.order _ _ _ rfl horder⟩, ha.reads⟩

/-- From a LIVE state on, and whatever comes in while broadcasts wait, a phone
that keeps its link reads and is notified as in a run in which every frame is
handled in a single step. That run takes the same events, a frame at the latest
when the loop of its broadcast returns, and ends in the same state but for the
other phones' queues and sessions. -/
theorem broadcast_at_once (hr : s.Reachable p) (hl : s.upstream.state = .live) (c : κ)
    (es : List (TurnEvent κ)) (ha : (turnMachine p κ).Admits ⟨s, none⟩ es)
    (hstay : ∀ e ∈ es, e ≠ .event (.disconnected c))
    (hun : (turnMachine p κ).Along (Broadcasting.Unclaimed p) ⟨s, none⟩ es) :
    let w := (turnMachine p κ).exec ⟨s, none⟩ es
    ∃ fs owed, (proxyMachine p κ).Admits s fs ∧
      Postpones p ⟨s, none⟩ es fs owed ∧
      (owed = [] ∨ ∃ payload slots, w.pending = some (payload, slots) ∧ owed = [.uartFrame payload]) ∧
      (proxyMachine p κ).collect (ownReads p c) s fs =
        (turnMachine p κ).collect (Broadcasting.ownReads p c) ⟨s, none⟩ es ∧
      (proxyMachine p κ).exec s fs = w.proxy.withGatt ((proxyMachine p κ).exec s fs).gatt ∧
      SameView c w.proxy.gatt ((proxyMachine p κ).exec s fs).gatt := by
  intro w
  have hall := (turnMachine p κ).along_and.mpr ⟨ha, (turnMachine p κ).along_and.mpr
    ⟨(turnMachine p κ).along_of_mem hstay, hun⟩⟩
  have hstart : Trails p c ⟨s, none⟩ [] [] ⟨s, none⟩ s := ⟨rfl, [], behind_start p hr hl c, .nil⟩
  obtain ⟨fs, hadm, ⟨-, owed, hbehind, horder⟩, hreads⟩ :=
    (turnMachine p κ).follow (fun _ _ _ _ _ he h => h.step p he) hall hstart
  refine ⟨fs, owed, hadm, horder, ?_, hreads, hbehind.beside.rest, hbehind.beside.view⟩
  have howed := hbehind.owed
  unfold Owed at howed
  cases hp : ((turnMachine p κ).exec ⟨s, none⟩ es).pending with
  | none =>
    rw [hp] at howed
    exact .inl howed
  | some loop =>
    rw [hp] at howed
    obtain ⟨-, -, -, ⟨rfl, -⟩ | ⟨rfl, -⟩⟩ := howed
    · exact .inr ⟨_, _, rfl, rfl⟩
    · exact .inl rfl

end

def waitingRun : List (TurnEvent Nat) :=
  [.event (.uartFrame (addressedFrame 7)), .turn, .event (.fromradioRead 2 64 0),
    .event (.nodeRegWrite 1 [0, 0, 0, 3] 0), .turn, .event (.fromradioRead 2 64 0)]

theorem broadcast_at_once_waitingRun :
    ∃ fs, (proxyMachine (wirePlatform 9) Nat).Admits
        ((proxyMachine (wirePlatform 9) Nat).exec .boot twoPhones) fs ∧
      (proxyMachine (wirePlatform 9) Nat).collect (ownReads (wirePlatform 9) 2)
        ((proxyMachine (wirePlatform 9) Nat).exec .boot twoPhones) fs =
        [.read (.ok []), .read (.ok (addressedFrame 7))] := by
  have hother : ∀ hdr ∈ proxyHeaderOf (wirePlatform 9) (addressedFrame 7),
      regId [0, 0, 0, 3] 0 ≠ some hdr.dst := by decide +kernel
  have hun : (turnMachine (wirePlatform 9) Nat).Along (Broadcasting.Unclaimed (wirePlatform 9))
      ⟨(proxyMachine (wirePlatform 9) Nat).exec .boot twoPhones, none⟩ waitingRun :=
    ⟨trivial, trivial, trivial, hother, trivial, trivial, trivial⟩
  obtain ⟨fs, owed, hadm, -, -, hreads, -, -⟩ := broadcast_at_once (wirePlatform 9)
    ⟨twoPhones, by decide, rfl⟩ rfl 2 waitingRun (by decide +kernel) (by decide) hun
  refine ⟨fs, hadm, hreads.trans ?_⟩
  rfl

end MeshProxy

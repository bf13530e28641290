import MeshProxy.Queue

/-!
# Slots and their earlier occupants

`alloc_slot` and `free_slot` reset counters and lengths, not bytes: the queue
cells, the staging buffer and the terminator of an earlier occupant stay in
the slot. `LiveEq` is equality of two slots up to such dead bytes. Every
operation keeps it, so what the proxy answers never depends on them
(`outs_eq_of_tableEq`). `Agree` asks it of some phones' slots only: what these
phones are answered does not depend on the others' slots.
-/

namespace MeshProxy

variable {κ : Type} (p : Platform)

/-- Two slots that differ in dead bytes only. -/
structure LiveEq (pc pc' : ProxyConn κ) : Prop where
  conn : pc'.conn = pc.conn
  proxyId : pc'.proxyId = pc.proxyId
  fromnum : pc'.fromnum = pc.fromnum
  state : pc'.state = pc.state
  nonce : pc'.nonce = pc.nonce
  replayCursor : pc'.replayCursor = pc.replayCursor
  ring : pc.queue.Wf
  ring' : pc'.queue.Wf
  packets : pc'.packets = pc.packets
  staged : pc'.stagedBytes = pc.stagedBytes
  ccLen : pc.state = .replaying → pc'.ccLen = pc.ccLen
  ccFrame : pc.state = .replaying → pc'.ccFrame.slice 0 pc.ccLen = pc.ccFrame.slice 0 pc.ccLen

variable {pc pc' : ProxyConn κ} {cache : ConfigCache} {op : GattOp κ}

theorem LiveEq.refl (hw : pc.queue.Wf) : LiveEq pc pc :=
  ⟨rfl, rfl, rfl, rfl, rfl, rfl, hw, hw, rfl, rfl, fun _ => rfl, fun _ => rfl⟩

theorem LiveEq.count (h : LiveEq pc pc') : pc'.queue.count = pc.queue.count := by
  simpa [ProxyConn.packets] using congrArg List.length h.packets

theorem LiveEq.stagedLen (h : LiveEq pc pc') : pc'.stagedLen = pc.stagedLen := by
  simpa [ProxyConn.stagedBytes] using congrArg List.length h.staged

theorem LiveEq.clear (pc pc' : ProxyConn κ) (conn : Option κ) :
    LiveEq (pc.clear conn) (pc'.clear conn) :=
  ⟨rfl, rfl, rfl, rfl, rfl, rfl, Ring.Wf.reset _, Ring.Wf.reset _, rfl, rfl, fun h => (nomatch h),
    fun h => (nomatch h)⟩

theorem LiveEq.push (h : LiveEq pc pc') (hc : pc.queue.count < fromradioQueueDepth)
    (hl : data.length ≤ fromradioMaxPktSize) : LiveEq (pc.push data) (pc'.push data) := by
  have hc' : pc'.queue.count < fromradioQueueDepth := by rw [h.count]; exact hc
  refine ⟨h.conn, h.proxyId, by simp [ProxyConn.push, h.fromnum], h.state, h.nonce, h.replayCursor,
    h.ring.put hc, h.ring'.put hc', ?_, h.staged, h.ccLen, h.ccFrame⟩
  rw [push_packets h.ring hc hl, push_packets h.ring' hc' hl, h.packets]

theorem LiveEq.enqueue (h : LiveEq pc pc') (data : List UInt8) :
    LiveEq (pc.enqueue data) (pc'.enqueue data) := by
  unfold ProxyConn.enqueue
  rw [h.count]
  split
  · rename_i hc
    exact h.push hc.2 hc.1
  · exact h

theorem LiveEq.takeNonce (h : LiveEq pc pc') (nonce : UInt32) :
    LiveEq (pc.takeNonce nonce) (pc'.takeNonce nonce) := by
  unfold ProxyConn.takeNonce
  split
  · exact ⟨h.conn, h.proxyId, h.fromnum, h.state, rfl, h.replayCursor, h.ring, h.ring', h.packets,
      h.staged, h.ccLen, h.ccFrame⟩
  · exact h

theorem LiveEq.arm (h : LiveEq pc pc') (nonce : UInt32) :
    LiveEq (pc.arm (terminator p nonce)) (pc'.arm (terminator p nonce)) := by
  refine ⟨h.conn, h.proxyId, by simp [ProxyConn.arm, h.fromnum], rfl, h.nonce, rfl, h.ring, h.ring',
    h.packets, h.staged, fun _ => rfl, fun _ => ?_⟩
  exact (arm_terminator p pc' nonce).trans (arm_terminator p pc nonce).symm

theorem LiveEq.failedArm (h : LiveEq pc pc') (written : List UInt8) :
    LiveEq { pc with ccFrame := pc.ccFrame.memcpy 0 written }
      { pc' with ccFrame := pc'.ccFrame.memcpy 0 written } :=
  ⟨h.conn, h.proxyId, h.fromnum, h.state, h.nonce, h.replayCursor, h.ring, h.ring', h.packets,
    h.staged, h.ccLen, fun hs => Cells.memcpy_slice_congr _ (h.ccFrame hs)⟩

theorem LiveEq.replay (h : LiveEq pc pc') (nonce : UInt32) :
    LiveEq (pc.replay p nonce) (pc'.replay p nonce) := by
  have ht := h.takeNonce nonce
  have hcc : terminator p (pc'.takeNonce nonce).nonce = terminator p (pc.takeNonce nonce).nonce := by
    rw [ht.nonce]
  have hstep := replay_step p pc nonce
  have hstep' := replay_step p pc' nonce
  generalize pc.replay p nonce = r at hstep ⊢
  generalize pc'.replay p nonce = r' at hstep' ⊢
  cases hstep with
  | armed hok =>
    obtain ⟨n, hok⟩ := hok
    cases hstep' with
    | armed => rw [hcc]; exact ht.arm p _
    | failed herr =>
      obtain ⟨e, herr⟩ := herr
      rw [ht.nonce, hok] at herr
      cases herr
  | failed herr =>
    obtain ⟨e, herr⟩ := herr
    cases hstep' with
    | armed hok =>
      obtain ⟨n, hok⟩ := hok
      rw [ht.nonce, herr] at hok
      cases hok
    | failed => rw [hcc]; exact ht.failedArm _

theorem LiveEq.stage (h : LiveEq pc pc') (bytes : List UInt8) :
    LiveEq (pc.stage bytes) (pc'.stage bytes) :=
  ⟨h.conn, h.proxyId, h.fromnum, h.state, h.nonce, h.replayCursor, h.ring, h.ring', h.packets,
    Cells.slice_memcpy_congr _ _ _, h.ccLen, h.ccFrame⟩

theorem LiveEq.stageNothing (h : LiveEq pc pc') :
    LiveEq { pc with stagedLen := 0 } { pc' with stagedLen := 0 } :=
  ⟨h.conn, h.proxyId, h.fromnum, h.state, h.nonce, h.replayCursor, h.ring, h.ring', h.packets,
    rfl, h.ccLen, h.ccFrame⟩

theorem LiveEq.moveCursor (h : LiveEq pc pc') (cursor : Nat) :
    LiveEq { pc with replayCursor := cursor } { pc' with replayCursor := cursor } :=
  ⟨h.conn, h.proxyId, h.fromnum, h.state, h.nonce, rfl, h.ring, h.ring', h.packets,
    h.staged, h.ccLen, h.ccFrame⟩

theorem LiveEq.setState (h : LiveEq pc pc') (hs : st ≠ .replaying) :
    LiveEq { pc with state := st } { pc' with state := st } :=
  ⟨h.conn, h.proxyId, h.fromnum, rfl, h.nonce, h.replayCursor, h.ring, h.ring', h.packets,
    h.staged, fun hr => absurd hr hs, fun hr => absurd hr hs⟩

theorem LiveEq.popFront (h : LiveEq pc pc') (hc : 0 < pc.queue.count) :
    pc'.queue.front.bytes = pc.queue.front.bytes ∧
      LiveEq { pc with queue := pc.queue.pop } { pc' with queue := pc'.queue.pop } := by
  have hc' : 0 < pc'.queue.count := by rw [h.count]; exact hc
  have hp := h.packets
  rw [pop_packets hc, pop_packets hc', List.cons.injEq] at hp
  exact ⟨hp.1, h.conn, h.proxyId, h.fromnum, h.state, h.nonce, h.replayCursor, h.ring.pop hc,
    h.ring'.pop hc', hp.2, h.staged, h.ccLen, h.ccFrame⟩

theorem LiveEq.stageReplay (h : LiveEq pc pc') (hr : pc.state = .replaying) (cursor : Nat) :
    LiveEq (pc.stageReplay cache cursor) (pc'.stageReplay cache cursor) := by
  unfold ProxyConn.stageReplay
  simp only
  split
  · cases cacheFrameAt cache cursor with
    | some ref => exact (h.stage _).moveCursor _
    | none => exact h.stageNothing.moveCursor _
  · split
    · rw [h.ccLen hr, h.ccFrame hr]
      exact (h.stage _).moveCursor _
    · have hactive : PhoneState.active ≠ .replaying := by decide
      exact ((h.setState hactive).moveCursor cursor).stageNothing

theorem LiveEq.stageNext (h : LiveEq pc pc') : LiveEq (pc.stageNext cache) (pc'.stageNext cache) := by
  unfold ProxyConn.stageNext
  by_cases hr : pc.state = .replaying
  · rw [if_pos hr, if_pos (h.state.trans hr), h.nonce, h.replayCursor]
    exact h.stageReplay hr _
  · have hr' : ¬ pc'.state = .replaying := by rwa [h.state]
    rw [if_neg hr, if_neg hr', h.count]
    by_cases hc : 0 < pc.queue.count
    · obtain ⟨hf, hp⟩ := h.popFront hc
      rw [if_pos hc, if_pos hc, hf]
      exact hp.stage _
    · rw [if_neg hc, if_neg hc]
      exact h.stageNothing

theorem LiveEq.onSlot (h : LiveEq pc pc') : LiveEq (op.onSlot p cache pc) (op.onSlot p cache pc') := by
  cases op with
  | enqueue conn data => exact h.enqueue data
  | replay conn nonce => exact h.replay p nonce
  | park conn nonce =>
    exact ⟨h.conn, h.proxyId, h.fromnum, rfl, rfl, h.replayCursor, h.ring, h.ring', h.packets,
      h.staged, fun hr => (nomatch hr), fun hr => (nomatch hr)⟩
  | register conn id =>
    exact ⟨h.conn, rfl, h.fromnum, h.state, h.nonce, h.replayCursor, h.ring, h.ring', h.packets,
      h.staged, h.ccLen, h.ccFrame⟩
  | stage conn => exact h.stageNext
  | connected | disconnected | setQs => exact h

theorem LiveEq.slotCalls (h : LiveEq pc pc') :
    op.slotCalls p cache pc' = op.slotCalls p cache pc := by
  have hnext : LiveEq (pc.stageNext cache) (pc'.stageNext cache) := h.stageNext
  cases op with
  | enqueue conn data => simp only [GattOp.slotCalls, h.count, ProxyConn.push, h.fromnum]
  | replay conn nonce =>
    simp only [GattOp.slotCalls, (h.takeNonce nonce).nonce, (h.replay p nonce).fromnum]
  | stage conn => simp only [GattOp.slotCalls, h.state, h.count, hnext.staged]
  | connected | disconnected | park | register | setQs => rfl

theorem LiveEq.serveStaged (h : LiveEq pc pc') (len offset : Nat) :
    pc'.serveStaged p len offset = pc.serveStaged p len offset := by
  simp only [ProxyConn.serveStaged, h.stagedLen, h.staged]

-- ---------------------------------------------------------------------------
-- Tables
-- ---------------------------------------------------------------------------

/-- Two tables with the same connections in the same slots, whose connected
slots differ in dead bytes only. -/
structure TableEq (g g' : BleGatt κ) : Prop where
  conn : ∀ i, (g'.conns i).conn = (g.conns i).conn
  live : ∀ i, (g.conns i).conn.isSome → LiveEq (g.conns i) (g'.conns i)
  qs : g'.qs = g.qs
  qsLen : g'.qsLen = g.qsLen

/-- Two tables with the same connections and identifiers in the same slots. The
slots of the connections in `W` differ in dead bytes only; the others may
differ in their queues and their config sessions. -/
structure Agree (W : κ → Prop) (g g' : BleGatt κ) : Prop where
  conn : ∀ i, (g'.conns i).conn = (g.conns i).conn
  proxyId : ∀ i, (g.conns i).conn.isSome → (g'.conns i).proxyId = (g.conns i).proxyId
  live : ∀ i conn, (g.conns i).conn = some conn → W conn → LiveEq (g.conns i) (g'.conns i)

variable {g g' a a' : BleGatt κ} {W : κ → Prop}

theorem TableEq.agree (h : TableEq g g') : Agree (fun _ => True) g g' where
  conn := h.conn
  proxyId i hi := (h.live i hi).proxyId
  live i conn hc _ := h.live i (by simp [hc])

theorem Agree.tableEq (h : Agree (fun _ => True) g g') (hqs : g'.qs = g.qs)
    (hlen : g'.qsLen = g.qsLen) : TableEq g g' where
  conn := h.conn
  live i hi := by
    obtain ⟨conn, hc⟩ := Option.isSome_iff_exists.mp hi
    exact h.live i conn hc trivial
  qs := hqs
  qsLen := hlen

theorem Agree.freeIndex (h : Agree W g g') : MeshProxy.freeIndex g' = MeshProxy.freeIndex g := by
  simp [MeshProxy.freeIndex, h.conn]

theorem Agree.getConn (h : Agree W g g') (id : ProxyId) :
    bleGattGetConnByProxyId g' id = bleGattGetConnByProxyId g id := by
  unfold bleGattGetConnByProxyId
  split
  · rfl
  · congr 1
    funext i
    cases hc : (g.conns i).conn with
    | none => simp [h.conn, hc]
    | some conn => rw [h.conn, hc, h.proxyId i (by simp [hc])]

theorem Agree.congr (h : Agree W g g') (ha : a.conns = g.conns) (ha' : a'.conns = g'.conns) :
    Agree W a a' :=
  ⟨by rw [ha, ha']; exact h.conn, by rw [ha, ha']; exact h.proxyId, by rw [ha, ha']; exact h.live⟩

theorem Agree.update (h : Agree W g g') (ha : a.conns = Function.update g.conns i pc)
    (ha' : a'.conns = Function.update g'.conns i pc') (hconn : pc'.conn = pc.conn)
    (hid : pc.conn.isSome → pc'.proxyId = pc.proxyId)
    (hlive : ∀ conn, pc.conn = some conn → W conn → LiveEq pc pc') : Agree W a a' := by
  have hself : a.conns i = pc := by simp [ha]
  have hself' : a'.conns i = pc' := by simp [ha']
  have hother (j : Fin maxBleConnections) (hj : j ≠ i) : a.conns j = g.conns j := by simp [ha, hj]
  have hother' (j : Fin maxBleConnections) (hj : j ≠ i) : a'.conns j = g'.conns j := by
    simp [ha', hj]
  refine ⟨fun j => ?_, fun j => ?_, fun j => ?_⟩
  · by_cases hj : j = i
    · rwa [hj, hself, hself']
    · rw [hother j hj, hother' j hj]
      exact h.conn j
  · by_cases hj : j = i
    · rwa [hj, hself, hself']
    · rw [hother j hj, hother' j hj]
      exact h.proxyId j
  · by_cases hj : j = i
    · rwa [hj, hself, hself']
    · rw [hother j hj, hother' j hj]
      exact h.live j

theorem Agree.onConnected (h : Agree W g g') (conn : κ) (err : UInt8) :
    Agree W (MeshProxy.onConnected g conn err) (MeshProxy.onConnected g' conn err) := by
  rcases onConnected_conns g conn err with ⟨i, he, hi, ha⟩ | ⟨hno, ha⟩
  · rcases onConnected_conns g' conn err with ⟨i', -, hi', ha'⟩ | ⟨hno', -⟩
    · obtain rfl : i = i' := by rw [h.freeIndex, hi] at hi'; exact Option.some.inj hi'
      exact h.update ha ha' rfl (fun _ => rfl) fun _ _ _ => .clear _ _ _
    · have hn := hno' he
      rw [h.freeIndex, hi] at hn
      cases hn
  · rcases onConnected_conns g' conn err with ⟨i', he', hi', -⟩ | ⟨-, ha'⟩
    · have hn := hno he'
      rw [← h.freeIndex, hi'] at hn
      cases hn
    · exact h.congr ha ha'

theorem onConnected_qs (g : BleGatt κ) (conn : κ) (err : UInt8) :
    (onConnected g conn err).qs = g.qs ∧ (onConnected g conn err).qsLen = g.qsLen := by
  unfold onConnected allocSlot
  cases freeIndex g with
  | none => simp only [Option.map_none]; split <;> exact ⟨rfl, rfl⟩
  | some i =>
    simp only [Option.map_some]
    repeat' split
    all_goals exact ⟨rfl, rfl⟩

def Proxy.withGatt (s : Proxy κ) (g : BleGatt κ) : Proxy κ := { s with gatt := g }

@[simp] theorem withGatt_gatt (s : Proxy κ) (g : BleGatt κ) : (s.withGatt g).gatt = g := rfl

theorem Agree.route {s : Proxy κ} (h : Agree W s.gatt g') (info : FromradioInfo) :
    MeshProxy.route (s.withGatt g') info = MeshProxy.route s info := by
  unfold MeshProxy.route Proxy.withGatt
  simp only [h.getConn]

theorem onSlot_proxyId_congr (h : pc'.proxyId = pc.proxyId) :
    (op.onSlot p cache pc').proxyId = (op.onSlot p cache pc).proxyId := by
  by_cases hop : ∃ conn id, op = .register conn id
  · obtain ⟨conn, id, rfl⟩ := hop
    rfl
  · have hno : ∀ conn id, op ≠ .register conn id := fun conn id he => hop ⟨conn, id, he⟩
    rw [onSlot_proxyId p cache pc hno, onSlot_proxyId p cache pc' hno, h]

variable [DecidableEq κ]

theorem Agree.findSlot (h : Agree W g g') (conn : κ) :
    MeshProxy.findSlot g' conn = MeshProxy.findSlot g conn := by
  simp [MeshProxy.findSlot, h.conn]

theorem apply_qs (cache : ConfigCache) (g : BleGatt κ) (hop : op.Inner) :
    (op.apply p cache g).qs = (match op with | .setQs qs _ => qs | _ => g.qs) ∧
      (op.apply p cache g).qsLen = (match op with | .setQs _ len => len | _ => g.qsLen) := by
  cases op with
  | connected | disconnected => exact hop.elim
  | enqueue conn data =>
    simp only [GattOp.apply, bleGattEnqueueFromradio]
    repeat' split
    all_goals exact ⟨rfl, rfl⟩
  | replay conn nonce =>
    simp only [GattOp.apply, bleGattReplayCachedBurst]
    repeat' split
    all_goals exact ⟨rfl, rfl⟩
  | park conn nonce =>
    simp only [GattOp.apply, parkSlot]
    split <;> exact ⟨rfl, rfl⟩
  | register conn id =>
    simp only [GattOp.apply, bleGattRegisterProxyId]
    split <;> exact ⟨rfl, rfl⟩
  | stage conn =>
    simp only [GattOp.apply, fromradioRead]
    split <;> exact ⟨rfl, rfl⟩
  | setQs => exact ⟨rfl, rfl⟩

theorem Agree.apply (h : Agree W g g') (hop : op.Inner) :
    Agree W (op.apply p cache g) (op.apply p cache g') := by
  rcases apply_inner p cache g hop with ⟨conn, i, ht, hi, ha⟩ | ⟨hnone, ha⟩
  · rcases apply_inner p cache g' hop with ⟨conn', i', ht', hi', ha'⟩ | ⟨hnone', -⟩
    · obtain rfl : conn = conn' := Option.some.inj (ht.symm.trans ht')
      obtain rfl : i = i' := by rw [h.findSlot, hi] at hi'; exact Option.some.inj hi'
      have hc := findSlot_conn hi
      refine h.update ha ha' ?_ (fun _ => ?_) fun c hcc hw => ?_
      · rw [onSlot_conn, onSlot_conn, h.conn]
      · exact onSlot_proxyId_congr p (h.proxyId i (by simp [hc]))
      · rw [onSlot_conn] at hcc
        exact (h.live i c hcc hw).onSlot p
    · have hno := hnone' conn ht
      rw [h.findSlot, hi] at hno
      cases hno
  · rcases apply_inner p cache g' hop with ⟨conn', i', ht', hi', -⟩ | ⟨-, ha'⟩
    · have hno := hnone conn' ht'
      rw [← h.findSlot, hi'] at hno
      cases hno
    · exact h.congr ha ha'

theorem TableEq.apply (h : TableEq g g') (hop : op.Inner) :
    TableEq (op.apply p cache g) (op.apply p cache g') := by
  have hqs := apply_qs p cache g hop
  have hqs' := apply_qs p cache g' hop
  rw [h.qs, h.qsLen] at hqs'
  exact (h.agree.apply p hop).tableEq (hqs'.1.trans hqs.1.symm) (hqs'.2.trans hqs.2.symm)

theorem TableEq.applyOps (h : TableEq g g') (hops : ∀ op ∈ ops, op.Inner) :
    TableEq (applyOps p cache g ops) (applyOps p cache g' ops) := by
  induction ops generalizing g g' with
  | nil => exact h
  | cons op ops ih =>
    exact ih (h.apply p (hops op List.mem_cons_self)) fun op' hop' => hops op' (List.mem_cons_of_mem _ hop')

theorem Agree.onDisconnected (h : Agree W g g') (conn : κ) :
    Agree W (MeshProxy.onDisconnected g conn) (MeshProxy.onDisconnected g' conn) := by
  rcases onDisconnected_conns g conn with ⟨i, hi, ha⟩ | ⟨hno, ha⟩
  · rcases onDisconnected_conns g' conn with ⟨i', hi', ha'⟩ | ⟨hno', -⟩
    · obtain rfl : i = i' := by rw [h.findSlot, hi] at hi'; exact Option.some.inj hi'
      exact h.update ha ha' rfl (fun _ => rfl) fun _ _ _ => .clear _ _ _
    · rw [h.findSlot, hi] at hno'
      cases hno'
  · rcases onDisconnected_conns g' conn with ⟨i', hi', -⟩ | ⟨-, ha'⟩
    · rw [h.findSlot, hno] at hi'
      cases hi'
    · exact h.congr ha ha'

theorem onDisconnected_qs (g : BleGatt κ) (conn : κ) :
    (onDisconnected g conn).qs = g.qs ∧ (onDisconnected g conn).qsLen = g.qsLen := by
  unfold onDisconnected freeSlot
  simp only
  repeat' split
  all_goals exact ⟨rfl, rfl⟩

-- ---------------------------------------------------------------------------
-- The proxy over two such tables
-- ---------------------------------------------------------------------------

variable {s : Proxy κ} {e : Event κ}

def isHeartbeat (data : List UInt8) : Bool :=
  match protoDecodeToradio p data with
  | .ok ti => !ti.hasWantConfig && ti.hasHeartbeat
  | .error _ => false

/-- A step performs the same operations, but for the answer to a heartbeat. -/
theorem Agree.gattOps (h : Agree W s.gatt g') (e : Event κ)
    (hbeat : ∀ conn data, e = .toradioWrite conn data 0 → isHeartbeat p data = true →
      heartbeatOps p g' conn = heartbeatOps p s.gatt conn) :
    MeshProxy.gattOps p (s.withGatt g') e = MeshProxy.gattOps p s e := by
  have hb (raw : List UInt8) : broadcastOps g' raw = broadcastOps s.gatt raw := by
    simp [broadcastOps, h.conn]
  cases e with
  | toradioWrite conn data offset =>
    have hpark (nonce : UInt32) : parkOps (s.withGatt g') conn nonce = parkOps s conn nonce := by
      unfold parkOps
      rw [withGatt_gatt, h.findSlot]
      rfl
    simp only [MeshProxy.gattOps, hpark, withGatt_gatt]
    by_cases ho : offset = 0
    · subst ho
      have hq := hbeat conn data rfl
      unfold isHeartbeat at hq
      cases hd : protoDecodeToradio p data with
      | error e => rfl
      | ok ti =>
        by_cases hw : ti.hasWantConfig = true
        · simp only [hw, ↓reduceIte]
          rfl
        · by_cases hh : ti.hasHeartbeat = true
          · simp [hw, hh, hq (by simp [hd, hw, hh])]
          · simp [hw, hh]
    · simp [ho]
  | uartFrame payload =>
    have hr (info : FromradioInfo) (raw : List UInt8) :
        (MeshProxy.route (s.withGatt g') info).ops g' raw = (MeshProxy.route s info).ops s.gatt raw := by
      rw [h.route]
      cases MeshProxy.route s info with
      | broadcast => exact hb raw
      | swallow | targeted => rfl
    simp only [MeshProxy.gattOps, withGatt_gatt, hr, hb]
    rfl
  | _ => rfl

def frameCache (s : Proxy κ) (payload : List UInt8) : ConfigCache :=
  match protoDecodeFromradio p payload with
  | .error _ => s.cache
  | .ok info =>
    if s.upstream.state = .fetching ∧ info.whichVariant ≠ .packet then
      if decodeConfigCompleteNonce p payload = some s.upstream.nonce then cacheMarkReady s.cache
      else (cacheAddFrame s.cache payload info.whichVariant).1
    else s.cache

def frameUpstream (s : Proxy κ) (payload : List UInt8) : UpstreamSession κ :=
  match protoDecodeFromradio p payload with
  | .error _ => s.upstream
  | .ok info =>
    if s.upstream.state = .fetching ∧ info.whichVariant ≠ .packet then
      if decodeConfigCompleteNonce p payload = some s.upstream.nonce then
        { s.upstream with pending := [], state := .live }
      else s.upstream
    else
      match MeshProxy.route s info with
      | .swallow => { s.upstream with keepalivePending := false }
      | _ => s.upstream

theorem onFromradioUart_eq (s : Proxy κ) (payload : List UInt8) :
    onFromradioUart p s payload =
      { s with
        gatt := (onFromradioUart p s payload).gatt
        cache := frameCache p s payload
        upstream := frameUpstream p s payload } := by
  have hstep := onFromradioUart_step p s payload
  generalize onFromradioUart p s payload = s' at hstep ⊢
  unfold frameCache frameUpstream
  cases hstep with
  | undecodable hd =>
    have he : protoDecodeFromradio p payload = .error .einval := by simp [protoDecodeFromradio, hd]
    simp only [he]
  | stored info hd hf hv hn => simp [hd, hf, hv, hn]
  | closed hf hn =>
    obtain ⟨info, hd, hv⟩ := decodes_of_nonce p hn
    simp [hd, hf, hv, hn, Proxy.goLive]
  | routed info hd h =>
    have hno : ¬ (s.upstream.state = .fetching ∧ info.whichVariant ≠ .packet) := by tauto
    cases hroute : MeshProxy.route s info <;> simp [hd, hno, hroute]

theorem step_withGatt (h : Agree W s.gatt g') (e : Event κ) :
    ((s.withGatt g').step p e).1 = (s.step p e).1.withGatt ((s.withGatt g').step p e).1.gatt := by
  cases e with
  | connected | disconnected | fromnumRead | fromradioRead | nodeRegWrite | uartTxDone
  | uartTxAborted => rfl
  | txWork failed => by_cases hw : s.uart.workPending = true <;> simp [Proxy.step, Proxy.withGatt, hw]
  | keepalive =>
    by_cases hk : s.upstream.keepaliveArmed = true <;> simp [Proxy.step, Proxy.withGatt, hk]
  | mainStep =>
    cases hm : s.main with
    | uartInit =>
      cases hu : p.uartBringUp <;> simp [Proxy.step, mainStep, Proxy.withGatt, hm, hu]
    | setServeCb | start _ | returned => simp [Proxy.step, mainStep, Proxy.withGatt, hm]
  | uartFrame payload =>
    simp only [Proxy.step]
    by_cases hcb : s.fromradioCb = true
    · have hcb' : (s.withGatt g').fromradioCb = true := hcb
      have hc : frameCache p (s.withGatt g') payload = frameCache p s payload := rfl
      have hu : frameUpstream p (s.withGatt g') payload = frameUpstream p s payload := by
        simp only [frameUpstream, h.route]
        rfl
      rw [if_pos hcb, if_pos hcb', onFromradioUart_eq p s payload,
        onFromradioUart_eq p (s.withGatt g') payload, hc, hu]
      rfl
    · have hcb' : ¬ (s.withGatt g').fromradioCb = true := hcb
      rw [if_neg hcb, if_neg hcb']
      rfl
  | toradioWrite conn data offset =>
    simp only [Proxy.step, toradioWrite]
    split
    · rfl
    · unfold onToradioBle
      cases protoDecodeToradio p data with
      | error => rfl
      | ok ti =>
        have hu : (s.withGatt g').upstream = s.upstream := rfl
        simp only [bleGattParkPending_eq]
        simp only [hu]
        have hp : parkSession (s.withGatt g') conn = parkSession s conn := by
          unfold parkSession
          rw [withGatt_gatt, h.findSlot]
          rfl
        repeat' split
        all_goals first | rfl | simp only [hp]; rfl

theorem step_tableEq (h : TableEq s.gatt g') (e : Event κ) :
    TableEq (s.step p e).1.gatt ((s.withGatt g').step p e).1.gatt := by
  by_cases hl : e.IsLink
  · cases e with
    | connected conn err =>
      obtain ⟨hq, hlen⟩ := onConnected_qs s.gatt conn err
      obtain ⟨hq', hlen'⟩ := onConnected_qs g' conn err
      exact (h.agree.onConnected conn err).tableEq (hq'.trans (h.qs.trans hq.symm))
        (hlen'.trans (h.qsLen.trans hlen.symm))
    | disconnected conn =>
      obtain ⟨hq, hlen⟩ := onDisconnected_qs s.gatt conn
      obtain ⟨hq', hlen'⟩ := onDisconnected_qs g' conn
      exact (h.agree.onDisconnected conn).tableEq (hq'.trans (h.qs.trans hq.symm))
        (hlen'.trans (h.qsLen.trans hlen.symm))
    | _ => exact hl.elim
  · have hops : gattOps p (s.withGatt g') e = gattOps p s e := by
      refine h.agree.gattOps p e fun conn data _ _ => ?_
      unfold heartbeatOps
      rw [h.qs, h.qsLen]
    rw [step_gatt, step_gatt, hops]
    exact h.applyOps p fun op hop => (gattOps_stepOp p s e hl hop).inner

def Event.reader : Event κ → Option κ
  | .fromnumRead conn _ _ | .fromradioRead conn _ _ => some conn
  | _ => none

theorem step_reply (h : Agree W s.gatt g') (e : Event κ) (hr : ∀ conn, e.reader = some conn → W conn) :
    ((s.withGatt g').step p e).2 = (s.step p e).2 := by
  cases e with
  | fromnumRead conn len offset =>
    simp only [Proxy.step, fromnumRead, withGatt_gatt, h.findSlot]
    cases hf : MeshProxy.findSlot s.gatt conn with
    | none => rfl
    | some i => simp only [(h.live i conn (findSlot_conn hf) (hr conn rfl)).fromnum]
  | fromradioRead conn len offset =>
    simp only [Proxy.step, fromradioRead, withGatt_gatt, h.findSlot]
    cases hf : MeshProxy.findSlot s.gatt conn with
    | none => rfl
    | some i =>
      have hlive := h.live i conn (findSlot_conn hf) (hr conn rfl)
      simp only
      split
      · exact congrArg Reply.read (hlive.stageNext.serveStaged p len offset)
      · exact congrArg Reply.read (hlive.serveStaged p len offset)
  | toradioWrite conn data offset =>
    simp only [Proxy.step, toradioWrite]
    split <;> rfl
  | nodeRegWrite conn data offset =>
    simp only [Proxy.step, nodeRegWrite]
    split <;> rfl
  | keepalive =>
    simp only [Proxy.step]
    repeat' split
    all_goals rfl
  | connected | disconnected | uartFrame | mainStep | txWork | uartTxDone | uartTxAborted => rfl

theorem outs_eq_of_tableEq (h : TableEq s.gatt g') (es : List (Event κ)) :
    (proxyMachine p κ).outs (s.withGatt g') es = (proxyMachine p κ).outs s es := by
  induction es generalizing s g' with
  | nil => rfl
  | cons e es ih =>
    have hnext := step_withGatt p h.agree e
    simp only [Machine.outs_cons, Machine.next]
    rw [show (proxyMachine p κ).step = Proxy.step p from rfl,
      step_reply p h.agree e fun _ _ => trivial, hnext]
    exact congrArg _ (ih (step_tableEq p h e))

-- ---------------------------------------------------------------------------
-- The queue of a phone as a bounded FIFO of its own
-- ---------------------------------------------------------------------------

/-- What the proxy promises about the packet queues in a state. -/
structure QueueContract (s : Proxy κ) : Prop where
  /-- What `conn` has consumed since it connected, then what is queued from
  head to tail, is what was accepted for it. -/
  fifo : ∀ conn pc, slotOf s.gatt conn = some pc →
    consumed (sinceConnect conn s.gatt.calls) ++ pc.packets = accepted (sinceConnect conn s.gatt.calls)
  count_le : ∀ conn pc, slotOf s.gatt conn = some pc → pc.queue.count ≤ 8
  tail_eq : ∀ conn pc, slotOf s.gatt conn = some pc →
    pc.queue.tail.val = (pc.queue.head.val + pc.queue.count) % 8
  fromnum : ∀ conn pc, slotOf s.gatt conn = some pc →
    pc.fromnum = UInt32.ofNat ((accepted (sinceConnect conn s.gatt.calls)).length +
      armedCount (sinceConnect conn s.gatt.calls))
  rejected : ∀ conn data err, (bleGattEnqueueFromradio s.gatt conn data).2 = .error err →
    (bleGattEnqueueFromradio s.gatt conn data).1.conns = s.gatt.conns
  /-- From a connect on, all replies are the same whatever the slot that the
  connection gets held before. -/
  noLeak : ∀ conn i old es, freeIndex s.gatt = some i → old.conn = none →
    (proxyMachine p κ).outs (s.withGatt (s.gatt.setSlot i old)) (.connected conn 0 :: es) =
      (proxyMachine p κ).outs s (.connected conn 0 :: es)

theorem tableEq_free (hw : EachSlot (SlotInv s.cache) s.gatt) (hd : Distinct s.gatt)
    (hi : freeIndex s.gatt = some i) (ho : old.conn = none) :
    TableEq s.gatt (s.gatt.setSlot i old) := by
  have hfree := freeIndex_conn hi
  refine ⟨fun j => ?_, fun j hj => ?_, rfl, rfl⟩
  · by_cases hji : j = i
    · subst hji
      simp [ho, hfree]
    · simp [hji]
  · have hji : j ≠ i := by
      rintro rfl
      simp [hfree] at hj
    obtain ⟨conn, hc⟩ := Option.isSome_iff_exists.mp hj
    simpa [hji] using LiveEq.refl (hw conn _ (hd.slotOf_eq.mpr ⟨j, hc, rfl⟩)).ring

theorem queue_contract (hr : s.Reachable p) : QueueContract p s where
  fifo conn pc hpc := (recorded_reachable p hr conn pc hpc).fifo
  count_le conn pc hpc := (recorded_reachable p hr conn pc hpc).ring.count_le
  tail_eq conn pc hpc := (recorded_reachable p hr conn pc hpc).ring.tail_val
  fromnum conn pc hpc := (recorded_reachable p hr conn pc hpc).fromnum
  rejected conn data err h := enqueue_rejected s.gatt conn data err h
  noLeak _ _ _ _ hi ho :=
    outs_eq_of_tableEq p
      (tableEq_free (inv_reachable p hr).slots (inv_reachable p hr).distinct hi ho) _

def reuseRun : List (Event Nat) :=
  [.mainStep, .connected 1 0, .uartFrame [0x12, 0], .uartFrame [0x22, 0], .fromradioRead 1 64 0,
    .disconnected 1, .connected 2 0, .uartFrame [0x12, 0]]

theorem queue_contract_reuseRun :
    QueueContract (wirePlatform 9) ((proxyMachine (wirePlatform 9) Nat).exec .boot reuseRun) :=
  queue_contract (wirePlatform 9) ⟨reuseRun, by decide, rfl⟩

end MeshProxy

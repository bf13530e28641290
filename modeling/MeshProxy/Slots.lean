import MeshProxy.Steps

/-!
# One step, seen from one connection

`slotOf_step` gives the slot of a connection after a step as a function of
its slot before: a connect or a disconnect replaces it, any other event
applies the operations that target the connection, in order. `gattOps_stepOp`
lists which operations those can be.
-/

namespace MeshProxy

variable {κ : Type} (p : Platform)

def ProxyConn.run (cache : ConfigCache) (pc : ProxyConn κ) (ops : List (GattOp κ)) : ProxyConn κ :=
  ops.foldl (fun pc op => op.onSlot p cache pc) pc

theorem run_invariant {I : ProxyConn κ → Prop} (hops : ∀ op ∈ ops, ∀ pc, I pc → I (op.onSlot p cache pc))
    (h : I pc) : I (pc.run p cache ops) := by
  induction ops generalizing pc with
  | nil => exact h
  | cons op ops ih =>
    exact ih (fun op' hop' => hops op' (List.mem_cons_of_mem _ hop')) (hops op List.mem_cons_self _ h)

-- ---------------------------------------------------------------------------
-- The operations of a step
-- ---------------------------------------------------------------------------

theorem mem_broadcastOps {g : BleGatt κ} (h : op ∈ broadcastOps g data) :
    ∃ conn, op = .enqueue conn data := by
  simp only [broadcastOps, List.mem_filterMap, Option.map_eq_some_iff] at h
  obtain ⟨i, -, conn, -, rfl⟩ := h
  exact ⟨conn, rfl⟩

theorem mem_routeOps {g : BleGatt κ} {r : Route κ} (h : op ∈ r.ops g raw) :
    ∃ conn, op = .enqueue conn raw := by
  cases r with
  | swallow => cases h
  | targeted conn => exact ⟨conn, List.mem_singleton.mp h⟩
  | broadcast => exact mem_broadcastOps h

theorem mem_serveOps {up : UpstreamSession κ} (h : op ∈ serveOps up) :
    ∃ conn ∈ up.pending, op = .replay conn 0 := by
  unfold serveOps at h
  split at h
  · obtain ⟨conn, hc, rfl⟩ := List.mem_map.mp h
    exact ⟨conn, hc, rfl⟩
  · cases h

theorem mem_heartbeatOps {g : BleGatt κ} (h : op ∈ heartbeatOps p g conn) :
    (∃ data, op = .enqueue conn data ∧
      (data = [] → (protoEncodeQueueStatus p ccFrameSize).2 = .ok 0)) ∨
    ∃ qs len, op = .setQs qs len := by
  unfold heartbeatOps at h
  split at h
  · split at h
    · exact .inr ⟨_, _, List.mem_singleton.mp h⟩
    · rename_i written len henc
      rcases List.mem_cons.mp h with rfl | h
      · exact .inr ⟨_, _, rfl⟩
      · refine .inl ⟨_, List.mem_singleton.mp h, fun hnil => ?_⟩
        have hlen : len = 0 := by simpa using congrArg List.length hnil
        rw [henc, hlen]
  · rename_i hq
    refine .inl ⟨_, List.mem_singleton.mp h, fun hnil => ?_⟩
    exact absurd (by simpa using congrArg List.length hnil) hq

/-- What a step can do to the table, apart from a connect or a disconnect. -/
inductive StepOp (s : Proxy κ) : Event κ → GattOp κ → Prop
  | read (conn : κ) (len : Nat) : StepOp s (.fromradioRead conn len 0) (.stage conn)
  | register (conn : κ) (data : List UInt8) (id : ProxyId) :
      StepOp s (.nodeRegWrite conn data 0) (.register conn id)
  | heartbeat (conn : κ) (data pkt : List UInt8) (hw : wantConfigOf p data = none)
      (hpkt : pkt = [] → (protoEncodeQueueStatus p ccFrameSize).2 = .ok 0) :
      StepOp s (.toradioWrite conn data 0) (.enqueue conn pkt)
  | setQs (conn : κ) (data : List UInt8) (qs : Cells ccFrameSize UInt8) (len : Nat)
      (hw : wantConfigOf p data = none) : StepOp s (.toradioWrite conn data 0) (.setQs qs len)
  | replayed (conn : κ) (data : List UInt8) (nonce : UInt32) (hw : wantConfigOf p data = some nonce)
      (hs : s.upstream.state = .cacheReady ∨ s.upstream.state = .live) :
      StepOp s (.toradioWrite conn data 0) (.replay conn nonce)
  | parked (conn : κ) (data : List UInt8) (nonce : UInt32) (hw : wantConfigOf p data = some nonce)
      (hs : ¬ (s.upstream.state = .cacheReady ∨ s.upstream.state = .live)) :
      StepOp s (.toradioWrite conn data 0) (.park conn nonce)
  | parkedReady (conn : κ) (data : List UInt8) (nonce : UInt32)
      (hw : wantConfigOf p data = some nonce)
      (hs : ¬ (s.upstream.state = .cacheReady ∨ s.upstream.state = .live))
      (hr : s.cache.ready = true) : StepOp s (.toradioWrite conn data 0) (.replay conn 0)
  | frame (conn : κ) (payload : List UInt8) (hcb : s.fromradioCb = true) :
      StepOp s (.uartFrame payload) (.enqueue conn payload)
  | serve (conn : κ) (payload : List UInt8) (hcb : s.fromradioCb = true)
      (hf : s.upstream.state = .fetching)
      (hn : decodeConfigCompleteNonce p payload = some s.upstream.nonce)
      (hc : conn ∈ s.upstream.pending) : StepOp s (.uartFrame payload) (.replay conn 0)

def Event.IsLink : Event κ → Prop
  | .connected .. | .disconnected .. => True
  | _ => False

theorem StepOp.inner {s : Proxy κ} (h : StepOp p s e op) : op.Inner := by
  cases h <;> trivial

-- ---------------------------------------------------------------------------
-- Sequences of operations
-- ---------------------------------------------------------------------------

variable [DecidableEq κ]

def opsFor (conn : κ) (ops : List (GattOp κ)) : List (GattOp κ) :=
  ops.filter fun op => op.target = some conn

theorem mem_opsFor {ops : List (GattOp κ)} : op ∈ opsFor conn ops ↔ op ∈ ops ∧ op.target = some conn := by
  simp [opsFor]

def EachSlot (I : ProxyConn κ → Prop) (g : BleGatt κ) : Prop :=
  ∀ conn pc, slotOf g conn = some pc → I pc

section
variable {g : BleGatt κ} {op : GattOp κ} {ops : List (GattOp κ)} {cache : ConfigCache}

theorem Distinct.apply_inner (hd : Distinct g) (hop : op.Inner) : Distinct (op.apply p cache g) :=
  hd.congr (apply_inner_conn p cache g hop)

theorem applyOps_conn (cache : ConfigCache) (hops : ∀ op ∈ ops, op.Inner) (g : BleGatt κ)
    (i : Fin maxBleConnections) : ((applyOps p cache g ops).conns i).conn = (g.conns i).conn := by
  induction ops generalizing g with
  | nil => rfl
  | cons op ops ih =>
    calc ((applyOps p cache (op.apply p cache g) ops).conns i).conn
        = ((op.apply p cache g).conns i).conn :=
          ih (fun op' hop' => hops op' (List.mem_cons_of_mem op hop')) _
      _ = (g.conns i).conn := apply_inner_conn p cache g (hops op List.mem_cons_self) i

theorem Distinct.applyOps (hd : Distinct g) (hops : ∀ op ∈ ops, op.Inner) :
    Distinct (applyOps p cache g ops) := by
  induction ops generalizing g with
  | nil => exact hd
  | cons op ops ih =>
    exact ih (hd.apply_inner p (hops op List.mem_cons_self))
      fun op' hop' => hops op' (List.mem_cons_of_mem _ hop')

theorem slotOf_applyOps (hd : Distinct g) (hops : ∀ op ∈ ops, op.Inner) (conn : κ) :
    slotOf (applyOps p cache g ops) conn =
      (slotOf g conn).map fun pc => pc.run p cache (opsFor conn ops) := by
  induction ops generalizing g with
  | nil => simp [applyOps, opsFor, ProxyConn.run]
  | cons op ops ih =>
    have hop := hops op List.mem_cons_self
    have hrest : ∀ op ∈ ops, op.Inner := fun op' hop' => hops op' (List.mem_cons_of_mem _ hop')
    have hcons : applyOps p cache g (op :: ops) = applyOps p cache (op.apply p cache g) ops := rfl
    rw [hcons, ih (hd.apply_inner p hop) hrest, slotOf_apply_inner p hd hop]
    by_cases ht : op.target = some conn
    · simp only [ht, ↓reduceIte, opsFor, decide_true, List.filter_cons_of_pos, Option.map_map]
      rfl
    · simp [ht, opsFor]

end

theorem mem_parkOps {s : Proxy κ} (h : op ∈ parkOps s conn nonce) :
    op = .park conn nonce ∨ (op = .replay conn 0 ∧ s.cache.ready = true) := by
  unfold parkOps at h
  split at h
  · rcases List.mem_cons.mp h with h | h
    · exact .inl h
    · split at h
      · rename_i hr
        exact .inr ⟨List.mem_singleton.mp h, hr.1⟩
      · cases h
  · cases h

theorem toradio_stepOp (s : Proxy κ) (h : op ∈ gattOps p s (.toradioWrite conn data 0)) :
    StepOp p s (.toradioWrite conn data 0) op := by
  simp only [gattOps, ne_eq, not_true_eq_false, ↓reduceIte] at h
  cases hd : protoDecodeToradio p data with
  | error e => simp [hd] at h
  | ok ti =>
    simp only [hd] at h
    by_cases hw : ti.hasWantConfig = true
    · have hn : wantConfigOf p data = some ti.wantConfigId := by simp [wantConfigOf, hd, hw]
      rw [if_pos hw] at h
      split at h
      · rename_i hs
        obtain rfl := List.mem_singleton.mp h
        exact .replayed conn data _ hn hs
      · rename_i hs
        rcases mem_parkOps h with rfl | ⟨rfl, hr⟩
        · exact .parked conn data _ hn hs
        · exact .parkedReady conn data _ hn hs hr
    · have hn : wantConfigOf p data = none := by simp [wantConfigOf, hd, hw]
      rw [if_neg hw] at h
      split at h
      · rcases mem_heartbeatOps p h with ⟨pkt, rfl, hpkt⟩ | ⟨qs, len, rfl⟩
        · exact .heartbeat conn data pkt hn hpkt
        · exact .setQs conn data qs len hn
      · cases h

theorem frame_stepOp (s : Proxy κ) (h : op ∈ gattOps p s (.uartFrame payload)) :
    StepOp p s (.uartFrame payload) op := by
  simp only [gattOps] at h
  split at h
  · cases h
  · rename_i hcb
    rw [Bool.not_eq_false] at hcb
    split at h
    · obtain ⟨conn, rfl⟩ := mem_broadcastOps h
      exact .frame conn payload hcb
    · split at h
      · rename_i hf
        split at h
        · rename_i hn
          obtain ⟨conn, hc, rfl⟩ := mem_serveOps h
          exact .serve conn payload hcb hf.1 hn hc
        · cases h
      · obtain ⟨conn, rfl⟩ := mem_routeOps h
        exact .frame conn payload hcb

theorem gattOps_stepOp (s : Proxy κ) (e : Event κ) (he : ¬ e.IsLink) (h : op ∈ gattOps p s e) :
    StepOp p s e op := by
  cases e with
  | connected | disconnected => exact absurd trivial he
  | fromnumRead | keepalive | mainStep | txWork | uartTxDone | uartTxAborted => cases h
  | uartFrame payload => exact frame_stepOp p s h
  | fromradioRead conn len offset =>
    simp only [gattOps] at h
    split at h
    · rename_i ho
      subst ho
      obtain rfl := List.mem_singleton.mp h
      exact .read conn len
    · cases h
  | nodeRegWrite conn data offset =>
    simp only [gattOps] at h
    split at h
    · cases h
    · rename_i ho
      obtain rfl := List.mem_singleton.mp h
      have h0 : offset = 0 := by tauto
      subst h0
      exact .register conn data _
  | toradioWrite conn data offset =>
    by_cases ho : offset = 0
    · subst ho
      exact toradio_stepOp p s h
    · simp [gattOps, ho] at h

-- ---------------------------------------------------------------------------
-- The slot after a step
-- ---------------------------------------------------------------------------

variable {s : Proxy κ} {e : Event κ} {conn : κ} {pc' : ProxyConn κ}

theorem step_distinct (hd : Distinct s.gatt) (he : s.Enabled e) : Distinct (s.step p e).1.gatt := by
  by_cases hl : e.IsLink
  · cases e with
    | connected conn err => exact onConnected_distinct hd he
    | disconnected conn => exact onDisconnected_distinct hd
    | _ => exact hl.elim
  · rw [step_gatt]
    exact hd.applyOps p fun op hop => (gattOps_stepOp p s e hl hop).inner

theorem step_conn_cases (s : Proxy κ) (e : Event κ) (i : Fin maxBleConnections) :
    ((s.step p e).1.gatt.conns i).conn = (s.gatt.conns i).conn ∨
      (∃ conn, e = .connected conn 0 ∧ (s.gatt.conns i).conn = none ∧
        ((s.step p e).1.gatt.conns i).conn = some conn) ∨
      ∃ conn, e = .disconnected conn ∧ (s.gatt.conns i).conn = some conn ∧
        ((s.step p e).1.gatt.conns i).conn = none := by
  by_cases hl : e.IsLink
  · cases e with
    | connected conn err =>
      have hs : (s.step p (.connected conn err)).1.gatt = onConnected s.gatt conn err := rfl
      rw [hs]
      obtain ⟨j, rfl, hj, ha⟩ | ⟨-, ha⟩ := onConnected_conns s.gatt conn err
      · rw [ha, setSlot_conns]
        by_cases hij : i = j
        · subst hij
          rw [Function.update_self]
          exact .inr (.inl ⟨conn, rfl, freeIndex_conn hj, rfl⟩)
        · rw [Function.update_of_ne hij]
          exact .inl rfl
      · rw [ha]
        exact .inl rfl
    | disconnected conn =>
      have hs : (s.step p (.disconnected conn)).1.gatt = onDisconnected s.gatt conn := rfl
      rw [hs]
      obtain ⟨j, hj, ha⟩ | ⟨-, ha⟩ := onDisconnected_conns s.gatt conn
      · rw [ha, setSlot_conns]
        by_cases hij : i = j
        · subst hij
          rw [Function.update_self]
          exact .inr (.inr ⟨conn, rfl, findSlot_conn hj, rfl⟩)
        · rw [Function.update_of_ne hij]
          exact .inl rfl
      · rw [ha]
        exact .inl rfl
    | _ => exact hl.elim
  · rw [step_gatt]
    exact .inl (applyOps_conn p _ (fun op hop => (gattOps_stepOp p s e hl hop).inner) _ i)

theorem Idle.step (h : Idle s.gatt) (e : Event κ) : Idle (s.step p e).1.gatt := by
  rw [step_gatt]
  unfold applyOps
  generalize gattOps p s e = ops
  generalize s.gatt = g at h
  induction ops generalizing g with
  | nil => exact h
  | cons op ops ih => exact ih _ (h.apply p op s.cache)

theorem opsFor_freshRead (s : Proxy κ) (conn : κ) (len : Nat) :
    opsFor conn (gattOps p s (.fromradioRead conn len 0)) = [.stage conn] := by
  simp [opsFor, gattOps, GattOp.target]

theorem slotOf_step (hd : Distinct s.gatt) (hl : ¬ e.IsLink) (conn : κ) :
    slotOf (s.step p e).1.gatt conn =
      (slotOf s.gatt conn).map fun pc => pc.run p s.cache (opsFor conn (gattOps p s e)) := by
  rw [step_gatt]
  exact slotOf_applyOps p hd (fun op hop => (gattOps_stepOp p s e hl hop).inner) conn

theorem slotOf_link (hd : Distinct s.gatt) (he : s.Enabled e) (hl : e.IsLink)
    (hne : e ≠ .disconnected conn) (hpc : slotOf s.gatt conn = some pc) :
    slotOf (s.step p e).1.gatt conn = some pc := by
  cases e with
  | connected c err =>
    have hold : ¬ (conn = c ∧ err = 0) := by
      rintro ⟨rfl, rfl⟩
      rw [slotOf_eq_none.mpr (he rfl)] at hpc
      cases hpc
    simp only [Proxy.step]
    rw [slotOf_onConnected hd he, if_neg hold, hpc]
  | disconnected c =>
    have hother : conn ≠ c := by
      rintro rfl
      exact hne rfl
    simp only [Proxy.step]
    rw [slotOf_onDisconnected hd, if_neg hother, hpc]
  | _ => exact hl.elim

/-- A slot after a step: untouched by a link event, fresh, or run through the
step's operations. -/
theorem slotOf_step_cases (hd : Distinct s.gatt) (he : s.Enabled e)
    (h : slotOf (s.step p e).1.gatt conn = some pc') :
    (slotOf s.gatt conn = some pc' ∧ e.IsLink) ∨
    (∃ i, e = .connected conn 0 ∧ freeIndex s.gatt = some i ∧
      pc' = (s.gatt.conns i).clear (some conn)) ∨
    (∃ pc, slotOf s.gatt conn = some pc ∧ ¬ e.IsLink ∧
      pc' = pc.run p s.cache (opsFor conn (gattOps p s e))) := by
  by_cases hl : e.IsLink
  · cases e with
    | connected c err =>
      have hs := slotOf_onConnected hd he conn
      simp only [Proxy.step] at h
      rw [hs] at h
      split at h
      · rename_i hc
        obtain ⟨i, hi, rfl⟩ := Option.map_eq_some_iff.mp h
        exact .inr (.inl ⟨i, by rw [hc.1, hc.2], hi, by rw [hc.1]⟩)
      · exact .inl ⟨h, trivial⟩
    | disconnected c =>
      simp only [Proxy.step, slotOf_onDisconnected hd] at h
      split at h
      · cases h
      · exact .inl ⟨h, trivial⟩
    | _ => exact hl.elim
  · rw [slotOf_step p hd hl] at h
    obtain ⟨pc, hpc, rfl⟩ := Option.map_eq_some_iff.mp h
    exact .inr (.inr ⟨pc, hpc, hl, rfl⟩)

/-- A property that a fresh slot has and every operation of the step keeps. -/
theorem eachSlot_step {I : ProxyConn κ → Prop} (hd : Distinct s.gatt) (he : s.Enabled e)
    (hfresh : ∀ (pc : ProxyConn κ) conn, I (pc.clear (some conn)))
    (hops : ∀ op, StepOp p s e op → ∀ pc, I pc → I (op.onSlot p s.cache pc))
    (h : EachSlot I s.gatt) : EachSlot I (s.step p e).1.gatt := by
  intro conn pc' hpc'
  rcases slotOf_step_cases p hd he hpc' with ⟨hsame, -⟩ | ⟨i, -, -, rfl⟩ | ⟨pc, hpc, hl, rfl⟩
  · exact h conn pc' hsame
  · exact hfresh _ conn
  · refine run_invariant p (fun op hop => ?_) (h conn pc hpc)
    exact hops op (gattOps_stepOp p s e hl (mem_opsFor.mp hop).1)

end MeshProxy

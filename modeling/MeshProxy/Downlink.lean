import MeshProxy.Onboarding

/-!
# What comes into a phone's queue

A frame of the node that is routed to the phone and the answer to its own
heartbeat are all that is offered to its queue, and the queue takes them while
it has room. What the fresh reads of the phone take out and what the queue
holds is then what it held and what came in, over any run in which the phone
stays connected (`exec_arrivals`).
-/

namespace MeshProxy

variable {κ : Type} (p : Platform)

inductive Arrival
  /-- A payload from the node. -/
  | node (payload : List UInt8)
  /-- The proxy's answer to a heartbeat. -/
  | answer (packet : List UInt8)
  deriving DecidableEq, Repr

def Arrival.bytes : Arrival → List UInt8
  | .node packet | .answer packet => packet

def Arrival.fromNode : Arrival → Option (List UInt8)
  | .node payload => some payload
  | .answer _ => none

/-- `ble_gatt_enqueue_fromradio` accepts the packet. -/
def ProxyConn.takes (pc : ProxyConn κ) (data : List UInt8) : Bool :=
  decide (data.length ≤ fromradioMaxPktSize ∧ pc.queue.count < fromradioQueueDepth)

/-- A fresh read takes its packet off the queue. -/
def ProxyConn.dequeues (pc : ProxyConn κ) : Bool :=
  decide (pc.state ≠ .replaying ∧ 0 < pc.queue.count)

/-- The operations that leave a queue alone. -/
def GattOp.Quiet : GattOp κ → Prop
  | .replay .. | .park .. | .register .. | .setQs .. => True
  | _ => False

-- ---------------------------------------------------------------------------
-- One slot
-- ---------------------------------------------------------------------------

section
variable {pc : ProxyConn κ} {cache : ConfigCache}

theorem enqueue_arrives (hw : pc.queue.Wf) (data : List UInt8) :
    (pc.enqueue data).packets = pc.packets ++ [data].filter fun x => pc.takes x := by
  unfold ProxyConn.enqueue ProxyConn.takes
  split
  · rename_i hroom
    rw [push_packets hw hroom.2 hroom.1]
    simp [hroom]
  · rename_i hroom
    simp [hroom]

theorem stageNext_dequeues (hi : SlotInv cache pc) :
    (if pc.dequeues = true then [(pc.stageNext cache).stagedBytes] else []) ++
      (pc.stageNext cache).packets = pc.packets := by
  unfold ProxyConn.dequeues
  by_cases hs : pc.state = .replaying
  · rw [if_neg (by simp [hs]), List.nil_append, ProxyConn.packets, stageNext_queue cache hs]
    rfl
  · rcases Nat.eq_zero_or_pos pc.queue.count with hc | hc
    · rw [if_neg (by simp [hc]), ProxyConn.stageNext, if_neg hs, if_neg (by omega)]
      rfl
    · have hnext : pc.stageNext cache = { pc.stage pc.queue.front.bytes with queue := pc.queue.pop } := by
        rw [ProxyConn.stageNext, if_neg hs, if_pos hc]
      have hfront : pc.queue.front.bytes.length ≤ fromradioMaxPktSize := by
        rw [PktEntry.bytes, Cells.length_slice]
        apply hi.entry_le
        rw [Ring.toList_pop _ hc]
        exact List.mem_cons_self
      have hstaged : (pc.stageNext cache).stagedBytes = pc.queue.front.bytes := by
        rw [hnext]
        exact stage_bytes hfront
      rw [if_pos (by simp [hs, hc]), hstaged, pop_packets hc, hnext]
      rfl

theorem quiet_packets {op : GattOp κ} (hq : op.Quiet) :
    (op.onSlot p cache pc).packets = pc.packets := by
  cases op with
  | replay conn nonce => exact replay_packets p pc nonce
  | park | register | setQs => rfl
  | connected | disconnected | enqueue | stage => exact hq.elim

theorem run_quiet {ops : List (GattOp κ)} (hq : ∀ op ∈ ops, op.Quiet) :
    (pc.run p cache ops).packets = pc.packets :=
  run_invariant p (I := fun pc' => pc'.packets = pc.packets)
    (fun op hop _ h => (quiet_packets p (hq op hop)).trans h) rfl

end

-- ---------------------------------------------------------------------------
-- What an event offers
-- ---------------------------------------------------------------------------

variable [DecidableEq κ]

def Route.includes (conn : κ) : Route κ → Bool
  | .swallow => false
  | .targeted c => decide (c = conn)
  | .broadcast => true

def hears (s : Proxy κ) (conn : κ) (payload : List UInt8) : Bool :=
  s.fromradioCb &&
    match protoDecodeFromradio p payload with
    | .error _ => true
    | .ok info => !decide (s.upstream.state = .fetching ∧ info.whichVariant ≠ .packet) &&
        (route s info).includes conn

def offeredAt (conn : κ) (s : Proxy κ) : Event κ → List Arrival
  | .uartFrame payload => if hears p s conn payload = true then [.node payload] else []
  | .toradioWrite c data offset =>
    if c = conn ∧ offset = 0 ∧ isHeartbeat p data = true then
      match protoEncodeQueueStatus p ccFrameSize with
      | (written, .ok _) => [.answer written]
      | (_, .error _) => []
    else []
  | _ => []

def arrivalsAt (conn : κ) (s : Proxy κ) (e : Event κ) : List Arrival :=
  match slotOf s.gatt conn with
  | none => []
  | some pc => (offeredAt p conn s e).filter fun x => pc.takes x.bytes

/-- The packet that a fresh read of the phone stages, if it comes from the
queue. -/
def fetchedAt (conn : κ) (s : Proxy κ) : Event κ → List (List UInt8)
  | .fromradioRead c len offset =>
    if c = conn ∧ offset = 0 ∧ (slotOf s.gatt conn).any ProxyConn.dequeues = true then
      let s := (s.step p (.fromradioRead c len offset)).1
      ((slotOf s.gatt conn).map ProxyConn.stagedBytes).toList
    else []
  | _ => []

def queueOf (s : Proxy κ) (conn : κ) : List (List UInt8) :=
  ((slotOf s.gatt conn).map ProxyConn.packets).getD []

section
variable {s : Proxy κ} {e : Event κ} {g : BleGatt κ} {conn : κ} {pc : ProxyConn κ}

theorem opsFor_copies_none {l : List (Fin maxBleConnections)}
    (hno : ∀ j ∈ l, (g.conns j).conn ≠ some conn) (data : List UInt8) :
    opsFor conn (l.filterMap fun j => (g.conns j).conn.map fun c => .enqueue c data) = [] := by
  unfold opsFor
  rw [List.filter_eq_nil_iff]
  intro op hop
  obtain ⟨j, hj, hcopy⟩ := List.mem_filterMap.mp hop
  obtain ⟨c, hc, rfl⟩ := Option.map_eq_some_iff.mp hcopy
  simp only [GattOp.target, Option.some.injEq, decide_eq_true_eq]
  rintro rfl
  exact hno j hj hc

theorem opsFor_broadcast (hd : Distinct g) (hpc : slotOf g conn = some pc) (data : List UInt8) :
    opsFor conn (broadcastOps g data) = [.enqueue conn data] := by
  obtain ⟨i, hi, -⟩ := hd.slotOf_eq.mp hpc
  obtain ⟨before, after, hl⟩ := List.append_of_mem (List.mem_finRange i)
  have hnd := List.nodup_finRange maxBleConnections
  rw [hl, List.nodup_append] at hnd
  obtain ⟨-, hafter, hbefore⟩ := hnd
  have hnone (l : List (Fin maxBleConnections)) (hl : i ∉ l) :
      opsFor conn (l.filterMap fun j => (g.conns j).conn.map fun c => .enqueue c data) = [] :=
    opsFor_copies_none (fun j hj hc => hl (hd i j conn hi hc ▸ hj)) data
  have hsplit (l l' : List (GattOp κ)) : opsFor conn (l ++ l') = opsFor conn l ++ opsFor conn l' :=
    List.filter_append ..
  unfold broadcastOps
  rw [hl, List.filterMap_append, hsplit, hnone before fun hm => hbefore i hm i List.mem_cons_self rfl,
    List.nil_append, List.filterMap_cons, hi]
  simp only [Option.map_some]
  rw [← List.singleton_append, hsplit, hnone after (List.nodup_cons.mp hafter).1, List.append_nil]
  simp [opsFor, GattOp.target]

theorem opsFor_route (hd : Distinct s.gatt) (hpc : slotOf s.gatt conn = some pc) (r : Route κ)
    (raw : List UInt8) :
    opsFor conn (r.ops s.gatt raw) = if r.includes conn = true then [.enqueue conn raw] else [] := by
  cases r with
  | swallow => rfl
  | targeted c =>
    by_cases hc : c = conn
    · simp [Route.ops, Route.includes, opsFor, GattOp.target, hc]
    · simp [Route.ops, Route.includes, opsFor, GattOp.target, hc]
  | broadcast => exact opsFor_broadcast hd hpc raw

theorem opsFor_frame (hd : Distinct s.gatt) (hpc : slotOf s.gatt conn = some pc)
    (payload : List UInt8) :
    hears p s conn payload = true ∧
        opsFor conn (gattOps p s (.uartFrame payload)) = [.enqueue conn payload] ∨
      hears p s conn payload = false ∧
        ∀ op ∈ opsFor conn (gattOps p s (.uartFrame payload)), op.Quiet := by
  unfold hears
  simp only [gattOps]
  cases hcb : s.fromradioCb with
  | false => exact .inr ⟨rfl, by simp [opsFor]⟩
  | true =>
    simp only [Bool.true_eq_false, ↓reduceIte, Bool.true_and]
    cases protoDecodeFromradio p payload with
    | error err => exact .inl ⟨rfl, opsFor_broadcast hd hpc payload⟩
    | ok info =>
      dsimp only
      by_cases hf : s.upstream.state = .fetching ∧ info.whichVariant ≠ .packet
      · rw [if_pos hf]
        refine .inr ⟨by simp [hf], ?_⟩
        split
        · intro op hop
          obtain ⟨c, -, rfl⟩ := mem_serveOps (mem_opsFor.mp hop).1
          trivial
        · intro op hop
          cases hop
      · rw [if_neg hf, opsFor_route hd hpc]
        cases hr : (route s info).includes conn with
        | true => exact .inl ⟨by simp [hf], rfl⟩
        | false => exact .inr ⟨by simp, by simp⟩

theorem opsFor_heartbeat (hq : QsOk p g) (conn : κ) :
    opsFor conn (heartbeatOps p g conn) = beatOps p conn := by
  unfold heartbeatOps beatOps
  cases henc : protoEncodeQueueStatus p ccFrameSize with
  | mk written rc =>
    by_cases h0 : g.qsLen = 0
    · rw [if_pos h0]
      cases rc with
      | error err => simp [opsFor, GattOp.target]
      | ok len => simp [opsFor, GattOp.target, queueStatus_slice p g.qs henc]
    · rw [if_neg h0]
      obtain hq | hq := hq
      · exact absurd hq h0
      · rw [henc] at hq
        obtain ⟨rfl, rfl⟩ := Prod.mk.inj hq
        simp [opsFor, GattOp.target]

theorem opsFor_write (hq : QsOk p s.gatt) (conn c : κ) (data : List UInt8) (offset : Nat) :
    (c = conn ∧ offset = 0 ∧ isHeartbeat p data = true) ∧
        opsFor conn (gattOps p s (.toradioWrite c data offset)) = beatOps p conn ∨
      ¬ (c = conn ∧ offset = 0 ∧ isHeartbeat p data = true) ∧
        ∀ op ∈ opsFor conn (gattOps p s (.toradioWrite c data offset)), op.Quiet := by
  by_cases hbeat : offset = 0 ∧ isHeartbeat p data = true
  · obtain ⟨rfl, hb⟩ := hbeat
    rw [gattOps_heartbeat p s c hb]
    by_cases hc : c = conn
    · subst hc
      exact .inl ⟨⟨rfl, rfl, hb⟩, opsFor_heartbeat p hq c⟩
    · refine .inr ⟨fun h => hc h.1, fun op hop => ?_⟩
      obtain ⟨hop, ht⟩ := mem_opsFor.mp hop
      unfold heartbeatOps at hop
      repeat' split at hop
      all_goals simp only [List.mem_cons, List.not_mem_nil, or_false] at hop
      · subst hop
        trivial
      · rcases hop with rfl | rfl
        · trivial
        · exact absurd (Option.some.inj ht) hc
      · subst hop
        exact absurd (Option.some.inj ht) hc
  · refine .inr ⟨fun h => hbeat h.2, fun op hop => ?_⟩
    have hop := (mem_opsFor.mp hop).1
    simp only [gattOps] at hop
    by_cases ho : offset = 0
    · subst ho
      simp only [ne_eq, not_true_eq_false, ↓reduceIte] at hop
      cases hd : protoDecodeToradio p data with
      | error err => simp [hd] at hop
      | ok ti =>
        simp only [hd] at hop
        by_cases hw : ti.hasWantConfig = true
        · rw [if_pos hw] at hop
          split at hop
          · obtain rfl := List.mem_singleton.mp hop
            trivial
          · rcases mem_parkOps hop with rfl | ⟨rfl, -⟩ <;> trivial
        · rw [if_neg hw] at hop
          have hh : ti.hasHeartbeat = false := by
            simpa [isHeartbeat, hd, hw] using hbeat
          simp [hh] at hop
    · simp [ho] at hop

-- ---------------------------------------------------------------------------
-- One step
-- ---------------------------------------------------------------------------

theorem arrivals_quiet {s' : Proxy κ} {ops : List (GattOp κ)} (hpc : slotOf s.gatt conn = some pc)
    (hslot : slotOf s'.gatt conn = some (pc.run p s.cache ops)) (hops : ∀ op ∈ ops, op.Quiet)
    (hoff : offeredAt p conn s e = []) (hfetch : fetchedAt p conn s e = []) :
    fetchedAt p conn s e ++ queueOf s' conn =
      queueOf s conn ++ (arrivalsAt p conn s e).map Arrival.bytes := by
  simp [queueOf, arrivalsAt, hslot, hpc, hoff, hfetch, run_quiet p hops]

theorem arrivals_enqueue {s' : Proxy κ} {x : Arrival} (hpc : slotOf s.gatt conn = some pc)
    (hring : pc.queue.Wf)
    (hslot : slotOf s'.gatt conn = some (pc.run p s.cache [.enqueue conn x.bytes]))
    (hoff : offeredAt p conn s e = [x]) (hfetch : fetchedAt p conn s e = []) :
    fetchedAt p conn s e ++ queueOf s' conn =
      queueOf s conn ++ (arrivalsAt p conn s e).map Arrival.bytes := by
  have harr := enqueue_arrives hring x.bytes
  simp only [queueOf, arrivalsAt, hslot, hpc, hoff, hfetch, ProxyConn.run, List.foldl_cons,
    List.foldl_nil, GattOp.onSlot, Option.map_some, Option.getD_some, List.nil_append, harr]
  by_cases ht : pc.takes x.bytes = true
  · simp [ht]
  · simp [ht]

/-- What an event takes out of a queue and leaves in it is what was there and
what came in. -/
theorem step_arrivals (hi : Inv s) (hq : QsOk p s.gatt) (he : s.Enabled e)
    (hne : e ≠ .disconnected conn) (hup : (slotOf s.gatt conn).isSome) :
    (slotOf (s.step p e).1.gatt conn).isSome ∧
      fetchedAt p conn s e ++ queueOf (s.step p e).1 conn =
        queueOf s conn ++ (arrivalsAt p conn s e).map Arrival.bytes := by
  obtain ⟨pc, hpc⟩ := Option.isSome_iff_exists.mp hup
  have hd := hi.distinct
  have hring := (hi.slots conn pc hpc).ring
  by_cases hl : e.IsLink
  · have hsame := slotOf_link p hd he hl hne hpc
    refine ⟨by simp [hsame], ?_⟩
    cases e with
    | connected | disconnected => simp [queueOf, hpc, hsame, fetchedAt, arrivalsAt, offeredAt]
    | _ => exact hl.elim
  · have hslot : slotOf (s.step p e).1.gatt conn =
        some (pc.run p s.cache (opsFor conn (gattOps p s e))) := by
      rw [slotOf_step p hd hl, hpc, Option.map_some]
    refine ⟨by simp [hslot], ?_⟩
    cases e with
    | connected | disconnected => exact absurd trivial hl
    | fromnumRead | keepalive | mainStep | txWork | uartTxDone | uartTxAborted =>
      exact arrivals_quiet p hpc hslot (by simp [opsFor, gattOps]) rfl rfl
    | nodeRegWrite c data offset =>
      refine arrivals_quiet p hpc hslot (fun op hop => ?_) rfl rfl
      have hop := (mem_opsFor.mp hop).1
      simp only [gattOps] at hop
      split at hop
      · cases hop
      · obtain rfl := List.mem_singleton.mp hop
        trivial
    | fromradioRead c len offset =>
      by_cases hfresh : c = conn ∧ offset = 0
      · obtain ⟨rfl, rfl⟩ := hfresh
        rw [opsFor_freshRead] at hslot
        have hstage := stageNext_dequeues (hi.slots c pc hpc)
        have hfetched : fetchedAt p c s (.fromradioRead c len 0) =
            if pc.dequeues = true then [(pc.stageNext s.cache).stagedBytes] else [] := by
          simp only [fetchedAt, hslot, hpc, Option.any_some, true_and]
          rfl
        rw [hfetched]
        simpa [queueOf, arrivalsAt, offeredAt, hslot, hpc, ProxyConn.run, GattOp.onSlot] using hstage
      · refine arrivals_quiet p hpc hslot (fun op hop => ?_) rfl (if_neg fun h => hfresh ⟨h.1, h.2.1⟩)
        obtain ⟨hop, ht⟩ := mem_opsFor.mp hop
        simp only [gattOps] at hop
        split at hop
        · rename_i ho
          obtain rfl := List.mem_singleton.mp hop
          exact absurd ⟨Option.some.inj ht, ho⟩ hfresh
        · cases hop
    | uartFrame payload =>
      obtain ⟨hh, hops⟩ | ⟨hh, hops⟩ := opsFor_frame p hd hpc payload
      · rw [hops] at hslot
        exact arrivals_enqueue p (x := .node payload) hpc hring hslot (by simp [offeredAt, hh]) rfl
      · exact arrivals_quiet p hpc hslot hops (by simp [offeredAt, hh]) rfl
    | toradioWrite c data offset =>
      obtain ⟨hb, hops⟩ | ⟨hb, hops⟩ := opsFor_write p hq conn c data offset
      · rw [hops] at hslot
        cases henc : protoEncodeQueueStatus p ccFrameSize with
        | mk written rc =>
          cases rc with
          | error err =>
            rw [beatOps, henc] at hslot
            exact arrivals_quiet p hpc hslot (by simp) (by simp [offeredAt, hb, henc]) rfl
          | ok len =>
            rw [beatOps, henc] at hslot
            exact arrivals_enqueue p (x := .answer written) hpc hring hslot
              (by simp [offeredAt, hb, henc]) rfl
      · exact arrivals_quiet p hpc hslot hops (by simp [offeredAt, hb]) rfl

end

-- ---------------------------------------------------------------------------
-- A run
-- ---------------------------------------------------------------------------

theorem exec_arrivals {s : Proxy κ} (hr : s.Reachable p) (hup : (slotOf s.gatt conn).isSome)
    (ha : (proxyMachine p κ).Admits s es) (hstay : ∀ e ∈ es, e ≠ .disconnected conn) :
    (proxyMachine p κ).collect (fetchedAt p conn) s es ++
        queueOf ((proxyMachine p κ).exec s es) conn =
      queueOf s conn ++ ((proxyMachine p κ).collect (arrivalsAt p conn) s es).map Arrival.bytes := by
  have hflow := Machine.exec_flow (m := proxyMachine p κ)
    (P := fun s e => s.Enabled e ∧ e ≠ .disconnected conn)
    (I := fun s => s.Reachable p ∧ (slotOf s.gatt conn).isSome) (v := fun s => queueOf s conn)
    (fun s e he h => by
      obtain ⟨hup, hflow⟩ :=
        step_arrivals p (inv_reachable p h.1) (qsOk_reachable p h.1) he.1 he.2 h.2
      exact ⟨⟨h.1.next he.1, hup⟩, hflow⟩)
    ((proxyMachine p κ).along_and.mpr ⟨ha, (proxyMachine p κ).along_of_mem hstay⟩) ⟨hr, hup⟩
  rw [Machine.collect_map]
  exact hflow

def heard (conn : κ) (s : Proxy κ) : Event κ → Bool
  | .uartFrame payload =>
    hears p s conn payload && (slotOf s.gatt conn).any fun pc => pc.takes payload
  | _ => true

theorem heard_arrives {s : Proxy κ} (h : heard p conn s e = true) :
    (arrivalsAt p conn s e).filterMap Arrival.fromNode = payloads [e] := by
  unfold arrivalsAt
  cases e with
  | uartFrame payload =>
    obtain ⟨hh, hany⟩ := Bool.and_eq_true_iff.mp h
    obtain ⟨pc, hpc, ht⟩ := (Option.any_eq_true _ _).mp hany
    simp [hpc, offeredAt, hh, ht, Arrival.bytes, Arrival.fromNode, payloads]
  | toradioWrite c data offset =>
    simp only [offeredAt]
    repeat' split
    all_goals simp [payloads, Arrival.fromNode, List.filter_cons]
  | _ =>
    simp only [offeredAt]
    split <;> rfl

theorem arrivals_sublist (conn : κ) (s : Proxy κ) (es : List (Event κ)) :
    (((proxyMachine p κ).collect (arrivalsAt p conn) s es).filterMap Arrival.fromNode).Sublist
      (payloads es) := by
  induction es generalizing s with
  | nil => exact .refl _
  | cons e es ih =>
    have hone : ((arrivalsAt p conn s e).filterMap Arrival.fromNode).Sublist (payloads [e]) := by
      unfold arrivalsAt
      split
      · exact List.nil_sublist _
      · refine (List.filter_sublist.filterMap _).trans ?_
        cases e with
        | uartFrame payload =>
          simp only [offeredAt]
          split <;> simp [payloads, Arrival.fromNode]
        | toradioWrite c data offset =>
          simp only [offeredAt]
          repeat' split
          all_goals simp [payloads, Arrival.fromNode]
        | _ => exact List.nil_sublist _
    rw [Machine.collect_cons, List.filterMap_append, ← List.singleton_append, payloads_append]
    exact hone.append (ih _)

theorem arrivals_heard {s : Proxy κ}
    (h : (proxyMachine p κ).Along (fun s e => heard p conn s e = true) s es) :
    ((proxyMachine p κ).collect (arrivalsAt p conn) s es).filterMap Arrival.fromNode =
      payloads es := by
  induction es generalizing s with
  | nil => rfl
  | cons e es ih =>
    rw [Machine.collect_cons, List.filterMap_append, heard_arrives p h.1, ih h.2,
      ← payloads_append]
    rfl

end MeshProxy

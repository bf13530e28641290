import MeshProxy.Fetch
import MeshProxy.Table

/-!
# Where a frame goes

The decision tree of `router_dispatch` as four outcomes, each with the
condition it has in the state before the frame (`Outcome.Guard`) and what it
does to the phones' queues (`Outcome.Effect`). Exactly one condition holds,
and its effect is what the frame has.
-/

namespace MeshProxy

variable {κ : Type} (p : Platform)

-- ---------------------------------------------------------------------------
-- Looking an identifier up
-- ---------------------------------------------------------------------------

theorem findSome_finRange {n : Nat} {β : Type} {f : Fin n → Option β} {b : β} :
    (List.finRange n).findSome? f = some b ↔ ∃ i, f i = some b ∧ ∀ j < i, f j = none := by
  rw [List.findSome?_eq_some_iff]
  have hsorted := List.pairwise_lt_finRange n
  constructor
  · rintro ⟨before, i, after, hl, hi, hbefore⟩
    refine ⟨i, hi, fun j hj => ?_⟩
    have hmem : j ∈ before ++ i :: after := hl ▸ List.mem_finRange j
    rw [hl, List.pairwise_append, List.pairwise_cons] at hsorted
    rw [List.mem_append, List.mem_cons] at hmem
    obtain hm | rfl | hm := hmem
    · exact hbefore j hm
    · exact absurd hj (lt_irrefl _)
    · exact absurd hj (lt_asymm (hsorted.2.1.1 j hm))
  · rintro ⟨i, hi, hj⟩
    obtain ⟨before, after, hl⟩ := List.append_of_mem (List.mem_finRange i)
    refine ⟨before, i, after, hl, hi, fun j hm => hj j ?_⟩
    rw [hl, List.pairwise_append] at hsorted
    exact hsorted.2.2 j hm i (by simp)

theorem proxyIdEqual_iff {a b : ProxyId} : proxyIdEqual a b = true ↔ a = b := by
  simp only [proxyIdEqual, List.all_eq_true, List.mem_finRange, true_imp_iff, beq_iff_eq]
  exact funext_iff.symm

theorem proxyIdIsZero_iff {id : ProxyId} : proxyIdIsZero id = true ↔ id = Cells.zero := by
  simp only [proxyIdIsZero, List.all_eq_true, List.mem_finRange, true_imp_iff, beq_iff_eq]
  exact funext_iff.symm

def Holds (g : BleGatt κ) (id : ProxyId) (i : Fin maxBleConnections) : Prop :=
  (g.conns i).conn ≠ none ∧ (g.conns i).proxyId = id

def FirstHolder (g : BleGatt κ) (id : ProxyId) (i : Fin maxBleConnections) : Prop :=
  Holds g id i ∧ ∀ j < i, ¬ Holds g id j

instance [DecidableEq κ] (g : BleGatt κ) (id : ProxyId) (i : Fin maxBleConnections) :
    Decidable (Holds g id i) :=
  inferInstanceAs (Decidable ((g.conns i).conn ≠ none ∧ (g.conns i).proxyId = id))

instance [DecidableEq κ] (g : BleGatt κ) (id : ProxyId) (i : Fin maxBleConnections) :
    Decidable (FirstHolder g id i) :=
  inferInstanceAs (Decidable (Holds g id i ∧ ∀ j < i, ¬ Holds g id j))

variable {id : ProxyId}

theorem firstHolder_unique {g : BleGatt κ} (hi : FirstHolder g id i) (hj : FirstHolder g id j) :
    i = j := by
  obtain h | h | h := lt_trichotomy i j
  · exact absurd hi.1 (hj.2 i h)
  · exact h
  · exact absurd hj.1 (hi.2 j h)

theorem firstHolder_exists {g : BleGatt κ} (h : ∃ i, Holds g id i) : ∃ i, FirstHolder g id i := by
  obtain ⟨i, hi, hmin⟩ := WellFounded.has_min (r := (· < ·)) wellFounded_lt {i | Holds g id i} h
  exact ⟨i, hi, fun j hj hh => hmin j hh hj⟩

theorem getConnByProxyId_iff {g : BleGatt κ} {conn : κ} :
    bleGattGetConnByProxyId g id = some conn ↔
      id ≠ Cells.zero ∧ ∃ i, FirstHolder g id i ∧ (g.conns i).conn = some conn := by
  have hf (i : Fin maxBleConnections) :
      (if proxyIdEqual (g.conns i).proxyId id then (g.conns i).conn else none) = none ↔
        ¬ Holds g id i := by
    unfold Holds
    split
    · rename_i he
      simp [proxyIdEqual_iff.mp he]
    · rename_i he
      simp [← proxyIdEqual_iff, he]
  unfold bleGattGetConnByProxyId
  split
  · rename_i hz
    simp [proxyIdIsZero_iff.mp hz]
  · rename_i hz
    rw [findSome_finRange]
    refine ⟨fun h => ⟨fun he => hz (proxyIdIsZero_iff.mpr he), ?_⟩, fun h => ?_⟩
    · obtain ⟨i, hi, hbefore⟩ := h
      split at hi
      · rename_i he
        exact ⟨i, ⟨⟨by simp [hi], proxyIdEqual_iff.mp he⟩, fun j hj => (hf j).mp (hbefore j hj)⟩, hi⟩
      · cases hi
    · obtain ⟨-, i, ⟨hh, hbefore⟩, hc⟩ := h
      exact ⟨i, by rw [if_pos (proxyIdEqual_iff.mpr hh.2), hc], fun j hj => (hf j).mpr (hbefore j hj)⟩

theorem getConnByProxyId_none {g : BleGatt κ} :
    bleGattGetConnByProxyId g id = none ↔ id = Cells.zero ∨ ∀ i, ¬ Holds g id i := by
  rw [Option.eq_none_iff_forall_ne_some]
  constructor
  · intro h
    by_contra hn
    rw [not_or, not_forall] at hn
    obtain ⟨hz, i, hi⟩ := hn
    obtain ⟨k, hk⟩ := firstHolder_exists ⟨i, not_not.mp hi⟩
    obtain ⟨conn, hc⟩ := Option.ne_none_iff_exists'.mp hk.1.1
    exact h conn (getConnByProxyId_iff.mpr ⟨hz, k, hk, hc⟩)
  · intro h conn hconn
    obtain ⟨hz, i, hi, -⟩ := getConnByProxyId_iff.mp hconn
    obtain hz' | hno := h
    · exact hz hz'
    · exact hno i hi.1

-- ---------------------------------------------------------------------------
-- The four outcomes
-- ---------------------------------------------------------------------------

/-- The proxy header of a decoded packet on the proxy's portnum. -/
def FromradioInfo.proxyHeader (info : FromradioInfo) : Option ProxyHeader :=
  if info.whichVariant = .packet ∧ info.isDecoded = true ∧ info.portnum = proxyPortnum then
    proxyHeaderParse info.payloadBytes
  else none

def proxyHeaderOf (payload : List UInt8) : Option ProxyHeader :=
  match protoDecodeFromradio p payload with
  | .ok info => info.proxyHeader
  | .error _ => none

def IsQueueStatus (payload : List UInt8) : Prop :=
  ∃ info, protoDecodeFromradio p payload = .ok info ∧ info.whichVariant = .queueStatus

inductive Outcome
  | consumed
  | swallowed
  | targeted (i : Fin maxBleConnections)
  | broadcast
  deriving DecidableEq, Repr

/-- When the frame has this outcome, in terms of the state it finds. -/
def Outcome.Guard (s : Proxy κ) (payload : List UInt8) : Outcome → Prop
  | .consumed => s.upstream.state = .fetching ∧ NonPacket p payload
  | .swallowed => ¬ (s.upstream.state = .fetching ∧ NonPacket p payload) ∧
      IsQueueStatus p payload ∧ s.upstream.keepalivePending = true
  | .targeted i => ∃ hdr, proxyHeaderOf p payload = some hdr ∧ hdr.dst ≠ Cells.zero ∧
      FirstHolder s.gatt hdr.dst i
  | .broadcast => ¬ (s.upstream.state = .fetching ∧ NonPacket p payload) ∧
      ¬ (IsQueueStatus p payload ∧ s.upstream.keepalivePending = true) ∧
      ∀ hdr, proxyHeaderOf p payload = some hdr →
        hdr.dst = Cells.zero ∨ ∀ i, ¬ Holds s.gatt hdr.dst i

theorem IsQueueStatus.nonPacket (h : IsQueueStatus p payload) : NonPacket p payload := by
  obtain ⟨info, hd, hv⟩ := h
  exact ⟨info, hd, by simp [hv]⟩

theorem proxyHeaderOf_packet (h : proxyHeaderOf p payload = some hdr) : ¬ NonPacket p payload := by
  rintro ⟨info, hd, hv⟩
  simp [proxyHeaderOf, hd, FromradioInfo.proxyHeader, hv] at h

theorem guard_unique {s : Proxy κ} {o o' : Outcome} (h : o.Guard p s payload)
    (h' : o'.Guard p s payload) : o = o' := by
  have htarget {i : Fin maxBleConnections} {o' : Outcome} (h : (Outcome.targeted i).Guard p s payload)
      (h' : o'.Guard p s payload) : Outcome.targeted i = o' := by
    obtain ⟨hdr, hp, hz, hi⟩ := h
    cases o' with
    | consumed => exact absurd h'.2 (proxyHeaderOf_packet p hp)
    | swallowed => exact absurd (IsQueueStatus.nonPacket p h'.2.1) (proxyHeaderOf_packet p hp)
    | targeted j =>
      obtain ⟨hdr', hp', -, hj⟩ := h'
      obtain rfl : hdr = hdr' := Option.some.inj (hp.symm.trans hp')
      rw [firstHolder_unique hi hj]
    | broadcast =>
      obtain hz' | hno := h'.2.2 hdr hp
      · exact absurd hz' hz
      · exact absurd hi.1 (hno i)
  cases o with
  | targeted i => exact htarget h h'
  | consumed =>
    cases o' with
    | consumed => rfl
    | swallowed => exact absurd h h'.1
    | targeted j => exact (htarget h' h).symm
    | broadcast => exact absurd h h'.1
  | swallowed =>
    cases o' with
    | consumed => exact absurd h' h.1
    | swallowed => rfl
    | targeted j => exact (htarget h' h).symm
    | broadcast => exact absurd h.2 h'.2.1
  | broadcast =>
    cases o' with
    | consumed => exact absurd h' h.1
    | swallowed => exact absurd h'.2 h.2.1
    | targeted j => exact (htarget h' h).symm
    | broadcast => rfl

theorem route_cases (s : Proxy κ) (info : FromradioInfo) :
    (route s info = .swallow ∧ info.whichVariant = .queueStatus ∧
      s.upstream.keepalivePending = true) ∨
    (∃ hdr conn, route s info = .targeted conn ∧ info.proxyHeader = some hdr ∧
      bleGattGetConnByProxyId s.gatt hdr.dst = some conn) ∨
    (route s info = .broadcast ∧
      ¬ (info.whichVariant = .queueStatus ∧ s.upstream.keepalivePending = true) ∧
      ∀ hdr, info.proxyHeader = some hdr → bleGattGetConnByProxyId s.gatt hdr.dst = none) := by
  unfold route FromradioInfo.proxyHeader
  by_cases hv : info.whichVariant = .packet
  · by_cases hd : info.isDecoded = true ∧ info.portnum = proxyPortnum
    · cases hp : proxyHeaderParse info.payloadBytes with
      | none => exact .inr (.inr ⟨by simp [hv, hd], by simp [hv], by simp⟩)
      | some hdr =>
        cases hg : bleGattGetConnByProxyId s.gatt hdr.dst with
        | none => exact .inr (.inr ⟨by simp [hv, hd, hg], by simp [hv], by simp [hv, hd, hg]⟩)
        | some conn => exact .inr (.inl ⟨hdr, conn, by simp [hv, hd, hg], by simp [hv, hd], hg⟩)
    · exact .inr (.inr ⟨by simp [hv, hd], by simp [hv], by simp [hd]⟩)
  · by_cases hq : info.whichVariant = .queueStatus ∧ s.upstream.keepalivePending = true
    · exact .inl ⟨by simp [hq], hq⟩
    · exact .inr (.inr ⟨by simp [hv, hq], hq, by simp [hv]⟩)

-- ---------------------------------------------------------------------------
-- Copies
-- ---------------------------------------------------------------------------

def ProxyConn.open (pc : ProxyConn κ) : Bool :=
  pc.conn.isSome && decide (pc.queue.count < fromradioQueueDepth)

/-- Slot `i` gets one copy of `data`, or nothing at all when its queue is
full. -/
structure Gets (g g' : BleGatt κ) (data : List UInt8) (i : Fin maxBleConnections) : Prop where
  room : (g.conns i).queue.count < fromradioQueueDepth →
    (g'.conns i).packets = (g.conns i).packets ++ [data] ∧ (g'.conns i).conn = (g.conns i).conn
  full : fromradioQueueDepth ≤ (g.conns i).queue.count → g'.conns i = g.conns i

theorem gets_enqueue {g g' : BleGatt κ} (hw : (g.conns i).queue.Wf)
    (hl : data.length ≤ fromradioMaxPktSize) (h : g'.conns i = (g.conns i).enqueue data) :
    Gets g g' data i where
  room hr := by
    rw [h, ProxyConn.enqueue, if_pos ⟨hl, hr⟩]
    exact ⟨push_packets hw hr hl, rfl⟩
  full hf := by
    rw [h, ProxyConn.enqueue, if_neg (by omega)]

theorem replay_packets (pc : ProxyConn κ) (nonce : UInt32) : (pc.replay p nonce).packets = pc.packets := by
  have htake : (pc.takeNonce nonce).packets = pc.packets := by
    unfold ProxyConn.takeNonce
    split <;> rfl
  have hstep := replay_step p pc nonce
  generalize pc.replay p nonce = pc' at hstep ⊢
  cases hstep with
  | armed => exact htake
  | failed => exact htake

variable [DecidableEq κ] {g : BleGatt κ} {conn : κ}

theorem enqueue_index (hd : Distinct g) (hc : (g.conns i).conn = some conn)
    (hl : data.length ≤ fromradioMaxPktSize) :
    (bleGattEnqueueFromradio g conn data).1.conns =
        Function.update g.conns i ((g.conns i).enqueue data) ∧
      ((bleGattEnqueueFromradio g conn data).2 = .ok () ↔ (g.conns i).open = true) := by
  have hf := hd.findSlot_eq.mpr hc
  unfold bleGattEnqueueFromradio ProxyConn.enqueue ProxyConn.open
  rw [if_neg (by omega), hf]
  simp only [hc, Option.isSome_some, Bool.true_and, decide_eq_true_eq]
  by_cases hr : fromradioQueueDepth ≤ (g.conns i).queue.count
  · rw [if_pos hr, if_neg (by omega)]
    simp [hr]
  · rw [if_neg hr, if_pos (by omega)]
    simp [Nat.not_le.mp hr]

theorem broadcastSlot_index (hl : data.length ≤ fromradioMaxPktSize) (hd : Distinct g) (n : Nat)
    (k : Fin maxBleConnections) :
    (broadcastSlot data (g, n) k).1.conns = Function.update g.conns k
        (if (g.conns k).conn.isSome then (g.conns k).enqueue data else g.conns k) ∧
      (broadcastSlot data (g, n) k).2 = n + if (g.conns k).open then 1 else 0 := by
  cases hc : (g.conns k).conn with
  | none => simp [broadcastSlot, ProxyConn.open, hc]
  | some conn =>
    obtain ⟨hconns, hok⟩ := enqueue_index hd hc hl
    simp only [broadcastSlot, hc, Option.isSome_some, ↓reduceIte]
    generalize bleGattEnqueueFromradio g conn data = r at hconns hok ⊢
    obtain ⟨g', rc⟩ := r
    cases rc with
    | ok => exact ⟨hconns, by simp [hok.mp rfl]⟩
    | error e =>
      have ho : (g.conns k).open = false := by
        cases h : (g.conns k).open with
        | false => rfl
        | true => cases hok.mpr h
      exact ⟨hconns, by simp [ho]⟩

/-- The broadcast loop visits each slot once, so a slot's copy does not
depend on the others'. -/
theorem broadcast_slots (hl : data.length ≤ fromradioMaxPktSize) (l : List (Fin maxBleConnections))
    (hnd : l.Nodup) (hd : Distinct g) (n : Nat) :
    (∀ i, (l.foldl (broadcastSlot data) (g, n)).1.conns i =
      if i ∈ l ∧ (g.conns i).conn.isSome then (g.conns i).enqueue data else g.conns i) ∧
    (l.foldl (broadcastSlot data) (g, n)).2 = n + l.countP fun i => (g.conns i).open := by
  induction l generalizing g n with
  | nil => simp
  | cons k l ih =>
    obtain ⟨hk, hnd⟩ := List.nodup_cons.mp hnd
    obtain ⟨hconns, hn⟩ := broadcastSlot_index hl hd n k
    rw [List.foldl_cons, List.countP_cons]
    generalize broadcastSlot data (g, n) k = r at hconns hn ⊢
    obtain ⟨g', n'⟩ := r
    dsimp only at hconns hn
    have hother (i : Fin maxBleConnections) (hi : i ≠ k) : g'.conns i = g.conns i := by
      simp [hconns, hi]
    have hd' : Distinct g' := hd.congr fun i => by
      rw [hconns]
      refine update_conn ?_ i
      split
      · exact enqueue_conn _ data
      · rfl
    obtain ⟨hslots, hcount⟩ := ih hnd hd' n'
    refine ⟨fun i => ?_, ?_⟩
    · rw [hslots i]
      by_cases hik : i = k
      · subst hik
        simp [hk, hconns]
      · simp [hik, hother i hik]
    · have hcongr : (l.countP fun i => (g'.conns i).open) = l.countP fun i => (g.conns i).open := by
        apply List.countP_congr
        intro i hi
        rw [hother i fun h => hk (h ▸ hi)]
      rw [hcount, hcongr, hn]
      omega

theorem broadcast_copies (hd : Distinct g) (hl : data.length ≤ fromradioMaxPktSize) :
    (∀ i, (bleGattBroadcastFromradio g data).1.conns i =
      if (g.conns i).conn.isSome then (g.conns i).enqueue data else g.conns i) ∧
    (bleGattBroadcastFromradio g data).2 =
      (List.finRange maxBleConnections).countP fun i => (g.conns i).open := by
  obtain ⟨hslots, hcount⟩ := broadcast_slots hl _ (List.nodup_finRange _) hd 0
  exact ⟨fun i => by simpa [bleGattBroadcastFromradio] using hslots i,
    by simpa [bleGattBroadcastFromradio] using hcount⟩

/-- The enqueues that failed with `-EMSGSIZE`. -/
def oversized (calls : List (GattCall κ)) : List (κ × List UInt8) :=
  calls.filterMap fun
    | .enqueue conn data (.error .emsgsize) => some (conn, data)
    | _ => none

theorem oversized_apply (cache : ConfigCache) (g : BleGatt κ) {op : GattOp κ}
    (hop : (∃ conn data, op = .enqueue conn data ∧ data.length ≤ fromradioMaxPktSize) ∨
      ∃ conn nonce, op = .replay conn nonce) :
    oversized (op.apply p cache g).calls = oversized g.calls := by
  obtain ⟨conn, data, rfl, hl⟩ | ⟨conn, nonce, rfl⟩ := hop
  · simp only [GattOp.apply, bleGattEnqueueFromradio]
    rw [if_neg (by omega)]
    repeat' split
    all_goals simp [oversized, BleGatt.log, BleGatt.setSlot]
  · simp only [GattOp.apply, bleGattReplayCachedBurst]
    repeat' split
    all_goals simp [oversized, BleGatt.log, BleGatt.setSlot]

theorem oversized_applyOps (cache : ConfigCache) (hl : data.length ≤ fromradioMaxPktSize)
    {ops : List (GattOp κ)}
    (hops : ∀ op ∈ ops, (∃ conn, op = .enqueue conn data) ∨ ∃ conn nonce, op = .replay conn nonce) :
    oversized (applyOps p cache g ops).calls = oversized g.calls := by
  induction ops generalizing g with
  | nil => rfl
  | cons op ops ih =>
    have hop := oversized_apply p cache g ((hops op (by simp)).imp_left fun ⟨conn, h⟩ =>
      ⟨conn, data, h, hl⟩)
    have hrest := ih (g := op.apply p cache g) fun op' hm => hops op' (by simp [hm])
    exact hrest.trans hop

theorem serveOps_packets (up : UpstreamSession κ) (cache : ConfigCache) (g : BleGatt κ)
    (i : Fin maxBleConnections) :
    ((applyOps p cache g (serveOps up)).conns i).packets = (g.conns i).packets := by
  unfold serveOps
  split
  · generalize up.pending = pending
    induction pending generalizing g with
    | nil => rfl
    | cons conn pending ih =>
      have hinner : (GattOp.replay conn 0).Inner := trivial
      refine (ih ((GattOp.replay conn 0).apply p cache g)).trans ?_
      obtain ⟨c, k, -, -, h⟩ | ⟨-, h⟩ := apply_inner p cache g hinner
      · by_cases hik : i = k
        · subst hik
          simp [h, GattOp.onSlot, replay_packets]
        · simp [h, hik]
      · rw [h]
  · rfl

-- ---------------------------------------------------------------------------
-- What each outcome does
-- ---------------------------------------------------------------------------

def Outcome.Effect (s : Proxy κ) (payload : List UInt8) (s' : Proxy κ) : Outcome → Prop
  | .consumed => enqueues s'.gatt.calls = enqueues s.gatt.calls ∧
      ∀ i, (s'.gatt.conns i).packets = (s.gatt.conns i).packets
  | .swallowed => s' = { s with upstream := { s.upstream with keepalivePending := false } }
  | .targeted i => ∃ gatt, s' = { s with gatt } ∧ Gets s.gatt gatt payload i ∧
      ∀ j, j ≠ i → gatt.conns j = s.gatt.conns j
  | .broadcast => s' = { s with gatt := (bleGattBroadcastFromradio s.gatt payload).1 } ∧
      (∀ i, (s.gatt.conns i).conn ≠ none → Gets s.gatt s'.gatt payload i) ∧
      (∀ i, (s.gatt.conns i).conn = none → s'.gatt.conns i = s.gatt.conns i) ∧
      (bleGattBroadcastFromradio s.gatt payload).2 =
        (List.finRange maxBleConnections).countP fun i => (s.gatt.conns i).open

theorem queue_wf {s : Proxy κ} (hr : s.Reachable p) (hd : Distinct s.gatt)
    (hc : (s.gatt.conns i).conn = some conn) : (s.gatt.conns i).queue.Wf :=
  (recorded_reachable p hr conn _ (hd.slotOf_eq.mpr ⟨i, hc, rfl⟩)).ring

theorem broadcast_effect {s : Proxy κ} (hr : s.Reachable p) (hl : payload.length ≤ fromradioMaxPktSize) :
    Outcome.broadcast.Effect s payload
      { s with gatt := applyOps p s.cache s.gatt (broadcastOps s.gatt payload) } := by
  have hd : Distinct s.gatt := (inv_reachable p hr).distinct
  obtain ⟨hslots, hcount⟩ := broadcast_copies hd hl
  rw [← broadcast_ops p s.cache]
  refine ⟨rfl, fun i hi => ?_, fun i hi => ?_, hcount⟩
  · obtain ⟨conn, hc⟩ := Option.ne_none_iff_exists'.mp hi
    exact gets_enqueue (queue_wf p hr hd hc) hl (by simp [hslots, hc])
  · simp [hslots, hi]

theorem FrameStep.outcome {s s' : Proxy κ} (hr : s.Reachable p)
    (hl : payload.length ≤ fromradioMaxPktSize) (hstep : FrameStep p s payload s') :
    ∃ o : Outcome, o.Guard p s payload ∧ o.Effect s payload s' := by
  have hd : Distinct s.gatt := (inv_reachable p hr).distinct
  have hcast := broadcast_effect p hr hl
  cases hstep with
  | undecodable hnone =>
    have herr : protoDecodeFromradio p payload = .error .einval := by
      simp [protoDecodeFromradio, hnone]
    refine ⟨.broadcast, ⟨?_, ?_, by simp [proxyHeaderOf, herr]⟩, hcast⟩
    · rintro ⟨-, info, hinfo, -⟩
      simp [herr] at hinfo
    · rintro ⟨⟨info, hinfo, -⟩, -⟩
      simp [herr] at hinfo
  | stored info hinfo hf hv hn =>
    exact ⟨.consumed, ⟨hf, info, hinfo, hv⟩, rfl, fun _ => rfl⟩
  | closed hf hn =>
    obtain ⟨info, hinfo, hv⟩ := decodes_of_nonce p hn
    exact ⟨.consumed, ⟨hf, info, hinfo, by simp [hv]⟩, serveOps_enqueues p _ _ _,
      serveOps_packets p _ _ _⟩
  | routed info hinfo h =>
    have hnot : ¬ (s.upstream.state = .fetching ∧ NonPacket p payload) := by
      rintro ⟨hf, info', hinfo', hv⟩
      rw [hinfo] at hinfo'
      cases hinfo'
      exact h.elim (fun hne => hne hf) hv
    have hhdr : proxyHeaderOf p payload = info.proxyHeader := by simp [proxyHeaderOf, hinfo]
    obtain ⟨hroute, hq, hk⟩ | ⟨hdr, conn, hroute, hp, hg⟩ | ⟨hroute, hq, hno⟩ := route_cases s info
    · rw [hroute]
      exact ⟨.swallowed, ⟨hnot, ⟨info, hinfo, hq⟩, hk⟩, rfl⟩
    · obtain ⟨hz, i, hi, hc⟩ := getConnByProxyId_iff.mp hg
      obtain ⟨hconns, -⟩ := enqueue_index hd hc hl
      rw [hroute]
      refine ⟨.targeted i, ⟨hdr, hhdr.trans hp, hz, hi⟩, _, rfl, ?_, ?_⟩
      · exact gets_enqueue (queue_wf p hr hd hc) hl (by simp [Route.ops, applyOps, GattOp.apply, hconns])
      · intro j hj
        simp [Route.ops, applyOps, GattOp.apply, hconns, hj]
    · rw [hroute]
      refine ⟨.broadcast, ⟨hnot, ?_, ?_⟩, hcast⟩
      · rintro ⟨⟨info', hinfo', hq'⟩, hk⟩
        rw [hinfo] at hinfo'
        cases hinfo'
        exact hq ⟨hq', hk⟩
      · intro hdr hp
        exact getConnByProxyId_none.mp (hno hdr (hhdr.symm.trans hp))

theorem FrameStep.oversized {s s' : Proxy κ} (hl : payload.length ≤ fromradioMaxPktSize)
    (hstep : FrameStep p s payload s') :
    MeshProxy.oversized s'.gatt.calls = MeshProxy.oversized s.gatt.calls := by
  cases hstep with
  | undecodable => exact oversized_applyOps p s.cache hl fun op hm => .inl (mem_broadcastOps hm)
  | stored => rfl
  | closed =>
    refine oversized_applyOps p s.cache hl fun op hm => .inr ?_
    obtain ⟨conn, -, rfl⟩ := mem_serveOps hm
    exact ⟨conn, 0, rfl⟩
  | routed => exact oversized_applyOps p s.cache hl fun op hm => .inl (mem_routeOps hm)

theorem frame_effect {s : Proxy κ} (hr : s.Reachable p) (hl : payload.length ≤ fromradioMaxPktSize)
    {o : Outcome} (hg : o.Guard p s payload) : o.Effect s payload (onFromradioUart p s payload) := by
  obtain ⟨o', hg', he⟩ := (onFromradioUart_step p s payload).outcome p hr hl
  rw [guard_unique p hg hg']
  exact he

/-- Every frame has exactly one outcome, and that outcome is what happens. -/
theorem frame_routed_once (s : Proxy κ) (hr : s.Reachable p) (payload : List UInt8)
    (hlen : 1 ≤ payload.length ∧ payload.length ≤ 512) :
    (∃! o : Outcome, o.Guard p s payload) ∧
    (∀ o : Outcome, o.Guard p s payload → o.Effect s payload (onFromradioUart p s payload)) ∧
    oversized (onFromradioUart p s payload).gatt.calls = oversized s.gatt.calls := by
  have hstep := onFromradioUart_step p s payload
  obtain ⟨o, hg, -⟩ := hstep.outcome p hr hlen.2
  exact ⟨⟨o, hg, fun o' h => guard_unique p h hg⟩, fun o' h => frame_effect p hr hlen.2 h,
    hstep.oversized p hlen.2⟩

def registeredRun : List (Event Nat) :=
  mainSteps ++ shortBurst ++ [.connected 1 0, .connected 2 0, .nodeRegWrite 2 [0, 0, 0, 7] 0]

theorem frame_routed_registered :
    (Outcome.targeted 1).Effect ((proxyMachine (packetPlatform 9) Nat).exec .boot registeredRun)
      (addressedFrame 7) (onFromradioUart (packetPlatform 9)
        ((proxyMachine (packetPlatform 9) Nat).exec .boot registeredRun) (addressedFrame 7)) :=
  (frame_routed_once (packetPlatform 9) _ ⟨registeredRun, by decide, rfl⟩ (addressedFrame 7)
    (by decide)).2.1 (.targeted 1) ⟨_, rfl, by decide, by decide⟩

end MeshProxy

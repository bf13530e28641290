import MeshProxy.Hub
import MeshProxy.LongReads
import MeshProxy.Onboarding
import MeshProxy.OwnNodeInfo
import MeshProxy.Replay
import MeshProxy.Segments
import MeshProxy.UplinkWire

/-!
# The proxy is a hub

`Hub.of` reads a hub off the proxy's static data: a ring as a list, a cursor
and a terminator buffer as the packets still owed, the arena as the list of
its frames. Every operation of the table commutes with it, so every event does
(`step_hub`), and a run of the proxy is the same run of the hub with the same
replies (`proxy_is_hub`).
-/

namespace MeshProxy

variable {κ : Type} (p : Platform)

-- ---------------------------------------------------------------------------
-- The view
-- ---------------------------------------------------------------------------

/-- What the reads of a replaying slot have still to serve. -/
def owedTo (cache : ConfigCache) (pc : ProxyConn κ) : List (List UInt8) :=
  if pc.state = .replaying ∧ pc.replayCursor ≤ cache.count then
    (segment cache pc.nonce pc.replayCursor).map (fun i => (cache.frame i).bytes) ++
      [pc.ccFrame.slice 0 pc.ccLen]
  else []

def Phone.of (cache : ConfigCache) (pc : ProxyConn κ) (conn : κ) : Phone κ where
  conn
  id := pc.proxyId
  fromnum := pc.fromnum
  phase := pc.state
  nonce := pc.nonce
  owed := owedTo cache pc
  mailbox := pc.packets
  reading := pc.stagedBytes

def phonesOf (cache : ConfigCache) (g : BleGatt κ) (i : Fin maxBleConnections) : Option (Phone κ) :=
  (g.conns i).conn.map (Phone.of cache (g.conns i))

def notifications (calls : List (GattCall κ)) : List (κ × UInt32) :=
  calls.filterMap fun
    | .notify conn fromnum => some (conn, fromnum)
    | _ => none

def Outbox.of (u : UartTx) : Outbox where
  queue := u.msgq
  wake := u.workPending
  busy := u.inProgress
  passed := u.passed
  sent := u.started

def Hub.of (s : Proxy κ) : Hub κ where
  phones := phonesOf s.cache s.gatt
  frames := s.cache.frames
  session := s.upstream.state
  nonce := s.upstream.nonce
  waiting := s.upstream.pending
  keepaliveArmed := s.upstream.keepaliveArmed
  keepaliveNonce := s.upstream.keepaliveNonce
  keepalivePending := s.upstream.keepalivePending
  outbox := .of s.uart
  receiving := s.fromradioCb
  main := s.main
  notified := notifications s.gatt.calls

-- ---------------------------------------------------------------------------
-- The segments
-- ---------------------------------------------------------------------------

variable {cache : ConfigCache} {pc : ProxyConn κ} {fs : List Frame}

def servedAt (fs : List Frame) (nonce : UInt32) (x : Frame × Nat) : Bool :=
  x.1.variant ≠ .configCompleteId ∧ (nonce = meshNonceOnlyNodes → x.1.isNodeInfo = true) ∧
    (nonce = meshNonceOnlyConfig → x.1.isNodeInfo = true → firstNodeInfo fs = some x.2)

theorem Represents.servedAt_iff (h : Represents cache fs) (hi : fs[i]? = some f) :
    cacheFrameInSegment cache i nonce = servedAt fs nonce (f, i) := by
  rw [Bool.eq_iff_iff, h.inSegment, servedAt, decide_eq_true_iff]
  constructor
  · rintro ⟨g, hg⟩
    obtain rfl : f = g := Option.some.inj (hi.symm.trans hg.stored)
    exact ⟨hg.variant, hg.nodes, hg.config⟩
  · rintro ⟨hv, hn, hc⟩
    exact ⟨f, hi, hv, hn, hc⟩

theorem Represents.segment_eq (h : Represents cache fs) (nonce : UInt32) :
    (segment cache nonce 0).map cache.frame = (fs.zipIdx.filter (servedAt fs nonce)).map Prod.fst := by
  have hzip : (List.range' 0 cache.count).map (fun i => (cache.frame i, i)) = fs.zipIdx := by
    apply List.ext_getElem
    · simp [h.count]
    · intro i hi hi'
      have hlt : i < fs.length := by simpa using hi'
      have hf := h.frame_eq (List.getElem?_eq_getElem hlt)
      simp [hf]
  have hfilter : (List.range' 0 cache.count).filter (fun i => cacheFrameInSegment cache i nonce) =
      (List.range' 0 cache.count).filter (servedAt fs nonce ∘ fun i => (cache.frame i, i)) := by
    apply List.filter_congr
    intro i hi
    have hlt : i < fs.length := by simpa [List.mem_range', h.count] using hi
    have hf : fs[i]? = some fs[i] := List.getElem?_eq_getElem hlt
    rw [h.servedAt_iff hf, Function.comp_apply, h.frame_eq hf]
  rw [← hzip, List.filter_map, List.map_map, segment, Nat.sub_zero, hfilter]
  rfl

theorem zipIdx_filter (q : Frame → Bool) (fs : List Frame) (k : Nat) :
    ((fs.zipIdx k).filter fun x => q x.1).map Prod.fst = fs.filter q := by
  induction fs generalizing k with
  | nil => rfl
  | cons f fs ih =>
    rw [List.zipIdx_cons, List.filter_cons, List.filter_cons]
    split
    · rw [List.map_cons, ih]
    · exact ih (k + 1)

theorem content_of_nodeInfo {f : Frame} (h : f.isNodeInfo = true) : f.variant ≠ .configCompleteId := by
  intro hv
  simp [Frame.isNodeInfo, hv] at h

theorem zipIdx_withOwn (fs : List Frame) (k : Nat) :
    ((fs.zipIdx k).filter fun x => decide (x.1.variant ≠ .configCompleteId) &&
        (!x.1.isNodeInfo || decide ((firstNodeInfo fs).map (· + k) = some x.2))).map Prod.fst =
      withOwn (fs.filter fun f => f.variant ≠ .configCompleteId) := by
  induction fs generalizing k with
  | nil => rfl
  | cons f fs ih =>
    cases hinfo : f.isNodeInfo with
    | true =>
      have hv := content_of_nodeInfo hinfo
      have hfirst : firstNodeInfo (f :: fs) = some 0 := by
        rw [firstNodeInfo, List.findIdx?_cons, if_pos hinfo]
      rw [List.zipIdx_cons, List.filter_cons_of_pos (by simp [hv, hfirst]),
        List.filter_cons_of_pos (by simpa using hv), List.map_cons, withOwn, if_pos hinfo,
        List.filter_filter]
      congr 1
      rw [← zipIdx_filter _ fs (k + 1)]
      congr 1
      apply List.filter_congr
      intro x hx
      have hge : k + 1 ≤ x.2 := List.le_snd_of_mem_zipIdx hx
      have hne : ¬ k = x.2 := by omega
      simp [hfirst, hne, Bool.and_comm]
    | false =>
      have hfirst : firstNodeInfo (f :: fs) = (firstNodeInfo fs).map (· + 1) := by
        rw [firstNodeInfo, List.findIdx?_cons, if_neg (by simp [hinfo])]
        rfl
      have hshift : (firstNodeInfo (f :: fs)).map (· + k) = (firstNodeInfo fs).map (· + (k + 1)) := by
        rw [hfirst, Option.map_map]
        congr 1
        funext i
        simp only [Function.comp_apply]
        omega
      rw [List.zipIdx_cons, hshift, List.filter_cons, List.filter_cons]
      by_cases hv : f.variant = .configCompleteId
      · simp only [hv, ne_eq, not_true_eq_false, decide_false, Bool.false_and, Bool.false_eq_true,
          ↓reduceIte]
        exact ih (k + 1)
      · simp only [hv, hinfo, ne_eq, not_false_eq_true, decide_true, Bool.not_false, Bool.true_or,
          Bool.and_self, ↓reduceIte, List.map_cons, withOwn, Bool.false_eq_true]
        rw [ih (k + 1)]

theorem Represents.burstFor_eq (h : Represents cache fs) (nonce : UInt32) :
    (segment cache nonce 0).map cache.frame = burstFor fs nonce := by
  rw [h.segment_eq, burstFor]
  by_cases hn : nonce = meshNonceOnlyNodes
  · rw [if_pos hn, List.filter_filter, ← zipIdx_filter _ fs 0]
    congr 1
    apply List.filter_congr
    intro x _
    simp [servedAt, hn, Bool.and_comm, meshNonceOnlyNodes, meshNonceOnlyConfig]
  · rw [if_neg hn]
    by_cases hc : nonce = meshNonceOnlyConfig
    · rw [if_pos hc, ← zipIdx_withOwn fs 0]
      congr 1
      apply List.filter_congr
      intro x _
      cases hinfo : x.1.isNodeInfo with
      | true => simp [servedAt, hc, hinfo]
      | false => simp [servedAt, hn, hinfo]
    · rw [if_neg hc, ← zipIdx_filter _ fs 0]
      congr 1
      apply List.filter_congr
      intro x _
      simp [servedAt, hn, hc]

-- ---------------------------------------------------------------------------
-- One slot
-- ---------------------------------------------------------------------------

/-- What the view of a slot rests on. -/
structure Storable (cache : ConfigCache) (pc : ProxyConn κ) : Prop where
  ring : pc.queue.Wf
  entry_le : ∀ e ∈ pc.queue.toList, e.len ≤ fromradioMaxPktSize
  cursor : pc.state = .replaying → pc.replayCursor ≤ cache.count + 1
  terminator : CcFits pc

theorem owedTo_idle (h : pc.state ≠ .replaying) : owedTo cache pc = [] := if_neg fun hc => h hc.1

theorem length_packets (pc : ProxyConn κ) : pc.packets.length = pc.queue.count := by
  simp [ProxyConn.packets]

theorem Storable.enqueue (h : Storable cache pc) (data : List UInt8) :
    Storable cache (pc.enqueue data) := by
  unfold ProxyConn.enqueue
  split
  · rename_i hc
    refine ⟨h.ring.put hc.2, ?_, h.cursor, h.terminator⟩
    intro e he
    simp only [ProxyConn.push, Ring.toList_put h.ring hc.2, List.mem_append, List.mem_singleton] at he
    rcases he with he | rfl
    · exact h.entry_le e he
    · exact hc.1
  · exact h

theorem of_push (h : Storable cache pc) (hc : pc.queue.count < fromradioQueueDepth)
    (hl : data.length ≤ fromradioMaxPktSize) (conn : κ) :
    Phone.of cache (pc.push data) conn = (Phone.of cache pc conn).post data := by
  have hp := push_packets h.ring hc hl
  simp only [Phone.of, Phone.post, hp]
  rfl

/-- A fresh read takes the next packet that is owed, else the oldest one in the
mailbox. -/
theorem of_stageNext (h : Storable cache pc) (hw : cache.Wf) (hz : cache.Sized) (conn : κ) :
    Phone.of cache (pc.stageNext cache) conn = (Phone.of cache pc conn).take := by
  have hstep := stageNext_step hw.count_le h.cursor
  generalize pc.stageNext cache = pc' at hstep ⊢
  cases hstep with
  | frame i hs hi hseg =>
    have hne : segment cache pc.nonce pc.replayCursor ≠ [] := by simp [hseg]
    have hlen : (cache.frame i).bytes.length ≤ fromradioMaxPktSize := by
      rw [ConfigCache.frame, cacheFrameBytes, Cells.length_slice]
      exact (hz i hi).2
    have howed : owedTo cache pc = (cache.frame i).bytes ::
        owedTo cache { pc.stage (cache.frame i).bytes with replayCursor := i + 1 } := by
      rw [owedTo, if_pos ⟨hs, segment_ne_nil hne⟩, hseg, owedTo, if_pos ⟨hs, Nat.succ_le_of_lt hi⟩]
      rfl
    simp only [Phone.take, Phone.of, hs, howed, ↓reduceIte]
    rw [Phone.mk.injEq]
    exact ⟨rfl, rfl, rfl, hs, rfl, rfl, rfl, stage_bytes hlen⟩
  | terminator hs hc hseg =>
    have hlen : (pc.ccFrame.slice 0 pc.ccLen).length ≤ fromradioMaxPktSize := by
      rw [Cells.length_slice]
      exact Nat.le_trans (h.terminator hs) (by decide)
    have howed : owedTo cache pc = [pc.ccFrame.slice 0 pc.ccLen] := by
      rw [owedTo, if_pos ⟨hs, hc⟩, hseg]
      rfl
    have hdone : owedTo cache
        { pc.stage (pc.ccFrame.slice 0 pc.ccLen) with replayCursor := cache.count + 1 } = [] :=
      if_neg fun hcur => Nat.not_succ_le_self _ hcur.2
    simp only [Phone.take, Phone.of, hs, howed, ↓reduceIte]
    rw [Phone.mk.injEq]
    exact ⟨rfl, rfl, rfl, hs, rfl, hdone, rfl, stage_bytes hlen⟩
  | drained hs hc =>
    have howed : owedTo cache pc = [] := if_neg fun hcur => by omega
    simp only [Phone.take, Phone.of, hs, howed, ↓reduceIte]
    rw [Phone.mk.injEq]
    exact ⟨rfl, rfl, rfl, rfl, rfl, owedTo_idle (by simp), rfl, rfl⟩
  | packet hs hc =>
    have hlen : pc.queue.front.bytes.length ≤ fromradioMaxPktSize := by
      rw [PktEntry.bytes, Cells.length_slice]
      exact h.entry_le _ (by rw [Ring.toList_pop _ hc]; exact List.mem_cons_self)
    simp only [Phone.take, Phone.of, hs, pop_packets hc, ↓reduceIte]
    rw [Phone.mk.injEq]
    exact ⟨rfl, rfl, rfl, rfl, rfl, rfl, rfl, stage_bytes hlen⟩
  | empty hs hc =>
    have hnil : pc.packets = [] := List.length_eq_zero_iff.mp (by rw [length_packets, hc])
    simp only [Phone.take, Phone.of, hs, hnil, ↓reduceIte]
    rw [Phone.mk.injEq]
    exact ⟨rfl, rfl, rfl, rfl, rfl, rfl, hnil, rfl⟩

theorem takeNonce_nonce (pc : ProxyConn κ) (nonce : UInt32) :
    (pc.takeNonce nonce).nonce = if nonce ≠ 0 then nonce else pc.nonce := by
  unfold ProxyConn.takeNonce
  split <;> rfl

/-- Every terminator can be encoded. -/
def Platform.EncodesTerminators (p : Platform) : Prop :=
  ∀ nonce, ∃ n, (protoEncodeConfigComplete p nonce ccFrameSize).2 = .ok n

theorem Storable.replay (henc : p.EncodesTerminators) (h : Storable cache pc) (nonce : UInt32) :
    Storable cache (pc.replay p nonce) := by
  have hcc : CcFits (pc.replay p nonce) := h.terminator.replay p nonce
  rw [replay_arms p henc] at hcc ⊢
  have htake := takeNonce_eq pc nonce
  refine ⟨?_, ?_, fun _ => Nat.zero_le _, hcc⟩
  · rw [htake]
    exact h.ring
  · rw [htake]
    exact h.entry_le

theorem of_replay (henc : p.EncodesTerminators) (hrep : Represents cache fs) (nonce : UInt32) (conn : κ) :
    Phone.of cache (pc.replay p nonce) conn = (Phone.of cache pc conn).replay p fs nonce := by
  have hnonce := takeNonce_nonce pc nonce
  have htake := takeNonce_eq pc nonce
  rw [replay_arms p henc]
  generalize pc.takeNonce nonce = pc' at hnonce htake ⊢
  have howed : owedTo cache (pc'.arm (terminator p pc'.nonce)) =
      (burstFor fs pc'.nonce).map Frame.bytes ++ [terminator p pc'.nonce] := by
    rw [owedTo, if_pos ⟨rfl, Nat.zero_le _⟩, arm_terminator, ← hrep.burstFor_eq, List.map_map]
    rfl
  simp only [Phone.of, howed]
  rw [htake, hnonce]
  rfl

-- ---------------------------------------------------------------------------
-- The uplink
-- ---------------------------------------------------------------------------

def UartTx.Short (u : UartTx) : Prop := ∀ payload ∈ u.msgq, payload.length ≤ meshtasticMaxPayload

theorem UartTx.Short.pass {u : UartTx} (h : u.Short) (payload : List UInt8) :
    (uartMeshtasticTx u payload).1.Short := by
  obtain ⟨-, hq, hlen⟩ := uartMeshtasticTx_takes u payload
  intro pl hmem
  rw [hq] at hmem
  rcases List.mem_append.mp hmem with hold | hnew
  · exact h pl hold
  · split at hnew
    · rename_i htake
      obtain rfl := List.mem_singleton.mp hnew
      exact hlen htake
    · cases hnew

theorem UartTx.Short.run {u : UartTx} (h : u.Short) (hw : u.workPending = true) (failed : Bool) :
    (txWorkHandler u failed).Short := by
  have hq := (txWorkHandler_frames u hw h failed).1
  intro pl hmem
  refine h pl ?_
  rw [← hq]
  exact List.mem_append_right _ hmem

theorem of_pass (u : UartTx) (payload : List UInt8) :
    Outbox.of (uartMeshtasticTx u payload).1 = (Outbox.of u).pass payload ∧
      ((uartMeshtasticTx u payload).2 = .ok () ↔ (Outbox.of u).Takes payload) := by
  unfold uartMeshtasticTx txMsgqPut Outbox.pass Outbox.Takes
  by_cases hl : meshtasticMaxPayload < payload.length
  · have hl' : ¬ payload.length ≤ meshtasticMaxPayload := by omega
    simp [hl, hl', Outbox.of]
  · have hl' : payload.length ≤ meshtasticMaxPayload := by omega
    by_cases hq : txQueueDepth ≤ u.msgq.length
    · have hq' : ¬ u.msgq.length < txQueueDepth := by omega
      simp [hl, hq, hq', Outbox.of]
    · have hq' : u.msgq.length < txQueueDepth := by omega
      simp [hl, hl', hq, hq', Outbox.of, txWorkSubmit]

theorem of_run {u : UartTx} (h : u.Short) (failed : Bool) :
    Outbox.of (if u.workPending then txWorkHandler u failed else u) = (Outbox.of u).run failed := by
  unfold Outbox.run txWorkHandler
  cases hw : u.workPending with
  | false => simp [Outbox.of, hw]
  | true =>
    cases hb : u.inProgress with
    | true => simp [Outbox.of, hw, hb]
    | false =>
      cases hq : u.msgq with
      | nil => simp [Outbox.of, hw, hb, hq]
      | cons entry rest =>
        have hlen := h entry (by simp [hq])
        have hframe := frameBuf_slice u hlen
        cases failed <;> simp [Outbox.of, hw, hb, hq, hframe, txWorkSubmit]

theorem of_forward (s : Proxy κ) (data : List UInt8) :
    Hub.of (s.forward data) = (Hub.of s).pass data := by
  have h := (of_pass s.uart data).1
  simp only [Proxy.forward, Hub.of, Hub.pass, h]

theorem keepalive_cases (up : UpstreamSession κ) (uart : UartTx) :
    (∃ buf len, protoEncodeHeartbeat p up.keepaliveNonce 16 = (buf, .ok len) ∧
      keepaliveWorkHandler p up uart =
        ({ up with
            keepaliveNonce := keepaliveNextNonce up.keepaliveNonce
            keepalivePending := (uartMeshtasticTx uart buf).2.isOk },
          (uartMeshtasticTx uart buf).1)) ∨
    (∃ buf err, protoEncodeHeartbeat p up.keepaliveNonce 16 = (buf, .error err) ∧
      keepaliveWorkHandler p up uart =
        ({ up with keepaliveNonce := keepaliveNextNonce up.keepaliveNonce }, uart)) := by
  cases henc : protoEncodeHeartbeat p up.keepaliveNonce 16 with
  | mk buf rc =>
    cases rc with
    | ok len =>
      have heq := keepaliveWorkHandler_eq p up uart ⟨len, by rw [henc]⟩
      rw [henc] at heq
      exact .inl ⟨buf, len, rfl, heq⟩
    | error err => exact .inr ⟨buf, err, rfl, by simp [keepaliveWorkHandler, henc]⟩

-- ---------------------------------------------------------------------------
-- The table
-- ---------------------------------------------------------------------------

def EachStorable (s : Proxy κ) : Prop :=
  ∀ i, (s.gatt.conns i).conn.isSome → Storable s.cache (s.gatt.conns i)

theorem phonesOf_setSlot (cache : ConfigCache) (g : BleGatt κ) (i : Fin maxBleConnections)
    (pc : ProxyConn κ) :
    phonesOf cache (g.setSlot i pc) =
      Function.update (phonesOf cache g) i (pc.conn.map (Phone.of cache pc)) := by
  funext j
  by_cases hj : j = i
  · subst hj
    simp [phonesOf]
  · simp [phonesOf, hj]

theorem of_setSlot (s : Proxy κ) (i : Fin maxBleConnections) (pc : ProxyConn κ) :
    Hub.of (s.withGatt (s.gatt.setSlot i pc)) =
      (Hub.of s).setPhone i (pc.conn.map (Phone.of s.cache pc)) := by
  have h := phonesOf_setSlot s.cache s.gatt i pc
  simp only [Hub.of, Hub.setPhone, Proxy.withGatt, h]
  rfl

theorem of_log (s : Proxy κ) (g : BleGatt κ) (calls : List (GattCall κ)) :
    Hub.of (s.withGatt (g.log calls)) =
      { Hub.of (s.withGatt g) with notified := notifications g.calls ++ notifications calls } := by
  have h : notifications (g.calls ++ calls) = notifications g.calls ++ notifications calls :=
    List.filterMap_append
  simp only [Hub.of, Proxy.withGatt, BleGatt.log, h]
  rfl

theorem of_log_quiet (s : Proxy κ) (g : BleGatt κ) (h : notifications calls = []) :
    Hub.of (s.withGatt (g.log calls)) = Hub.of (s.withGatt g) := by
  rw [of_log, h, List.append_nil]
  rfl

theorem of_congr (s : Proxy κ) {g g' : BleGatt κ} (hc : g'.conns = g.conns)
    (hn : notifications g'.calls = notifications g.calls) :
    Hub.of (s.withGatt g') = Hub.of (s.withGatt g) := by
  have hphones : phonesOf s.cache g' = phonesOf s.cache g := by
    funext i
    simp only [phonesOf, hc]
  simp only [Hub.of, Proxy.withGatt, hphones, hn]

theorem of_clear (cache : ConfigCache) (pc : ProxyConn κ) (conn : κ) :
    Phone.of cache (pc.clear (some conn)) conn = { conn } := by
  have howed : owedTo cache (pc.clear (some conn)) = [] := owedTo_idle (by simp [ProxyConn.clear])
  simp only [Phone.of, howed]
  rfl

variable {s : Proxy κ}

theorem EachStorable.setSlot (hs : EachStorable s) {g : BleGatt κ} (hpc : Storable s.cache pc)
    (hg : g.conns = (s.gatt.setSlot i pc).conns) : EachStorable (s.withGatt g) := by
  intro j hj
  simp only [withGatt_gatt, hg, setSlot_conns] at hj ⊢
  by_cases hji : j = i
  · subst hji
    rw [Function.update_self]
    exact hpc
  · rw [Function.update_of_ne hji] at hj ⊢
    exact hs j hj

theorem EachStorable.congr (hs : EachStorable s) {g : BleGatt κ} (hg : g.conns = s.gatt.conns) :
    EachStorable (s.withGatt g) := by
  intro i hi
  simp only [withGatt_gatt, hg] at hi ⊢
  exact hs i hi

theorem notifications_quiet {calls calls' : List (GattCall κ)}
    (h : ∀ call ∈ calls', ∀ c n, call ≠ .notify c n) :
    notifications (calls ++ calls') = notifications calls := by
  have hnil : notifications calls' = [] := by
    rw [notifications, List.filterMap_eq_nil_iff]
    intro call hc
    cases call with
    | notify c n => exact absurd rfl (h _ hc c n)
    | _ => rfl
  rw [notifications, List.filterMap_append]
  exact (congrArg _ hnil).trans (List.append_nil _)

theorem onConnected_notifications (g : BleGatt κ) (conn : κ) (err : UInt8) :
    notifications (onConnected g conn err).calls = notifications g.calls := by
  by_cases he : err = 0
  · subst he
    obtain ⟨tail, hcalls, htail⟩ := onConnected_calls g conn
    rw [hcalls, notifications_quiet]
    · split
      · exact notifications_quiet (by simp)
      · rfl
    · intro call hc
      rcases htail call hc with rfl | ⟨rfl, -⟩ <;> simp
  · simp [onConnected, he]

theorem of_connected (s : Proxy κ) (conn : κ) (err : UInt8) :
    Hub.of (s.withGatt (onConnected s.gatt conn err)) =
      if err ≠ 0 then Hub.of s else (Hub.of s).connect conn := by
  have hnote := onConnected_notifications s.gatt conn err
  have hfree : ((List.finRange maxBleConnections).find? fun i => ((Hub.of s).phones i).isNone) =
      freeIndex s.gatt := by
    unfold freeIndex
    congr 1
    funext i
    cases hc : (s.gatt.conns i).conn with
    | none => simp [Hub.of, phonesOf, hc]
    | some c => simp [Hub.of, phonesOf, hc]
  rcases onConnected_conns s.gatt conn err with ⟨i, rfl, hi, hc⟩ | ⟨hno, hc⟩
  · have hset := of_setSlot s i ((s.gatt.conns i).clear (some conn))
    rw [show ((s.gatt.conns i).clear (some conn)).conn = some conn from rfl, Option.map_some,
      of_clear] at hset
    rw [of_congr s hc hnote, hset]
    simp only [Hub.connect, hfree, hi, ne_eq, not_true_eq_false, ↓reduceIte]
  · rw [of_congr s hc hnote]
    split
    · rfl
    · rename_i he
      rw [Hub.connect, hfree, hno (not_not.mp he)]
      rfl

theorem owner_of (s : Proxy κ) (id : ProxyId) :
    (Hub.of s).owner id = bleGattGetConnByProxyId s.gatt id := by
  unfold Hub.owner bleGattGetConnByProxyId
  split
  · rfl
  · congr 1
    funext i
    cases hc : (s.gatt.conns i).conn with
    | none => simp [Hub.of, phonesOf, hc]
    | some c => simp [Hub.of, phonesOf, hc, Phone.of]

variable [DecidableEq κ]

theorem find_of (s : Proxy κ) (conn : κ) : (Hub.of s).find conn = findSlot s.gatt conn := by
  unfold Hub.find findSlot
  congr 1
  funext i
  cases hc : (s.gatt.conns i).conn with
  | none => simp [Hub.of, phonesOf, hc]
  | some c => simp [Hub.of, phonesOf, hc, Phone.of]

theorem phone_of (hf : findSlot s.gatt conn = some i) :
    (Hub.of s).phone conn = some (Phone.of s.cache (s.gatt.conns i) conn) := by
  have hphone : (Hub.of s).phones i = some (Phone.of s.cache (s.gatt.conns i) conn) := by
    simp [Hub.of, phonesOf, findSlot_conn hf]
  rw [Hub.phone, find_of, hf, Option.bind_some, hphone]

theorem phone_none (hf : findSlot s.gatt conn = none) : (Hub.of s).phone conn = none := by
  simp [Hub.phone, find_of, hf]

theorem alter_of (hf : findSlot s.gatt conn = some i) (hc : pc.conn = (s.gatt.conns i).conn)
    {f : Phone κ → Phone κ}
    (h : Phone.of s.cache pc conn = f (Phone.of s.cache (s.gatt.conns i) conn)) :
    Hub.of (s.withGatt (s.gatt.setSlot i pc)) = (Hub.of s).alter conn f := by
  have hconn := findSlot_conn hf
  have hphone : (Hub.of s).phones i = some (Phone.of s.cache (s.gatt.conns i) conn) := by
    simp [Hub.of, phonesOf, hconn]
  rw [of_setSlot, Hub.alter, find_of, hf, hc, hconn]
  simp only [hphone, Option.map_some, h]

theorem of_enqueue (hs : EachStorable s) (conn : κ) (data : List UInt8) :
    Hub.of (s.withGatt (bleGattEnqueueFromradio s.gatt conn data).1) = (Hub.of s).deliver conn data := by
  unfold bleGattEnqueueFromradio Hub.deliver
  cases hf : findSlot s.gatt conn with
  | none =>
    rw [phone_none hf]
    split <;> exact of_log_quiet s s.gatt rfl
  | some i =>
    have hst : Storable s.cache (s.gatt.conns i) := hs i (by rw [findSlot_conn hf]; rfl)
    have hlen : (Phone.of s.cache (s.gatt.conns i) conn).mailbox.length =
        (s.gatt.conns i).queue.count := length_packets _
    rw [phone_of hf]
    simp only [Phone.HasRoom, hlen]
    by_cases hl : fromradioMaxPktSize < data.length
    · rw [if_pos hl, if_neg (by omega)]
      exact of_log_quiet s s.gatt rfl
    · rw [if_neg hl]
      by_cases hc : fromradioQueueDepth ≤ (s.gatt.conns i).queue.count
      · rw [if_pos hc, if_neg (by omega)]
        exact of_log_quiet s s.gatt rfl
      · have hpush : Phone.of s.cache ((s.gatt.conns i).push data) conn =
            (Phone.of s.cache (s.gatt.conns i) conn).post data := of_push hst (by omega) (by omega) conn
        rw [if_neg hc, if_pos ⟨by omega, by omega⟩, of_log, ← alter_of hf (push_conn _ data) hpush]
        rfl

theorem EachStorable.enqueue (p : Platform) (hs : EachStorable s) (conn : κ) (data : List UInt8) :
    EachStorable (s.withGatt (bleGattEnqueueFromradio s.gatt conn data).1) := by
  have hinner : (GattOp.enqueue conn data).Inner := trivial
  rcases apply_inner p s.cache s.gatt hinner with ⟨c, i, -, hi, hg⟩ | ⟨-, hg⟩
  · exact hs.setSlot ((hs i (by rw [findSlot_conn hi]; rfl)).enqueue data) hg
  · exact hs.congr hg

theorem of_broadcast (p : Platform) (hs : EachStorable s) (data : List UInt8) :
    Hub.of (s.withGatt (bleGattBroadcastFromradio s.gatt data).1) = (Hub.of s).broadcast data := by
  unfold bleGattBroadcastFromradio Hub.broadcast
  generalize List.finRange maxBleConnections = l
  generalize 0 = n
  induction l generalizing s n with
  | nil => rfl
  | cons i l ih =>
    rw [List.foldl_cons, List.foldl_cons]
    cases hc : (s.gatt.conns i).conn with
    | none =>
      have hb : broadcastSlot data (s.gatt, n) i = (s.gatt, n) := by simp [broadcastSlot, hc]
      have hphone : (Hub.of s).phones i = none := by simp [Hub.of, phonesOf, hc]
      simp only [hb, hphone]
      exact ih hs n
    | some conn =>
      have hb : ∃ m, broadcastSlot data (s.gatt, n) i =
          ((bleGattEnqueueFromradio s.gatt conn data).1, m) := by
        simp only [broadcastSlot, hc]
        obtain ⟨g', _ | _⟩ := bleGattEnqueueFromradio s.gatt conn data <;> exact ⟨_, rfl⟩
      obtain ⟨m, hb⟩ := hb
      have hphone : (Hub.of s).phones i = some (Phone.of s.cache (s.gatt.conns i) conn) := by
        simp [Hub.of, phonesOf, hc]
      simp only [hb, hphone]
      rw [show (Phone.of s.cache (s.gatt.conns i) conn).conn = conn from rfl, ← of_enqueue hs conn data]
      exact ih (hs.enqueue p conn data) m

theorem replayCached_eq (henc : p.EncodesTerminators) {g : BleGatt κ} (hf : findSlot g conn = some i)
    (nonce : UInt32) :
    ∃ n, bleGattReplayCachedBurst p conn nonce g =
      (g.setSlot i ((g.conns i).replay p nonce)).log
        [.armed conn n, .notify conn ((g.conns i).replay p nonce).fromnum] := by
  obtain ⟨n, hn⟩ := henc ((g.conns i).takeNonce nonce).nonce
  simp only [bleGattReplayCachedBurst, hf, ProxyConn.replay]
  generalize protoEncodeConfigComplete p ((g.conns i).takeNonce nonce).nonce ccFrameSize = enc at hn
  obtain ⟨cc, _ | _⟩ := enc
  · cases hn
  · exact ⟨_, rfl⟩

theorem of_replayCached (henc : p.EncodesTerminators) (hrep : Represents s.cache s.cache.frames)
    (conn : κ) (nonce : UInt32) :
    Hub.of (s.withGatt (bleGattReplayCachedBurst p conn nonce s.gatt)) =
      (Hub.of s).replay p conn nonce := by
  unfold Hub.replay
  cases hf : findSlot s.gatt conn with
  | none =>
    rw [phone_none hf]
    simp only [bleGattReplayCachedBurst, hf]
    rfl
  | some i =>
    obtain ⟨n, hn⟩ := replayCached_eq p henc hf nonce
    have hphone : Phone.of s.cache ((s.gatt.conns i).replay p nonce) conn = _ :=
      of_replay p henc hrep nonce conn
    have hfromnum : ((s.gatt.conns i).replay p nonce).fromnum = (s.gatt.conns i).fromnum + 1 :=
      congrArg Phone.fromnum hphone
    have halter := alter_of hf (replay_conn p _ nonce)
      (f := fun ph => ph.replay p (Hub.of s).frames nonce) hphone
    rw [phone_of hf, hn, of_log, hfromnum]
    simp only [Hub.notify, ← halter]
    rfl

theorem EachStorable.replay (henc : p.EncodesTerminators) (hs : EachStorable s) (conn : κ)
    (nonce : UInt32) : EachStorable (s.withGatt (bleGattReplayCachedBurst p conn nonce s.gatt)) := by
  have hinner : (GattOp.replay conn nonce).Inner := trivial
  rcases apply_inner p s.cache s.gatt hinner with ⟨c, i, -, hi, hg⟩ | ⟨-, hg⟩
  · exact hs.setSlot ((hs i (by rw [findSlot_conn hi]; rfl)).replay p henc nonce) hg
  · exact hs.congr hg

theorem of_serve (henc : p.EncodesTerminators) (hs : EachStorable s)
    (hrep : Represents s.cache s.cache.frames) (pending : List κ) :
    Hub.of (s.withGatt (applyOps p s.cache s.gatt (pending.map fun conn => .replay conn 0))) =
      pending.foldl (fun h conn => h.replay p conn 0) (Hub.of s) := by
  induction pending generalizing s with
  | nil => rfl
  | cons conn pending ih =>
    rw [List.foldl_cons, ← of_replayCached p henc hrep]
    exact ih (hs.replay p henc conn 0) hrep

theorem of_register (conn : κ) (id : ProxyId) :
    Hub.of (s.withGatt (bleGattRegisterProxyId s.gatt conn id).1) =
      (Hub.of s).alter conn fun ph => { ph with id } := by
  unfold bleGattRegisterProxyId
  cases hf : findSlot s.gatt conn with
  | none =>
    rw [Hub.alter, find_of, hf]
    rfl
  | some i =>
    have hconn : ({ s.gatt.conns i with proxyId := id } : ProxyConn κ).conn = (s.gatt.conns i).conn := rfl
    exact alter_of hf hconn (f := fun ph => { ph with id }) rfl

theorem of_disconnected (s : Proxy κ) (conn : κ) :
    Hub.of (s.withGatt (onDisconnected s.gatt conn)) = (Hub.of s).disconnect conn := by
  have hnote : notifications (onDisconnected s.gatt conn).calls = notifications s.gatt.calls := by
    obtain ⟨tail, hcalls, htail⟩ := onDisconnected_calls s.gatt conn
    rw [hcalls]
    apply notifications_quiet
    intro call hc
    rcases htail call hc with rfl | rfl <;> simp
  rw [Hub.disconnect, find_of]
  rcases onDisconnected_conns s.gatt conn with ⟨i, hi, hc⟩ | ⟨hno, hc⟩
  · rw [of_congr s hc hnote, of_setSlot, hi]
    rfl
  · rw [of_congr s hc hnote, hno]
    rfl

theorem step_short (h : s.uart.Short) (e : Event κ) : (s.step p e).1.uart.Short := by
  cases e with
  | connected | disconnected | fromnumRead | fromradioRead | nodeRegWrite | uartTxDone |
    uartTxAborted => exact h
  | toradioWrite conn data offset =>
    simp only [Proxy.step, toradioWrite]
    split
    · exact h
    · rw [onToradioBle_uart]
      split
      · exact h.pass data
      · exact h
  | uartFrame payload =>
    simp only [Proxy.step]
    split
    · have hstep := onFromradioUart_step p s payload
      generalize onFromradioUart p s payload = s' at hstep ⊢
      cases hstep <;> exact h
    · exact h
  | keepalive =>
    simp only [Proxy.step]
    split
    · rcases keepalive_cases p s.upstream s.uart with ⟨buf, _, -, heq⟩ | ⟨_, _, -, heq⟩
      · rw [heq]
        exact h.pass buf
      · rw [heq]
        exact h
    · exact h
  | mainStep =>
    simp only [Proxy.step, mainStep]
    cases s.main with
    | uartInit => cases p.uartBringUp <;> exact h
    | setServeCb | returned => exact h
    | start pc =>
      cases pc with
      | tx buf =>
        have hpass := h.pass buf
        simp only [upstreamSessionStart]
        generalize uartMeshtasticTx s.uart buf = r at hpass ⊢
        obtain ⟨u, _ | _⟩ := r <;> exact hpass
      | pickNonce =>
        simp only [upstreamSessionStart]
        split <;> exact h
      | cacheBegin | resetPending | setFetching | armKeepalive | done => exact h
  | txWork failed =>
    simp only [Proxy.step]
    split
    · rename_i hw
      exact h.run hw failed
    · exact h

-- ---------------------------------------------------------------------------
-- Events
-- ---------------------------------------------------------------------------

/-- The states of the proxy that the view is faithful on. -/
structure Sound (s : Proxy κ) : Prop where
  inv : Inv s
  cc : EachSlot CcFits s.gatt
  represents : Represents s.cache s.cache.frames
  qs : QsOk p s.gatt
  short : s.uart.Short

theorem step_sound (h : Sound p s) (he : s.Enabled e) : Sound p (s.step p e).1 where
  inv := step_inv p h.inv he
  cc := step_ccFits p h.inv.distinct he h.cc
  represents := step_represents p h.represents
  qs := h.qs.step p e
  short := step_short p h.short e

theorem sound_boot : Sound p (Proxy.boot : Proxy κ) where
  inv := boot_inv
  cc := eachSlot_boot _
  represents := (Represents.empty {}).self
  qs := .inl rfl
  short := by
    intro payload hmem
    cases hmem

theorem Sound.storable (h : Sound p s) : EachStorable s := by
  intro i hi
  obtain ⟨conn, hc⟩ := Option.isSome_iff_exists.mp hi
  have hslot : slotOf s.gatt conn = some (s.gatt.conns i) := h.inv.distinct.slotOf_eq.mpr ⟨i, hc, rfl⟩
  have hi := h.inv.slots conn _ hslot
  exact ⟨hi.ring, hi.entry_le, hi.cursor, h.cc conn _ hslot⟩

theorem Sound.not_replaying (h : Sound p s) (hl : s.upstream.state ≠ .live) (i : Fin maxBleConnections)
    (hi : (s.gatt.conns i).conn.isSome) : (s.gatt.conns i).state ≠ .replaying := by
  obtain ⟨conn, hc⟩ := Option.isSome_iff_exists.mp hi
  have hslot : slotOf s.gatt conn = some (s.gatt.conns i) := h.inv.distinct.slotOf_eq.mpr ⟨i, hc, rfl⟩
  intro hs
  exact hl (h.inv.phase.ready_iff.mp ((h.inv.slots conn _ hslot).ready hs))

theorem Sound.phonesOf_cache (h : Sound p s) (hl : s.upstream.state ≠ .live) (cache : ConfigCache) :
    phonesOf cache s.gatt = phonesOf s.cache s.gatt := by
  funext i
  unfold phonesOf
  cases hc : (s.gatt.conns i).conn with
  | none => rfl
  | some conn =>
    have hs := h.not_replaying p hl i (by simp [hc])
    simp only [Option.map_some, Phone.of, owedTo_idle hs]

theorem of_route (h : Sound p s) (payload : List UInt8) (info : FromradioInfo) :
    Hub.of { s with
        gatt := applyOps p s.cache s.gatt ((route s info).ops s.gatt payload)
        upstream := match route s info with
          | .swallow => { s.upstream with keepalivePending := false }
          | _ => s.upstream } = (Hub.of s).route payload info := by
  have hbroadcast : Hub.of (s.withGatt (applyOps p s.cache s.gatt (broadcastOps s.gatt payload))) =
      (Hub.of s).broadcast payload := by
    rw [← broadcast_ops]
    exact of_broadcast p (h.storable p) payload
  have hpending : (Hub.of s).keepalivePending = s.upstream.keepalivePending := rfl
  unfold route Hub.route
  simp only [hpending, owner_of]
  by_cases hv : info.whichVariant = .packet
  · simp only [hv, ne_eq, not_true_eq_false, ↓reduceIte]
    by_cases hd : info.isDecoded = true ∧ info.portnum = proxyPortnum
    · simp only [hd, and_self, ↓reduceIte]
      cases (proxyHeaderParse info.payloadBytes).bind
          fun hdr => bleGattGetConnByProxyId s.gatt hdr.dst with
      | none => exact hbroadcast
      | some conn => exact of_enqueue (h.storable p) conn payload
    · simp only [hd, ↓reduceIte]
      exact hbroadcast
  · simp only [hv, ne_eq, not_false_eq_true, ↓reduceIte]
    by_cases hq : info.whichVariant = .queueStatus ∧ s.upstream.keepalivePending = true
    · simp only [hq, and_self, ↓reduceIte]
      rfl
    · simp only [hq, ↓reduceIte]
      exact hbroadcast

theorem of_goLive (henc : p.EncodesTerminators) (h : Sound p s) (hf : s.upstream.state = .fetching) :
    Hub.of (s.goLive p) = (Hub.of s).goLive p := by
  have hserve : serveOps s.upstream = s.upstream.pending.map fun conn => .replay conn 0 :=
    if_pos (h.inv.phase.serveCb (by simp [hf]))
  have hrun := of_serve p henc (h.storable p) h.represents s.upstream.pending
  rw [← hserve] at hrun
  unfold Hub.goLive
  rw [show (Hub.of s).waiting = s.upstream.pending from rfl, ← hrun]
  rfl

theorem of_frame (henc : p.EncodesTerminators) (h : Sound p s) (payload : List UInt8) :
    Hub.of (onFromradioUart p s payload) = (Hub.of s).onFrame p payload := by
  have hstep := onFromradioUart_step p s payload
  have hsession : (Hub.of s).session = s.upstream.state := rfl
  have hnonce : (Hub.of s).nonce = s.upstream.nonce := rfl
  unfold Hub.onFrame
  generalize onFromradioUart p s payload = s' at hstep ⊢
  cases hstep with
  | undecodable hd =>
    have he : protoDecodeFromradio p payload = .error .einval := by simp [protoDecodeFromradio, hd]
    rw [he, ← broadcast_ops]
    exact of_broadcast p (h.storable p) payload
  | stored info hd hf hv hn =>
    have hl : s.upstream.state ≠ .live := by simp [hf]
    have hphones := h.phonesOf_cache p hl (cacheAddFrame s.cache payload info.whichVariant).1
    have hframes : (cacheAddFrame s.cache payload info.whichVariant).1.frames = _ :=
      cacheAddFrame_frames h.inv.cacheWf
    simp only [hd, hsession, hf, hv, ne_eq, not_false_eq_true, and_self, ↓reduceIte, hnonce, hn]
    simp only [Hub.of, hphones, hframes, hf]
  | closed hf hn =>
    obtain ⟨info, hd, hv⟩ := decodes_of_nonce p hn
    simp only [hd, hsession, hf, hv, hnonce, hn, ne_eq, reduceCtorEq, not_false_eq_true, and_self,
      ↓reduceIte]
    exact of_goLive p henc h hf
  | routed info hd hr =>
    have hno : ¬ (s.upstream.state = .fetching ∧ info.whichVariant ≠ .packet) := by tauto
    simp only [hd, hsession, hno, ↓reduceIte]
    exact of_route p h payload info

theorem of_park (hl : s.cache.ready = false) (conn : κ) (nonce : UInt32) :
    Hub.of { s with
        gatt := applyOps p s.cache s.gatt (parkOps s conn nonce), upstream := parkSession s conn } =
      (Hub.of s).park conn nonce := by
  have hwaiting : (Hub.of s).waiting = s.upstream.pending := rfl
  unfold Hub.park parkOps parkSession
  cases hf : findSlot s.gatt conn with
  | none =>
    rw [phone_none hf]
    rfl
  | some i =>
    have hphone : Phone.of s.cache ((s.gatt.conns i).park nonce) conn =
        (Phone.of s.cache (s.gatt.conns i) conn).park nonce := by
      have howed : owedTo s.cache ((s.gatt.conns i).park nonce) = [] :=
        owedTo_idle (by simp [ProxyConn.park])
      simp only [Phone.of, howed]
      rfl
    have hconn : ((s.gatt.conns i).park nonce).conn = (s.gatt.conns i).conn := rfl
    have halter := alter_of hf hconn (f := fun ph => ph.park nonce) hphone
    have hpark : applyOps p s.cache s.gatt [.park conn nonce] =
        s.gatt.setSlot i ((s.gatt.conns i).park nonce) := by
      simp [applyOps, GattOp.apply, parkSlot, hf]
    simp only [hl, Option.isSome_some, and_self, Bool.false_eq_true, false_and, ↓reduceIte, hpark,
      phone_of hf, UpstreamSession.enqueuePending, hwaiting, ← halter]
    split
    · rfl
    · split <;> rfl

theorem of_heartbeat (h : Sound p s) (conn : κ) :
    Hub.of (s.withGatt (bleGattReplyQueuestatus p s.gatt conn)) =
      match protoEncodeQueueStatus p ccFrameSize with
      | (written, .ok _) => (Hub.of s).deliver conn written
      | (_, .error _) => Hub.of s := by
  obtain ⟨qs, qsLen, -, hops⟩ := heartbeat_beatOps p h.qs s.cache conn
  have hqs : Hub.of (s.withGatt (s.gatt.withQs qs qsLen)) = Hub.of s := rfl
  rw [bleGattReplyQueuestatus_eq p s.cache, hops, beatOps]
  generalize protoEncodeQueueStatus p ccFrameSize = enc
  obtain ⟨written, _ | _⟩ := enc
  · exact hqs
  · have hst : EachStorable (s.withGatt (s.gatt.withQs qs qsLen)) := h.storable p
    exact (of_enqueue hst conn written).trans (by rw [hqs])

theorem of_write (henc : p.EncodesTerminators) (h : Sound p s) (conn : κ) (data : List UInt8) :
    Hub.of (onToradioBle p s conn data) = (Hub.of s).onWrite p conn data := by
  have hsession : (Hub.of s).session = s.upstream.state := rfl
  unfold onToradioBle Hub.onWrite
  cases protoDecodeToradio p data with
  | error e => exact of_forward s data
  | ok ti =>
    simp only [hsession]
    by_cases hw : ti.hasWantConfig = true
    · simp only [hw, ↓reduceIte, or_iff_right h.inv.phase.settled]
      by_cases hl : s.upstream.state = .live
      · simp only [hl, ↓reduceIte]
        exact of_replayCached p henc h.represents conn ti.wantConfigId
      · simp only [hl, ↓reduceIte, bleGattParkPending_eq]
        exact of_park p (h.inv.phase.not_ready hl) conn ti.wantConfigId
    · simp only [hw]
      by_cases hh : ti.hasHeartbeat = true
      · simp only [hh, ↓reduceIte]
        exact of_heartbeat p h conn
      · simp only [hh]
        exact of_forward s data

theorem of_keepalive (s : Proxy κ) :
    Hub.of (s.step p .keepalive).1 = (Hub.of s).keepalive p := by
  have harmed : (Hub.of s).keepaliveArmed = s.upstream.keepaliveArmed := rfl
  have hnonce : (Hub.of s).keepaliveNonce = s.upstream.keepaliveNonce := rfl
  simp only [Proxy.step, Hub.keepalive, harmed, hnonce]
  cases harm : s.upstream.keepaliveArmed with
  | false => rfl
  | true =>
    simp only [↓reduceIte, Bool.true_eq_false]
    rcases keepalive_cases p s.upstream s.uart with ⟨buf, len, henc, heq⟩ | ⟨buf, err, henc, heq⟩
    · obtain ⟨hpass, htakes⟩ := of_pass s.uart buf
      have hok : (uartMeshtasticTx s.uart buf).2.isOk = decide ((Outbox.of s.uart).Takes buf) := by
        rw [Bool.eq_iff_iff, decide_eq_true_iff, ← htakes]
        obtain ⟨_, _ | _⟩ := uartMeshtasticTx s.uart buf <;> simp [Except.isOk, Except.toBool]
      rw [heq, henc]
      simp only [Hub.of, Hub.pass, hpass, hok, harm]
    · rw [heq, henc]
      simp only [Hub.of, harm]

theorem of_mainStep (h : Sound p s) : Hub.of (mainStep p s) = (Hub.of s).mainStep p := by
  have hmain : (Hub.of s).main = s.main := rfl
  unfold Hub.mainStep
  rw [hmain]
  cases hm : s.main with
  | uartInit =>
    unfold mainStep
    rw [hm]
    cases p.uartBringUp <;> rfl
  | setServeCb =>
    unfold mainStep
    rw [hm]
    rfl
  | returned =>
    unfold mainStep
    rw [hm]
  | start pc =>
    cases pc with
    | pickNonce =>
      simp only [mainStep, hm, upstreamSessionStart]
      split <;> rfl
    | cacheBegin buf =>
      have hb : s.upstream.state = .boot := h.inv.phase.early (by rw [hm]; trivial)
      have hphones := h.phonesOf_cache p (by simp [hb]) (cacheBegin s.cache)
      simp only [mainStep, hm, upstreamSessionStart, Hub.of, hphones]
      rfl
    | resetPending buf =>
      simp only [mainStep, hm, upstreamSessionStart]
      rfl
    | tx buf =>
      obtain ⟨hpass, htakes⟩ := of_pass s.uart buf
      have hsent : ∀ r, uartMeshtasticTx s.uart buf = r →
          mainStep p s =
            { s with uart := r.1, main := .start (if r.2 = .ok () then .setFetching else .done) } := by
        rintro ⟨u, _ | _⟩ hr <;> simp [mainStep, hm, upstreamSessionStart, hr]
      rw [hsent _ rfl]
      by_cases ht : (Hub.of s).outbox.Takes buf
      · simp only [htakes.mpr ht, ht, ↓reduceIte]
        simp only [Hub.of, Hub.pass, hpass]
      · simp only [htakes.not.mpr ht, ht, ↓reduceIte]
        simp only [Hub.of, Hub.pass, hpass]
    | setFetching =>
      simp only [mainStep, hm, upstreamSessionStart]
      rfl
    | armKeepalive =>
      simp only [mainStep, hm, upstreamSessionStart]
      rfl
    | done =>
      simp only [mainStep, hm, upstreamSessionStart]
      rw [← hm]

theorem of_read (h : Sound p s) (conn : κ) (len offset : Nat) :
    (Hub.of (s.withGatt (fromradioRead p s.cache s.gatt conn len offset).1),
      (fromradioRead p s.cache s.gatt conn len offset).2) = (Hub.of s).read p conn len offset := by
  have hanswer (pc : ProxyConn κ) :
      pc.serveStaged p len offset = (Phone.of s.cache pc conn).answer p len offset := by
    have hlen : pc.stagedBytes = [] ↔ pc.stagedLen = 0 := by
      rw [← List.length_eq_zero_iff, ProxyConn.stagedBytes, Cells.length_slice]
    have hreading : (Phone.of s.cache pc conn).reading = pc.stagedBytes := rfl
    unfold ProxyConn.serveStaged Phone.answer
    rw [hreading]
    by_cases h0 : pc.stagedLen = 0
    · rw [if_neg (by omega), if_pos (hlen.mpr h0)]
    · rw [if_pos (by omega), if_neg (fun hb => h0 (hlen.mp hb))]
  unfold fromradioRead Hub.read
  cases hf : findSlot s.gatt conn with
  | none =>
    rw [phone_none hf]
    rfl
  | some i =>
    rw [phone_of hf]
    by_cases ho : offset = 0
    · have hst := h.storable p i (by rw [findSlot_conn hf]; rfl)
      have hphone := of_stageNext hst h.inv.cacheWf h.inv.sized conn
      have halter := alter_of hf (stageNext_conn _ s.cache) (f := Phone.take) hphone
      simp only [ho, ↓reduceIte] at hanswer ⊢
      rw [of_log_quiet s _ rfl, halter, hanswer, hphone]
    · simp only [ho, ↓reduceIte, hanswer]
      rfl

theorem step_hub (henc : p.EncodesTerminators) (h : Sound p s) (e : Event κ) :
    (Hub.of s).step p e = (Hub.of (s.step p e).1, (s.step p e).2) := by
  cases e with
  | connected conn err => exact congrArg (·, Reply.none) (of_connected s conn err).symm
  | disconnected conn => exact congrArg (·, Reply.none) (of_disconnected s conn).symm
  | fromnumRead conn len offset =>
    simp only [Hub.step, Proxy.step, Hub.readFromnum, fromnumRead]
    cases hf : findSlot s.gatt conn with
    | none => rw [phone_none hf]
    | some i =>
      rw [phone_of hf]
      rfl
  | fromradioRead conn len offset =>
    have hread := of_read p h conn len offset
    simp only [Hub.step, ← hread]
    rfl
  | toradioWrite conn data offset =>
    simp only [Hub.step, Proxy.step, toradioWrite]
    split
    · rfl
    · rw [of_write p henc h conn data]
  | nodeRegWrite conn data offset =>
    simp only [Hub.step, Proxy.step, nodeRegWrite]
    split
    · rfl
    · have hreg := of_register (s := s) conn (ProxyId.ofBytes data 0)
      rw [← hreg]
      rfl
  | uartFrame payload =>
    have hcb : (Hub.of s).receiving = s.fromradioCb := rfl
    simp only [Hub.step, Proxy.step, hcb, ← of_frame p henc h payload]
    split <;> rfl
  | keepalive =>
    have hreply : (s.step p .keepalive).2 = .none := by
      simp only [Proxy.step]
      split <;> rfl
    simp only [Hub.step, of_keepalive, hreply]
  | mainStep => exact congrArg (·, Reply.none) (of_mainStep p h).symm
  | txWork failed =>
    have hrun := of_run h.short failed
    simp only [Hub.step, Proxy.step]
    rw [show (Hub.of s).outbox = Outbox.of s.uart from rfl, ← hrun]
    split <;> rfl
  | uartTxDone | uartTxAborted => rfl

theorem hub_simulates (henc : p.EncodesTerminators) :
    (proxyMachine p κ).Simulates (hubMachine p κ) (Sound p) Hub.of := by
  intro s e he h
  refine ⟨step_sound p h he, ?_, step_hub p henc h e⟩
  cases e with
  | connected conn err =>
    intro h0
    rw [find_of]
    exact he h0
  | uartFrame payload => exact he
  | _ => trivial

/-- Every run of the proxy is the same run of the hub: every read and write gets
the same reply, the same notifications go out, and the proxy's tables hold what
the hub holds. -/
theorem proxy_is_hub (henc : p.EncodesTerminators) (es : List (Event κ))
    (ha : (proxyMachine p κ).Admits .boot es) :
    (hubMachine p κ).outs {} es = (proxyMachine p κ).outs .boot es ∧
      (hubMachine p κ).exec {} es = Hub.of ((proxyMachine p κ).exec .boot es) ∧
      (hubMachine p κ).Admits {} es := by
  obtain ⟨hadm, hexec, houts⟩ := (hub_simulates p henc).exec ha (sound_boot p)
  exact ⟨houts, hexec, hadm⟩

theorem proxy_is_hub_secondRound :
    (hubMachine (wirePlatform 9) Nat).outs {} secondRound =
        (proxyMachine (wirePlatform 9) Nat).outs .boot secondRound ∧
      (hubMachine (wirePlatform 9) Nat).exec {} secondRound =
        Hub.of ((proxyMachine (wirePlatform 9) Nat).exec .boot secondRound) ∧
      (hubMachine (wirePlatform 9) Nat).Admits {} secondRound :=
  proxy_is_hub (wirePlatform 9) (wire_encodesConfigComplete 9).succeeds secondRound (by decide)

end MeshProxy

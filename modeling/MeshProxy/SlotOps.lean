import MeshProxy.GattOps

/-!
# The operations on one slot

One specification for each: what an accepted packet does to the queue, the
five outcomes of a fresh read (`StageStep`) and the two of arming a replay
(`ReplayStep`).
-/

namespace MeshProxy

variable {κ : Type} (p : Platform) {pc : ProxyConn κ} {cache : ConfigCache}

-- ---------------------------------------------------------------------------
-- The queue
-- ---------------------------------------------------------------------------

theorem bytes_stored (e : PktEntry) (h : data.length ≤ fromradioMaxPktSize) :
    PktEntry.bytes { data := e.data.memcpy 0 data, len := data.length } = data :=
  Cells.slice_memcpy _ _ (by simpa using h)

theorem push_packets (hw : pc.queue.Wf) (hc : pc.queue.count < fromradioQueueDepth)
    (hl : data.length ≤ fromradioMaxPktSize) : (pc.push data).packets = pc.packets ++ [data] := by
  simp only [ProxyConn.packets, ProxyConn.push, Ring.toList_put hw hc, List.map_append, List.map_cons,
    List.map_nil, bytes_stored _ hl]

theorem pop_packets (hc : 0 < pc.queue.count) :
    pc.packets = pc.queue.front.bytes :: pc.queue.pop.toList.map PktEntry.bytes := by
  rw [ProxyConn.packets, Ring.toList_pop _ hc]
  rfl

theorem stage_bytes (h : bytes.length ≤ fromradioMaxPktSize) : (pc.stage bytes).stagedBytes = bytes :=
  Cells.slice_memcpy _ _ (by simpa using h)

-- ---------------------------------------------------------------------------
-- States
-- ---------------------------------------------------------------------------

theorem enqueue_state (pc : ProxyConn κ) (data : List UInt8) : (pc.enqueue data).state = pc.state := by
  unfold ProxyConn.enqueue
  split <;> rfl

theorem takeNonce_state (pc : ProxyConn κ) (nonce : UInt32) : (pc.takeNonce nonce).state = pc.state := by
  rw [takeNonce_eq]

theorem stageNext_state (cache : ConfigCache) (pc : ProxyConn κ) :
    (pc.stageNext cache).state = pc.state ∨ (pc.stageNext cache).state = .active := by
  unfold ProxyConn.stageNext ProxyConn.stageReplay
  simp only
  repeat' split
  all_goals first | exact .inl rfl | exact .inr rfl

theorem stageNext_cc (cache : ConfigCache) (pc : ProxyConn κ) :
    (pc.stageNext cache).ccFrame = pc.ccFrame ∧ (pc.stageNext cache).ccLen = pc.ccLen := by
  unfold ProxyConn.stageNext ProxyConn.stageReplay
  simp only
  repeat' split
  all_goals exact ⟨rfl, rfl⟩

-- ---------------------------------------------------------------------------
-- The segment a replay serves
-- ---------------------------------------------------------------------------

/-- The indices from `cursor` on that a replay with this nonce serves. -/
def segment (cache : ConfigCache) (nonce : UInt32) (cursor : Nat) : List Nat :=
  (List.range' cursor (cache.count - cursor)).filter fun i => cacheFrameInSegment cache i nonce

theorem segment_of_le (h : cache.count ≤ cursor) : segment cache nonce cursor = [] := by
  simp [segment, Nat.sub_eq_zero_of_le h]

theorem segment_cons (h : cursor < cache.count) :
    segment cache nonce cursor =
      if cacheFrameInSegment cache cursor nonce then cursor :: segment cache nonce (cursor + 1)
      else segment cache nonce (cursor + 1) := by
  obtain ⟨k, hk⟩ : ∃ k, cache.count - cursor = k + 1 := ⟨cache.count - cursor - 1, by omega⟩
  have hk' : cache.count - (cursor + 1) = k := by omega
  simp only [segment, hk, hk', List.range'_succ, List.filter_cons]

theorem skip_spec (hcount : cache.count ≤ configCacheMaxFrames) (nonce : UInt32) (fuel : Nat)
    (hfuel : cursor + fuel = cache.count) :
    (ProxyConn.skip cache nonce fuel cursor < cache.count ∧
      segment cache nonce cursor = ProxyConn.skip cache nonce fuel cursor ::
        segment cache nonce (ProxyConn.skip cache nonce fuel cursor + 1)) ∨
    (ProxyConn.skip cache nonce fuel cursor = cache.count ∧ segment cache nonce cursor = []) := by
  induction fuel generalizing cursor with
  | zero => exact .inr ⟨hfuel, segment_of_le (by omega)⟩
  | succ fuel ih =>
    have hlt : cursor < cache.count := by omega
    have hsucc : u16 (cursor + 1) = cursor + 1 := by
      apply u16_of_lt
      simp only [configCacheMaxFrames] at hcount
      omega
    simp only [ProxyConn.skip, cacheFrameCount, hlt, true_and, hsucc]
    cases hseg : cacheFrameInSegment cache cursor nonce with
    | true =>
      refine .inl ⟨by simpa using hlt, ?_⟩
      rw [segment_cons hlt, if_pos hseg]
      simp
    | false =>
      simp only [↓reduceIte]
      rw [segment_cons hlt, if_neg (by simp [hseg])]
      exact ih (by omega)

-- ---------------------------------------------------------------------------
-- A fresh read
-- ---------------------------------------------------------------------------

/-- The outcomes of `fromradio_read` at offset 0. -/
inductive StageStep (cache : ConfigCache) (pc : ProxyConn κ) : ProxyConn κ → Prop
  | frame (i : Nat) (hs : pc.state = .replaying) (hi : i < cache.count)
      (hseg : segment cache pc.nonce pc.replayCursor = i :: segment cache pc.nonce (i + 1)) :
      StageStep cache pc { pc.stage (cache.frame i).bytes with replayCursor := i + 1 }
  | terminator (hs : pc.state = .replaying) (hc : pc.replayCursor ≤ cache.count)
      (hseg : segment cache pc.nonce pc.replayCursor = []) :
      StageStep cache pc
        { pc.stage (pc.ccFrame.slice 0 pc.ccLen) with replayCursor := cache.count + 1 }
  | drained (hs : pc.state = .replaying) (hc : pc.replayCursor = cache.count + 1) :
      StageStep cache pc { pc with state := .active, stagedLen := 0 }
  | packet (hs : pc.state ≠ .replaying) (hc : 0 < pc.queue.count) :
      StageStep cache pc { pc.stage pc.queue.front.bytes with queue := pc.queue.pop }
  | empty (hs : pc.state ≠ .replaying) (hc : pc.queue.count = 0) :
      StageStep cache pc { pc with stagedLen := 0 }

theorem stageNext_step (hcount : cache.count ≤ configCacheMaxFrames)
    (hcur : pc.state = .replaying → pc.replayCursor ≤ cache.count + 1) :
    StageStep cache pc (pc.stageNext cache) := by
  unfold ProxyConn.stageNext
  have hu16 (i : Nat) (hi : i ≤ cache.count) : u16 (i + 1) = i + 1 := by
    apply u16_of_lt
    simp only [configCacheMaxFrames] at hcount
    omega
  by_cases hs : pc.state = .replaying
  · rw [if_pos hs, cacheFrameCount]
    rcases Nat.lt_or_ge cache.count pc.replayCursor with hc | hc
    · have hend : pc.replayCursor = cache.count + 1 := by
        have := hcur hs
        omega
      have hskip : ProxyConn.skip cache pc.nonce (cache.count - pc.replayCursor) pc.replayCursor =
          pc.replayCursor := by
        rw [Nat.sub_eq_zero_of_le (by omega)]
        rfl
      rw [hskip, ProxyConn.stageReplay, cacheFrameCount, if_neg (by omega), if_neg (by omega)]
      exact .drained hs hend
    · have hfuel : pc.replayCursor + (cache.count - pc.replayCursor) = cache.count := by omega
      have hspec := skip_spec hcount pc.nonce _ hfuel
      generalize ProxyConn.skip cache pc.nonce _ pc.replayCursor = i at hspec ⊢
      unfold ProxyConn.stageReplay cacheFrameCount
      rcases hspec with ⟨hi, hseg⟩ | ⟨rfl, hseg⟩
      · rw [if_pos hi]
        have hat : cacheFrameAt cache i = some (cache.index.read i) := if_neg (by omega)
        simp only [hat, hu16 i (by omega)]
        exact .frame i hs hi hseg
      · rw [if_neg (by omega), if_pos rfl, hu16 _ (Nat.le_refl _)]
        exact .terminator hs hc hseg
  · rw [if_neg hs]
    split
    · rename_i hc
      exact .packet hs hc
    · rename_i hc
      exact .empty hs (by omega)

-- ---------------------------------------------------------------------------
-- Arming a replay
-- ---------------------------------------------------------------------------

def terminator (nonce : UInt32) : List UInt8 := (protoEncodeConfigComplete p nonce ccFrameSize).1

theorem terminator_le (nonce : UInt32) : (terminator p nonce).length ≤ ccFrameSize := by
  unfold terminator protoEncodeConfigComplete protoEncode
  split <;> exact p.encodeFromRadio_le _ _

inductive ReplayStep (pc : ProxyConn κ) : ProxyConn κ → Prop
  | armed (h : ∃ n, (protoEncodeConfigComplete p pc.nonce ccFrameSize).2 = .ok n) :
      ReplayStep pc (pc.arm (terminator p pc.nonce))
  | failed (h : ∃ e, (protoEncodeConfigComplete p pc.nonce ccFrameSize).2 = .error e) :
      ReplayStep pc { pc with ccFrame := pc.ccFrame.memcpy 0 (terminator p pc.nonce) }

theorem replay_step (pc : ProxyConn κ) (nonce : UInt32) :
    ReplayStep p (pc.takeNonce nonce) (pc.replay p nonce) := by
  unfold ProxyConn.replay
  simp only
  split
  · rename_i written _ henc
    have ht : written = terminator p (pc.takeNonce nonce).nonce := by rw [terminator, henc]
    rw [ht]
    exact .failed ⟨_, congrArg Prod.snd henc⟩
  · rename_i cc _ henc
    have ht : cc = terminator p (pc.takeNonce nonce).nonce := by rw [terminator, henc]
    rw [ht]
    exact .armed ⟨_, congrArg Prod.snd henc⟩

theorem replay_arms (henc : ∀ nonce, ∃ n, (protoEncodeConfigComplete p nonce ccFrameSize).2 = .ok n)
    (pc : ProxyConn κ) (nonce : UInt32) :
    pc.replay p nonce = (pc.takeNonce nonce).arm (terminator p (pc.takeNonce nonce).nonce) := by
  have hstep := replay_step p pc nonce
  generalize pc.replay p nonce = pc' at hstep ⊢
  cases hstep with
  | armed => rfl
  | failed h =>
    obtain ⟨n, hn⟩ := henc (pc.takeNonce nonce).nonce
    obtain ⟨e, he⟩ := h
    cases hn.symm.trans he

theorem arm_terminator (pc : ProxyConn κ) (nonce : UInt32) :
    (pc.arm (terminator p nonce)).ccFrame.slice 0 (pc.arm (terminator p nonce)).ccLen =
      terminator p nonce := by
  have hle := terminator_le p nonce
  have hlen : (terminator p nonce).length % 256 = (terminator p nonce).length := by
    apply Nat.mod_eq_of_lt
    simp only [ccFrameSize] at hle
    omega
  simp only [ProxyConn.arm, hlen]
  exact Cells.slice_memcpy _ _ (by omega)

theorem replay_state (pc : ProxyConn κ) (nonce : UInt32) :
    (pc.replay p nonce).state = pc.state ∨ (pc.replay p nonce).state = .replaying := by
  have hstep := replay_step p pc nonce
  generalize pc.replay p nonce = pc' at hstep ⊢
  cases hstep with
  | armed => exact .inr rfl
  | failed => exact .inl (takeNonce_state pc nonce)

-- ---------------------------------------------------------------------------
-- The identifier
-- ---------------------------------------------------------------------------

theorem stageNext_proxyId (cache : ConfigCache) (pc : ProxyConn κ) :
    (pc.stageNext cache).proxyId = pc.proxyId := by
  unfold ProxyConn.stageNext ProxyConn.stageReplay
  simp only
  repeat' split
  all_goals rfl

theorem onSlot_proxyId (cache : ConfigCache) (pc : ProxyConn κ) {op : GattOp κ}
    (hop : ∀ conn id, op ≠ .register conn id) : (op.onSlot p cache pc).proxyId = pc.proxyId := by
  cases op with
  | register conn id => exact absurd rfl (hop conn id)
  | enqueue conn data =>
    simp only [GattOp.onSlot, ProxyConn.enqueue]
    split <;> rfl
  | replay conn nonce =>
    simp only [GattOp.onSlot, ProxyConn.replay, ProxyConn.takeNonce]
    repeat' split
    all_goals rfl
  | stage conn => exact stageNext_proxyId cache pc
  | connected | disconnected | park | setQs => rfl

end MeshProxy

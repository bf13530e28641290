import MeshProxy.SlotOps
import MeshProxy.Slots

/-!
# The invariant of the proxy

What holds between any two events, from the moment `main` advertises:
`Phase` ties the session, the publish flag and the main thread together,
`SlotInv` is about one connected slot and the cache it replays from, and
`Inv` is both with the shape of the table and of the cache.
-/

namespace MeshProxy

variable {κ : Type}

-- ---------------------------------------------------------------------------
-- One slot
-- ---------------------------------------------------------------------------

structure SlotInv (cache : ConfigCache) (pc : ProxyConn κ) : Prop where
  ring : pc.queue.Wf
  entry_le : ∀ e ∈ pc.queue.toList, e.len ≤ fromradioMaxPktSize
  ready : pc.state = .replaying → cache.ready = true
  cursor : pc.state = .replaying → pc.replayCursor ≤ cache.count + 1

section
variable (p : Platform) {pc : ProxyConn κ} {cache : ConfigCache} {op : GattOp κ}

theorem SlotInv.clear (cache : ConfigCache) (pc : ProxyConn κ) (conn : Option κ) :
    SlotInv cache (pc.clear conn) :=
  ⟨Ring.Wf.reset _, fun _ h => (nomatch h), fun h => (nomatch h), fun h => (nomatch h)⟩

theorem SlotInv.push (h : SlotInv cache pc) (hc : pc.queue.count < fromradioQueueDepth)
    (hl : data.length ≤ fromradioMaxPktSize) : SlotInv cache (pc.push data) := by
  refine ⟨h.ring.put hc, ?_, h.ready, h.cursor⟩
  intro e he
  simp only [ProxyConn.push, Ring.toList_put h.ring hc, List.mem_append, List.mem_singleton] at he
  rcases he with he | rfl
  · exact h.entry_le e he
  · exact hl

theorem SlotInv.enqueue (h : SlotInv cache pc) (data : List UInt8) :
    SlotInv cache (pc.enqueue data) := by
  unfold ProxyConn.enqueue
  split
  · rename_i hc
    exact h.push hc.2 hc.1
  · exact h

theorem SlotInv.takeNonce (h : SlotInv cache pc) (nonce : UInt32) :
    SlotInv cache (pc.takeNonce nonce) := by
  rw [takeNonce_eq]
  exact ⟨h.ring, h.entry_le, h.ready, h.cursor⟩

theorem SlotInv.replay (h : SlotInv cache pc) (hr : cache.ready = true) (nonce : UInt32) :
    SlotInv cache (pc.replay p nonce) := by
  have ht := h.takeNonce nonce
  have hstep := replay_step p pc nonce
  generalize pc.replay p nonce = pc' at hstep
  cases hstep with
  | armed => exact ⟨ht.ring, ht.entry_le, fun _ => hr, fun _ => Nat.zero_le _⟩
  | failed => exact ⟨ht.ring, ht.entry_le, ht.ready, ht.cursor⟩

theorem SlotInv.stageNext (h : SlotInv cache pc) (hcount : cache.count ≤ configCacheMaxFrames) :
    SlotInv cache (pc.stageNext cache) := by
  have hstep := stageNext_step hcount h.cursor
  generalize pc.stageNext cache = pc' at hstep
  cases hstep with
  | frame i hs hi => exact ⟨h.ring, h.entry_le, h.ready, fun _ => by simp only; omega⟩
  | terminator => exact ⟨h.ring, h.entry_le, h.ready, fun _ => Nat.le_refl _⟩
  | drained => exact ⟨h.ring, h.entry_le, fun hr => (nomatch hr), fun hr => (nomatch hr)⟩
  | packet hs hc =>
    refine ⟨h.ring.pop hc, ?_, h.ready, h.cursor⟩
    intro e he
    apply h.entry_le
    rw [Ring.toList_pop _ hc]
    exact List.mem_cons_of_mem _ he
  | empty => exact ⟨h.ring, h.entry_le, h.ready, h.cursor⟩

theorem SlotInv.park (h : SlotInv cache pc) (nonce : UInt32) : SlotInv cache (pc.park nonce) :=
  ⟨h.ring, h.entry_le, fun hn => (nomatch hn), fun hn => (nomatch hn)⟩

theorem SlotInv.congr (h : SlotInv cache pc) (hn : cache.ready = false) (cache' : ConfigCache) :
    SlotInv cache' pc := by
  have hs : pc.state ≠ .replaying := fun hs => by simp [h.ready hs] at hn
  exact ⟨h.ring, h.entry_le, fun hr => absurd hr hs, fun hr => absurd hr hs⟩

end

-- ---------------------------------------------------------------------------
-- The session's progress
-- ---------------------------------------------------------------------------

def MainPc.BeforeFetch : MainPc → Prop
  | .start .armKeepalive | .start .done => False
  | _ => True

structure Phase (s : Proxy κ) : Prop where
  ready_iff : s.cache.ready = true ↔ s.upstream.state = .live
  /-- CACHE_READY lasts only within one handler. -/
  settled : s.upstream.state ≠ .cacheReady
  early : s.main.BeforeFetch → s.upstream.state = .boot
  started : ∀ pc, s.main = .start pc → s.upstream.serveCb = true
  fetched : s.upstream.state ≠ .boot → ∃ pc, s.main = .start pc

variable {s s' : Proxy κ} {e : Event κ}

theorem Phase.not_ready (h : Phase s) (hs : s.upstream.state ≠ .live) : s.cache.ready = false := by
  cases hr : s.cache.ready with
  | false => rfl
  | true => exact absurd (h.ready_iff.mp hr) hs

theorem Phase.live_iff (h : Phase s) :
    (s.upstream.state = .cacheReady ∨ s.upstream.state = .live) ↔ s.cache.ready = true := by
  rw [h.ready_iff, or_iff_right h.settled]

theorem Phase.serveCb (h : Phase s) (hs : s.upstream.state ≠ .boot) : s.upstream.serveCb = true := by
  obtain ⟨pc, hm⟩ := h.fetched hs
  exact h.started pc hm

theorem Quiet.phase (h : Phase s) (hq : Quiet s s') : Phase s' where
  ready_iff := by rw [hq.cache, hq.state]; exact h.ready_iff
  settled := by rw [hq.state]; exact h.settled
  early := by rw [hq.main, hq.state]; exact h.early
  started := by rw [hq.main, hq.serveCb]; exact h.started
  fetched := by rw [hq.main, hq.state]; exact h.fetched

theorem Phase.advance (h : Phase s) (hr : s'.cache.ready = s.cache.ready)
    (hs : s'.upstream.state = s.upstream.state)
    (he : s'.main.BeforeFetch → s.upstream.state = .boot)
    (hc : ∀ pc, s'.main = .start pc → s'.upstream.serveCb = true)
    (hf : s.upstream.state ≠ .boot → ∃ pc, s'.main = .start pc) : Phase s' where
  ready_iff := by rw [hr, hs]; exact h.ready_iff
  settled := by rw [hs]; exact h.settled
  early := by rw [hs]; exact he
  started := hc
  fetched := by rw [hs]; exact hf

variable (p : Platform)

theorem MainStep.phase (h : Phase s) (hstep : MainStep p s s') : Phase s' := by
  cases hstep with
  | uartUp hm | uartFailed hm =>
    have hb : s.upstream.state = .boot := h.early (by rw [hm]; trivial)
    exact h.advance rfl rfl (fun _ => hb) (fun _ hpc => (nomatch hpc)) fun hne => absurd hb hne
  | serveCbSet hm =>
    have hb : s.upstream.state = .boot := h.early (by rw [hm]; trivial)
    exact h.advance rfl rfl (fun _ => hb) (fun _ _ => rfl) fun hne => absurd hb hne
  | noncePicked hm | encodeFailed hm | pendingReset buf hm | sent buf hm | sendFailed buf hm =>
    have hb : s.upstream.state = .boot := h.early (by rw [hm]; trivial)
    exact h.advance rfl rfl (fun _ => hb) (fun _ _ => h.started _ hm) fun _ => ⟨_, rfl⟩
  | cacheBegun buf hm =>
    have hb : s.upstream.state = .boot := h.early (by rw [hm]; trivial)
    have hr : s.cache.ready = false := h.not_ready (by rw [hb]; exact fun hn => (nomatch hn))
    exact h.advance hr.symm rfl (fun _ => hb) (fun _ _ => h.started _ hm) fun _ => ⟨_, rfl⟩
  | fetching hm =>
    have hb : s.upstream.state = .boot := h.early (by rw [hm]; trivial)
    have hr : s.cache.ready = false := h.not_ready (by rw [hb]; exact fun hn => (nomatch hn))
    exact ⟨by simp [hr], fun hn => (nomatch hn), fun he => he.elim, fun _ _ => h.started _ hm,
      fun _ => ⟨_, rfl⟩⟩
  | armed hm =>
    exact h.advance rfl rfl (fun he => he.elim) (fun _ _ => h.started _ hm) fun _ => ⟨_, rfl⟩
  | idle => exact h

def Event.Wants (conn : κ) : Event κ → Prop
  | .toradioWrite c data offset => c = conn ∧ offset = 0 ∧ (wantConfigOf p data).isSome
  | _ => False

def Proxy.Closes (s : Proxy κ) : Event κ → Prop
  | .uartFrame payload => s.fromradioCb = true ∧ s.upstream.state = .fetching ∧
      decodeConfigCompleteNonce p payload = some s.upstream.nonce
  | _ => False

theorem Proxy.Closes.state (hc : s.Closes p e) : s.upstream.state = .fetching := by
  cases e with
  | uartFrame => exact hc.2.1
  | _ => exact hc.elim

theorem Proxy.Closes.not_link (hc : s.Closes p e) : ¬ e.IsLink := by
  cases e with
  | uartFrame => exact fun hl => hl
  | _ => exact hc.elim

variable [DecidableEq κ]

instance (conn : κ) : (e : Event κ) → Decidable (e.Wants p conn)
  | .toradioWrite c data offset =>
    inferInstanceAs (Decidable (c = conn ∧ offset = 0 ∧ (wantConfigOf p data).isSome = true))
  | .connected .. | .disconnected _ | .fromnumRead .. | .fromradioRead .. | .nodeRegWrite ..
  | .uartFrame _ | .keepalive | .mainStep | .txWork _ | .uartTxDone | .uartTxAborted =>
    inferInstanceAs (Decidable False)

theorem FrameStep.phase (h : Phase s) (hstep : FrameStep p s payload s') : Phase s' := by
  cases hstep with
  | undecodable => exact ⟨h.ready_iff, h.settled, h.early, h.started, h.fetched⟩
  | stored info hd hf hv hn =>
    exact h.advance (cacheAddFrame_ready s.cache) rfl h.early h.started h.fetched
  | closed hf hn =>
    have hm : ¬ s.main.BeforeFetch := fun hm => by simp [h.early hm] at hf
    exact ⟨by simp [Proxy.goLive, cacheMarkReady], fun hn => (nomatch hn), fun he => absurd he hm,
      h.started, fun _ => h.fetched (by simp [hf])⟩
  | routed info =>
    refine h.advance rfl ?_ h.early ?_ h.fetched <;> cases route s info <;> first | rfl | exact h.started

theorem step_phase (h : Phase s) : Phase (s.step p e).1 := by
  have hstep := proxy_step p s e
  generalize (s.step p e).1 = s' at hstep ⊢
  cases hstep with
  | frame payload hcb hf => exact hf.phase p h
  | deaf => exact h
  | main hm => exact hm.phase p h
  | quiet he hq => exact hq.phase h

-- ---------------------------------------------------------------------------
-- The proxy
-- ---------------------------------------------------------------------------

structure Inv (s : Proxy κ) : Prop where
  distinct : Distinct s.gatt
  phase : Phase s
  cacheWf : s.cache.Wf
  sized : s.cache.Sized
  slots : EachSlot (SlotInv s.cache) s.gatt

theorem FrameStep.eq_goLive (hstep : FrameStep p s payload s') (hf : s.upstream.state = .fetching)
    (hn : decodeConfigCompleteNonce p payload = some s.upstream.nonce) : s' = s.goLive p := by
  cases hstep with
  | undecodable hd => simp [decodeConfigCompleteNonce, hd] at hn
  | stored _ _ _ _ hne => exact absurd hn hne
  | closed => rfl
  | routed info hd h =>
    rcases h with h | h
    · exact absurd hf h
    · rw [decodeNonce_variant p hd hn] at h
      cases h

theorem closes_gattOps (hc : s.Closes p e) : gattOps p s e = serveOps s.upstream := by
  cases e with
  | uartFrame payload =>
    obtain ⟨hcb, hf, hn⟩ := hc
    obtain ⟨info, hd, hv⟩ := decodes_of_nonce p hn
    simp [gattOps, hcb, hd, hf, hv, hn]
  | _ => exact hc.elim

/-- What a step does to the session's state and its list of parked phones. -/
inductive SessionStep (s : Proxy κ) (e : Event κ) (up' : UpstreamSession κ) : Prop
  | same (hc : ¬ s.Closes p e) (hst : up'.state = s.upstream.state)
      (h : up'.pending = s.upstream.pending)
  | parked (conn : κ) (hw : e.Wants p conn)
      (hs : ¬ (s.upstream.state = .cacheReady ∨ s.upstream.state = .live))
      (h : up' = parkSession s conn)
  | reset (he : e = .mainStep) (buf : List UInt8) (hm : s.main = .start (.resetPending buf))
      (hst : up'.state = s.upstream.state) (h : up'.pending = [])
  | fetching (he : e = .mainStep) (hm : s.main = .start .setFetching) (hst : up'.state = .fetching)
      (h : up'.pending = s.upstream.pending)
  | closed (hc : s.Closes p e) (hst : up'.state = .live) (h : up'.pending = [])

theorem step_session (s : Proxy κ) (e : Event κ) : SessionStep p s e (s.step p e).1.upstream := by
  by_cases he : e.IsSession
  · cases e with
    | uartFrame payload =>
      by_cases hcb : s.fromradioCb = true
      · simp only [Proxy.step, hcb, ↓reduceIte]
        have hstep := onFromradioUart_step p s payload
        by_cases hc : s.Closes p (.uartFrame payload)
        · rw [hstep.eq_goLive p hc.2.1 hc.2.2]
          exact .closed hc rfl rfl
        · generalize onFromradioUart p s payload = s' at hstep ⊢
          cases hstep with
          | undecodable | stored => exact .same hc rfl rfl
          | closed hf hn => exact absurd ⟨hcb, hf, hn⟩ hc
          | routed info => exact .same hc (by cases route s info <;> rfl) (by cases route s info <;> rfl)
      · simp only [Proxy.step, hcb]
        exact .same (fun hc => hcb hc.1) rfl rfl
    | mainStep =>
      have hstep := mainStep_step p s
      simp only [Proxy.step]
      generalize mainStep p s = s' at hstep ⊢
      cases hstep with
      | pendingReset buf hm => exact .reset rfl buf hm rfl rfl
      | fetching hm => exact .fetching rfl hm rfl rfl
      | _ => exact .same (fun hc => hc) rfl rfl
    | _ => exact he.elim
  · obtain ⟨hq, h | ⟨conn, data, nonce, rfl, hw, hs, h⟩⟩ := step_quiet p s e he
    · refine .same (fun hc => ?_) hq.state h
      cases e with
      | uartFrame => exact he trivial
      | _ => exact hc
    · exact .parked conn ⟨rfl, rfl, by simp [hw]⟩ hs h

theorem step_cache (h : Phase s) (e : Event κ) :
    (s.step p e).1.cache = s.cache ∨ s.cache.ready = false := by
  have hstep := proxy_step p s e
  generalize (s.step p e).1 = s' at hstep ⊢
  cases hstep with
  | frame payload hcb hf =>
    cases hf with
    | undecodable | routed => exact .inl rfl
    | stored _ _ hf | closed hf => exact .inr (h.not_ready (by simp [hf]))
  | deaf => exact .inl rfl
  | main hm =>
    cases hm with
    | cacheBegun buf hm =>
      have hb : s.upstream.state = .boot := h.early (by rw [hm]; trivial)
      exact .inr (h.not_ready (by simp [hb]))
    | _ => exact .inl rfl
  | quiet he hq => exact .inl hq.cache

theorem step_cache_ready (hp : Phase s) (hready : s.cache.ready = true) (e : Event κ) :
    (s.step p e).1.cache = s.cache := by
  rcases step_cache p hp e with heq | hn
  · exact heq
  · rw [hready] at hn
    cases hn

theorem step_cacheWf (h : Inv s) (he : s.Enabled e) :
    (s.step p e).1.cache.Wf ∧ (s.step p e).1.cache.Sized := by
  have hstep := proxy_step p s e
  generalize (s.step p e).1 = s' at hstep ⊢
  cases hstep with
  | frame payload hcb hf =>
    cases hf with
    | undecodable | routed => exact ⟨h.cacheWf, h.sized⟩
    | stored info =>
      exact ⟨cacheAddFrame_wf h.cacheWf, cacheAddFrame_sized h.cacheWf h.sized he.1 he.2⟩
    | closed => exact ⟨cacheMarkReady_wf h.cacheWf, h.sized⟩
  | deaf => exact ⟨h.cacheWf, h.sized⟩
  | main hm =>
    cases hm with
    | cacheBegun => exact ⟨cacheBegin_wf _, cacheBegin_sized _⟩
    | _ => exact ⟨h.cacheWf, h.sized⟩
  | quiet hse hq =>
    rw [hq.cache]
    exact ⟨h.cacheWf, h.sized⟩

/-- A replay is armed only in a step that ends with a published cache. -/
theorem StepOp.ready (h : Phase s) (hop : StepOp p s e op) (hr : op = .replay conn nonce) :
    (s.step p e).1.cache.ready = true := by
  have hquiet : ¬ e.IsSession → s.cache.ready = true → (s.step p e).1.cache.ready = true := by
    intro hse hr
    rw [(step_quiet p s e hse).1.cache]
    exact hr
  cases hop with
  | replayed _ _ _ _ hs => exact hquiet (fun hf => hf) (h.live_iff.mp hs)
  | parkedReady _ _ _ _ _ hready => exact hquiet (fun hf => hf) hready
  | serve c payload hcb hf hn =>
    simp only [Proxy.step, hcb, ↓reduceIte]
    rw [(onFromradioUart_step p s payload).eq_goLive p hf hn]
    rfl
  | _ => cases hr

theorem step_slots (h : Inv s) (he : s.Enabled e) :
    EachSlot (SlotInv (s.step p e).1.cache) (s.step p e).1.gatt := by
  have hbefore : EachSlot (SlotInv (s.step p e).1.cache) s.gatt := by
    intro conn pc hpc
    rcases step_cache p h.phase e with heq | hn
    · rw [heq]
      exact h.slots conn pc hpc
    · exact (h.slots conn pc hpc).congr hn _
  refine eachSlot_step p h.distinct he (fun pc conn => .clear _ pc _) ?_ hbefore
  intro op hop pc hpc
  cases hop with
  | frame _ payload | heartbeat _ _ payload => exact hpc.enqueue payload
  | serve c payload hcb hf hn hc =>
    exact hpc.replay p ((StepOp.serve c payload hcb hf hn hc).ready p h.phase rfl) 0
  | replayed c data nonce hw hs =>
    exact hpc.replay p ((StepOp.replayed c data nonce hw hs).ready p h.phase rfl) nonce
  | parkedReady c data nonce hw hs hr =>
    exact hpc.replay p ((StepOp.parkedReady c data nonce hw hs hr).ready p h.phase rfl) 0
  | read c len => exact hpc.stageNext h.cacheWf.count_le
  | parked c data nonce =>
    exact hpc.park nonce
  | register | setQs => exact ⟨hpc.ring, hpc.entry_le, hpc.ready, hpc.cursor⟩

theorem step_inv (h : Inv s) (he : s.Enabled e) : Inv (s.step p e).1 where
  distinct := step_distinct p h.distinct he
  phase := step_phase p h.phase
  cacheWf := (step_cacheWf p h he).1
  sized := (step_cacheWf p h he).2
  slots := step_slots p h he

theorem slotOf_boot (conn : κ) : slotOf (Proxy.boot : Proxy κ).gatt conn = none :=
  slotOf_eq_none.mpr (findSlot_eq_none.mpr fun _ h => (nomatch h))

theorem eachSlot_boot (I : ProxyConn κ → Prop) : EachSlot I (Proxy.boot : Proxy κ).gatt := by
  intro conn pc h
  rw [slotOf_boot] at h
  cases h

theorem boot_inv : Inv (Proxy.boot : Proxy κ) where
  distinct _ _ _ h := nomatch h
  phase := ⟨by simp [Proxy.boot], fun h => (nomatch h), fun _ => rfl, fun _ h => (nomatch h),
    fun h => absurd rfl h⟩
  cacheWf := cacheBegin_wf {}
  sized := cacheBegin_sized {}
  slots := eachSlot_boot _

/-- The states of the proxy after `main` has started advertising. -/
def Proxy.Reachable (s : Proxy κ) : Prop := (proxyMachine p κ).Reachable .boot s

theorem inv_reachable (hr : s.Reachable p) : Inv s :=
  Machine.Reachable.invariant hr boot_inv fun _ _ he h => step_inv p h he

theorem exec_invariant {J : Proxy κ → Prop}
    (hstep : ∀ s e, s.Enabled e → Inv s → J s → J (s.step p e).1)
    (ha : (proxyMachine p κ).Admits s es) (hinv : Inv s) (hj : J s) :
    J ((proxyMachine p κ).exec s es) := by
  have h : Inv ((proxyMachine p κ).exec s es) ∧ J ((proxyMachine p κ).exec s es) := by
    refine Machine.invariant (I := fun s => Inv s ∧ J s) ?_ ha ⟨hinv, hj⟩
    exact fun s e he h => ⟨step_inv p h.1 he, hstep s e he h.1 h.2⟩
  exact h.2

theorem reachable_invariant {J : Proxy κ → Prop} (hr : s.Reachable p) (hboot : J .boot)
    (hstep : ∀ s e, s.Enabled e → Inv s → J s → J (s.step p e).1) : J s := by
  obtain ⟨es, ha, rfl⟩ := hr
  exact exec_invariant p hstep ha boot_inv hboot

theorem idle_reachable (hr : s.Reachable p) : Idle s.gatt :=
  reachable_invariant p (J := fun s : Proxy κ => Idle s.gatt) hr (fun _ _ => rfl)
    fun _ e _ _ h => h.step p e

theorem inv_conns (h : Inv s) (hi : Idle s.gatt) (i : Fin maxBleConnections)
    (hs : (s.gatt.conns i).state = .replaying) : SlotInv s.cache (s.gatt.conns i) := by
  cases hc : (s.gatt.conns i).conn with
  | none =>
    rw [hi i hc] at hs
    cases hs
  | some conn => exact h.slots conn _ (h.distinct.slotOf_eq.mpr ⟨i, hc, rfl⟩)

end MeshProxy

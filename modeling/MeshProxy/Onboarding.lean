import MeshProxy.Reuse
import MeshProxy.Uplink

/-!
# Onboarding one phone leaves the others alone

Once the session is LIVE, a want_config, a heartbeat or a read of one phone
acts on that phone's slot, and at most fills the queueStatus buffer in
addition, with bytes that do not depend on who asked first. So a run with such
events of other phones and one without them look the same to a phone and to
the node: `Beside` relates the two, and every event keeps it.
-/

namespace MeshProxy

variable {κ : Type} (p : Platform)

-- ---------------------------------------------------------------------------
-- The queueStatus buffer
-- ---------------------------------------------------------------------------

def QsOk (g : BleGatt κ) : Prop :=
  g.qsLen = 0 ∨ protoEncodeQueueStatus p ccFrameSize = (g.qs.slice 0 g.qsLen, .ok g.qsLen)

/-- What a heartbeat of `conn` enqueues. -/
def beatOps (conn : κ) : List (GattOp κ) :=
  match protoEncodeQueueStatus p ccFrameSize with
  | (written, .ok _) => [.enqueue conn written]
  | (_, .error _) => []

def BleGatt.withQs (g : BleGatt κ) (qs : Cells ccFrameSize UInt8) (qsLen : Nat) : BleGatt κ :=
  { g with qs, qsLen }

theorem QsOk.congr {g g' : BleGatt κ} (h : QsOk p g) (hq : g'.qs = g.qs) (hl : g'.qsLen = g.qsLen) :
    QsOk p g' := by
  unfold QsOk
  rw [hq, hl]
  exact h

theorem queueStatus_slice (qs : Cells ccFrameSize UInt8)
    (h : protoEncodeQueueStatus p ccFrameSize = (written, .ok len)) :
    (qs.memcpy 0 written).slice 0 len = written := by
  obtain ⟨-, hlen, hwritten⟩ := protoEncode_ok (congrArg Prod.snd h)
  have hw : written = (protoEncodeQueueStatus p ccFrameSize).1 := (congrArg Prod.fst h).symm
  rw [protoEncodeQueueStatus, hwritten] at hw
  rw [← hw] at hlen
  have hle : written.length ≤ ccFrameSize := hw ▸ p.encodeFromRadio_le _ _
  rw [hlen]
  exact Cells.slice_memcpy qs written (by omega)

variable [DecidableEq κ]

/-- A heartbeat enqueues the same bytes whether it finds the buffer filled or
fills it. -/
theorem heartbeat_beatOps {g : BleGatt κ} (h : QsOk p g) (cache : ConfigCache) (conn : κ) :
    ∃ qs qsLen, QsOk p (g.withQs qs qsLen) ∧
      applyOps p cache g (heartbeatOps p g conn) =
        applyOps p cache (g.withQs qs qsLen) (beatOps p conn) := by
  cases henc : protoEncodeQueueStatus p ccFrameSize with
  | mk written rc =>
    have hbeat : beatOps p conn =
        match rc with | .ok _ => [.enqueue conn written] | .error _ => [] := by
      simp only [beatOps, henc]
      cases rc <;> rfl
    by_cases hq : g.qsLen = 0
    · cases rc with
      | error e =>
        refine ⟨g.qs.memcpy 0 written, 0, .inl rfl, ?_⟩
        simp [heartbeatOps, hq, henc, hbeat, applyOps, GattOp.apply, BleGatt.withQs]
      | ok len =>
        have hslice := queueStatus_slice p g.qs henc
        refine ⟨g.qs.memcpy 0 written, len, .inr ?_, ?_⟩
        · simp [BleGatt.withQs, hslice, henc]
        · simp [heartbeatOps, hq, henc, hbeat, hslice, applyOps, GattOp.apply, BleGatt.withQs]
    · obtain hq' | hfull := h
      · exact absurd hq' hq
      · rw [henc] at hfull
        obtain ⟨rfl, rfl⟩ := Prod.mk.inj hfull
        refine ⟨g.qs, g.qsLen, .inr henc, ?_⟩
        simp [heartbeatOps, hq, hbeat, BleGatt.withQs]

theorem mem_beatOps (h : op ∈ beatOps p conn) : ∃ data, op = .enqueue conn data := by
  unfold beatOps at h
  split at h
  · exact ⟨_, List.mem_singleton.mp h⟩
  · cases h

theorem gattOps_heartbeat (s : Proxy κ) (conn : κ) (hb : isHeartbeat p data = true) :
    gattOps p s (.toradioWrite conn data 0) = heartbeatOps p s.gatt conn := by
  unfold isHeartbeat at hb
  cases hd : protoDecodeToradio p data with
  | error e => simp [hd] at hb
  | ok ti =>
    obtain ⟨hw, hh⟩ : ti.hasWantConfig = false ∧ ti.hasHeartbeat = true := by simpa [hd] using hb
    simp [gattOps, hd, hw, hh]

theorem gattOps_target {s : Proxy κ} {e : Event κ} (hl : ¬ e.IsLink)
    (hb : ∀ conn data, e = .toradioWrite conn data 0 → isHeartbeat p data = false)
    (h : op ∈ gattOps p s e) : op.target ≠ none := by
  have hop := gattOps_stepOp p s e hl h
  cases hop with
  | setQs conn data qs len hw =>
    have hb := hb conn data rfl
    unfold isHeartbeat at hb
    cases hd : protoDecodeToradio p data with
    | error e => simp [gattOps, hd] at h
    | ok ti =>
      have hwant : ti.hasWantConfig = false := by simpa [wantConfigOf, hd] using hw
      have hbeat : ti.hasHeartbeat = false := by simpa [hd, hwant] using hb
      simp [gattOps, hd, hwant, hbeat] at h
  | _ => simp [GattOp.target]

theorem QsOk.applyOps {g : BleGatt κ} {cache : ConfigCache} (h : QsOk p g)
    (hops : ∀ op ∈ ops, op.Inner ∧ op.target ≠ none) : QsOk p (applyOps p cache g ops) := by
  induction ops generalizing g with
  | nil => exact h
  | cons op ops ih =>
    obtain ⟨hin, ht⟩ := hops op List.mem_cons_self
    obtain ⟨hq, hlen⟩ := apply_qs p cache g hin
    refine ih (h.congr p ?_ ?_) fun op' hop' => hops op' (List.mem_cons_of_mem _ hop')
    · rw [hq]
      cases op with
      | setQs => exact absurd rfl ht
      | _ => rfl
    · rw [hlen]
      cases op with
      | setQs => exact absurd rfl ht
      | _ => rfl

theorem QsOk.step {s : Proxy κ} (h : QsOk p s.gatt) (e : Event κ) : QsOk p (s.step p e).1.gatt := by
  by_cases hl : e.IsLink
  · cases e with
    | connected conn err =>
      obtain ⟨hq, hlen⟩ := onConnected_qs s.gatt conn err
      exact h.congr p hq hlen
    | disconnected conn =>
      obtain ⟨hq, hlen⟩ := onDisconnected_qs s.gatt conn
      exact h.congr p hq hlen
    | _ => exact hl.elim
  · rw [step_gatt]
    by_cases hb : ∃ conn data, e = .toradioWrite conn data 0 ∧ isHeartbeat p data = true
    · obtain ⟨conn, data, rfl, hb⟩ := hb
      rw [gattOps_heartbeat p s conn hb]
      obtain ⟨qs, qsLen, hok, hops⟩ := heartbeat_beatOps p h s.cache conn
      rw [hops]
      refine hok.applyOps p fun op hop => ?_
      obtain ⟨pkt, rfl⟩ := mem_beatOps p hop
      exact ⟨trivial, by simp [GattOp.target]⟩
    · refine h.applyOps p fun op hop => ⟨(gattOps_stepOp p s e hl hop).inner, ?_⟩
      refine gattOps_target p hl (fun conn data he => ?_) hop
      rw [Bool.eq_false_iff]
      exact fun hbeat => hb ⟨conn, data, he, hbeat⟩

theorem qsOk_reachable {s : Proxy κ} (hr : s.Reachable p) : QsOk p s.gatt :=
  reachable_invariant p (J := fun s => QsOk p s.gatt) hr (.inl rfl) fun _ e _ _ h => h.step p e

-- ---------------------------------------------------------------------------
-- What a phone is notified of
-- ---------------------------------------------------------------------------

def notifiedTo (c : κ) (calls : List (GattCall κ)) : List UInt32 :=
  calls.filterMap fun
    | .notify conn n => if conn = c then some n else none
    | _ => none

theorem notifiedTo_append (c : κ) (calls calls' : List (GattCall κ)) :
    notifiedTo c (calls ++ calls') = notifiedTo c calls ++ notifiedTo c calls' :=
  List.filterMap_append

theorem notifiedTo_nil {c : κ} {calls : List (GattCall κ)}
    (h : ∀ call ∈ calls, ∀ n, call ≠ .notify c n) : notifiedTo c calls = [] := by
  rw [notifiedTo, List.filterMap_eq_nil_iff]
  intro call hc
  cases call with
  | notify conn n =>
    have hne : conn ≠ c := by
      rintro rfl
      exact h _ hc n rfl
    simp [hne]
  | _ => rfl

variable {p} {g g' : BleGatt κ} {op : GattOp κ} {cache : ConfigCache} {c : κ}

theorem apply_notified_ne (hop : op.Inner) (ht : op.target ≠ some c) :
    notifiedTo c (op.apply p cache g).calls = notifiedTo c g.calls := by
  have hcalls : ∃ calls, (op.apply p cache g).calls = g.calls ++ calls ∧
      ∀ call ∈ calls, call.conn = op.target := by
    rcases apply_calls p cache g hop with ⟨_, _, _, _, h⟩ | ⟨_, calls, h, hc⟩
    · exact ⟨_, h, fun call hm => (slotCalls_conn p hm).1⟩
    · exact ⟨calls, h, fun call hm => (hc call hm).1⟩
  obtain ⟨calls, h, hc⟩ := hcalls
  have hnil : notifiedTo c calls = [] := by
    refine notifiedTo_nil ?_
    rintro call hm n rfl
    exact ht (hc _ hm).symm
  rw [h, notifiedTo_append, hnil, List.append_nil]

theorem apply_notified_self (hop : op.Inner) (ht : op.target = some c) :
    notifiedTo c (op.apply p cache g).calls = notifiedTo c g.calls ++
      (match findSlot g c with
      | some i => notifiedTo c (op.slotCalls p cache (g.conns i))
      | none => []) := by
  rcases apply_calls p cache g hop with ⟨conn, i, ht', hi, h⟩ | ⟨hno, calls, h, hc⟩
  · obtain rfl : conn = c := Option.some.inj (ht'.symm.trans ht)
    rw [h, notifiedTo_append, hi]
  · rw [h, notifiedTo_append, hno c ht, notifiedTo_nil fun call hm n => ((hc call hm).2 c).2.2 n]

theorem onConnected_notified (conn : κ) (err : UInt8) :
    notifiedTo c (onConnected g conn err).calls = notifiedTo c g.calls := by
  by_cases he : err = 0
  · subst he
    obtain ⟨tail, h, htail⟩ := onConnected_calls g conn
    have hnil : notifiedTo c tail = [] := by
      refine notifiedTo_nil fun call hm n => ?_
      rcases htail call hm with rfl | ⟨rfl, -⟩ <;> simp
    rw [h, notifiedTo_append, hnil, List.append_nil]
    split
    · exact (notifiedTo_append _ _ _).trans (List.append_nil _)
    · rfl
  · simp [onConnected, he]

theorem onDisconnected_notified (conn : κ) :
    notifiedTo c (onDisconnected g conn).calls = notifiedTo c g.calls := by
  obtain ⟨tail, h, htail⟩ := onDisconnected_calls g conn
  have hnil : notifiedTo c tail = [] := by
    refine notifiedTo_nil fun call hm n => ?_
    rcases htail call hm with rfl | rfl <;> simp
  rw [h, notifiedTo_append, hnil, List.append_nil]

-- ---------------------------------------------------------------------------
-- Two tables as one phone sees them
-- ---------------------------------------------------------------------------

structure SameView (c : κ) (g g' : BleGatt κ) : Prop where
  agree : Agree (· = c) g g'
  notified : notifiedTo c g'.calls = notifiedTo c g.calls

theorem SameView.apply (h : SameView c g g') (hop : op.Inner) :
    SameView c (op.apply p cache g) (op.apply p cache g') := by
  refine ⟨h.agree.apply p hop, ?_⟩
  by_cases ht : op.target = some c
  · rw [apply_notified_self hop ht, apply_notified_self hop ht, h.notified, h.agree.findSlot]
    cases hi : findSlot g c with
    | none => rfl
    | some i => simp only [(h.agree.live i c (findSlot_conn hi) rfl).slotCalls p]
  · rw [apply_notified_ne hop ht, apply_notified_ne hop ht, h.notified]

theorem SameView.applyOps (h : SameView c g g') (hops : ∀ op ∈ ops, op.Inner) :
    SameView c (applyOps p cache g ops) (applyOps p cache g' ops) := by
  induction ops generalizing g g' with
  | nil => exact h
  | cons op ops ih =>
    exact ih (h.apply (hops op List.mem_cons_self))
      fun op' hop' => hops op' (List.mem_cons_of_mem _ hop')

theorem SameView.left (h : SameView c g g') (hop : op.Inner) (ht : op.target ≠ some c)
    (hreg : ∀ conn id, op ≠ .register conn id) : SameView c (op.apply p cache g) g' := by
  refine ⟨⟨fun i => ?_, fun i hi => ?_, fun i conn hi hc => ?_⟩, ?_⟩
  · rw [apply_inner_conn p cache g hop]
    exact h.agree.conn i
  · rw [apply_inner_conn p cache g hop] at hi
    rw [h.agree.proxyId i hi]
    rcases apply_inner p cache g hop with ⟨conn, j, -, -, ha⟩ | ⟨-, ha⟩
    · rw [ha]
      by_cases hj : i = j
      · subst hj
        simp [onSlot_proxyId p cache _ hreg]
      · simp [hj]
    · rw [ha]
  · subst hc
    rw [apply_inner_conn p cache g hop] at hi
    rcases apply_inner p cache g hop with ⟨conn', j, ht', hj, ha⟩ | ⟨-, ha⟩
    · have hij : i ≠ j := by
        rintro rfl
        rw [findSlot_conn hj, Option.some.injEq] at hi
        exact ht (hi ▸ ht')
      rw [ha, setSlot_conns, Function.update_of_ne hij]
      exact h.agree.live i conn hi rfl
    · rw [ha]
      exact h.agree.live i conn hi rfl
  · rw [apply_notified_ne hop ht]
    exact h.notified

theorem SameView.leftOps (h : SameView c g g')
    (hops : ∀ op ∈ ops, op.Inner ∧ op.target ≠ some c ∧ ∀ conn id, op ≠ .register conn id) :
    SameView c (MeshProxy.applyOps p cache g ops) g' := by
  induction ops generalizing g with
  | nil => exact h
  | cons op ops ih =>
    obtain ⟨hin, ht, hreg⟩ := hops op List.mem_cons_self
    exact ih (h.left hin ht hreg) fun op' hop' => hops op' (List.mem_cons_of_mem _ hop')

variable (p)

theorem SameView.heartbeat (h : SameView c g g') (hq : QsOk p g) (hq' : QsOk p g')
    (cache : ConfigCache) (conn : κ) :
    SameView c (MeshProxy.applyOps p cache g (heartbeatOps p g conn))
      (MeshProxy.applyOps p cache g' (heartbeatOps p g' conn)) := by
  obtain ⟨qs, qsLen, -, hops⟩ := heartbeat_beatOps p hq cache conn
  obtain ⟨qs', qsLen', -, hops'⟩ := heartbeat_beatOps p hq' cache conn
  rw [hops, hops']
  have hview : SameView c (g.withQs qs qsLen) (g'.withQs qs' qsLen') :=
    ⟨h.agree.congr rfl rfl, h.notified⟩
  refine hview.applyOps fun op hop => ?_
  obtain ⟨data, rfl⟩ := mem_beatOps p hop
  trivial

variable {s s' : Proxy κ} {e : Event κ}

theorem SameView.step (h : SameView c s.gatt g') (hq : QsOk p s.gatt) (hq' : QsOk p g') (e : Event κ) :
    SameView c (s.step p e).1.gatt ((s.withGatt g').step p e).1.gatt := by
  by_cases hl : e.IsLink
  · cases e with
    | connected conn err =>
      exact ⟨h.agree.onConnected conn err,
        (onConnected_notified conn err).trans (h.notified.trans (onConnected_notified conn err).symm)⟩
    | disconnected conn =>
      exact ⟨h.agree.onDisconnected conn,
        (onDisconnected_notified conn).trans (h.notified.trans (onDisconnected_notified conn).symm)⟩
    | _ => exact hl.elim
  · rw [step_gatt, step_gatt]
    by_cases hb : ∃ conn data, e = .toradioWrite conn data 0 ∧ isHeartbeat p data = true
    · obtain ⟨conn, data, rfl, hb⟩ := hb
      rw [gattOps_heartbeat p s conn hb, gattOps_heartbeat p (s.withGatt g') conn hb]
      exact h.heartbeat p hq hq' s.cache conn
    · rw [h.agree.gattOps p e fun conn data he hbeat => absurd ⟨conn, data, he, hbeat⟩ hb]
      exact h.applyOps fun op hop => (gattOps_stepOp p s e hl hop).inner

-- ---------------------------------------------------------------------------
-- Two runs
-- ---------------------------------------------------------------------------

/-- A want_config, a heartbeat or a read of a phone other than `c`. -/
def OthersOwn (c : κ) : Event κ → Prop
  | .toradioWrite conn data _ => conn ≠ c ∧ passesThrough p data = false
  | .fromradioRead conn _ _ | .fromnumRead conn _ _ => conn ≠ c
  | _ => False

def ownReads (c : κ) (s : Proxy κ) (e : Event κ) : List Reply :=
  if e.reader = some c then [(s.step p e).2] else []

/-- Two states of a LIVE proxy that differ in what `c` cannot see. -/
structure Beside (c : κ) (s s' : Proxy κ) : Prop where
  rest : s' = s.withGatt s'.gatt
  live : s.upstream.state = .live
  phase : Phase s
  qs : QsOk p s.gatt
  qs' : QsOk p s'.gatt
  view : SameView c s.gatt s'.gatt

theorem step_live (hp : Phase s) (hl : s.upstream.state = .live) (e : Event κ) :
    (s.step p e).1.upstream.state = .live := by
  have hnot : ¬ s.main.BeforeFetch := by
    intro hb
    have hboot := hp.early hb
    rw [hl] at hboot
    cases hboot
  have hstep := proxy_step p s e
  generalize (s.step p e).1 = s' at hstep ⊢
  cases hstep with
  | frame payload hcb h => exact h.state_live p hl
  | deaf => exact hl
  | main h =>
    cases h with
    | armed | idle => exact hl
    | uartUp hm | uartFailed hm | serveCbSet hm | noncePicked hm | encodeFailed hm
    | cacheBegun _ hm | pendingReset _ hm | sent _ hm | sendFailed _ hm | fetching hm =>
      exact absurd (by rw [hm]; trivial) hnot
  | quiet _ hq => exact hq.state.trans hl

theorem othersOwn_rest (hl : s.upstream.state = .live) (he : OthersOwn p c e) :
    (s.step p e).1 = s.withGatt (s.step p e).1.gatt := by
  cases e with
  | fromradioRead | fromnumRead => rfl
  | toradioWrite conn data offset =>
    have hpass := he.2
    rw [protoDecodeToradio_passes] at hpass
    simp only [Proxy.step, toradioWrite]
    split
    · rfl
    · unfold onToradioBle
      cases hd : protoDecodeToradio p data with
      | error e => simp [hd] at hpass
      | ok ti =>
        simp only [hl, or_true, ↓reduceIte]
        by_cases hw : ti.hasWantConfig = true
        · rw [if_pos hw]
          rfl
        · have hh : ti.hasHeartbeat = true := by simpa [hd, hw] using hpass
          rw [if_neg hw, if_pos hh]
          rfl
  | _ => exact he.elim

theorem othersOwn_ops (he : OthersOwn p c e) (h : op ∈ gattOps p s e) :
    op.Inner ∧ op.target ≠ some c ∧ ∀ conn id, op ≠ .register conn id := by
  have hl : ¬ e.IsLink := by
    intro hl
    cases e with
    | connected | disconnected => exact he
    | _ => exact hl
  have hop := gattOps_stepOp p s e hl h
  refine ⟨hop.inner, ?_⟩
  cases hop with
  | read => exact ⟨fun ht => he (Option.some.inj ht), by simp⟩
  | heartbeat | replayed | parked | parkedReady => exact ⟨fun ht => he.1 (Option.some.inj ht), by simp⟩
  | setQs => exact ⟨by simp [GattOp.target], by simp⟩
  | register | frame | serve => exact he.elim

theorem Beside.keep (h : Beside p c s s') (e : Event κ) :
    Beside p c (s.step p e).1 (s'.step p e).1 ∧ ownReads p c s' e = ownReads p c s e := by
  obtain ⟨hrest, hl, hp, hq, hq', hview⟩ := h
  refine ⟨⟨?_, step_live p hp hl e, step_phase p hp, hq.step p e, hq'.step p e, ?_⟩, ?_⟩
  · rw [hrest]
    exact step_withGatt p hview.agree e
  · rw [hrest]
    exact hview.step p hq hq' e
  · unfold ownReads
    by_cases hr : e.reader = some c
    · have hreply := step_reply p hview.agree e fun conn hc => Option.some.inj (hc.symm.trans hr)
      rw [if_pos hr, if_pos hr, hrest, hreply]
    · rw [if_neg hr, if_neg hr]

theorem Beside.erase (h : Beside p c s s') (he : OthersOwn p c e) :
    Beside p c (s.step p e).1 s' ∧ ownReads p c s e = [] := by
  obtain ⟨hrest, hl, hp, hq, hq', hview⟩ := h
  refine ⟨⟨?_, step_live p hp hl e, step_phase p hp, hq.step p e, hq', ?_⟩, ?_⟩
  · rw [othersOwn_rest p hl he]
    exact hrest
  · rw [step_gatt]
    exact hview.leftOps fun op hop => othersOwn_ops p he hop
  · refine if_neg ?_
    cases e with
    | fromradioRead | fromnumRead => exact fun hr => he (Option.some.inj hr)
    | _ => simp [Event.reader]

/-- From a LIVE state on, taking want_configs, heartbeats and reads of other
phones out of a run changes nothing for a phone and nothing on the UART. -/
theorem onboarding_local (hr : s.Reachable p) (hl : s.upstream.state = .live) (c : κ)
    (h : Machine.Erased (OthersOwn p c) es es') :
    (proxyMachine p κ).collect (ownReads p c) s es' = (proxyMachine p κ).collect (ownReads p c) s es ∧
    notifiedTo c ((proxyMachine p κ).exec s es').gatt.calls =
      notifiedTo c ((proxyMachine p κ).exec s es).gatt.calls ∧
    ((proxyMachine p κ).exec s es').uart.passed = ((proxyMachine p κ).exec s es).uart.passed := by
  have hinv := inv_reachable p hr
  have hqs := qsOk_reachable p hr
  have hstart : Beside p c s s := by
    refine ⟨rfl, hl, hinv.phase, hqs, hqs, ⟨fun _ => rfl, fun _ _ => rfl, fun i conn hi _ => ?_⟩, rfl⟩
    exact .refl (hinv.slots conn _ (hinv.distinct.slotOf_eq.mpr ⟨i, hi, rfl⟩)).ring
  obtain ⟨hend, hreads⟩ := Machine.unwind (m := proxyMachine p κ) (R := Beside p c) (f := ownReads p c)
    (fun _ _ e h => h.keep p e) (fun _ _ _ he h => h.erase p he) h hstart
  refine ⟨hreads, hend.view.notified, ?_⟩
  rw [hend.rest]
  rfl

def twoPhones : List (Event Nat) := mainSteps ++ shortBurst ++ [.connected 1 0, .connected 2 0]

def joining : List (Event Nat) :=
  [.toradioWrite 2 [0x18, 5] 0, .fromradioRead 2 64 0, .toradioWrite 2 [0x3A, 0] 0,
    .toradioWrite 1 [0x3A, 0] 0, .fromnumRead 2 4 0, .fromradioRead 1 64 0]

theorem onboarding_local_joining :
    findSlot ((proxyMachine (wirePlatform 9) Nat).exec .boot twoPhones).gatt 1 = some 0 ∧
    (proxyMachine (wirePlatform 9) Nat).collect (ownReads (wirePlatform 9) 1)
        ((proxyMachine (wirePlatform 9) Nat).exec .boot twoPhones)
        [.toradioWrite 1 [0x3A, 0] 0, .fromradioRead 1 64 0] =
      (proxyMachine (wirePlatform 9) Nat).collect (ownReads (wirePlatform 9) 1)
        ((proxyMachine (wirePlatform 9) Nat).exec .boot twoPhones) joining := by
  have hr : ((proxyMachine (wirePlatform 9) Nat).exec .boot twoPhones).Reachable (wirePlatform 9) :=
    ⟨twoPhones, by decide, rfl⟩
  have h : Machine.Erased (OthersOwn (wirePlatform 9) 1) joining
      [.toradioWrite 1 [0x3A, 0] 0, .fromradioRead 1 64 0] :=
    .erase ⟨by decide, rfl⟩ (.erase (by simp [OthersOwn]) (.erase ⟨by decide, rfl⟩ (.keep _
      (.erase (by simp [OthersOwn]) (.keep _ .nil)))))
  exact ⟨by decide, (onboarding_local (wirePlatform 9) hr rfl 1 h).1⟩

end MeshProxy

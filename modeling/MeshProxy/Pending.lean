import Mathlib.Data.Fintype.Card
import MeshProxy.Invariant
import MeshProxy.Wire

/-!
# Parked phones

A phone that asks for the config before the cache is ready is parked: its
slot becomes PENDING and its connection pointer goes into `s_pending`, from
which it is served when the session closes its fetch. `none_left_pending` and
`replay_solicited` say that the parked phones, and no others, get their
replay; each needs a condition on the list of pointers that the firmware does
not keep, and a run that breaks it follows the theorem.
-/

namespace MeshProxy

variable {κ : Type} (p : Platform)

-- ---------------------------------------------------------------------------
-- What enters a slot's state
-- ---------------------------------------------------------------------------

section
variable {pc : ProxyConn κ} {op : GattOp κ} {cache : ConfigCache}

theorem onSlot_pending (h : (op.onSlot p cache pc).state = .pending) :
    pc.state = .pending ∨ ∃ conn nonce, op = .park conn nonce := by
  cases op with
  | enqueue conn data => exact .inl ((enqueue_state pc data).symm.trans h)
  | replay conn nonce =>
    rcases replay_state p pc nonce with hs | hs
    · exact .inl (hs.symm.trans h)
    · cases hs.symm.trans h
  | park conn nonce => exact .inr ⟨conn, nonce, rfl⟩
  | stage conn =>
    rcases stageNext_state cache pc with hs | hs
    · exact .inl (hs.symm.trans h)
    · cases hs.symm.trans h
  | register | connected | disconnected | setQs => exact .inl h

theorem onSlot_replaying (h : (op.onSlot p cache pc).state = .replaying) :
    pc.state = .replaying ∨ ∃ conn nonce, op = .replay conn nonce := by
  cases op with
  | enqueue conn data => exact .inl ((enqueue_state pc data).symm.trans h)
  | replay conn nonce => exact .inr ⟨conn, nonce, rfl⟩
  | park conn nonce => cases h
  | stage conn =>
    rcases stageNext_state cache pc with hs | hs
    · exact .inl (hs.symm.trans h)
    · cases hs.symm.trans h
  | register | connected | disconnected | setQs => exact .inl h

theorem run_replays (henc : ∀ nonce, ∃ n, (protoEncodeConfigComplete p nonce ccFrameSize).2 = .ok n)
    (hops : ∀ op ∈ ops, ∃ conn nonce, op = .replay conn nonce)
    (h : pc.state = .replaying ∨ ops ≠ []) : (pc.run p cache ops).state = .replaying := by
  induction ops generalizing pc with
  | nil => exact h.resolve_right fun hn => hn rfl
  | cons op ops ih =>
    obtain ⟨conn, nonce, rfl⟩ := hops op List.mem_cons_self
    exact ih (fun op' hop' => hops op' (List.mem_cons_of_mem _ hop'))
      (.inl (congrArg (·.state) (replay_arms p henc pc nonce)))

theorem run_state {Sets : GattOp κ → Prop}
    (hset : ∀ (op : GattOp κ) (pc : ProxyConn κ), (op.onSlot p cache pc).state = st →
      pc.state = st ∨ Sets op)
    (h : (pc.run p cache ops).state = st) : pc.state = st ∨ ∃ op ∈ ops, Sets op := by
  induction ops generalizing pc with
  | nil => exact .inl h
  | cons op ops ih =>
    rcases ih h with hpc | ⟨op', hop', hs⟩
    · rcases hset op pc hpc with hpc | hs
      · exact .inl hpc
      · exact .inr ⟨op, List.mem_cons_self, hs⟩
    · exact .inr ⟨op', List.mem_cons_of_mem _ hop', hs⟩

end

-- ---------------------------------------------------------------------------
-- Steps that park and serve
-- ---------------------------------------------------------------------------

variable [DecidableEq κ] {s : Proxy κ} {e : Event κ} {pc' : ProxyConn κ}

theorem slot_pending_step (hd : Distinct s.gatt) (he : s.Enabled e)
    (h : slotOf (s.step p e).1.gatt conn = some pc') (hs : pc'.state = .pending) :
    (∃ pc, slotOf s.gatt conn = some pc ∧ pc.state = .pending) ∨
    ((slotOf s.gatt conn).isSome ∧ e.Wants p conn ∧
      ¬ (s.upstream.state = .cacheReady ∨ s.upstream.state = .live)) := by
  rcases slotOf_step_cases p hd he h with ⟨hsame, -⟩ | ⟨i, -, -, rfl⟩ | ⟨pc, hpc, hl, rfl⟩
  · exact .inl ⟨pc', hsame, hs⟩
  · cases hs
  · rcases run_state p (fun op pc => onSlot_pending p) hs with hs | ⟨op, hop, c, nonce, rfl⟩
    · exact .inl ⟨pc, hpc, hs⟩
    · obtain ⟨hmem, ht⟩ := mem_opsFor.mp hop
      cases ht
      cases gattOps_stepOp p s e hl hmem with
      | parked _ data _ hw hns => exact .inr ⟨by simp [hpc], ⟨rfl, rfl, by simp [hw]⟩, hns⟩

theorem slot_replaying_step (hd : Distinct s.gatt) (he : s.Enabled e)
    (h : slotOf (s.step p e).1.gatt conn = some pc') (hs : pc'.state = .replaying) :
    (∃ pc, slotOf s.gatt conn = some pc ∧ pc.state = .replaying) ∨
    ((slotOf s.gatt conn).isSome ∧
      (e.Wants p conn ∨ (s.Closes p e ∧ conn ∈ s.upstream.pending))) := by
  rcases slotOf_step_cases p hd he h with ⟨hsame, -⟩ | ⟨i, -, -, rfl⟩ | ⟨pc, hpc, hl, rfl⟩
  · exact .inl ⟨pc', hsame, hs⟩
  · cases hs
  · rcases run_state p (fun op pc => onSlot_replaying p) hs with hs | ⟨op, hop, c, nonce, rfl⟩
    · exact .inl ⟨pc, hpc, hs⟩
    · obtain ⟨hmem, ht⟩ := mem_opsFor.mp hop
      cases ht
      refine .inr ⟨by simp [hpc], ?_⟩
      cases gattOps_stepOp p s e hl hmem with
      | replayed _ _ _ hw | parkedReady _ _ _ hw => exact .inl ⟨rfl, rfl, by simp [hw]⟩
      | serve _ _ hcb hf hn hc => exact .inr ⟨⟨hcb, hf, hn⟩, hc⟩

-- ---------------------------------------------------------------------------
-- No phone is left behind
-- ---------------------------------------------------------------------------

def NonePending (g : BleGatt κ) : Prop :=
  ∀ i, (g.conns i).conn.isSome → (g.conns i).state ≠ .pending

/-- Once the session is LIVE no connected phone waits for its replay. -/
def NoneLeftPending (s : Proxy κ) : Prop := s.upstream.state = .live → NonePending s.gatt

/-- The next step of the main thread is `s_pending_count = 0`. -/
def MainPc.emptiesPending : MainPc → Bool
  | .start (.resetPending _) => true
  | _ => false

/-- No phone is PENDING when `upstream_session_start` empties the list, and a
phone that is parked is in the list or finds room in it. -/
def Proxy.KeepsParked (s : Proxy κ) : Event κ → Prop
  | .mainStep => s.main.emptiesPending = true → NonePending s.gatt
  | .toradioWrite conn data offset =>
    offset = 0 → (wantConfigOf p data).isSome → (findSlot s.gatt conn).isSome →
      s.cache.ready = false →
      conn ∈ s.upstream.pending ∨ s.upstream.pending.length < configBtMaxConn
  | _ => True

/-- Every PENDING phone is in the list; a LIVE session has an empty one. -/
structure Queued (s : Proxy κ) : Prop where
  inv : Inv s
  listed : ∀ conn pc, slotOf s.gatt conn = some pc → pc.state = .pending → conn ∈ s.upstream.pending
  live : s.upstream.state = .live → s.upstream.pending = []

theorem mem_parkSession_of_mem (h : conn ∈ s.upstream.pending) :
    conn ∈ (parkSession s other).pending := by
  unfold parkSession UpstreamSession.enqueuePending
  repeat' split
  all_goals simp [h]

theorem mem_of_mem_parkSession (h : conn ∈ (parkSession s other).pending) :
    conn ∈ s.upstream.pending ∨ conn = other := by
  unfold parkSession UpstreamSession.enqueuePending at h
  repeat' split at h
  all_goals first | exact .inl h | simpa using h

theorem mem_pending_step (h : conn ∈ (s.step p e).1.upstream.pending) :
    conn ∈ s.upstream.pending ∨ e.Wants p conn := by
  cases step_session p s e with
  | same _ _ heq | fetching _ _ _ heq => exact .inl (heq ▸ h)
  | parked c hw _ heq =>
    rcases mem_of_mem_parkSession (heq ▸ h) with hmem | rfl
    · exact .inl hmem
    · exact .inr hw
  | reset _ _ _ _ heq | closed _ _ heq =>
    rw [heq] at h
    cases h

theorem mem_parkSession (hf : (findSlot s.gatt conn).isSome) (hr : s.cache.ready = false)
    (hroom : conn ∈ s.upstream.pending ∨ s.upstream.pending.length < configBtMaxConn) :
    conn ∈ (parkSession s conn).pending := by
  unfold parkSession UpstreamSession.enqueuePending
  rw [if_pos ⟨hf, hr⟩]
  split
  · assumption
  · rename_i hm
    rw [if_neg (by have := hroom.resolve_left hm; omega)]
    simp

theorem serve_not_pending
    (henc : ∀ nonce, ∃ n, (protoEncodeConfigComplete p nonce ccFrameSize).2 = .ok n)
    (hcb : s.upstream.serveCb = true) (hc : conn ∈ s.upstream.pending) (pc : ProxyConn κ) :
    (pc.run p s.cache (opsFor conn (serveOps s.upstream))).state ≠ .pending := by
  have hmem : .replay conn 0 ∈ opsFor conn (serveOps s.upstream) := by
    simp [opsFor, serveOps, hcb, hc, GattOp.target]
  have hreplaying : (pc.run p s.cache (opsFor conn (serveOps s.upstream))).state = .replaying :=
    run_replays p henc
      (fun op hop => (mem_serveOps (mem_opsFor.mp hop).1).imp fun _ h => ⟨0, h.2⟩)
      (.inr (List.ne_nil_of_mem hmem))
  simp [hreplaying]

theorem wants_step (hw : e.Wants p conn)
    (hs : ¬ (s.upstream.state = .cacheReady ∨ s.upstream.state = .live)) :
    (s.step p e).1.upstream = parkSession s conn := by
  cases e with
  | toradioWrite c data offset =>
    obtain ⟨rfl, rfl, hw⟩ := hw
    simp only [Proxy.step, toradioWrite, ne_eq, not_true_eq_false, ↓reduceIte]
    have hstep := onToradioBle_step p s c data
    generalize onToradioBle p s c data = s' at hstep ⊢
    cases hstep with
    | forwarded hn | heartbeat hn => simp [hn] at hw
    | replayed _ _ hl => exact absurd hl hs
    | parked => rfl
  | _ => exact hw.elim

theorem slotOf_exists (h : slotOf s.gatt conn = some pc) :
    ∃ i, (s.gatt.conns i).conn = some conn ∧ s.gatt.conns i = pc := by
  obtain ⟨i, hi, rfl⟩ := Option.map_eq_some_iff.mp h
  exact ⟨i, findSlot_conn hi, rfl⟩

theorem step_listed (henc : ∀ nonce, ∃ n, (protoEncodeConfigComplete p nonce ccFrameSize).2 = .ok n)
    (h : Queued s) (he : s.Enabled e) (hk : s.KeepsParked p e)
    (hs : slotOf (s.step p e).1.gatt conn = some pc') (hp : pc'.state = .pending) :
    conn ∈ (s.step p e).1.upstream.pending := by
  rcases slot_pending_step p h.inv.distinct he hs hp with ⟨pc, hpc, hps⟩ | ⟨hsome, hw, hns⟩
  · have hlisted := h.listed conn pc hpc hps
    cases step_session p s e with
    | same hc hst heq | fetching hmain hm hst heq => exact heq ▸ hlisted
    | parked c hw hns heq => exact heq ▸ mem_parkSession_of_mem hlisted
    | reset hmain buf hm =>
      obtain ⟨i, hi, rfl⟩ := slotOf_exists hpc
      subst hmain
      exact absurd hps (hk (by simp [hm, MainPc.emptiesPending]) i (by simp [hi]))
    | closed hc =>
      have hserve : s.upstream.serveCb = true := h.inv.phase.serveCb (by simp [hc.state])
      rw [slotOf_step p h.inv.distinct hc.not_link, hpc, closes_gattOps p hc] at hs
      cases hs
      exact absurd hp (serve_not_pending p henc hserve hlisted pc)
  · rw [wants_step p hw hns]
    have hf : (findSlot s.gatt conn).isSome := by simpa [slotOf] using hsome
    have hr : s.cache.ready = false := by
      rw [h.inv.phase.live_iff, Bool.not_eq_true] at hns
      exact hns
    refine mem_parkSession hf hr ?_
    cases e with
    | toradioWrite c data offset =>
      obtain ⟨rfl, rfl, hw⟩ := hw
      exact hk rfl hw hf hr
    | _ => exact hw.elim

theorem step_queued (henc : ∀ nonce, ∃ n, (protoEncodeConfigComplete p nonce ccFrameSize).2 = .ok n)
    (h : Queued s) (he : s.Enabled e) (hk : s.KeepsParked p e) : Queued (s.step p e).1 where
  inv := step_inv p h.inv he
  listed _ _ := step_listed p henc h he hk
  live hl := by
    cases step_session p s e with
    | same hc hst heq => rw [heq, h.live (hst ▸ hl)]
    | parked c hw hns heq =>
      rw [heq, (parkSession_quiet s c s.gatt).state] at hl
      exact absurd (.inr hl) hns
    | reset _ _ _ _ heq | closed _ _ heq => exact heq
    | fetching _ _ hst => cases hst.symm.trans hl

theorem boot_queued : Queued (Proxy.boot : Proxy κ) where
  inv := boot_inv
  listed conn pc h hs := by
    rw [slotOf_boot] at h
    cases h
  live h := nomatch h

/-- In a run in which no parked phone drops out of the list, every phone that
is still connected has had its replay armed by the time the session is LIVE. -/
theorem none_left_pending
    (henc : ∀ nonce, ∃ n, (protoEncodeConfigComplete p nonce ccFrameSize).2 = .ok n)
    (es : List (Event κ)) (ha : (proxyMachine p κ).Admits .boot es)
    (hk : (proxyMachine p κ).Along (Proxy.KeepsParked p) .boot es) :
    NoneLeftPending ((proxyMachine p κ).exec .boot es) := by
  have hq : Queued ((proxyMachine p κ).exec .boot es) :=
    Machine.invariant (fun _ _ hc h => step_queued p henc h hc.1 hc.2)
      ((proxyMachine p κ).along_and.mpr ⟨ha, hk⟩) boot_queued
  intro hl i hi hp
  obtain ⟨conn, hi⟩ := Option.isSome_iff_exists.mp hi
  have hslot : slotOf ((proxyMachine p κ).exec .boot es).gatt conn = some _ :=
    hq.inv.distinct.slotOf_eq.mpr ⟨i, hi, rfl⟩
  have hmem := hq.listed conn _ hslot hp
  rw [hq.live hl] at hmem
  cases hmem

theorem parkSession_nodup (h : s.upstream.pending.Nodup) (conn : κ) :
    (parkSession s conn).pending.Nodup := by
  unfold parkSession UpstreamSession.enqueuePending
  split
  · split
    · exact h
    · rename_i hm
      split
      · exact h
      · exact List.nodup_append.mpr ⟨h, List.nodup_singleton conn, by
          rintro a ha b hb rfl
          exact hm (List.mem_singleton.mp hb ▸ ha)⟩
  · exact h

theorem pending_nodup (hr : s.Reachable p) : s.upstream.pending.Nodup := by
  refine reachable_invariant p (J := fun s : Proxy κ => s.upstream.pending.Nodup) hr
    List.nodup_nil ?_
  intro s e he hinv h
  cases step_session p s e with
  | same _ _ heq | fetching _ _ _ heq => exact heq ▸ h
  | parked c _ _ heq => exact heq ▸ parkSession_nodup h c
  | reset _ _ _ _ heq | closed _ _ heq => exact heq ▸ List.nodup_nil

/-- With as many connection objects as the stack has, a phone always finds
room: only the list's reset can drop one. -/
theorem pending_room [Fintype κ] (hpool : Fintype.card κ ≤ configBtMaxConn) (hr : s.Reachable p)
    (conn : κ) : conn ∈ s.upstream.pending ∨ s.upstream.pending.length < configBtMaxConn := by
  by_cases hc : conn ∈ s.upstream.pending
  · exact .inl hc
  · have hcons : (conn :: s.upstream.pending).Nodup := List.nodup_cons.mpr ⟨hc, pending_nodup p hr⟩
    have hlen := hcons.length_le_card
    rw [List.length_cons] at hlen
    exact .inr (by omega)

section
variable (s : Proxy κ)

instance : Decidable (NonePending s.gatt) :=
  inferInstanceAs (Decidable (∀ i, (s.gatt.conns i).conn.isSome → (s.gatt.conns i).state ≠ .pending))

instance : Decidable (NoneLeftPending s) :=
  inferInstanceAs (Decidable (s.upstream.state = .live → NonePending s.gatt))

instance : (e : Event κ) → Decidable (s.KeepsParked p e)
  | .mainStep => inferInstanceAs (Decidable (s.main.emptiesPending = true → NonePending s.gatt))
  | .toradioWrite _ _ offset => inferInstanceAs (Decidable (offset = 0 → _ → _ → _ → _ ∨ _))
  | .connected .. | .disconnected _ | .fromnumRead .. | .fromradioRead .. | .nodeRegWrite ..
  | .uartFrame _ | .keepalive | .txWork _ | .uartTxDone | .uartTxAborted =>
    inferInstanceAs (Decidable True)

end

def parkedRun : List (Event Nat) :=
  mainSteps ++ [.connected 1 0, .toradioWrite 1 [0x18, 5] 0] ++ shortBurst

theorem none_left_pending_parkedRun :
    NoneLeftPending ((proxyMachine (wirePlatform 9) Nat).exec .boot parkedRun) :=
  none_left_pending (wirePlatform 9) (wire_encodesConfigComplete 9).succeeds parkedRun
    (by decide) (by decide)

/-- A phone that asks before `upstream_session_start` has emptied the list. -/
def droppedRun : List (Event Nat) :=
  [.connected 1 0, .toradioWrite 1 [0x18, 5] 0] ++ mainSteps ++ shortBurst

theorem not_none_left_pending :
    ¬ ∀ es, (proxyMachine (wirePlatform 9) Nat).Admits .boot es →
      NoneLeftPending ((proxyMachine (wirePlatform 9) Nat).exec .boot es) := by
  intro h
  exact absurd (h droppedRun (by decide)) (by decide)

-- ---------------------------------------------------------------------------
-- No replay without a want_config
-- ---------------------------------------------------------------------------

def askedStep (conn : κ) (asked : Bool) : Event κ → Bool
  | .connected c err => if c = conn ∧ err = 0 then false else asked
  | .disconnected c => if c = conn then false else asked
  | .toradioWrite c data offset =>
    if c = conn ∧ offset = 0 ∧ (wantConfigOf p data).isSome then true else asked
  | _ => asked

def asked (conn : κ) (es : List (Event κ)) : Bool := es.foldl (askedStep p conn) false

def Solicited (es : List (Event κ)) (s : Proxy κ) : Prop :=
  ∀ i conn, (s.gatt.conns i).conn = some conn → (s.gatt.conns i).state = .replaying →
    asked p conn es = true

/-- A link comes up on a pointer that is not in `s_pending`. -/
def Proxy.FreshPointer (s : Proxy κ) : Event κ → Prop
  | .connected conn err => err = 0 → conn ∉ s.upstream.pending
  | _ => True

structure Asked (es : List (Event κ)) (s : Proxy κ) : Prop where
  inv : Inv s
  replaying : ∀ conn pc, slotOf s.gatt conn = some pc → pc.state = .replaying → asked p conn es = true
  listed : ∀ conn, (slotOf s.gatt conn).isSome → conn ∈ s.upstream.pending → asked p conn es = true

theorem asked_append (conn : κ) (es : List (Event κ)) (e : Event κ) :
    asked p conn (es ++ [e]) = askedStep p conn (asked p conn es) e := by
  simp [asked]

theorem asked_of_wants (hw : e.Wants p conn) : askedStep p conn a e = true := by
  cases e with
  | toradioWrite c data offset =>
    obtain ⟨rfl, rfl, hw⟩ := hw
    simp [askedStep, hw]
  | _ => exact hw.elim

theorem asked_of_asked (hd : Distinct s.gatt) (he : s.Enabled e) (ha : a = true)
    (hb : (slotOf s.gatt conn).isSome) (h : (slotOf (s.step p e).1.gatt conn).isSome) :
    askedStep p conn a e = true := by
  cases e with
  | connected c err =>
    rw [askedStep, if_neg]
    · exact ha
    · rintro ⟨rfl, rfl⟩
      rw [slotOf_eq_none.mpr (he rfl)] at hb
      cases hb
  | disconnected c =>
    rw [askedStep, if_neg]
    · exact ha
    · rintro rfl
      simp [Proxy.step, slotOf_onDisconnected hd] at h
  | toradioWrite c data offset =>
    simp only [askedStep]
    split
    · rfl
    · exact ha
  | _ => exact ha

theorem step_asked (h : Asked p es s) (he : s.Enabled e) (hk : s.FreshPointer e) :
    Asked p (es ++ [e]) (s.step p e).1 where
  inv := step_inv p h.inv he
  replaying conn pc' hpc' hs := by
    rw [asked_append]
    rcases slot_replaying_step p h.inv.distinct he hpc' hs with
      ⟨pc, hpc, hps⟩ | ⟨hsome, hw | ⟨hc, hmem⟩⟩
    · exact asked_of_asked p h.inv.distinct he (h.replaying conn pc hpc hps) (by simp [hpc])
        (by simp [hpc'])
    · exact asked_of_wants p hw
    · exact asked_of_asked p h.inv.distinct he (h.listed conn hsome hmem) hsome (by simp [hpc'])
  listed conn hsome hmem := by
    rw [asked_append]
    rcases mem_pending_step p hmem with hmem | hw
    · obtain ⟨pc', hpc'⟩ := Option.isSome_iff_exists.mp hsome
      have hbefore : (slotOf s.gatt conn).isSome := by
        rcases slotOf_step_cases p h.inv.distinct he hpc' with ⟨hpc, -⟩ | ⟨i, rfl, -⟩ | ⟨pc, hpc, -⟩
        · simp [hpc]
        · exact absurd hmem (hk rfl)
        · simp [hpc]
      exact asked_of_asked p h.inv.distinct he (h.listed conn hbefore hmem) hbefore hsome
    · exact asked_of_wants p hw

/-- In a run in which no link comes up on a pointer that is still listed, a
replaying slot always belongs to a connection that has asked for it. -/
theorem replay_solicited (es : List (Event κ)) (ha : (proxyMachine p κ).Admits .boot es)
    (hk : (proxyMachine p κ).Along Proxy.FreshPointer .boot es) :
    Solicited p es ((proxyMachine p κ).exec .boot es) := by
  have hboot : Asked p [] (Proxy.boot : Proxy κ) :=
    ⟨boot_inv, fun conn pc h => by simp [slotOf_boot] at h, fun conn h => by simp [slotOf_boot] at h⟩
  have hasked : Asked p es ((proxyMachine p κ).exec .boot es) :=
    Machine.history_invariant (I := Asked p) (fun _ _ _ hc h => step_asked p h hc.1 hc.2)
      ((proxyMachine p κ).along_and.mpr ⟨ha, hk⟩) hboot
  intro i conn hi hs
  exact hasked.replaying conn _ (hasked.inv.distinct.slotOf_eq.mpr ⟨i, hi, rfl⟩) hs

instance (s : Proxy κ) : (e : Event κ) → Decidable (s.FreshPointer e)
  | .connected conn err => inferInstanceAs (Decidable (err = 0 → conn ∉ s.upstream.pending))
  | .disconnected _ | .fromnumRead .. | .fromradioRead .. | .toradioWrite .. | .nodeRegWrite ..
  | .uartFrame _ | .keepalive | .mainStep | .txWork _ | .uartTxDone | .uartTxAborted =>
    inferInstanceAs (Decidable True)

theorem replay_solicited_parkedRun :
    Solicited (wirePlatform 9) parkedRun ((proxyMachine (wirePlatform 9) Nat).exec .boot parkedRun) :=
  replay_solicited (wirePlatform 9) parkedRun (by decide) (by decide)

/-- A parked phone leaves and another link comes up on its pointer before the
burst ends. -/
def staleRun : List (Event Nat) :=
  mainSteps ++ [.connected 1 0, .toradioWrite 1 [0x18, 5] 0, .disconnected 1, .connected 1 0] ++
    shortBurst

theorem not_replay_solicited :
    ¬ ∀ es, (proxyMachine (wirePlatform 9) Nat).Admits .boot es →
      Solicited (wirePlatform 9) es ((proxyMachine (wirePlatform 9) Nat).exec .boot es) := by
  intro h
  have hasked := h staleRun (by decide) 0 1 (by decide) (by decide)
  exact absurd hasked (by decide)

end MeshProxy

import MeshProxy.UplinkWire

/-!
# How a start ends

`main` calls `upstream_session_start` once, and the call returns early when the
want_config cannot be encoded or the UART queue is full. `start_settles` says
that the two ends are the only ones: the session runs and the keepalive is
armed, or the session stays in BOOT for good.
-/

namespace MeshProxy

variable {κ : Type} (p : Platform)

def MainPc.Through (m : MainPc) : Prop := m = .start .done ∨ m = .returned

/-- The proxy's own want_config is in the transmit queue, or was. -/
def Proxy.wanted (s : Proxy κ) : Bool :=
  match s.main with
  | .start .setFetching | .start .armKeepalive => true
  | _ => s.upstream.keepaliveArmed

structure Staged (s : Proxy κ) : Prop where
  state_iff : s.upstream.state ≠ .boot ↔
    s.main = .start .armKeepalive ∨ s.upstream.keepaliveArmed = true
  armed : s.upstream.keepaliveArmed = true → s.main = .start .done

variable {s : Proxy κ} {e : Event κ}

def wantsAt (s : Proxy κ) (e : Event κ) : List UInt32 := (takenAt p s e).filterMap Sent.wantNonce

theorem wantsAt_other (he : e ≠ .mainStep) : wantsAt p s e = [] := by
  unfold wantsAt takenAt
  cases e with
  | toradioWrite conn data offset =>
    simp only [sentAt]
    split
    · rw [List.filter_cons]
      split <;> rfl
    · rfl
  | keepalive =>
    simp only [sentAt]
    split
    · rw [List.filter_cons]
      split <;> rfl
    · rfl
  | mainStep => exact absurd rfl he
  | _ => rfl

theorem mainStep_wanted (hc : Carries p s) (h : Staged s) :
    (if (mainStep p s).wanted = true then [startNonce p.rand] else []) =
      (if s.wanted = true then [startNonce p.rand] else []) ++ wantsAt p s .mainStep := by
  have hoff (hm : s.main ≠ .start .done) : s.upstream.keepaliveArmed = false := by
    rw [← Bool.not_eq_true]
    exact fun ha => hm (h.armed ha)
  cases hm : s.main with
  | uartInit =>
    have hoff := hoff (by simp [hm])
    cases hu : p.uartBringUp <;> simp [mainStep, hm, hu, Proxy.wanted, hoff, wantsAt, takenAt, sentAt]
  | setServeCb =>
    have hoff := hoff (by simp [hm])
    simp [mainStep, hm, Proxy.wanted, hoff, wantsAt, takenAt, sentAt]
  | returned => simp [mainStep, hm, wantsAt, takenAt, sentAt]
  | start pc =>
    cases pc with
    | pickNonce =>
      have hoff := hoff (by simp [hm])
      simp only [mainStep, hm, upstreamSessionStart]
      split <;> simp [Proxy.wanted, hm, hoff, wantsAt, takenAt, sentAt]
    | tx buf =>
      have hoff := hoff (by simp [hm])
      have hbytes : (Sent.wantConfig (startNonce p.rand) : Sent κ).bytes p = buf :=
        (hc buf (.inr (.inr hm))).symm
      simp only [mainStep, hm, upstreamSessionStart, wantsAt, takenAt, sentAt, List.filter_cons, hbytes,
        UartTx.takes, Proxy.wanted]
      obtain ⟨u, _ | _⟩ := uartMeshtasticTx s.uart buf <;>
        simp [Except.isOk, Except.toBool, Sent.wantNonce, hoff]
    | cacheBegin buf | resetPending buf =>
      have hoff := hoff (by simp [hm])
      simp [mainStep, hm, upstreamSessionStart, Proxy.wanted, hoff, wantsAt, takenAt, sentAt]
    | setFetching | armKeepalive =>
      simp [mainStep, hm, upstreamSessionStart, Proxy.wanted, wantsAt, takenAt, sentAt]
    | done => simp [mainStep, hm, upstreamSessionStart, Proxy.wanted, wantsAt, takenAt, sentAt]

variable [DecidableEq κ]

theorem step_keepaliveArmed (s : Proxy κ) (e : Event κ) :
    (s.step p e).1.upstream.keepaliveArmed = true ↔
      s.upstream.keepaliveArmed = true ∨ (e = .mainStep ∧ s.main = .start .armKeepalive) := by
  by_cases hm : e = .mainStep
  · subst hm
    have hstep : MainStep p s (s.step p .mainStep).1 := mainStep_step p s
    generalize (s.step p .mainStep).1 = s' at hstep ⊢
    cases hstep with
    | armed hm => simp [hm]
    | idle hm => rcases hm with hm | hm <;> simp [hm]
    | uartUp hm | uartFailed hm | serveCbSet hm | noncePicked hm | encodeFailed hm
    | cacheBegun _ hm | pendingReset _ hm | sent _ hm | sendFailed _ hm | fetching hm => simp [hm]
  · have hsame : (s.step p e).1.upstream.keepaliveArmed = s.upstream.keepaliveArmed := by
      by_cases hk : e = .keepalive
      · subst hk
        simp only [Proxy.step, keepaliveWorkHandler]
        repeat' split
        all_goals rfl
      · exact ((step_keepaliveData p s hk).2.1).resolve_right hm
    rw [hsame]
    tauto

theorem step_boot_iff (he : e ≠ .mainStep) :
    (s.step p e).1.upstream.state = .boot ↔ s.upstream.state = .boot := by
  cases step_session p s e with
  | same _ hst => rw [hst]
  | parked conn _ _ h => rw [h, (parkSession_quiet s conn s.gatt).state]
  | reset hm | fetching hm => exact absurd hm he
  | closed hc hst => simp [hst, hc.state]

theorem step_staged (h : Staged s) (e : Event κ) : Staged (s.step p e).1 := by
  have harmed := step_keepaliveArmed p s e
  by_cases he : e = .mainStep
  · subst he
    have hstep : MainStep p s (s.step p .mainStep).1 := mainStep_step p s
    generalize (s.step p .mainStep).1 = s' at hstep harmed ⊢
    obtain ⟨hst, hdone⟩ := h
    cases hstep with
    | uartUp hm | uartFailed hm | serveCbSet hm | noncePicked hm | encodeFailed hm
    | cacheBegun _ hm | pendingReset _ hm | sent _ hm | sendFailed _ hm =>
      have hoff : s.upstream.keepaliveArmed = false := by
        rw [← Bool.not_eq_true]
        intro ha
        simp [hdone ha] at hm
      refine ⟨?_, fun ha => ?_⟩
      · simpa [hm, hoff] using hst
      · simp [hoff] at ha
    | fetching hm =>
      have hoff : s.upstream.keepaliveArmed = false := by
        rw [← Bool.not_eq_true]
        intro ha
        simp [hdone ha] at hm
      exact ⟨by simp, fun ha => by simp [hoff] at ha⟩
    | armed hm =>
      refine ⟨?_, fun _ => rfl⟩
      have hne : s.upstream.state ≠ .boot := hst.mpr (.inl hm)
      simpa using hne
    | idle hm => exact ⟨hst, hdone⟩
  · have hmain := step_main p (s := s) he
    refine ⟨?_, ?_⟩
    · rw [ne_eq, step_boot_iff p he, hmain, harmed]
      simpa [he] using h.state_iff
    · rw [harmed, hmain]
      simpa [he] using h.armed

theorem staged_reachable (hr : s.Reachable p) : Staged s :=
  reachable_invariant p (J := Staged) hr ⟨by simp [Proxy.boot], by simp [Proxy.boot]⟩
    fun _ e _ _ h => step_staged p h e

-- ---------------------------------------------------------------------------
-- The proxy's want_config
-- ---------------------------------------------------------------------------

theorem step_wanted (hc : Carries p s) (h : Staged s) (e : Event κ) :
    (if (s.step p e).1.wanted = true then [startNonce p.rand] else []) =
      (if s.wanted = true then [startNonce p.rand] else []) ++ wantsAt p s e := by
  by_cases he : e = .mainStep
  · subst he
    exact mainStep_wanted p hc h
  · have hsame : (s.step p e).1.wanted = s.wanted := by
      have harmed : (s.step p e).1.upstream.keepaliveArmed = s.upstream.keepaliveArmed := by
        rw [Bool.eq_iff_iff, step_keepaliveArmed]
        simp [he]
      unfold Proxy.wanted
      rw [step_main p he, harmed]
    rw [wantsAt_other p he, List.append_nil, hsame]

theorem exec_wanted (es : List (Event κ)) :
    (proxyMachine p κ).collect (wantsAt p) .boot es =
      if ((proxyMachine p κ).exec .boot es).wanted = true then [startNonce p.rand] else [] := by
  have hall : (proxyMachine p κ).Along (fun _ _ => True) .boot es :=
    Machine.along_of_forall _ fun _ _ => trivial
  have hrun := Machine.exec_collect (m := proxyMachine p κ) (I := fun s => Carries p s ∧ Staged s)
    (f := wantsAt p) (v := fun s : Proxy κ => if s.wanted = true then [startNonce p.rand] else [])
    (fun s e _ h => ⟨⟨step_carries p h.1 e, step_staged p h.2 e⟩, step_wanted p h.1 h.2 e⟩) hall
    ⟨(uplinked_boot p).carries, by simp [Proxy.boot], by simp [Proxy.boot]⟩
  exact hrun.symm

-- ---------------------------------------------------------------------------
-- A failed start
-- ---------------------------------------------------------------------------

structure Failed (s : Proxy κ) : Prop where
  inv : Inv s
  through : s.main.Through
  boot : s.upstream.state = .boot
  unarmed : s.upstream.keepaliveArmed = false

theorem step_failed (h : Failed s) (he : s.Enabled e) : Failed (s.step p e).1 := by
  have hinv := step_inv p h.inv he
  by_cases hm : e = .mainStep
  · subst hm
    have hstep : MainStep p s (s.step p .mainStep).1 := mainStep_step p s
    have hidle : (s.step p .mainStep).1 = s := by
      generalize (s.step p .mainStep).1 = s' at hstep ⊢
      cases hstep with
      | idle => rfl
      | uartUp hm | uartFailed hm | serveCbSet hm | noncePicked hm | encodeFailed hm
      | cacheBegun _ hm | pendingReset _ hm | sent _ hm | sendFailed _ hm | fetching hm | armed hm =>
        rcases h.through with ht | ht <;> simp [ht] at hm
    rw [hidle]
    exact h
  · refine ⟨hinv, by rw [step_main p hm]; exact h.through, (step_boot_iff p hm).mpr h.boot, ?_⟩
    rw [← Bool.not_eq_true, step_keepaliveArmed]
    simp [hm, h.unarmed]

theorem Failed.sent (h : Failed s) (hx : x ∈ sentAt p s e) : ∃ conn data, x = .phone conn data := by
  cases e with
  | toradioWrite conn data offset =>
    simp only [sentAt] at hx
    split at hx
    · exact ⟨conn, data, List.mem_singleton.mp hx⟩
    · cases hx
  | keepalive => simp [sentAt, h.unarmed] at hx
  | mainStep => rcases h.through with ht | ht <;> simp [sentAt, ht] at hx
  | _ => cases hx

theorem Failed.not_replaying (h : Failed s) (hpc : slotOf s.gatt conn = some pc) :
    pc.state ≠ .replaying := by
  intro hs
  have hready := (h.inv.slots conn pc hpc).ready hs
  rw [h.inv.phase.ready_iff, h.boot] at hready
  cases hready

theorem exec_failed (h : Failed s) (ha : (proxyMachine p κ).Admits s es) :
    Failed ((proxyMachine p κ).exec s es) ∧
      ∀ x ∈ (proxyMachine p κ).collect (sentAt p) s es, ∃ conn data, x = .phone conn data := by
  induction es generalizing s with
  | nil => exact ⟨h, fun x hx => by cases hx⟩
  | cons e es ih =>
    obtain ⟨hend, hrest⟩ := ih (step_failed p h ha.1) ha.2
    refine ⟨hend, fun x hx => ?_⟩
    rcases List.mem_append.mp hx with hx | hx
    · exact h.sent p hx
    · exact hrest x hx

/-- Once the main thread is through, either the queue took its want_config, the
session runs and the keepalive is armed; or it did not, and from then on the
session stays in BOOT, no phone is ever served a replay and nothing but the
phones' own packets goes to the node. -/
theorem start_settles (es : List (Event κ)) (ha : (proxyMachine p κ).Admits .boot es)
    (hm : ((proxyMachine p κ).exec .boot es).main.Through) :
    let s := (proxyMachine p κ).exec .boot es
    let wants := ((proxyMachine p κ).collect (takenAt p) .boot es).filterMap Sent.wantNonce
    (wants = [startNonce p.rand] ∧ s.upstream.keepaliveArmed = true ∧
      (s.upstream.state = .fetching ∨ s.upstream.state = .live)) ∨
    (wants = [] ∧ ∀ es', (proxyMachine p κ).Admits s es' →
      ((proxyMachine p κ).exec s es').upstream.state = .boot ∧
      ((proxyMachine p κ).exec s es').cache.ready = false ∧
      (∀ conn pc, slotOf ((proxyMachine p κ).exec s es').gatt conn = some pc →
        pc.state ≠ .replaying) ∧
      ∀ x ∈ (proxyMachine p κ).collect (sentAt p) s es', ∃ conn data, x = .phone conn data) := by
  intro s wants
  have hr : s.Reachable p := ⟨es, ha, rfl⟩
  have hinv := inv_reachable p hr
  have hst := staged_reachable p hr
  have hwants : wants = if s.upstream.keepaliveArmed = true then [startNonce p.rand] else [] := by
    have hw : s.wanted = s.upstream.keepaliveArmed := by
      unfold Proxy.wanted
      rcases hm with hm | hm <;> rw [hm]
    rw [← hw, ← exec_wanted]
    exact Machine.collect_filterMap _ _ _
  have hnot : s.main ≠ .start .armKeepalive := by
    rcases hm with hm | hm <;> simp [s, hm]
  cases harm : s.upstream.keepaliveArmed with
  | true =>
    refine .inl ⟨by simp [hwants, harm], rfl, ?_⟩
    have hne := hst.state_iff.mpr (.inr harm)
    have hsettled := hinv.phase.settled
    cases hstate : s.upstream.state with
    | boot => exact absurd hstate hne
    | cacheReady => exact absurd hstate hsettled
    | fetching => exact .inl rfl
    | live => exact .inr rfl
  | false =>
    refine .inr ⟨by simp [hwants, harm], fun es' ha' => ?_⟩
    have hboot : s.upstream.state = .boot := by
      by_contra hne
      rcases hst.state_iff.mp hne with h | h
      · exact hnot h
      · simp [harm] at h
    obtain ⟨hend, hsent⟩ := exec_failed p ⟨hinv, hm, hboot, harm⟩ ha'
    refine ⟨hend.boot, hend.inv.phase.not_ready (by simp [hend.boot]), ?_, hsent⟩
    exact fun conn pc hpc => hend.not_replaying hpc

/-- Four packets of a phone fill the queue before the start gets to it. -/
def crowdedStart : List (Event Nat) :=
  [.connected 1 0] ++ List.replicate 4 (.toradioWrite 1 [0xFF] 0) ++ mainSteps

theorem start_settles_crowdedStart :
    ((proxyMachine (wirePlatform 9) Nat).exec ((proxyMachine (wirePlatform 9) Nat).exec .boot crowdedStart)
      (shortBurst ++ [.toradioWrite 1 [0x18, 5] 0])).upstream.state = .boot := by
  have ha : (proxyMachine (wirePlatform 9) Nat).Admits .boot crowdedStart := by decide
  have hm : ((proxyMachine (wirePlatform 9) Nat).exec .boot crowdedStart).main = .start .done := by decide
  have ha' : (proxyMachine (wirePlatform 9) Nat).Admits
      ((proxyMachine (wirePlatform 9) Nat).exec .boot crowdedStart)
      (shortBurst ++ [.toradioWrite 1 [0x18, 5] 0]) := by decide
  have hfull : ((proxyMachine (wirePlatform 9) Nat).exec .boot crowdedStart).upstream.keepaliveArmed =
      false := by decide
  rcases start_settles (wirePlatform 9) crowdedStart ha (.inl hm) with ⟨-, harm, -⟩ | ⟨-, h⟩
  · exact absurd (hfull.symm.trans harm) (by decide)
  · obtain ⟨hboot, -⟩ := h _ ha'
    exact hboot

end MeshProxy

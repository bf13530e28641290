import MeshProxy.Lib.Watchdog
import MeshProxy.Startup

/-!
# When the keepalive fires

`s_keepalive_work` is a delayable work item. Its deadline is pushed out by
`upstream_session_start`, by its own handler and by every packet of a phone
that the UART queue takes, but an item that is submitted by then still runs.
`keepalive_timing` says what that gives: otherwise no heartbeat within five
minutes of traffic, and no five minutes and a lag without traffic.
-/

namespace MeshProxy

variable {κ : Type} (p : Platform)

def upstreamKeepaliveMs : Nat := 5 * 60 * 1000

/-- `upstream_keepalive_reschedule` re-arms the work item once it is
initialised. -/
def upstreamKeepaliveReschedule (up : UpstreamSession κ) : Bool := up.keepaliveArmed

def Proxy.reschedules (s : Proxy κ) : Event κ → Bool
  | .toradioWrite _ data offset =>
    if offset ≠ 0 then false
    else
      match protoDecodeToradio p data with
      | .error _ => false
      | .ok ti =>
        if ti.hasWantConfig then false
        else if ti.hasHeartbeat then false
        else
          match (uartMeshtasticTx s.uart data).2 with
          | .ok () => upstreamKeepaliveReschedule s.upstream
          | .error _ => false
  | .keepalive => s.upstream.keepaliveArmed
  | .mainStep => decide (s.main = .start .armKeepalive)
  | _ => false

def Event.isKeepalive : Event κ → Bool
  | .keepalive => true
  | _ => false

theorem Event.isKeepalive_iff {e : Event κ} : e.isKeepalive = true ↔ e = .keepalive := by
  cases e <;> simp [Event.isKeepalive]

/-- The transmit queue takes a packet of a phone, or the keepalive runs. -/
def Proxy.Queues (s : Proxy κ) : Event κ → Prop
  | .toradioWrite _ data offset =>
    offset = 0 ∧ s.uart.takes data = true ∧
      ∃ ti, protoDecodeToradio p data = .ok ti ∧ ti.hasWantConfig = false ∧ ti.hasHeartbeat = false
  | .keepalive => s.upstream.keepaliveArmed = true
  | _ => False

variable {s : Proxy κ} {e : Event κ}

theorem Proxy.Queues.reschedules (h : s.Queues p e) :
    s.reschedules p e = true ∨ s.upstream.keepaliveArmed = false := by
  cases e with
  | toradioWrite conn data offset =>
    obtain ⟨rfl, htakes, ti, hd, hw, hh⟩ := h
    simp only [UartTx.takes] at htakes
    simp only [Proxy.reschedules, hd, hw, hh, upstreamKeepaliveReschedule]
    generalize (uartMeshtasticTx s.uart data).2 = r at htakes ⊢
    cases r with
    | error err => cases htakes
    | ok => cases s.upstream.keepaliveArmed <;> simp
  | keepalive => exact .inl h
  | _ => exact h.elim

variable [DecidableEq κ]

theorem reschedules_sent (hr : s.Reachable p) (ha : s.upstream.keepaliveArmed = true)
    (h : s.reschedules p e = true) : sentAt p s e ≠ [] := by
  cases e with
  | toradioWrite conn data offset =>
    simp only [Proxy.reschedules] at h
    split at h
    · cases h
    · rename_i ho
      have ho : offset = 0 := by simpa using ho
      have hpass : passesThrough p data = true := by
        rw [protoDecodeToradio_passes]
        cases hd : protoDecodeToradio p data with
        | error err => rfl
        | ok ti =>
          simp only [hd] at h
          split at h
          · cases h
          · rename_i hw
            split at h
            · cases h
            · rename_i hh
              simp [hw, hh]
      simp [sentAt, ho, hpass]
  | keepalive => simp [sentAt, ha]
  | mainStep =>
    have hm : s.main = .start .armKeepalive := of_decide_eq_true h
    rw [(staged_reachable p hr).armed ha] at hm
    cases hm
  | _ => cases h

-- ---------------------------------------------------------------------------
-- The clock
-- ---------------------------------------------------------------------------

/-- The work item on the kernel's clock, in milliseconds. When its delay is over
it is submitted to the system work queue, which runs it at most `lag` later;
`k_work_reschedule` sets a new delay and leaves a submitted item where it is. -/
def keepaliveTimer (κ : Type) [DecidableEq κ] (lag : Nat) : Watchdog (proxyMachine p κ) where
  period := upstreamKeepaliveMs
  lag
  resets := Proxy.reschedules p
  fires := Event.isKeepalive

def Timed.boot : Timed (Proxy κ) := { state := .boot }

variable {lag : Nat}

def Scheduled (t : Timed (Proxy κ)) : Prop := t.due ≠ [] ↔ t.state.upstream.keepaliveArmed = true

theorem armed_of_reschedules (h : s.reschedules p e = true) :
    (s.step p e).1.upstream.keepaliveArmed = true := by
  refine (step_keepaliveArmed p s e).mpr ?_
  cases e with
  | mainStep => exact .inr ⟨rfl, of_decide_eq_true h⟩
  | keepalive => exact .inl h
  | toradioWrite conn data offset =>
    simp only [Proxy.reschedules, upstreamKeepaliveReschedule] at h
    repeat' split at h
    all_goals first | cases h | exact .inl h
  | _ => cases h

theorem step_scheduled {t : Timed (Proxy κ)} {e : TimedEvent (Event κ)}
    (he : (keepaliveTimer p κ lag).Enabled t e) (h : Scheduled t) :
    Scheduled ((keepaliveTimer p κ lag).step t e).1 := by
  cases e with
  | passes ms => exact h
  | expires =>
    obtain ⟨d, hd, -⟩ := he
    have hd : t.deadline = some d := hd
    refine iff_of_true ?_ (h.mp (by simp [Timed.due, hd]))
    cases hq : t.queued <;> simp [Timed.due, Watchdog.step, hd, hq]
  | act e =>
    by_cases hr : t.state.reschedules p e = true
    · have hd : ((keepaliveTimer p κ lag).step t (.act e)).1.deadline = some _ := if_pos hr
      exact iff_of_true (by simp [Timed.due, hd]) (armed_of_reschedules p hr)
    · have hno : ¬ (e = .mainStep ∧ t.state.main = .start .armKeepalive) := by
        rintro ⟨rfl, hm⟩
        exact hr (decide_eq_true hm)
      have hd : ((keepaliveTimer p κ lag).step t (.act e)).1.deadline = t.deadline := if_neg hr
      have hq : ((keepaliveTimer p κ lag).step t (.act e)).1.queued = t.queued := by
        refine if_neg fun hf => ?_
        -- a submitted item is armed, and its handler reschedules it
        cases e with
        | keepalive =>
          obtain ⟨q, hq⟩ := Option.isSome_iff_exists.mp (he.2 hf)
          exact hr (h.mp (by simp [Timed.due, hq]))
        | _ => cases hf
      unfold Scheduled Timed.due
      rw [hd, hq]
      exact h.trans ((or_iff_left hno).symm.trans (step_keepaliveArmed p t.state e).symm)

theorem exec_scheduled (ha : (keepaliveTimer p κ lag).machine.Admits .boot es) :
    Scheduled ((keepaliveTimer p κ lag).machine.exec .boot es) :=
  Machine.invariant (I := Scheduled) (fun _ _ he h => step_scheduled p he h) ha
    (iff_of_false (by simp [Timed.boot, Timed.due]) (by simp [Timed.boot, Proxy.boot]))

theorem exec_passed (henc : ∀ nonce, ∃ len, (protoEncodeHeartbeat p nonce 16).2 = .ok len)
    (hc : Carries p s) (es : List (Event κ)) :
    ((proxyMachine p κ).exec s es).uart.passed =
      s.uart.passed ++ (((proxyMachine p κ).collect (sentAt p) s es).map (Sent.bytes p)) := by
  rw [Machine.collect_map]
  exact Machine.exec_collect (P := fun _ _ => True) (I := Carries p) (v := fun s => s.uart.passed)
    (fun s e _ hc => ⟨step_carries p hc e, step_passed p henc hc e⟩)
    (Machine.along_of_forall _ fun _ _ => trivial) hc

theorem exec_carries (es : List (Event κ)) : Carries p ((proxyMachine p κ).exec .boot es) := by
  refine Machine.invariant (P := fun _ _ => True) (I := Carries p) (fun s e _ hc => step_carries p hc e)
    (Machine.along_of_forall _ fun _ _ => trivial) ?_
  rintro buf (h | h | h) <;> cases h

theorem exec_armed_keepalive (ha : s.upstream.keepaliveArmed = true) (es : List (Event κ)) :
    ((proxyMachine p κ).exec s es).upstream.keepaliveArmed = true :=
  Machine.invariant (P := fun _ _ => True) (I := fun s : Proxy κ => s.upstream.keepaliveArmed = true)
    (fun s e _ h => (step_keepaliveArmed p s e).mpr (.inl h))
    (Machine.along_of_forall _ fun _ _ => trivial) ha

theorem sent_of_reschedules (hr : s.Reachable p) (ha : s.upstream.keepaliveArmed = true)
    (hadm : (proxyMachine p κ).Admits s (es₁ ++ e :: es₂))
    (h : ((proxyMachine p κ).exec s es₁).reschedules p e = true) :
    (proxyMachine p κ).collect (sentAt p) s (es₁ ++ e :: es₂) ≠ [] := by
  obtain ⟨hadm, -⟩ := (proxyMachine p κ).along_append.mp hadm
  have hsent := reschedules_sent p (hr.exec hadm) (exec_armed_keepalive p ha es₁) h
  rw [Machine.collect_append, Machine.collect_cons]
  intro hnil
  exact hsent (List.append_eq_nil_iff.mp (List.append_eq_nil_iff.mp hnil).2).1

/-- The keepalive in any timed run. After a packet that was queued, also one
from before it was armed, and after its own last firing it does not fire for
five minutes, unless the work item had been submitted by then: that one firing
still comes, within the lag. And once it is armed, any stretch longer than five
minutes and the lag passes something to the UART. -/
theorem keepalive_timing (henc : ∀ nonce, ∃ len, (protoEncodeHeartbeat p nonce 16).2 = .ok len)
    (lag : Nat) (es : List (TimedEvent (Event κ)))
    (ha : (keepaliveTimer p κ lag).machine.Admits .boot es) :
    let t := (keepaliveTimer p κ lag).machine.exec .boot es
    (∀ e es', t.state.Queues p e →
      (keepaliveTimer p κ lag).machine.Admits t (.act e :: es' ++ [.act .keepalive]) →
      upstreamKeepaliveMs ≤ elapsed es' ∨
        e ≠ .keepalive ∧ t.queued.isSome ∧ .act .keepalive ∉ es' ∧ elapsed es' ≤ lag) ∧
    (t.state.upstream.keepaliveArmed = true → ∀ es',
      (keepaliveTimer p κ lag).machine.Admits t es' → upstreamKeepaliveMs + lag < elapsed es' →
      ∃ sent, sent ≠ [] ∧ ((keepaliveTimer p κ lag).machine.exec t es').state.uart.passed =
        t.state.uart.passed ++ sent) := by
  intro t
  have hsched : Scheduled t := exec_scheduled p ha
  have hin : (keepaliveTimer p κ lag).InTime t := Watchdog.exec_inTime ha (Watchdog.inTime_start _)
  have hstate : t.state = (proxyMachine p κ).exec .boot (untimed es) := Watchdog.exec_state es
  have hr : t.state.Reachable p := ⟨untimed es, Watchdog.admits_untimed ha, hstate.symm⟩
  constructor
  · intro e es' hq hadm
    -- the packet pushed the deadline out, or there is none yet
    have hlater : Watchdog.NotBefore (t.now + upstreamKeepaliveMs)
        ((keepaliveTimer p κ lag).machine.next t (.act e)) := by
      intro d hd
      by_cases hres : t.state.reschedules p e = true
      · exact Nat.le_of_eq (Option.some.inj ((if_pos hres).symm.trans hd))
      · have hold : t.deadline = some d := (if_neg hres).symm.trans hd
        have harm := (hq.reschedules p).resolve_left hres
        rw [hsched.mp (by simp [Timed.due, hold])] at harm
        cases harm
    have hin' : (keepaliveTimer p κ lag).InTime ((keepaliveTimer p κ lag).machine.next t (.act e)) :=
      Watchdog.step_inTime hadm.1 hin
    obtain hlong | ⟨hqueued, hno, hlag⟩ := Watchdog.fires_cases (f := .keepalive) hlater hin' rfl hadm.2
    · exact .inl hlong
    have hne : e ≠ .keepalive := by
      rintro rfl
      cases hqueued
    have hsame : ((keepaliveTimer p κ lag).machine.next t (.act e)).queued = t.queued :=
      if_neg fun hf => hne (Event.isKeepalive_iff.mp hf)
    exact .inr ⟨hne, hsame ▸ hqueued, fun hmem => Bool.noConfusion (hno _ hmem), hlag⟩
  · intro harm es' hadm hlong
    obtain ⟨es₁, e, es₂, rfl, hact⟩ := Watchdog.exists_resets hin (hsched.mpr harm) hadm hlong
    have hun : untimed (es₁ ++ .act e :: es₂) = untimed es₁ ++ e :: untimed es₂ := by simp [untimed]
    rw [Watchdog.exec_state] at hact
    have hres : ((proxyMachine p κ).exec t.state (untimed es₁)).reschedules p e = true := by
      refine hact.elim id fun hf => ?_
      obtain rfl := Event.isKeepalive_iff.mp hf
      exact exec_armed_keepalive p harm (untimed es₁)
    have hadm' := Watchdog.admits_untimed hadm
    rw [hun] at hadm'
    have hpassed :=
      exec_passed p henc (hstate ▸ exec_carries p (untimed es)) (untimed es₁ ++ e :: untimed es₂)
    rw [← hun, ← Watchdog.exec_state (w := keepaliveTimer p κ lag)] at hpassed
    refine ⟨_, ?_, hpassed⟩
    rw [hun, ne_eq, List.map_eq_nil_iff]
    exact sent_of_reschedules p hr harm hadm' hres

def timedStart : List (TimedEvent (Event Nat)) :=
  List.replicate 8 (.act .mainStep) ++ [.passes 1000, .act (.connected 1 0)]

def submittedRun : List (TimedEvent (Event Nat)) :=
  timedStart ++ [.passes 299000, .expires, .passes 5]

theorem keepalive_timing_packet :
    upstreamKeepaliveMs ≤
      elapsed ([.passes 299000, .passes 1000, .expires, .passes 3] : List (TimedEvent (Event Nat))) ∧
    elapsed ([.passes 10] : List (TimedEvent (Event Nat))) ≤ 20 ∧
    ∃ sent, sent ≠ [] ∧
      ((keepaliveTimer (wirePlatform 9) Nat 20).machine.exec .boot
        (timedStart ++ [.passes 299000, .expires, .act .keepalive, .passes 2000])).state.uart.passed =
      ((keepaliveTimer (wirePlatform 9) Nat 20).machine.exec .boot timedStart).state.uart.passed ++
        sent := by
  obtain ⟨hearly, hlate⟩ :=
    keepalive_timing (wirePlatform 9) (wire_heartbeat 9) 20 timedStart (by decide)
  obtain ⟨hsubmitted, -⟩ :=
    keepalive_timing (wirePlatform 9) (wire_heartbeat 9) 20 submittedRun (by decide)
  have hqueues (s : Proxy Nat) (h : s.uart.takes [0x0A, 0] = true) :
      s.Queues (wirePlatform 9) (.toradioWrite 1 [0x0A, 0] 0) := ⟨rfl, h, {}, by decide, rfl, rfl⟩
  refine ⟨?_, ?_, ?_⟩
  · refine (hearly (.toradioWrite 1 [0x0A, 0] 0) [.passes 299000, .passes 1000, .expires, .passes 3]
      (hqueues _ (by decide)) (by decide)).resolve_right fun h => ?_
    exact absurd h.2.1 (by decide)
  · refine ((hsubmitted (.toradioWrite 1 [0x0A, 0] 0) [.passes 10] (hqueues _ (by decide))
      (by decide)).resolve_left ?_).2.2.2
    decide
  · rw [Machine.exec_append]
    exact hlate (by decide) [.passes 299000, .expires, .act .keepalive, .passes 2000] (by decide)
      (by decide)

end MeshProxy

import MeshProxy.Keepalive
import MeshProxy.TxPath

/-!
# The transmit queue

What an event does to the transmit side of the whole proxy (`UartStep`), and
from it the queue as a FIFO between what `uart_meshtastic_tx` accepted and what
the work item framed.
-/

namespace MeshProxy

variable {κ : Type} (p : Platform)

-- ---------------------------------------------------------------------------
-- What one event does to the transmit side
-- ---------------------------------------------------------------------------

def UartTx.frames (u : UartTx) : List (List UInt8) :=
  if u.workPending = true ∧ u.inProgress = false then u.msgq.head?.toList else []

def Event.EndsTx : Event κ → Prop
  | .uartTxDone | .uartTxAborted => True
  | _ => False

inductive UartStep (s : Proxy κ) : Event κ → UartTx → Prop
  | passed (x : Sent κ) (hx : sentAt p s e = [x]) (he : ∀ failed, e ≠ .txWork failed) :
      UartStep s e (uartMeshtasticTx s.uart (x.bytes p)).1
  | quiet (hx : sentAt p s e = []) (he : ∀ failed, e ≠ .txWork failed)
      (hm : u.msgq = s.uart.msgq) (hs : u.started = s.uart.started)
      (hb : e.EndsTx ∨ u.inProgress = s.uart.inProgress) : UartStep s e u
  | init (hm : s.main = .uartInit) : UartStep s .mainStep { s.uart with inProgress := false }
  | ran (failed : Bool) (hw : s.uart.workPending = true) :
      UartStep s (.txWork failed) (txWorkHandler s.uart failed)
  | asleep (failed : Bool) (hw : s.uart.workPending = false) : UartStep s (.txWork failed) s.uart

theorem mainStep_uart {s : Proxy κ} (hc : Carries p s) :
    UartStep p s .mainStep (mainStep p s).uart := by
  have hne : ∀ failed, (Event.mainStep : Event κ) ≠ .txWork failed := by simp
  cases hm : s.main with
  | uartInit =>
    have hclear : (mainStep p s).uart = { s.uart with inProgress := false } := by
      unfold mainStep
      cases p.uartBringUp <;> simp [hm]
    rw [hclear]
    exact .init hm
  | setServeCb | returned =>
    have hsame : (mainStep p s).uart = s.uart := by simp [mainStep, hm]
    rw [hsame]
    exact .quiet (by simp [sentAt, hm]) hne rfl rfl (.inr rfl)
  | start pc =>
    have hstep : (mainStep p s).uart = (upstreamSessionStart p pc s.upstream s.cache s.uart).2.2.2 := by
      simp [mainStep, hm]
    rw [hstep]
    cases pc with
    | tx buf =>
      have hbytes : (Sent.wantConfig (startNonce p.rand) : Sent κ).bytes p = buf :=
        (hc buf (.inr (.inr hm))).symm
      have hpass : (upstreamSessionStart p (.tx buf) s.upstream s.cache s.uart).2.2.2 =
          (uartMeshtasticTx s.uart buf).1 := by
        simp only [upstreamSessionStart]
        generalize uartMeshtasticTx s.uart buf = r
        obtain ⟨u, _ | _⟩ := r <;> rfl
      rw [hpass, ← hbytes]
      exact .passed _ (by simp [sentAt, hm]) hne
    | pickNonce =>
      have hsame : (upstreamSessionStart p .pickNonce s.upstream s.cache s.uart).2.2.2 = s.uart := by
        simp only [upstreamSessionStart]
        split <;> rfl
      rw [hsame]
      exact .quiet (by simp [sentAt, hm]) hne rfl rfl (.inr rfl)
    | cacheBegin | resetPending | setFetching | armKeepalive | done =>
      exact .quiet (by simp [sentAt, hm]) hne rfl rfl (.inr rfl)

structure Uplinked (s : Proxy κ) : Prop where
  carries : Carries p s
  short : ∀ payload ∈ s.uart.msgq, payload.length ≤ meshtasticMaxPayload

theorem uplinked_boot : Uplinked p (Proxy.boot : Proxy κ) where
  carries := by
    intro buf hbuf
    rcases hbuf with h | h | h <;> cases h
  short := by
    intro payload hmem
    cases hmem

variable [DecidableEq κ]

theorem onToradioBle_uart (s : Proxy κ) (conn : κ) (data : List UInt8) :
    (onToradioBle p s conn data).uart =
      if passesThrough p data = true then (uartMeshtasticTx s.uart data).1 else s.uart := by
  rw [protoDecodeToradio_passes]
  unfold onToradioBle
  cases protoDecodeToradio p data with
  | error e => simp [Proxy.forward]
  | ok ti =>
    simp only
    by_cases hw : ti.hasWantConfig = true
    · simp only [hw, ↓reduceIte, Bool.not_true, Bool.false_and, Bool.false_eq_true]
      split <;> rfl
    · by_cases hh : ti.hasHeartbeat = true
      · simp [hw, hh]
      · simp [hw, hh, Proxy.forward]

theorem step_uart {s : Proxy κ} (henc : ∀ nonce, ∃ len, (protoEncodeHeartbeat p nonce 16).2 = .ok len)
    (hc : Carries p s) (e : Event κ) : UartStep p s e (s.step p e).1.uart := by
  cases e with
  | connected | disconnected | fromnumRead | fromradioRead | nodeRegWrite =>
    exact .quiet rfl (by simp) rfl rfl (.inr rfl)
  | uartTxDone | uartTxAborted => exact .quiet rfl (by simp) rfl rfl (.inl trivial)
  | txWork failed =>
    simp only [Proxy.step]
    by_cases hw : s.uart.workPending = true
    · rw [if_pos hw]
      exact .ran failed hw
    · rw [if_neg hw]
      exact .asleep failed (by simpa using hw)
  | toradioWrite conn data offset =>
    simp only [Proxy.step, toradioWrite]
    by_cases ho : offset = 0
    · subst ho
      simp only [ne_eq, not_true_eq_false, ↓reduceIte, onToradioBle_uart]
      split
      · rename_i hpass
        exact .passed (.phone conn data) (by simp [sentAt, hpass]) (by simp)
      · rename_i hpass
        exact .quiet (by simp [sentAt, hpass]) (by simp) rfl rfl (.inr rfl)
    · simp only [ne_eq, ho, not_false_eq_true, ↓reduceIte]
      exact .quiet (by simp [sentAt, ho]) (by simp) rfl rfl (.inr rfl)
  | uartFrame payload =>
    have hsame : (s.step p (.uartFrame payload)).1.uart = s.uart := by
      simp only [Proxy.step]
      split
      · have hstep := onFromradioUart_step p s payload
        generalize onFromradioUart p s payload = s' at hstep ⊢
        cases hstep <;> rfl
      · rfl
    rw [hsame]
    exact .quiet rfl (by simp) rfl rfl (.inr rfl)
  | keepalive =>
    simp only [Proxy.step]
    split
    · rename_i harm
      rw [keepaliveWorkHandler_eq p s.upstream s.uart (henc _)]
      exact .passed (.heartbeat s.upstream.keepaliveNonce) (by simp [sentAt, harm]) (by simp)
    · rename_i harm
      exact .quiet (by simp [sentAt, harm]) (by simp) rfl rfl (.inr rfl)
  | mainStep => exact mainStep_uart p hc

-- ---------------------------------------------------------------------------
-- The queue
-- ---------------------------------------------------------------------------

/-- What the event passes to `uart_meshtastic_tx` and the queue takes. -/
def takenAt (s : Proxy κ) (e : Event κ) : List (Sent κ) :=
  (sentAt p s e).filter fun x => s.uart.takes (x.bytes p)

/-- What the event takes off the queue and frames. -/
def framedAt (s : Proxy κ) : Event κ → List (List UInt8)
  | .txWork _ => s.uart.frames
  | _ => []

/-- What of that `uart_tx` accepts. -/
def wiredAt (s : Proxy κ) : Event κ → List (List UInt8)
  | .txWork false => s.uart.frames
  | _ => []

theorem uartMeshtasticTx_takes (u : UartTx) (payload : List UInt8) :
    (uartMeshtasticTx u payload).1.started = u.started ∧
      (uartMeshtasticTx u payload).1.msgq = u.msgq ++ (if u.takes payload = true then [payload] else []) ∧
      (u.takes payload = true → payload.length ≤ meshtasticMaxPayload) := by
  unfold UartTx.takes uartMeshtasticTx txMsgqPut
  by_cases hl : meshtasticMaxPayload < payload.length
  · simp [hl, Except.isOk, Except.toBool]
  · by_cases hq : txQueueDepth ≤ u.msgq.length
    · simp [hl, hq, Except.isOk, Except.toBool]
    · simp [hl, hq, Except.isOk, Except.toBool, txWorkSubmit]
      omega

theorem uartMeshtasticTx_inProgress (u : UartTx) (payload : List UInt8) :
    (uartMeshtasticTx u payload).1.inProgress = u.inProgress := by
  unfold uartMeshtasticTx txMsgqPut
  by_cases hl : meshtasticMaxPayload < payload.length
  · simp [hl]
  · by_cases hq : txQueueDepth ≤ u.msgq.length
    · simp [hl, hq]
    · simp [hl, hq, txWorkSubmit]

theorem frameBuf_slice (u : UartTx) (hlen : entry.length ≤ meshtasticMaxPayload) :
    ((u.frameBuf.memcpy 0 (frameHeader entry.length)).memcpy 4 entry).slice 0 (entry.length + 4) =
      wireFrame entry :=
  slice_wireFrame hlen slice_frameHeader

theorem txWorkHandler_frames (u : UartTx) (hw : u.workPending = true)
    (hs : ∀ payload ∈ u.msgq, payload.length ≤ meshtasticMaxPayload) (failed : Bool) :
    u.frames ++ (txWorkHandler u failed).msgq = u.msgq ∧
      (txWorkHandler u failed).started = u.started ++ u.frames.map wireFrame := by
  unfold UartTx.frames txWorkHandler
  cases hb : u.inProgress with
  | true => simp
  | false =>
    cases hq : u.msgq with
    | nil => simp [hw]
    | cons entry rest =>
      have hlen := hs entry (by simp [hq])
      have hframe := frameBuf_slice u hlen
      cases failed with
      | true => simp [hw, txWorkSubmit, hframe]
      | false => simp [hw, hframe]

theorem wired_sublist (s : Proxy κ) (es : List (Event κ)) :
    ((proxyMachine p κ).collect wiredAt s es).Sublist ((proxyMachine p κ).collect framedAt s es) := by
  induction es generalizing s with
  | nil => exact List.Sublist.refl _
  | cons e es ih =>
    refine List.Sublist.append ?_ (ih _)
    cases e with
    | txWork failed =>
      cases failed with
      | true => exact List.nil_sublist _
      | false => exact List.Sublist.refl _
    | _ => exact List.Sublist.refl _

theorem wired_eq (s : Proxy κ) (hok : ∀ e ∈ es, e ≠ .txWork true) :
    (proxyMachine p κ).collect wiredAt s es = (proxyMachine p κ).collect framedAt s es := by
  induction es generalizing s with
  | nil => rfl
  | cons e es ih =>
    have hhead : wiredAt s e = framedAt s e := by
      have he := hok e List.mem_cons_self
      cases e with
      | txWork failed =>
        cases failed with
        | true => exact absurd rfl he
        | false => rfl
      | _ => rfl
    rw [Machine.collect_cons, Machine.collect_cons, hhead,
      ih _ fun e' he' => hok e' (List.mem_cons_of_mem _ he')]

section
variable {s : Proxy κ} (henc : ∀ nonce, ∃ len, (protoEncodeHeartbeat p nonce 16).2 = .ok len)
include henc

theorem step_queue (hu : Uplinked p s) (e : Event κ) :
    framedAt s e ++ (s.step p e).1.uart.msgq = s.uart.msgq ++ (takenAt p s e).map (Sent.bytes p) ∧
      (s.step p e).1.uart.started = s.uart.started ++ (framedAt s e).map wireFrame := by
  have hstep := step_uart p henc hu.carries e
  generalize (s.step p e).1.uart = u at hstep ⊢
  have hno : (∀ failed, e ≠ .txWork failed) → framedAt s e = [] := by
    intro he
    cases e with
    | txWork failed => exact absurd rfl (he failed)
    | _ => rfl
  cases hstep with
  | passed x hx he =>
    obtain ⟨hst, hq, -⟩ := uartMeshtasticTx_takes s.uart (x.bytes p)
    rw [hno he, hst, hq, takenAt, hx]
    refine ⟨?_, (List.append_nil _).symm⟩
    cases htake : s.uart.takes (x.bytes p) <;> simp [htake]
  | quiet hx he hm hs hb =>
    rw [hno he, hm, hs, takenAt, hx]
    exact ⟨(List.append_nil _).symm, (List.append_nil _).symm⟩
  | init hm =>
    have hx : sentAt p s .mainStep = [] := by simp [sentAt, hm]
    rw [takenAt, hx]
    exact ⟨(List.append_nil _).symm, (List.append_nil _).symm⟩
  | ran failed hw =>
    obtain ⟨hq, hst⟩ := txWorkHandler_frames s.uart hw hu.short failed
    exact ⟨hq.trans (List.append_nil _).symm, hst⟩
  | asleep failed hw =>
    have hf : framedAt s (.txWork failed) = [] := if_neg fun h => by simp [hw] at h
    rw [hf]
    exact ⟨(List.append_nil _).symm, (List.append_nil _).symm⟩

theorem step_uplinked (hu : Uplinked p s) (e : Event κ) : Uplinked p (s.step p e).1 := by
  refine ⟨step_carries p hu.carries e, fun payload hmem => ?_⟩
  have hq := (step_queue p henc hu e).1
  have hmem' : payload ∈ s.uart.msgq ++ (takenAt p s e).map (Sent.bytes p) := by
    rw [← hq]
    exact List.mem_append_right _ hmem
  rcases List.mem_append.mp hmem' with hold | hnew
  · exact hu.short payload hold
  · obtain ⟨x, hx, rfl⟩ := List.mem_map.mp hnew
    have htake := (List.mem_filter.mp hx).2
    exact (uartMeshtasticTx_takes s.uart (x.bytes p)).2.2 htake

theorem exec_queue (hu : Uplinked p s) (es : List (Event κ)) :
    Uplinked p ((proxyMachine p κ).exec s es) ∧
      (proxyMachine p κ).collect framedAt s es ++ ((proxyMachine p κ).exec s es).uart.msgq =
        s.uart.msgq ++ ((proxyMachine p κ).collect (takenAt p) s es).map (Sent.bytes p) := by
  have htrue : (proxyMachine p κ).Along (fun _ _ => True) s es :=
    (proxyMachine p κ).along_of_forall fun _ _ => trivial
  refine ⟨Machine.invariant (P := fun _ _ => True) (I := Uplinked p)
    (fun _ e _ h => step_uplinked p henc h e) htrue hu, ?_⟩
  rw [Machine.collect_map]
  exact Machine.exec_flow (P := fun _ _ => True) (I := Uplinked p) (v := fun s => s.uart.msgq)
    (fun s e _ h => ⟨step_uplinked p henc h e, (step_queue p henc h e).1⟩) htrue hu

theorem exec_wired (hu : Uplinked p s) (es : List (Event κ)) :
    ∀ payload ∈ (proxyMachine p κ).collect wiredAt s es, payload.length ≤ meshtasticMaxPayload := by
  induction es generalizing s with
  | nil =>
    intro payload hmem
    cases hmem
  | cons e es ih =>
    intro payload hmem
    rcases List.mem_append.mp hmem with hhead | hrest
    · have hframes : payload ∈ s.uart.frames := by
        cases e with
        | txWork failed =>
          cases failed with
          | true => cases hhead
          | false => exact hhead
        | _ => cases hhead
      unfold UartTx.frames at hframes
      split at hframes
      · exact hu.short payload (List.mem_of_mem_head? (by simpa using hframes))
      · cases hframes
    · exact ih (step_uplinked p henc hu e) payload hrest

end

end MeshProxy

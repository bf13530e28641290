import MeshProxy.Routing
import MeshProxy.Wire

/-!
# What reaches the node

Three producers call `uart_meshtastic_tx`: the session start, the keepalive
and the phones' writes. `sentAt` says what an event hands over in a state;
along any run the payloads passed are exactly these, in order, and no write
that the proxy answers itself is among them.
-/

namespace MeshProxy

variable {κ : Type} (p : Platform)

-- ---------------------------------------------------------------------------
-- The keepalive's counter
-- ---------------------------------------------------------------------------

def nonceCount : Nat := 2 ^ 32 - 2

def keepaliveNonceAt (k : Nat) : UInt32 := UInt32.ofNat (2 + k % nonceCount)

theorem toNat_keepaliveNonceAt (k : Nat) : (keepaliveNonceAt k).toNat = 2 + k % nonceCount := by
  have hlt : k % nonceCount < nonceCount := Nat.mod_lt _ (by decide)
  simp only [nonceCount] at hlt
  exact UInt32.toNat_ofNat_of_lt' (n := 2 + k % nonceCount) (by simp only [nonceCount, UInt32.size]; omega)

theorem keepaliveNonceAt_ne (k : Nat) : keepaliveNonceAt k ≠ 0 ∧ keepaliveNonceAt k ≠ 1 := by
  have hk := toNat_keepaliveNonceAt k
  refine ⟨fun h => ?_, fun h => ?_⟩
  · rw [h, UInt32.toNat_zero] at hk
    omega
  · rw [h, UInt32.toNat_one] at hk
    omega

theorem keepaliveNextNonce_at (k : Nat) :
    keepaliveNextNonce (keepaliveNonceAt k) = keepaliveNonceAt (k + 1) := by
  have hk := toNat_keepaliveNonceAt k
  have hlt : k % nonceCount < nonceCount := Nat.mod_lt _ (by decide)
  have hadd := UInt32.toNat_add (keepaliveNonceAt k) 1
  rw [UInt32.toNat_one, hk] at hadd
  have hnext := toNat_keepaliveNonceAt (k + 1)
  have hsucc := Nat.add_mod k 1 nonceCount
  simp only [nonceCount] at hlt hadd hnext hsucc
  rw [← UInt32.toNat_inj, hnext, keepaliveNextNonce]
  by_cases hwrap : k % (2 ^ 32 - 2) = 2 ^ 32 - 3
  · -- the counter stood at 2^32 - 1
    have hzero : keepaliveNonceAt k + 1 = 0 := by
      rw [← UInt32.toNat_inj, hadd, UInt32.toNat_zero]
      omega
    rw [if_pos (.inl hzero)]
    simp only [UInt32.toNat_ofNat]
    omega
  · have hsmall : (keepaliveNonceAt k + 1).toNat = 3 + k % (2 ^ 32 - 2) := by omega
    have hno : ¬ (keepaliveNonceAt k + 1 = 0 ∨ keepaliveNonceAt k + 1 = 1) := by
      rintro (h | h)
      · rw [h, UInt32.toNat_zero] at hsmall
        omega
      · rw [h, UInt32.toNat_one] at hsmall
        omega
    rw [if_neg hno, hsmall]
    omega

theorem keepaliveNonceAt_inj {i j : Nat} (hij : i < j) (hj : j < i + nonceCount) :
    keepaliveNonceAt i ≠ keepaliveNonceAt j := by
  intro h
  have hn := congrArg UInt32.toNat h
  rw [toNat_keepaliveNonceAt, toNat_keepaliveNonceAt] at hn
  have hmod : i % nonceCount = j % nonceCount := by omega
  have hdvd : nonceCount ∣ j - i := (Nat.modEq_iff_dvd' (Nat.le_of_lt hij)).mp hmod
  have hle := Nat.le_of_dvd (by omega) hdvd
  omega

-- ---------------------------------------------------------------------------
-- What an event hands over
-- ---------------------------------------------------------------------------

inductive Sent (κ : Type)
  | wantConfig (nonce : UInt32)
  | heartbeat (nonce : UInt32)
  | phone (conn : κ) (data : List UInt8)
  deriving DecidableEq, Repr

def Sent.bytes : Sent κ → List UInt8
  | .wantConfig nonce => (encodeWantConfig p nonce).written
  | .heartbeat nonce => (protoEncodeHeartbeat p nonce 16).1
  | .phone _ data => data

def Sent.wantNonce : Sent κ → Option UInt32
  | .wantConfig nonce => some nonce
  | _ => none

def Sent.beatNonce : Sent κ → Option UInt32
  | .heartbeat nonce => some nonce
  | _ => none

def Sent.write : Sent κ → Option (κ × List UInt8)
  | .phone conn data => some (conn, data)
  | _ => none

/-- The bytes do not decode, or to a variant that is neither want_config_id nor
heartbeat. -/
def passesThrough (data : List UInt8) : Bool :=
  match p.decodeToRadio data with
  | none => true
  | some tr => decide (tr.whichPayloadVariant ≠ .wantConfigId ∧ tr.whichPayloadVariant ≠ .heartbeat)

def writesThrough (es : List (Event κ)) : List (κ × List UInt8) :=
  es.flatMap fun
    | .toradioWrite conn data offset =>
      if offset = 0 ∧ passesThrough p data = true then [(conn, data)] else []
    | _ => []

def fires (s : Proxy κ) : Event κ → Bool
  | .keepalive => s.upstream.keepaliveArmed
  | _ => false

def sentAt (s : Proxy κ) : Event κ → List (Sent κ)
  | .toradioWrite conn data offset =>
    if offset = 0 ∧ passesThrough p data = true then [.phone conn data] else []
  | .keepalive =>
    if s.upstream.keepaliveArmed = true then [.heartbeat s.upstream.keepaliveNonce] else []
  | .mainStep =>
    match s.main with
    | .start (.tx _) => [.wantConfig (startNonce p.rand)]
    | _ => []
  | _ => []

theorem startNonce_ne (rand : UInt32) : startNonce rand ≠ 0 ∧ startNonce rand ≠ 1 := by
  unfold startNonce
  split
  · exact ⟨by decide, by decide⟩
  · rename_i h
    rw [not_or] at h
    exact h

theorem passed_uartMeshtasticTx (u : UartTx) (payload : List UInt8) :
    (uartMeshtasticTx u payload).1.passed = u.passed ++ [payload] := by
  unfold uartMeshtasticTx txMsgqPut
  simp only
  split
  · rfl
  · by_cases hq : txQueueDepth ≤ u.msgq.length
    · simp [hq]
    · simp [hq, txWorkSubmit]

theorem passed_txWorkHandler (u : UartTx) (failed : Bool) :
    (txWorkHandler u failed).passed = u.passed := by
  unfold txWorkHandler
  simp only
  repeat' split
  all_goals rfl

/-- The encoded want_config that the main thread carries to `uart_meshtastic_tx`. -/
def Carries (s : Proxy κ) : Prop :=
  ∀ buf, s.main = .start (.cacheBegin buf) ∨ s.main = .start (.resetPending buf) ∨
    s.main = .start (.tx buf) → buf = (encodeWantConfig p (startNonce p.rand)).written

theorem mainStep_carries {s : Proxy κ} (hc : Carries p s) : Carries p (mainStep p s) := by
  intro buf hbuf
  unfold mainStep at hbuf
  cases hm : s.main with
  | uartInit => cases hu : p.uartBringUp <;> simp [hm, hu] at hbuf
  | setServeCb => simp [hm] at hbuf
  | returned => simp [hm] at hbuf
  | start pc =>
    cases pc with
    | pickNonce =>
      simp only [hm, upstreamSessionStart] at hbuf
      split at hbuf
      · simp at hbuf
        exact hbuf.symm
      · simp at hbuf
    | cacheBegin b =>
      obtain rfl : b = buf := by simpa [hm, upstreamSessionStart] using hbuf
      exact hc b (.inl hm)
    | resetPending b =>
      obtain rfl : b = buf := by simpa [hm, upstreamSessionStart] using hbuf
      exact hc b (.inr (.inl hm))
    | tx b =>
      simp only [hm, upstreamSessionStart] at hbuf
      split at hbuf <;> simp at hbuf
    | setFetching | armKeepalive | done => simp [hm, upstreamSessionStart] at hbuf

theorem mainStep_passed {s : Proxy κ} (hc : Carries p s) :
    (mainStep p s).uart.passed = s.uart.passed ++ (sentAt p s .mainStep).map (Sent.bytes p) := by
  unfold mainStep
  simp only [sentAt]
  cases hm : s.main with
  | uartInit => cases p.uartBringUp <;> simp
  | setServeCb => simp
  | returned => simp
  | start pc =>
    cases pc with
    | pickNonce =>
      simp only [upstreamSessionStart]
      split <;> simp
    | tx b =>
      have hp := passed_uartMeshtasticTx s.uart b
      obtain rfl := hc b (.inr (.inr hm))
      simp only [upstreamSessionStart, Sent.bytes, List.map_cons, List.map_nil]
      split
      · rename_i hok
        rw [hok] at hp
        exact hp
      · rename_i herr
        rw [herr] at hp
        exact hp
    | cacheBegin | resetPending | setFetching | armKeepalive | done => simp [upstreamSessionStart]

theorem keepaliveWorkHandler_eq (up : UpstreamSession κ) (uart : UartTx)
    (henc : ∃ len, (protoEncodeHeartbeat p up.keepaliveNonce 16).2 = .ok len) :
    keepaliveWorkHandler p up uart =
      ({ up with
          keepaliveNonce := keepaliveNextNonce up.keepaliveNonce
          keepalivePending :=
            (uartMeshtasticTx uart (protoEncodeHeartbeat p up.keepaliveNonce 16).1).2.isOk },
        (uartMeshtasticTx uart (protoEncodeHeartbeat p up.keepaliveNonce 16).1).1) := by
  obtain ⟨len, hlen⟩ := henc
  unfold keepaliveWorkHandler
  dsimp only
  generalize protoEncodeHeartbeat p up.keepaliveNonce 16 = enc at hlen ⊢
  obtain ⟨buf, rc⟩ := enc
  obtain rfl : rc = .ok len := hlen
  dsimp only
  generalize uartMeshtasticTx uart buf = r
  obtain ⟨uart', _ | _⟩ := r <;> rfl

theorem protoDecodeToradio_passes (data : List UInt8) :
    passesThrough p data = match protoDecodeToradio p data with
      | .error _ => true
      | .ok ti => !ti.hasWantConfig && !ti.hasHeartbeat := by
  unfold passesThrough protoDecodeToradio
  cases p.decodeToRadio data with
  | none => rfl
  | some tr =>
    simp only
    cases hv : tr.whichPayloadVariant with
    | wantConfigId | heartbeat => rfl
    | packet => by_cases hd : tr.packet.whichPayloadVariant = .decoded <;> simp [hd]
    | other => simp

theorem mainStep_main (s : Proxy κ) : (mainStep p s).main ≠ .uartInit := by
  have hstep := mainStep_step p s
  generalize mainStep p s = s' at hstep ⊢
  cases hstep with
  | idle hm => obtain hm | hm := hm <;> simp [hm]
  | _ => simp

variable [DecidableEq κ]

theorem onToradioBle_passed (s : Proxy κ) (conn : κ) (data : List UInt8) :
    (onToradioBle p s conn data).uart.passed =
      s.uart.passed ++ if passesThrough p data = true then [data] else [] := by
  rw [protoDecodeToradio_passes]
  unfold onToradioBle
  cases protoDecodeToradio p data with
  | error e => simp [Proxy.forward, passed_uartMeshtasticTx]
  | ok ti =>
    simp only
    by_cases hw : ti.hasWantConfig = true
    · rw [if_pos hw]
      simp only [hw, Bool.not_true, Bool.false_and, Bool.false_eq_true, ↓reduceIte, List.append_nil]
      split <;> rfl
    · rw [if_neg hw]
      by_cases hh : ti.hasHeartbeat = true
      · simp [hh]
      · simp [hw, hh, Proxy.forward, passed_uartMeshtasticTx]

theorem step_passed {s : Proxy κ} (henc : ∀ nonce, ∃ len, (protoEncodeHeartbeat p nonce 16).2 = .ok len)
    (hc : Carries p s) (e : Event κ) :
    (s.step p e).1.uart.passed = s.uart.passed ++ (sentAt p s e).map (Sent.bytes p) := by
  cases e with
  | connected | disconnected | fromnumRead | fromradioRead | nodeRegWrite | uartTxDone |
    uartTxAborted => exact (List.append_nil _).symm
  | txWork failed =>
    simp only [Proxy.step, sentAt, List.map_nil, List.append_nil]
    split
    · exact passed_txWorkHandler s.uart failed
    · rfl
  | toradioWrite conn data offset =>
    simp only [Proxy.step, toradioWrite, sentAt]
    by_cases ho : offset = 0
    · simp only [ho, ne_eq, not_true_eq_false, ↓reduceIte, true_and, onToradioBle_passed]
      split <;> rfl
    · simp [ho]
  | uartFrame payload =>
    simp only [Proxy.step, sentAt, List.map_nil, List.append_nil]
    split
    · have hstep := onFromradioUart_step p s payload
      generalize onFromradioUart p s payload = s' at hstep ⊢
      cases hstep <;> rfl
    · rfl
  | keepalive =>
    simp only [Proxy.step, sentAt]
    split
    · simp [keepaliveWorkHandler_eq p s.upstream s.uart (henc _), passed_uartMeshtasticTx, Sent.bytes]
    · simp
  | mainStep => exact mainStep_passed p hc

theorem step_main {s : Proxy κ} (he : e ≠ .mainStep) : (s.step p e).1.main = s.main := by
  have hstep := proxy_step p s e
  generalize (s.step p e).1 = s' at hstep ⊢
  cases hstep with
  | frame payload hcb h => cases h <;> rfl
  | deaf => rfl
  | main => exact absurd rfl he
  | quiet _ hq => exact hq.main

theorem main_uartInit {s : Proxy κ} (h : (s.step p e).1.main = .uartInit) : s.main = .uartInit := by
  by_cases he : e = .mainStep
  · subst he
    exact absurd h (mainStep_main p s)
  · exact (step_main p he).symm.trans h

theorem step_carries {s : Proxy κ} (hc : Carries p s) (e : Event κ) : Carries p (s.step p e).1 := by
  by_cases he : e = .mainStep
  · subst he
    exact mainStep_carries p hc
  · intro buf hbuf
    rw [step_main p he] at hbuf
    exact hc buf hbuf

theorem step_keepaliveData (s : Proxy κ) {e : Event κ} (hk : e ≠ .keepalive) :
    (s.step p e).1.upstream.keepaliveNonce = s.upstream.keepaliveNonce ∧
    ((s.step p e).1.upstream.keepaliveArmed = s.upstream.keepaliveArmed ∨ e = .mainStep) ∧
    ((s.step p e).1.upstream.keepalivePending = s.upstream.keepalivePending ∨
      ∃ payload, e = .uartFrame payload ∧ IsQueueStatus p payload ∧
        (s.step p e).1.upstream.keepalivePending = false) := by
  cases e with
  | keepalive => exact absurd rfl hk
  | connected | disconnected | fromnumRead | fromradioRead | nodeRegWrite | uartTxDone |
    uartTxAborted => exact ⟨rfl, .inl rfl, .inl rfl⟩
  | txWork failed =>
    simp only [Proxy.step]
    split <;> exact ⟨rfl, .inl rfl, .inl rfl⟩
  | toradioWrite conn data offset =>
    simp only [Proxy.step, toradioWrite]
    split
    · exact ⟨rfl, .inl rfl, .inl rfl⟩
    · have hstep := onToradioBle_step p s conn data
      generalize onToradioBle p s conn data = s' at hstep ⊢
      cases hstep with
      | parked nonce hw hs =>
        simp only [parkSession, UpstreamSession.enqueuePending]
        repeat' split
        all_goals exact ⟨rfl, .inl rfl, .inl rfl⟩
      | _ => exact ⟨rfl, .inl rfl, .inl rfl⟩
  | uartFrame payload =>
    simp only [Proxy.step]
    split
    · have hstep := onFromradioUart_step p s payload
      generalize onFromradioUart p s payload = s' at hstep ⊢
      cases hstep with
      | routed info hd =>
        obtain ⟨hr, hv, -⟩ | ⟨hdr, conn, hr, -⟩ | ⟨hr, -⟩ := route_cases s info
        · refine ⟨by simp only [hr], .inl (by simp only [hr]), .inr ⟨payload, rfl, ?_⟩⟩
          exact ⟨⟨info, hd, hv⟩, by simp only [hr]⟩
        · exact ⟨by simp only [hr], .inl (by simp only [hr]), .inl (by simp only [hr])⟩
        · exact ⟨by simp only [hr], .inl (by simp only [hr]), .inl (by simp only [hr])⟩
      | _ => exact ⟨rfl, .inl rfl, .inl rfl⟩
    · exact ⟨rfl, .inl rfl, .inl rfl⟩
  | mainStep =>
    have hstep : MainStep p s (s.step p .mainStep).1 := mainStep_step p s
    generalize (s.step p .mainStep).1 = s' at hstep ⊢
    cases hstep <;> exact ⟨rfl, .inr rfl, .inl rfl⟩

theorem step_keepaliveNonce {s : Proxy κ}
    (henc : ∀ nonce, ∃ len, (protoEncodeHeartbeat p nonce 16).2 = .ok len) (e : Event κ) :
    (s.step p e).1.upstream.keepaliveNonce =
      if fires s e = true then keepaliveNextNonce s.upstream.keepaliveNonce
      else s.upstream.keepaliveNonce := by
  by_cases hk : e = .keepalive
  · subst hk
    simp only [Proxy.step, fires]
    by_cases harm : s.upstream.keepaliveArmed = true
    · simp [harm, keepaliveWorkHandler_eq p s.upstream s.uart (henc _)]
    · simp [harm]
  · have hf : fires s e = false := by
      cases e with
      | keepalive => exact absurd rfl hk
      | _ => rfl
    rw [hf, if_neg Bool.false_ne_true]
    exact (step_keepaliveData p s hk).1

-- ---------------------------------------------------------------------------
-- Whole runs
-- ---------------------------------------------------------------------------

def firings (s : Proxy κ) (es : List (Event κ)) : Nat :=
  ((proxyMachine p κ).collect (fun s e => if fires s e = true then [()] else []) s es).length

def MainPc.pastTx : MainPc → Bool
  | .start .setFetching | .start .armKeepalive | .start .done | .returned => true
  | _ => false

theorem step_pastTx {s : Proxy κ} (hp : s.main.pastTx = true) (e : Event κ) :
    (s.step p e).1.main.pastTx = true := by
  by_cases he : e = .mainStep
  · subst he
    have hstep : MainStep p s (s.step p .mainStep).1 := mainStep_step p s
    generalize (s.step p .mainStep).1 = s' at hstep ⊢
    cases hstep with
    | idle => exact hp
    | fetching | armed => rfl
    | _ => simp_all [MainPc.pastTx]
  · rw [step_main p he]
    exact hp

theorem wantNonce_step (s : Proxy κ) (e : Event κ) :
    (sentAt p s e).filterMap Sent.wantNonce = [] ∨
    (sentAt p s e).filterMap Sent.wantNonce = [startNonce p.rand] ∧ s.main.pastTx = false ∧
      (s.step p e).1.main.pastTx = true := by
  cases e with
  | mainStep =>
    by_cases hm : ∃ buf, s.main = .start (.tx buf)
    · obtain ⟨buf, hm⟩ := hm
      refine .inr ⟨by simp [sentAt, hm, Sent.wantNonce], by simp [hm, MainPc.pastTx], ?_⟩
      have hstep : MainStep p s (s.step p .mainStep).1 := mainStep_step p s
      generalize (s.step p .mainStep).1 = s' at hstep ⊢
      cases hstep <;> simp_all [MainPc.pastTx]
    · refine .inl ?_
      simp only [sentAt]
      split
      · rename_i buf hbuf
        exact absurd ⟨buf, hbuf⟩ hm
      · rfl
  | toradioWrite conn data offset =>
    refine .inl ?_
    simp only [sentAt]
    split <;> rfl
  | keepalive =>
    refine .inl ?_
    simp only [sentAt]
    split <;> rfl
  | _ => exact .inl rfl

theorem wantNonces_run (s : Proxy κ) (es : List (Event κ)) :
    (s.main.pastTx = true →
      ((proxyMachine p κ).collect (sentAt p) s es).filterMap Sent.wantNonce = []) ∧
    (((proxyMachine p κ).collect (sentAt p) s es).filterMap Sent.wantNonce = [] ∨
      ((proxyMachine p κ).collect (sentAt p) s es).filterMap Sent.wantNonce = [startNonce p.rand]) := by
  induction es generalizing s with
  | nil => exact ⟨fun _ => rfl, .inl rfl⟩
  | cons e es ih =>
    obtain ⟨hpast, hone⟩ := ih ((proxyMachine p κ).next s e)
    rw [Machine.collect_cons, List.filterMap_append]
    obtain hnone | ⟨hsent, hbefore, hafter⟩ := wantNonce_step p s e
    · rw [hnone, List.nil_append]
      exact ⟨fun hp => hpast (step_pastTx p hp e), hone⟩
    · rw [hsent, hpast hafter]
      exact ⟨fun hp => by simp [hbefore] at hp, .inr rfl⟩

theorem beatNonces_run (henc : ∀ nonce, ∃ len, (protoEncodeHeartbeat p nonce 16).2 = .ok len)
    (s : Proxy κ) (n : Nat) (hn : s.upstream.keepaliveNonce = keepaliveNonceAt n)
    (es : List (Event κ)) :
    ((proxyMachine p κ).collect (sentAt p) s es).filterMap Sent.beatNonce =
      (List.range' n (firings p s es)).map keepaliveNonceAt := by
  induction es generalizing s n with
  | nil => rfl
  | cons e es ih =>
    have hnext := step_keepaliveNonce p henc (s := s) e
    have hfirings : firings p s (e :: es) =
        (if fires s e = true then 1 else 0) + firings p ((proxyMachine p κ).next s e) es := by
      simp only [firings, Machine.collect_cons, List.length_append]
      split <;> rfl
    rw [Machine.collect_cons, List.filterMap_append, hfirings]
    by_cases hf : fires s e = true
    · have hk : e = .keepalive ∧ s.upstream.keepaliveArmed = true := by
        cases e <;> simp_all [fires]
      rw [if_pos hf, hn, keepaliveNextNonce_at] at hnext
      have hbeat : (sentAt p s e).filterMap Sent.beatNonce = [keepaliveNonceAt n] := by
        simp [hk.1, hk.2, sentAt, Sent.beatNonce, hn]
      rw [hbeat, ih ((proxyMachine p κ).next s e) (n + 1) hnext, if_pos hf, Nat.add_comm 1,
        List.range'_succ]
      rfl
    · rw [if_neg hf, hn] at hnext
      have hbeat : (sentAt p s e).filterMap Sent.beatNonce = [] := by
        cases e with
        | keepalive => simp_all [fires, sentAt]
        | toradioWrite conn data offset => simp only [sentAt]; split <;> rfl
        | mainStep => simp only [sentAt]; split <;> rfl
        | _ => rfl
      rw [hbeat, ih ((proxyMachine p κ).next s e) n hnext, if_neg hf, Nat.zero_add]
      rfl

theorem writes_run (s : Proxy κ) (es : List (Event κ)) :
    ((proxyMachine p κ).collect (sentAt p) s es).filterMap Sent.write = writesThrough p es := by
  rw [Machine.collect_filterMap, writesThrough, ← (proxyMachine p κ).collect_event _ s]
  congr 1
  funext s e
  cases e with
  | toradioWrite conn data offset => simp only [sentAt]; split <;> rfl
  | keepalive => simp only [sentAt]; split <;> rfl
  | mainStep => simp only [sentAt]; split <;> rfl
  | _ => rfl

/-- What reaches the node in any run: at most one want_config of the proxy's
own, one heartbeat a firing, and the writes that pass through. -/
theorem uplink_purity (henc : ∀ nonce, ∃ len, (protoEncodeHeartbeat p nonce 16).2 = .ok len)
    (es : List (Event κ)) :
    ∃ log : List (Sent κ),
      ((proxyMachine p κ).exec .boot es).uart.passed = log.map (Sent.bytes p) ∧
      (log.filterMap Sent.wantNonce).length ≤ 1 ∧
      (∀ nonce ∈ log.filterMap Sent.wantNonce, nonce ≠ 0 ∧ nonce ≠ 1) ∧
      log.filterMap Sent.beatNonce = (List.range (firings p .boot es)).map keepaliveNonceAt ∧
      (∀ k, keepaliveNonceAt k ≠ 0 ∧ keepaliveNonceAt k ≠ 1) ∧
      (∀ i j, i < j → j < i + (2 ^ 32 - 2) → keepaliveNonceAt i ≠ keepaliveNonceAt j) ∧
      log.filterMap Sent.write = writesThrough p es := by
  have hpassed : ((proxyMachine p κ).exec .boot es).uart.passed =
      ((proxyMachine p κ).collect (sentAt p) .boot es).map (Sent.bytes p) := by
    have hboot : Carries p (.boot : Proxy κ) := by
      rintro buf (h | h | h) <;> cases h
    rw [Machine.collect_map]
    refine (Machine.exec_collect (P := fun _ _ => True) (I := Carries p)
      (v := fun s : Proxy κ => s.uart.passed) ?_ ?_ hboot).trans (List.nil_append _)
    · exact fun s e _ hc => ⟨step_carries p hc e, step_passed p henc hc e⟩
    · exact (proxyMachine p κ).along_of_forall fun _ _ => trivial
  refine ⟨(proxyMachine p κ).collect (sentAt p) .boot es, hpassed, ?_, ?_, ?_, keepaliveNonceAt_ne,
    fun i j hij hj => keepaliveNonceAt_inj hij hj, writes_run p .boot es⟩
  · obtain h | h := (wantNonces_run p .boot es).2 <;> simp [h]
  · intro nonce hm
    obtain h | h := (wantNonces_run p .boot es).2
    · simp [h] at hm
    · rw [h, List.mem_singleton] at hm
      exact hm ▸ startNonce_ne p.rand
  · rw [beatNonces_run p henc .boot 0 rfl es, List.range_eq_range']

theorem wire_heartbeat (rand nonce : UInt32) :
    ∃ len, (protoEncodeHeartbeat (wirePlatform rand) nonce 16).2 = .ok len := by
  have hl := encodeVarint_length 5 nonce.toNat
  have hw : wireWrite (wireEncodeToRadio { whichPayloadVariant := .heartbeat, heartbeatNonce := nonce }) 16 =
      ⟨true, wireEncodeToRadio { whichPayloadVariant := .heartbeat, heartbeatNonce := nonce }⟩ := by
    refine if_pos ?_
    simp only [wireEncodeToRadio, wireVarint, List.length_cons]
    omega
  exact ⟨_, congrArg (fun enc => (protoEncode enc 16).2) hw⟩

def mixedUplink : List (Event Nat) :=
  mainSteps ++ [.keepalive, .connected 1 0, .toradioWrite 1 [0x18, 5] 0, .toradioWrite 1 [0xFF] 0]

theorem uplink_purity_mixed :
    ∃ log : List (Sent Nat),
      ((proxyMachine (wirePlatform 9) Nat).exec .boot mixedUplink).uart.passed =
        log.map (Sent.bytes (wirePlatform 9)) ∧
      log.filterMap Sent.beatNonce = [2] ∧ log.filterMap Sent.write = [(1, [0xFF])] := by
  obtain ⟨log, hpassed, -, -, hbeats, -, -, hwrites⟩ :=
    uplink_purity (wirePlatform 9) (wire_heartbeat 9) mixedUplink
  have hfirings : firings (wirePlatform 9) .boot mixedUplink = 1 := by decide
  refine ⟨log, hpassed, ?_, hwrites⟩
  rw [hbeats, hfirings]
  decide

end MeshProxy

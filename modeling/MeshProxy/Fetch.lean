import MeshProxy.Invariant
import MeshProxy.Wire

/-!
# The boot fetch

From the moment the session is FETCHING the frames of the node build the
cache until the terminator with the session's own nonce arrives
(`boot_fetch_exact`). `upstream_session_start` sends the want_config before it
sets FETCHING, so the node can answer in between; `answer_consumed_iff` says
that exactly the frames handled there escape.
-/

namespace MeshProxy

variable {κ : Type} (p : Platform)

-- ---------------------------------------------------------------------------
-- Frames of a run
-- ---------------------------------------------------------------------------

def payloads (es : List (Event κ)) : List (List UInt8) :=
  es.filterMap fun
    | .uartFrame payload => some payload
    | _ => none

def burstFrame (payload : List UInt8) : Option Frame :=
  match protoDecodeFromradio p payload with
  | .ok info => if info.whichVariant ≠ .packet then some ⟨payload, info.whichVariant⟩ else none
  | .error _ => none

/-- What the cache holds after the payloads: of the non-packet frames, in
order, each one that fitted when it arrived. -/
def burst (pays : List (List UInt8)) : List Frame := (pays.filterMap (burstFrame p)).foldl store []

def Terminates (nonce : UInt32) (payload : List UInt8) : Prop :=
  decodeConfigCompleteNonce p payload = some nonce

def enqueues (calls : List (GattCall κ)) : List (κ × List UInt8) :=
  calls.filterMap fun
    | .enqueue conn data _ => some (conn, data)
    | _ => none

@[simp] theorem payloads_append (es es' : List (Event κ)) :
    payloads (es ++ es') = payloads es ++ payloads es' := List.filterMap_append

theorem payloads_quiet (he : ∀ payload, e ≠ Event.uartFrame payload) (es : List (Event κ)) :
    payloads (es ++ [e]) = payloads es := by
  rw [payloads_append]
  cases e with
  | uartFrame payload => exact absurd rfl (he payload)
  | _ => exact List.append_nil _

theorem payloads_frame (es : List (Event κ)) (payload : List UInt8) :
    payloads (es ++ [.uartFrame payload]) = payloads es ++ [payload] := payloads_append _ _

theorem enqueues_append (calls calls' : List (GattCall κ)) :
    enqueues (calls ++ calls') = enqueues calls ++ enqueues calls' := List.filterMap_append

theorem burst_append (pays : List (List UInt8)) (payload : List UInt8) :
    burst p (pays ++ [payload]) =
      match burstFrame p payload with
      | some f => store (burst p pays) f
      | none => burst p pays := by
  unfold burst
  rw [List.filterMap_append, List.foldl_append]
  cases hf : burstFrame p payload with
  | some f => simp [hf]
  | none => simp [hf]

-- ---------------------------------------------------------------------------
-- The start of the session
-- ---------------------------------------------------------------------------

/-- The cache has been reset and FETCHING is still to be set. -/
def MainPc.Emptied : MainPc → Prop
  | .start (.resetPending _) | .start (.tx _) | .start .setFetching => True
  | _ => False

structure Begun (s : Proxy κ) : Prop where
  receiving : s.main ≠ .uartInit → s.fromradioCb = true
  emptied : s.main.Emptied → s.cache.count = 0

variable {s s' : Proxy κ} {e : Event κ}

theorem Quiet.begun (h : Begun s) (hq : Quiet s s') : Begun s' where
  receiving := by rw [hq.main, hq.fromradioCb]; exact h.receiving
  emptied := by rw [hq.main, hq.cache]; exact h.emptied

theorem MainStep.begun (h : Begun s) (hstep : MainStep p s s') : Begun s' := by
  cases hstep with
  | uartUp | uartFailed => exact ⟨fun _ => rfl, fun he => he.elim⟩
  | serveCbSet hm | noncePicked hm | encodeFailed hm | sendFailed _ hm | fetching hm | armed hm =>
    exact ⟨fun _ => h.receiving (by simp [hm]), fun he => he.elim⟩
  | cacheBegun _ hm => exact ⟨fun _ => h.receiving (by simp [hm]), fun _ => rfl⟩
  | pendingReset _ hm | sent _ hm =>
    exact ⟨fun _ => h.receiving (by simp [hm]), fun _ => h.emptied (by rw [hm]; trivial)⟩
  | idle => exact h

theorem upstreamOnFromradio_taken (hf : s.upstream.state = .fetching) (hv : info.whichVariant ≠ .packet)
    (serve : κ → UInt32 → BleGatt κ → BleGatt κ) :
    (upstreamOnFromradio p s.upstream s.cache serve s.gatt payload info).2.2.2 = true := by
  unfold upstreamOnFromradio
  rw [if_neg (by simpa using hf), if_neg hv]
  repeat' split
  all_goals rfl

variable [DecidableEq κ]

theorem FrameStep.begun (h : Begun s) (hp : Phase s) (hstep : FrameStep p s payload s') : Begun s' := by
  have hfetch : s.upstream.state = .fetching → ¬ s.main.Emptied := by
    intro hf he
    have hb : s.upstream.state = .boot := by
      apply hp.early
      cases hm : s.main with
      | start pc =>
        rw [hm] at he
        cases pc with
        | armKeepalive | done => exact he
        | _ => trivial
      | _ => trivial
    rw [hf] at hb
    cases hb
  cases hstep with
  | undecodable | routed => exact ⟨h.receiving, h.emptied⟩
  | stored _ _ hf | closed hf => exact ⟨h.receiving, fun he => absurd he (hfetch hf)⟩

theorem step_begun (h : Begun s) (hp : Phase s) : Begun (s.step p e).1 := by
  have hstep := proxy_step p s e
  generalize (s.step p e).1 = s' at hstep ⊢
  cases hstep with
  | frame payload hcb hf => exact hf.begun p h hp
  | deaf => exact h
  | main hm => exact hm.begun p h
  | quiet he hq => exact hq.begun h

theorem begun_reachable (hr : s.Reachable p) : Begun s := by
  refine reachable_invariant p hr ?_ ?_
  · exact ⟨fun hm => absurd rfl hm, fun he => he.elim⟩
  · exact fun _ _ _ hinv h => step_begun p h hinv.phase

-- ---------------------------------------------------------------------------
-- While the session is fetching
-- ---------------------------------------------------------------------------

/-- The session after the events `h`, counted from the moment it was set to
FETCHING with this nonce. -/
structure Fetching (nonce : UInt32) (h : List (Event κ)) (s : Proxy κ) : Prop where
  inv : Inv s
  main : s.main = .start .armKeepalive ∨ s.main = .start .done
  receiving : s.fromradioCb = true
  own : s.upstream.nonce = nonce
  opened : (∀ payload ∈ payloads h, ¬ Terminates p nonce payload) →
    s.upstream.state = .fetching ∧ s.cache.frames = burst p (payloads h)
  closed : (∃ payload ∈ payloads h, Terminates p nonce payload) → s.upstream.state = .live

theorem Fetching.quiet (hf : Fetching p nonce h s) (hinv : Inv s') (hq : Quiet s s')
    (hp : payloads (h ++ [e]) = payloads h) : Fetching p nonce (h ++ [e]) s' where
  inv := hinv
  main := by rw [hq.main]; exact hf.main
  receiving := by rw [hq.fromradioCb]; exact hf.receiving
  own := by rw [hq.nonce]; exact hf.own
  opened := by rw [hp, hq.state, hq.cache]; exact hf.opened
  closed := by rw [hp, hq.state]; exact hf.closed

theorem FrameStep.frames (hw : s.cache.Wf) (hf : s.upstream.state = .fetching)
    (hn : ¬ Terminates p s.upstream.nonce payload) (hstep : FrameStep p s payload s') :
    s'.upstream.state = .fetching ∧
      s'.cache.frames = match burstFrame p payload with
        | some f => store s.cache.frames f
        | none => s.cache.frames := by
  unfold burstFrame
  cases hstep with
  | undecodable hd =>
    have he : protoDecodeFromradio p payload = .error .einval := by simp [protoDecodeFromradio, hd]
    simp only [he, and_true]
    exact hf
  | stored info hd _ hv =>
    simp only [hd, if_pos hv]
    exact ⟨hf, cacheAddFrame_frames hw⟩
  | closed _ hterm => exact absurd hterm hn
  | routed info hd h =>
    have hv : info.whichVariant = .packet := h.resolve_left fun hne => hne hf
    simp only [hd, hv, ne_eq, not_true_eq_false, ↓reduceIte, and_true]
    cases route s info <;> exact hf

theorem FrameStep.state_live (hl : s.upstream.state = .live) (hstep : FrameStep p s payload s') :
    s'.upstream.state = .live := by
  cases hstep with
  | undecodable => exact hl
  | stored _ _ hf | closed hf =>
    rw [hl] at hf
    cases hf
  | routed info => cases route s info <;> exact hl

theorem FrameStep.nonce (hstep : FrameStep p s payload s') :
    s'.upstream.nonce = s.upstream.nonce ∧ s'.main = s.main ∧ s'.fromradioCb = s.fromradioCb := by
  cases hstep with
  | undecodable | stored | closed => exact ⟨rfl, rfl, rfl⟩
  | routed info => cases route s info <;> exact ⟨rfl, rfl, rfl⟩

theorem Fetching.frame (hf : Fetching p nonce h s) (hinv : Inv s')
    (hstep : FrameStep p s payload s') : Fetching p nonce (h ++ [.uartFrame payload]) s' := by
  obtain ⟨hnonce, hmain, hcb⟩ := hstep.nonce
  refine ⟨hinv, by rw [hmain]; exact hf.main, by rw [hcb]; exact hf.receiving,
    by rw [hnonce]; exact hf.own, ?_, ?_⟩
  · intro hno
    rw [payloads_frame] at hno ⊢
    obtain ⟨hst, hframes⟩ := hf.opened fun pl hpl => hno pl (List.mem_append_left _ hpl)
    have hn : ¬ Terminates p s.upstream.nonce payload := by
      rw [hf.own]
      exact hno payload (by simp)
    obtain ⟨hst', hframes'⟩ := hstep.frames p hf.inv.cacheWf hst hn
    refine ⟨hst', ?_⟩
    rw [hframes', burst_append, hframes]
  · rintro ⟨pl, hpl, hterm⟩
    by_cases hold : ∃ pl ∈ payloads h, Terminates p nonce pl
    · exact hstep.state_live p (hf.closed hold)
    · have hst := (hf.opened fun pl hpl ht => hold ⟨pl, hpl, ht⟩).1
      rw [payloads_frame, List.mem_append, List.mem_singleton] at hpl
      rcases hpl with hpl | rfl
      · exact absurd ⟨pl, hpl, hterm⟩ hold
      · rw [hstep.eq_goLive p hst (by rw [hf.own]; exact hterm)]
        rfl

theorem step_fetching (hf : Fetching p nonce h s) (he : s.Enabled e) :
    Fetching p nonce (h ++ [e]) (s.step p e).1 := by
  have hinv := step_inv p hf.inv he
  have hstep := proxy_step p s e
  generalize (s.step p e).1 = s' at hinv hstep ⊢
  cases hstep with
  | frame payload hcb hframe => exact hf.frame p hinv hframe
  | deaf payload hcb =>
    rw [hf.receiving] at hcb
    cases hcb
  | main hmain =>
    have hp : payloads (h ++ [.mainStep]) = payloads h := payloads_quiet (by simp) h
    have hother (hm : s.main ≠ .start .armKeepalive ∧ s.main ≠ .start .done) : False := by
      rcases hf.main with h | h
      · exact hm.1 h
      · exact hm.2 h
    cases hmain with
    | armed =>
      exact ⟨hinv, .inr rfl, hf.receiving, hf.own, by rw [hp]; exact hf.opened,
        by rw [hp]; exact hf.closed⟩
    | idle => exact hf.quiet p hinv (.refl _) hp
    | uartUp hm | uartFailed hm | serveCbSet hm | noncePicked hm | encodeFailed hm
    | cacheBegun _ hm | pendingReset _ hm | sent _ hm | sendFailed _ hm | fetching hm =>
      exact (hother (by simp [hm])).elim
  | quiet hse hq =>
    refine hf.quiet p hinv hq (payloads_quiet ?_ h)
    rintro payload rfl
    exact hse trivial

theorem fetching_start (hinv : Inv s) (hb : Begun s) (hm : s.main = .start .setFetching) :
    Fetching p s.upstream.nonce [] (s.step p .mainStep).1 := by
  have hinv' := step_inv p hinv (e := .mainStep) trivial
  have hstep : (s.step p .mainStep).1 =
      { s with upstream := { s.upstream with state := .fetching }, main := .start .armKeepalive } := by
    simp [Proxy.step, mainStep, hm, upstreamSessionStart]
  rw [hstep] at hinv' ⊢
  refine ⟨hinv', .inl rfl, hb.receiving (by simp [hm]), rfl, fun _ => ⟨rfl, ?_⟩, ?_⟩
  · have hc : s.cache.count = 0 := hb.emptied (by rw [hm]; trivial)
    have hlen : s.cache.frames.length = 0 := by rw [length_frames, hc]
    rw [List.length_eq_zero_iff.mp hlen]
    rfl
  · rintro ⟨pl, hpl, -⟩
    cases hpl

-- ---------------------------------------------------------------------------
-- Frames that are consumed
-- ---------------------------------------------------------------------------

def NonPacket (payload : List UInt8) : Prop :=
  ∃ info, protoDecodeFromradio p payload = .ok info ∧ info.whichVariant ≠ .packet

theorem replay_enqueues (conn : κ) (nonce : UInt32) (g : BleGatt κ) :
    enqueues (bleGattReplayCachedBurst p conn nonce g).calls = enqueues g.calls := by
  unfold bleGattReplayCachedBurst
  cases findSlot g conn with
  | none => rfl
  | some i =>
    simp only
    split
    · rfl
    · exact (enqueues_append _ _).trans (List.append_nil _)

theorem serveOps_enqueues (up : UpstreamSession κ) (cache : ConfigCache) (g : BleGatt κ) :
    enqueues (applyOps p cache g (serveOps up)).calls = enqueues g.calls := by
  unfold serveOps
  split
  · generalize up.pending = pending
    induction pending generalizing g with
    | nil => rfl
    | cons conn pending ih =>
      exact (ih (bleGattReplayCachedBurst p conn 0 g)).trans (replay_enqueues p conn 0 g)
  · rfl

theorem FrameStep.enqueues (hf : s.upstream.state = .fetching) (hn : NonPacket p payload)
    (hstep : FrameStep p s payload s') :
    MeshProxy.enqueues s'.gatt.calls = MeshProxy.enqueues s.gatt.calls := by
  obtain ⟨info, hd, hv⟩ := hn
  cases hstep with
  | undecodable hnone => simp [protoDecodeFromradio, hnone] at hd
  | stored => rfl
  | closed => exact serveOps_enqueues p _ _ _
  | routed info' hd' h =>
    rw [hd] at hd'
    cases hd'
    exact absurd (h.resolve_left fun hne => hne hf) hv

/-- What a fetch that starts in `s` with this nonce makes of any run. -/
structure FetchExact (nonce : UInt32) (s : Proxy κ) : Prop where
  /-- The session is FETCHING exactly until the first terminator. -/
  fetching : ∀ es, (proxyMachine p κ).Admits s es →
    (((proxyMachine p κ).exec s es).upstream.state = .fetching ↔
      ∀ payload ∈ payloads es, ¬ Terminates p nonce payload)
  /-- At the first terminator it goes LIVE with the frames before it. -/
  closes : ∀ es term, (proxyMachine p κ).Admits s (es ++ [.uartFrame term]) →
    (∀ payload ∈ payloads es, ¬ Terminates p nonce payload) → Terminates p nonce term →
    ((proxyMachine p κ).exec s (es ++ [.uartFrame term])).upstream.state = .live ∧
    ((proxyMachine p κ).exec s (es ++ [.uartFrame term])).cache.ready = true ∧
    ((proxyMachine p κ).exec s (es ++ [.uartFrame term])).cache.frames = burst p (payloads es)
  /-- A frame that the session consumes is enqueued to no phone. -/
  consumed : ∀ es payload, (proxyMachine p κ).Admits s (es ++ [.uartFrame payload]) →
    (∀ pl ∈ payloads es, ¬ Terminates p nonce pl) → NonPacket p payload →
    enqueues ((proxyMachine p κ).exec s (es ++ [.uartFrame payload])).gatt.calls =
      enqueues ((proxyMachine p κ).exec s es).gatt.calls

theorem exec_fetching (hf : Fetching p nonce [] s) (ha : (proxyMachine p κ).Admits s es) :
    Fetching p nonce es ((proxyMachine p κ).exec s es) :=
  Machine.history_invariant (I := Fetching p nonce) (fun _ _ _ he h => step_fetching p h he) ha hf

theorem exec_frame (hcb : ((proxyMachine p κ).exec s es).fromradioCb = true) :
    (proxyMachine p κ).exec s (es ++ [.uartFrame payload]) =
      onFromradioUart p ((proxyMachine p κ).exec s es) payload := by
  rw [Machine.exec_append]
  exact if_pos hcb

theorem fetchExact (hf : Fetching p nonce [] s) : FetchExact p nonce s where
  fetching es ha := by
    have h := exec_fetching p hf ha
    refine ⟨fun hst pl hpl hterm => ?_, fun hno => (h.opened hno).1⟩
    rw [h.closed ⟨pl, hpl, hterm⟩] at hst
    cases hst
  closes es term ha hno hterm := by
    obtain ⟨ha, he, -⟩ := (proxyMachine p κ).along_append.mp ha
    have h := exec_fetching p hf ha
    obtain ⟨hst, hframes⟩ := h.opened hno
    have hlive := (onFromradioUart_step p _ term).eq_goLive p hst (by rw [h.own]; exact hterm)
    rw [exec_frame p h.receiving, hlive]
    exact ⟨rfl, rfl, hframes⟩
  consumed es payload ha hno hn := by
    obtain ⟨ha, he, -⟩ := (proxyMachine p κ).along_append.mp ha
    have h := exec_fetching p hf ha
    rw [exec_frame p h.receiving]
    exact (onFromradioUart_step p _ payload).enqueues p (h.opened hno).1 hn

/-- The boot fetch builds the cache from the node's answer and stops at its
terminator. -/
theorem boot_fetch_exact (hr : s.Reachable p) (hm : s.main = .start .setFetching) :
    FetchExact p s.upstream.nonce ((proxyMachine p κ).next s .mainStep) :=
  fetchExact p (fetching_start p (inv_reachable p hr) (begun_reachable p hr) hm)

def sentRun : List (Event Nat) := List.replicate 6 .mainStep

theorem boot_fetch_exact_sentRun :
    FetchExact (wirePlatform 9) 9 ((proxyMachine (wirePlatform 9) Nat).next
      ((proxyMachine (wirePlatform 9) Nat).exec .boot sentRun) .mainStep) :=
  boot_fetch_exact (wirePlatform 9) (s := (proxyMachine (wirePlatform 9) Nat).exec .boot sentRun)
    ⟨sentRun, by decide, rfl⟩ (by decide)

-- ---------------------------------------------------------------------------
-- The answer to the want_config
-- ---------------------------------------------------------------------------

/-- `upstream_on_fromradio` takes the frame: it is the terminator, or it is
stored, or there is no room for it; and no phone gets it. -/
structure Consumed (s : Proxy κ) (payload : List UInt8) : Prop where
  taken : ∃ info, protoDecodeFromradio p payload = .ok info ∧
    (upstreamOnFromradio p s.upstream s.cache (bleGattReplayCachedBurst p) s.gatt payload info).2.2.2 =
      true
  kept : Terminates p s.upstream.nonce payload ∨ ¬ Fits s.cache.frames payload ∨
    ∃ variant, ((proxyMachine p κ).next s (.uartFrame payload)).cache.frames =
      s.cache.frames ++ [⟨payload, variant⟩]
  unsent : enqueues ((proxyMachine p κ).next s (.uartFrame payload)).gatt.calls = enqueues s.gatt.calls

/-- In a run from `s`, the node's answer to the want_config with this nonce is
consumed: every frame that is not a packet, up to the terminator. -/
def AnswerConsumed (nonce : UInt32) (s : Proxy κ) (es : List (Event κ)) : Prop :=
  ∀ pre payload post, es = pre ++ .uartFrame payload :: post →
    (∀ pl ∈ payloads pre, ¬ Terminates p nonce pl) → NonPacket p payload →
    Consumed p ((proxyMachine p κ).exec s pre) payload

/-- No frame of the answer is handled before the main thread has set FETCHING. -/
def AnswerAfterFetching (nonce : UInt32) (s : Proxy κ) (es : List (Event κ)) : Prop :=
  ∀ pre payload post, es = pre ++ .uartFrame payload :: post →
    (∀ pl ∈ payloads pre, ¬ Terminates p nonce pl) → NonPacket p payload →
    ((proxyMachine p κ).exec s pre).main ≠ .start .setFetching

theorem consumed_of_fetching (hw : s.cache.Wf) (hcb : s.fromradioCb = true)
    (hf : s.upstream.state = .fetching) (hn : NonPacket p payload) : Consumed p s payload := by
  have hnext : (proxyMachine p κ).next s (.uartFrame payload) = onFromradioUart p s payload :=
    if_pos hcb
  have hstep := onFromradioUart_step p s payload
  obtain ⟨info, hd, hv⟩ := hn
  refine ⟨⟨info, hd, upstreamOnFromradio_taken p hf hv _⟩, ?_, ?_⟩
  · by_cases hterm : Terminates p s.upstream.nonce payload
    · exact .inl hterm
    · refine .inr ?_
      have hframes := (hstep.frames p hw hf hterm).2
      have hb : burstFrame p payload = some ⟨payload, info.whichVariant⟩ := by
        simp [burstFrame, hd, hv]
      rw [hb] at hframes
      rw [hnext, hframes]
      simp only [store]
      split
      · exact .inr ⟨info.whichVariant, rfl⟩
      · rename_i hfit
        exact .inl hfit
  · rw [hnext]
    exact hstep.enqueues p hf ⟨info, hd, hv⟩

theorem not_consumed (hs : s.upstream.state ≠ .fetching) : ¬ Consumed p s payload := by
  rintro ⟨⟨info, -, htaken⟩, -, -⟩
  rw [upstreamOnFromradio, if_pos hs] at htaken
  cases htaken

/-- A run from the moment the want_config was accepted for transmission: the
main thread is still to set FETCHING, or a fetch is on since it did. -/
inductive Answering (nonce : UInt32) (h : List (Event κ)) (s : Proxy κ) : Prop
  | window (inv : Inv s) (begun : Begun s) (hm : s.main = .start .setFetching)
      (own : s.upstream.nonce = nonce)
  | fetching (h' : List (Event κ)) (hsub : ∀ pl ∈ payloads h', pl ∈ payloads h)
      (hf : Fetching p nonce h' s)

theorem step_answering (ha : Answering p nonce h s) (he : s.Enabled e) :
    Answering p nonce (h ++ [e]) (s.step p e).1 := by
  cases ha with
  | fetching h' hsub hf =>
    refine .fetching (h' ++ [e]) ?_ (step_fetching p hf he)
    intro pl hpl
    rw [payloads_append, List.mem_append] at hpl ⊢
    exact hpl.imp (hsub pl) id
  | window inv begun hm own =>
    by_cases hmain : e = .mainStep
    · subst hmain
      exact .fetching [] (fun _ h => (nomatch h)) (own ▸ fetching_start p inv begun hm)
    · have hb : s.upstream.state = .boot := inv.phase.early (by rw [hm]; trivial)
      have hkeep : (s.step p e).1.main = s.main ∧ (s.step p e).1.upstream.nonce = s.upstream.nonce := by
        have hstep := proxy_step p s e
        generalize (s.step p e).1 = s' at hstep ⊢
        cases hstep with
        | frame payload hcb hf => exact ⟨hf.nonce.2.1, hf.nonce.1⟩
        | deaf => exact ⟨rfl, rfl⟩
        | main => exact absurd rfl hmain
        | quiet hse hq => exact ⟨hq.main, hq.nonce⟩
      exact .window (step_inv p inv he) (step_begun p begun inv.phase) (hkeep.1.trans hm)
        (hkeep.2.trans own)

theorem exec_answering (ha : (proxyMachine p κ).Admits s es) (hs : Answering p nonce [] s) :
    Answering p nonce es ((proxyMachine p κ).exec s es) :=
  Machine.history_invariant (I := Answering p nonce) (fun _ _ _ he h => step_answering p h he) ha hs

theorem Answering.consumed_iff (ha : Answering p nonce h s)
    (hno : ∀ pl ∈ payloads h, ¬ Terminates p nonce pl) (hn : NonPacket p payload) :
    Consumed p s payload ↔ s.main ≠ .start .setFetching := by
  cases ha with
  | window inv begun hm own =>
    have hb : s.upstream.state = .boot := inv.phase.early (by rw [hm]; trivial)
    exact iff_of_false (not_consumed p (by simp [hb])) (fun hne => hne hm)
  | fetching h' hsub hf =>
    have hst := (hf.opened fun pl hpl => hno pl (hsub pl hpl)).1
    refine iff_of_true (consumed_of_fetching p hf.inv.cacheWf hf.receiving hst hn) ?_
    rcases hf.main with hm | hm <;> simp [hm]

/-- After the transmit queue has taken the want_config, the answer is consumed
as a whole exactly when none of it is handled before FETCHING is set. -/
theorem answer_consumed_iff (hr : s.Reachable p) (hm : s.main = .start (.tx buf))
    (hok : (uartMeshtasticTx s.uart buf).2 = .ok ()) (es : List (Event κ))
    (ha : (proxyMachine p κ).Admits ((proxyMachine p κ).next s .mainStep) es) :
    AnswerConsumed p s.upstream.nonce ((proxyMachine p κ).next s .mainStep) es ↔
      AnswerAfterFetching p s.upstream.nonce ((proxyMachine p κ).next s .mainStep) es := by
  have hinv := inv_reachable p hr
  have hnext : (proxyMachine p κ).next s .mainStep =
      { s with uart := (uartMeshtasticTx s.uart buf).1, main := .start .setFetching } := by
    obtain ⟨uart, hsent⟩ : ∃ uart, uartMeshtasticTx s.uart buf = (uart, .ok ()) := ⟨_, Prod.ext rfl hok⟩
    simp only [Machine.next, proxyMachine, Proxy.step, mainStep, hm, upstreamSessionStart, hsent]
  have hstart : Answering p s.upstream.nonce [] ((proxyMachine p κ).next s .mainStep) := by
    have hinv' := step_inv p hinv (e := .mainStep) trivial
    have hbegun := step_begun p (e := .mainStep) (begun_reachable p hr) hinv.phase
    exact .window hinv' hbegun (by rw [hnext]) (by rw [hnext])
  refine forall_congr' fun pre => forall_congr' fun payload => forall_congr' fun post => ?_
  refine forall_congr' fun hes => forall_congr' fun hno => forall_congr' fun hn => ?_
  subst hes
  have hpre := ((proxyMachine p κ).along_append.mp ha).1
  exact (exec_answering p hpre hstart).consumed_iff p hno hn

def encodedRun : List (Event Nat) := List.replicate 5 .mainStep

theorem answer_consumed_encodedRun :
    AnswerConsumed (wirePlatform 9) 9
      ((proxyMachine (wirePlatform 9) Nat).exec .boot sentRun) (.mainStep :: shortBurst) := by
  have hm : ((proxyMachine (wirePlatform 9) Nat).exec .boot encodedRun).main =
      .start (.tx [0x18, 9]) := by decide
  refine (answer_consumed_iff (wirePlatform 9) ⟨encodedRun, by decide, rfl⟩ hm (by decide)
    (.mainStep :: shortBurst) (by decide)).mpr ?_
  intro pre payload post hes _ _
  rcases pre with _ | ⟨e, _ | ⟨e', _ | ⟨e'', pre⟩⟩⟩
  · cases hes
  · cases hes
    decide
  · cases hes
    decide
  · simp [shortBurst] at hes

/-- A node_info handled between the send and FETCHING is not consumed. -/
theorem not_answer_consumed :
    (proxyMachine (wirePlatform 9) Nat).Admits .boot (sentRun ++ [.uartFrame [0x22, 0]]) ∧
      ¬ AnswerConsumed (wirePlatform 9) 9
        ((proxyMachine (wirePlatform 9) Nat).exec .boot sentRun) [.uartFrame [0x22, 0]] := by
  refine ⟨by decide, fun h => ?_⟩
  have hn : NonPacket (wirePlatform 9) [0x22, 0] :=
    ⟨_, rfl, by decide⟩
  have hc := h [] [0x22, 0] [] rfl (fun _ h => (nomatch h)) hn
  exact not_consumed (wirePlatform 9) (by decide) hc

end MeshProxy

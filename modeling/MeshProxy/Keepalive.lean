import MeshProxy.Uplink

/-!
# The keepalive and its answer

The proxy and a node that answers every heartbeat and every packet with one
queueStatus, in order. `s_keepalive_pending` is meant to say that the next
answer to arrive is the keepalive's own (`InStep`). It does so along every run
in which no answer to a keepalive arrives in FETCHING, where the fetch takes
the frame and the flag stays behind.
-/

namespace MeshProxy

variable {κ : Type} (p : Platform)

-- ---------------------------------------------------------------------------
-- The proxy and the node
-- ---------------------------------------------------------------------------

/-- Whose message an answer of the node belongs to. -/
inductive Asker
  | keepalive
  | phone
  deriving DecidableEq, Repr

structure Answer where
  payload : List UInt8
  fits : 1 ≤ payload.length ∧ payload.length ≤ meshtasticMaxPayload
  isQueueStatus : IsQueueStatus p payload

/-- The two directions of the link hold what the node has not answered and the
answers that have not arrived. -/
structure Link (κ : Type) where
  proxy : Proxy κ := {}
  toNode : List Asker := []
  toProxy : List (Asker × Answer p) := []

inductive LinkEvent (κ : Type)
  | proxy (e : Event κ)
  | nodeAnswers (a : Answer p)
  | answerArrives

variable {p}

def Link.outstanding (s : Link p κ) : List Asker := s.toProxy.map Prod.fst ++ s.toNode

variable (p)

def isPacket (data : List UInt8) : Bool :=
  match p.decodeToRadio data with
  | some tr => decide (tr.whichPayloadVariant = .packet)
  | none => false

def UartTx.takes (u : UartTx) (payload : List UInt8) : Bool := (uartMeshtasticTx u payload).2.isOk

/-- What the event puts on the link that the node will answer. -/
def asks (s : Proxy κ) : Event κ → List Asker
  | .toradioWrite _ data offset =>
    if offset = 0 ∧ isPacket p data = true ∧ s.uart.takes data = true then [.phone] else []
  | .keepalive =>
    match protoEncodeHeartbeat p s.upstream.keepaliveNonce 16 with
    | (buf, .ok _) =>
      if s.upstream.keepaliveArmed = true ∧ s.uart.takes buf = true then [.keepalive] else []
    | (_, .error _) => []
  | _ => []

instance (payload : List UInt8) : Decidable (IsQueueStatus p payload) :=
  match h : protoDecodeFromradio p payload with
  | .ok info =>
    decidable_of_iff (info.whichVariant = .queueStatus) (by simp [IsQueueStatus, h])
  | .error _ => isFalse (by simp [IsQueueStatus, h])

theorem keepaliveWorkHandler_asks {s : Proxy κ} (harm : s.upstream.keepaliveArmed = true)
    (hflag : s.upstream.keepalivePending = false) :
    asks p s .keepalive =
      if (keepaliveWorkHandler p s.upstream s.uart).1.keepalivePending = true then [.keepalive]
      else [] := by
  cases henc : protoEncodeHeartbeat p s.upstream.keepaliveNonce 16 with
  | mk buf rc =>
    cases rc with
    | error e => simp [asks, keepaliveWorkHandler, henc, hflag]
    | ok len =>
      rw [keepaliveWorkHandler_eq p s.upstream s.uart ⟨len, by rw [henc]⟩]
      simp [asks, UartTx.takes, henc, harm]

variable [DecidableEq κ]

def Link.step (s : Link p κ) : LinkEvent p κ → Link p κ
  | .proxy e => { s with proxy := (s.proxy.step p e).1, toNode := s.toNode ++ asks p s.proxy e }
  | .nodeAnswers a =>
    match s.toNode with
    | [] => s
    | asker :: rest => { s with toNode := rest, toProxy := s.toProxy ++ [(asker, a)] }
  | .answerArrives =>
    match s.toProxy with
    | [] => s
    | (_, a) :: rest =>
      { s with proxy := (s.proxy.step p (.uartFrame a.payload)).1, toProxy := rest }

/-- The node sends a queueStatus only as an answer, and the keepalive fires
only when none is outstanding. -/
def Link.Enabled (s : Link p κ) : LinkEvent p κ → Prop
  | .proxy (.uartFrame payload) => s.proxy.Enabled (.uartFrame payload) ∧ ¬ IsQueueStatus p payload
  | .proxy .keepalive => s.outstanding = []
  | .proxy e => s.proxy.Enabled e
  | .nodeAnswers _ => s.toNode ≠ []
  | .answerArrives => s.toProxy ≠ []

instance (s : Link p κ) : (e : LinkEvent p κ) → Decidable (s.Enabled p e)
  | .proxy (.uartFrame payload) =>
    inferInstanceAs (Decidable (s.proxy.Enabled (.uartFrame payload) ∧ ¬ IsQueueStatus p payload))
  | .proxy .keepalive => inferInstanceAs (Decidable (s.outstanding = []))
  | .proxy (.connected conn err) => inferInstanceAs (Decidable (s.proxy.Enabled (.connected conn err)))
  | .nodeAnswers _ => inferInstanceAs (Decidable (s.toNode ≠ []))
  | .answerArrives => inferInstanceAs (Decidable (s.toProxy ≠ []))
  | .proxy (.disconnected _) | .proxy (.fromnumRead ..) | .proxy (.fromradioRead ..)
  | .proxy (.toradioWrite ..) | .proxy (.nodeRegWrite ..) | .proxy .mainStep | .proxy (.txWork _)
  | .proxy .uartTxDone | .proxy .uartTxAborted => inferInstanceAs (Decidable True)

def linkMachine (κ : Type) [DecidableEq κ] : Machine (Link p κ) (LinkEvent p κ) Unit where
  enabled := Link.Enabled p
  step s e := (s.step p e, ())

instance (s : Link p κ) (e : LinkEvent p κ) : Decidable ((linkMachine p κ).enabled s e) :=
  inferInstanceAs (Decidable (s.Enabled p e))

theorem link_refines :
    (linkMachine p κ).Refines (proxyMachine p κ) (fun _ => True) Link.proxy := by
  intro s e he _
  refine ⟨trivial, ?_⟩
  have hone {e : Event κ} (he : s.proxy.Enabled e) :
      (proxyMachine p κ).Reachable s.proxy (s.proxy.step p e).1 := ⟨[e], ⟨he, trivial⟩, rfl⟩
  cases e with
  | proxy e =>
    refine hone ?_
    cases e with
    | uartFrame payload => exact he.1
    | keepalive => trivial
    | _ => exact he
  | nodeAnswers a =>
    simp only [Machine.next, linkMachine, Link.step]
    split <;> exact .refl _
  | answerArrives =>
    simp only [Machine.next, linkMachine, Link.step]
    split
    · exact .refl _
    · rename_i a _ _
      exact hone a.fits

-- ---------------------------------------------------------------------------
-- The flag
-- ---------------------------------------------------------------------------

theorem queueStatus_keepalivePending {s : Proxy κ} (hq : IsQueueStatus p payload)
    (hcb : s.upstream.keepalivePending = true → s.fromradioCb = true)
    (hf : s.upstream.keepalivePending = true → s.upstream.state ≠ .fetching) :
    (s.step p (.uartFrame payload)).1.upstream.keepalivePending = false := by
  cases hflag : s.upstream.keepalivePending with
  | false =>
    obtain ⟨-, -, h | ⟨_, _, _, h⟩⟩ := step_keepaliveData p s (e := .uartFrame payload) (by simp)
    · rw [h, hflag]
    · exact h
  | true =>
    obtain ⟨info, hd, hv⟩ := hq
    have hroute : route s info = .swallow := by simp [route, hv, hflag]
    simp only [Proxy.step, hcb hflag, ↓reduceIte, onFromradioUart, hd, routerDispatch, hf hflag,
      routerRoute_eq p, hroute]

theorem queueStatus_broadcast {s : Proxy κ} (hq : IsQueueStatus p payload)
    (hcb : s.fromradioCb = true) (hs : s.upstream.state = .live)
    (hflag : s.upstream.keepalivePending = false) :
    (s.step p (.uartFrame payload)).1 = s.broadcast payload := by
  obtain ⟨info, hd, hv⟩ := hq
  simp [Proxy.step, hcb, onFromradioUart, hd, routerDispatch, hs, routerRoute, hv,
    upstreamSwallowLiveQueuestatus, hflag]

def Awake (s : Proxy κ) : Prop :=
  s.upstream.keepaliveArmed = true ∨ s.upstream.keepalivePending = true → s.main ≠ .uartInit

theorem step_awake {s : Proxy κ} (h : Awake s) (e : Event κ) : Awake (s.step p e).1 := by
  by_cases hm : e = .mainStep
  · subst hm
    exact fun _ => mainStep_main p s
  · intro hflags
    rw [step_main p hm]
    refine h ?_
    by_cases hk : e = .keepalive
    · subst hk
      simp only [Proxy.step] at hflags
      split at hflags
      · rename_i harm
        exact .inl harm
      · exact hflags
    · obtain ⟨-, harm, hpend⟩ := step_keepaliveData p s hk
      refine hflags.imp (fun ha => ?_) fun hp => ?_
      · obtain harm | harm := harm
        · exact harm ▸ ha
        · exact absurd harm hm
      · obtain hpend | ⟨_, _, _, hpend⟩ := hpend
        · exact hpend ▸ hp
        · simp [hpend] at hp

theorem awake_reachable {s : Proxy κ} (hr : s.Reachable p) : Awake s := by
  refine reachable_invariant p hr ?_ fun _ _ _ _ h => step_awake p h _
  rintro (h | h) <;> cases h

-- ---------------------------------------------------------------------------
-- Whole runs
-- ---------------------------------------------------------------------------

/-- The flag is set while the next answer to arrive is the keepalive's, and no
other answer is. -/
structure InStep (s : Link p κ) : Prop where
  flag_iff : s.proxy.upstream.keepalivePending = true ↔ s.outstanding.head? = some .keepalive
  tail : .keepalive ∉ s.outstanding.tail

/-- No answer to a keepalive arrives in FETCHING. -/
def OwnAnswerLive (s : Link p κ) : LinkEvent p κ → Prop
  | .answerArrives =>
    s.outstanding.head? = some .keepalive → s.proxy.upstream.state ≠ .fetching
  | _ => True

instance (s : Link p κ) : (e : LinkEvent p κ) → Decidable (OwnAnswerLive p s e)
  | .answerArrives => inferInstanceAs
      (Decidable (s.outstanding.head? = some .keepalive → s.proxy.upstream.state ≠ .fetching))
  | .proxy _ | .nodeAnswers _ => inferInstanceAs (Decidable True)

def PhoneAnswerBroadcast (s : Link p κ) : LinkEvent p κ → Prop
  | .answerArrives => ∀ a rest, s.toProxy = (.phone, a) :: rest →
      s.proxy.upstream.state = .live → (s.step p .answerArrives).proxy = s.proxy.broadcast a.payload
  | _ => True

variable {p} {s : Link p κ}

theorem InStep.proxy (h : InStep p s) {e : Event κ} (hk : e ≠ .keepalive)
    (hq : ∀ payload, e = .uartFrame payload → ¬ IsQueueStatus p payload) :
    InStep p (s.step p (.proxy e)) := by
  have hflag : (s.proxy.step p e).1.upstream.keepalivePending = s.proxy.upstream.keepalivePending := by
    obtain ⟨-, -, h | ⟨payload, he, hp, -⟩⟩ := step_keepaliveData p s.proxy hk
    · exact h
    · exact absurd hp (hq payload he)
  have hout : (s.step p (.proxy e)).outstanding = s.outstanding ++ asks p s.proxy e :=
    (List.append_assoc _ _ _).symm
  have hasks : .keepalive ∉ asks p s.proxy e := by
    cases e with
    | keepalive => exact absurd rfl hk
    | toradioWrite conn data offset => simp only [asks]; split <;> simp
    | _ => simp [asks]
  obtain ⟨hiff, htail⟩ := h
  cases ho : s.outstanding with
  | nil =>
    rw [ho] at hiff hout
    refine ⟨?_, ?_⟩
    · rw [show (s.step p (.proxy e)).proxy.upstream.keepalivePending = _ from hflag, hiff, hout]
      simp only [List.head?_nil, List.nil_append, reduceCtorEq, false_iff]
      exact fun hh => hasks (List.mem_of_mem_head? hh)
    · rw [hout]
      exact fun hm => hasks (List.mem_of_mem_tail hm)
  | cons asker rest =>
    rw [ho] at hiff htail hout
    refine ⟨?_, ?_⟩
    · rw [show (s.step p (.proxy e)).proxy.upstream.keepalivePending = _ from hflag, hiff, hout]
      rfl
    · rw [hout]
      simpa using ⟨htail, hasks⟩

theorem InStep.firing (h : InStep p s) (ho : s.outstanding = []) :
    InStep p (s.step p (.proxy .keepalive)) := by
  have hflag : s.proxy.upstream.keepalivePending = false := by simpa [ho] using h.flag_iff
  have hout : (s.step p (.proxy .keepalive)).outstanding = asks p s.proxy .keepalive := by
    have happ : (s.step p (.proxy .keepalive)).outstanding =
        s.outstanding ++ asks p s.proxy .keepalive := (List.append_assoc _ _ _).symm
    rw [happ, ho, List.nil_append]
  by_cases harm : s.proxy.upstream.keepaliveArmed = true
  · have hasks := keepaliveWorkHandler_asks p harm hflag
    have hnext : (s.step p (.proxy .keepalive)).proxy.upstream =
        (keepaliveWorkHandler p s.proxy.upstream s.proxy.uart).1 := by
      simp [Link.step, Proxy.step, harm]
    refine ⟨?_, ?_⟩
    · rw [hnext, hout, hasks]
      split <;> simp_all
    · rw [hout, hasks]
      split <;> simp
  · have hnext : (s.step p (.proxy .keepalive)).proxy = s.proxy := by
      simp [Link.step, Proxy.step, harm]
    have hasks : asks p s.proxy .keepalive = [] := by
      simp only [asks, harm, Bool.false_eq_true, false_and, ↓reduceIte]
      split <;> rfl
    exact ⟨by simp [hnext, hflag, hout, hasks], by simp [hout, hasks]⟩

theorem InStep.answered (h : InStep p s) (a : Answer p) : InStep p (s.step p (.nodeAnswers a)) := by
  unfold Link.step
  dsimp only
  split
  · exact h
  · rename_i asker rest hn
    have hout : s.outstanding = s.toProxy.map Prod.fst ++ asker :: rest := by rw [Link.outstanding, hn]
    obtain ⟨hiff, htail⟩ := h
    rw [hout] at hiff htail
    exact ⟨by simpa [Link.outstanding] using hiff, by simpa [Link.outstanding] using htail⟩

theorem InStep.arrived (h : InStep p s) (hr : s.proxy.Reachable p)
    (hlive : OwnAnswerLive p s .answerArrives) : InStep p (s.step p .answerArrives) := by
  unfold Link.step
  dsimp only
  split
  · exact h
  · rename_i asker a rest hq
    have hout : s.outstanding = asker :: (rest.map Prod.fst ++ s.toNode) := by
      simp [Link.outstanding, hq]
    obtain ⟨hiff, htail⟩ := h
    have hheard : s.proxy.upstream.keepalivePending = true → s.proxy.fromradioCb = true :=
      fun hp => (begun_reachable p hr).receiving (awake_reachable p hr (.inr hp))
    have hclear := queueStatus_keepalivePending p a.isQueueStatus hheard fun hp => hlive (hiff.mp hp)
    rw [hout, List.tail_cons] at htail
    refine ⟨?_, fun hm => htail (List.mem_of_mem_tail hm)⟩
    simp only [hclear, Bool.false_eq_true, false_iff]
    exact fun hh => htail (List.mem_of_mem_head? hh)

theorem InStep.step (h : InStep p s) (hr : s.proxy.Reachable p) {e : LinkEvent p κ}
    (he : s.Enabled p e) (hlive : OwnAnswerLive p s e) : InStep p (s.step p e) := by
  cases e with
  | proxy e =>
    cases e with
    | keepalive => exact h.firing he
    | uartFrame payload =>
      refine h.proxy (by simp) fun pl hpl => ?_
      cases hpl
      exact he.2
    | _ => exact h.proxy (by simp) (by simp)
  | nodeAnswers a => exact h.answered a
  | answerArrives => exact h.arrived hr hlive

theorem InStep.phone_broadcast (h : InStep p s) (hr : s.proxy.Reachable p) (e : LinkEvent p κ) :
    PhoneAnswerBroadcast p s e := by
  cases e with
  | proxy | nodeAnswers => trivial
  | answerArrives =>
    intro a rest hq hs
    have hflag : s.proxy.upstream.keepalivePending = false := by
      have hhead : s.outstanding.head? = some .phone := by simp [Link.outstanding, hq]
      simpa [hhead] using h.flag_iff
    have hstart : s.proxy.main ≠ .uartInit := by
      obtain ⟨pc, hm⟩ := (inv_reachable p hr).phase.fetched (by simp [hs])
      simp [hm]
    have hcb := (begun_reachable p hr).receiving hstart
    have hstep := queueStatus_broadcast p a.isQueueStatus hcb hs hflag
    simp only [Link.step, hq]
    exact hstep

variable (p)

/-- Along every run in which no answer to a keepalive arrives in FETCHING, an
answer that is swallowed is never a phone's. -/
theorem phone_answers_broadcast {es : List (LinkEvent p κ)} (ha : (linkMachine p κ).Admits {} es)
    (hlive : (linkMachine p κ).Along (OwnAnswerLive p) {} es) :
    (linkMachine p κ).Along (PhoneAnswerBroadcast p) {} es := by
  refine Machine.along_of_invariant (I := fun s => s.proxy.Reachable p ∧ InStep p s) ?_
    ((linkMachine p κ).along_and.mpr ⟨ha, hlive⟩) ?_
  · rintro s e ⟨he, hl⟩ ⟨hr, h⟩
    refine ⟨⟨?_, h.step hr he hl⟩, h.phone_broadcast hr e⟩
    exact Machine.Reachable.trans hr (link_refines p s e he trivial).2
  · refine ⟨.refl _, ?_, ?_⟩ <;> simp [Link.outstanding]

def ackFrame : Answer (wirePlatform 9) := ⟨[0x5A, 0], by decide, by decide⟩

def packetAnswered : List (LinkEvent (wirePlatform 9) Nat) :=
  [.proxy (.connected 1 0), .proxy (.toradioWrite 1 [0x0A, 0] 0), .nodeAnswers ackFrame,
    .answerArrives]

def beatAnswered : List (LinkEvent (wirePlatform 9) Nat) :=
  [.proxy .keepalive, .nodeAnswers ackFrame, .answerArrives]

theorem phone_answers_broadcast_live :
    (linkMachine (wirePlatform 9) Nat).Along (PhoneAnswerBroadcast (wirePlatform 9)) {}
      ((mainSteps ++ shortBurst).map .proxy ++ beatAnswered ++ packetAnswered) := by
  refine phone_answers_broadcast (wirePlatform 9) ?_ ?_
  · decide +kernel
  · decide +kernel

/-- The keepalive is answered while the config burst is still coming, and the
flag takes the phone's answer instead. -/
theorem phone_answer_swallowed :
    (linkMachine (wirePlatform 9) Nat).Admits {}
      (mainSteps.map .proxy ++ beatAnswered ++ shortBurst.map .proxy ++ packetAnswered) ∧
    ¬ (linkMachine (wirePlatform 9) Nat).Along (PhoneAnswerBroadcast (wirePlatform 9)) {}
      (mainSteps.map .proxy ++ beatAnswered ++ shortBurst.map .proxy ++ packetAnswered) := by
  refine ⟨by decide +kernel, fun h => ?_⟩
  obtain ⟨-, hlast⟩ := (linkMachine (wirePlatform 9) Nat).along_append.mp h
  have hq := hlast.2.2.2.1 ackFrame [] rfl rfl
  have hcount := congrArg (fun s : Proxy Nat => (s.gatt.conns 0).queue.count) hq
  revert hcount
  decide +kernel

end MeshProxy

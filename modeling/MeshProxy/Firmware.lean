import MeshProxy.Downlink
import MeshProxy.RxDma

/-!
# From the node's UART to a phone's reads

The receive buffers, the receive path and the proxy in one machine: a turn of
`rx_work_handler` that completes a frame runs `on_fromradio_uart` on it. A run
of the firmware is a run of the proxy on the payloads that the line frames
(`firmware_translates`), so what the node sends is what the phones' queues are
offered (`line_reaches_phone`).
-/

namespace MeshProxy

structure Firmware (κ : Type) where
  rx : RxDma := {}
  proxy : Proxy κ := {}

inductive FirmwareEvent (κ : Type)
  | rx (e : DmaEvent)
  | proxy (e : Event κ)
  deriving DecidableEq

/-- What a turn of `rx_work_handler` passes to `fromradio_cb`. -/
def RxDma.payloadAt (s : RxDma) : DmaEvent → Option (List UInt8)
  | .rxWork =>
    match s.path.ring with
    | [] => none
    | byte :: _ => (rxProcessByte s.path.sm byte).2
  | _ => none

def FirmwareEvent.lineAt {κ : Type} : FirmwareEvent κ → List UInt8
  | .rx e => RxDma.lineAt e
  | .proxy _ => []

namespace Firmware

variable {κ : Type} (p : Platform) {d : Firmware κ}

def initRx (d : Firmware κ) : Event κ → RxDma
  | .mainStep =>
    if d.proxy.main = .uartInit then
      let rx := d.rx.rxEnable (!p.uartBringUp.isOk)
      { rx with path := { rx.path with sm := { rx.path.sm with state := .waitMagic1 } } }
    else d.rx
  | _ => d.rx

def eventsAt (d : Firmware κ) : FirmwareEvent κ → List (Event κ)
  | .rx e => (d.rx.payloadAt e).toList.map .uartFrame
  | .proxy e => [e]

def Fits (d : Firmware κ) : FirmwareEvent κ → Prop
  | .rx e => ∀ x ∈ d.rx.pathAt e, d.rx.path.Fits x
  | .proxy _ => True

instance (d : Firmware κ) : (e : FirmwareEvent κ) → Decidable (d.Fits e)
  | .rx e => inferInstanceAs (Decidable (∀ x ∈ d.rx.pathAt e, d.rx.path.Fits x))
  | .proxy _ => inferInstanceAs (Decidable True)

variable [DecidableEq κ]

def step (d : Firmware κ) : FirmwareEvent κ → Firmware κ × Reply
  | .rx e =>
    match d.rx.payloadAt e with
    | none => ({ d with rx := d.rx.step e }, .none)
    | some payload => (⟨d.rx.step e, (d.proxy.step p (.uartFrame payload)).1⟩, .none)
  | .proxy e => (⟨d.initRx p e, (d.proxy.step p e).1⟩, (d.proxy.step p e).2)

/-- The UART is silent until `main` has initialised it, and frames reach the
proxy through the receiver only. -/
def Enabled (d : Firmware κ) : FirmwareEvent κ → Prop
  | .rx e => d.proxy.main ≠ .uartInit ∧ d.rx.Enabled e
  | .proxy (.uartFrame _) => False
  | .proxy e => d.proxy.Enabled e

instance (d : Firmware κ) : (e : FirmwareEvent κ) → Decidable (d.Enabled e)
  | .rx e => inferInstanceAs (Decidable (d.proxy.main ≠ .uartInit ∧ d.rx.Enabled e))
  | .proxy (.uartFrame _) => inferInstanceAs (Decidable False)
  | .proxy (.connected conn err) =>
    inferInstanceAs (Decidable (err = 0 → findSlot d.proxy.gatt conn = none))
  | .proxy (.disconnected _) | .proxy (.fromnumRead ..) | .proxy (.fromradioRead ..)
  | .proxy (.toradioWrite ..) | .proxy (.nodeRegWrite ..) | .proxy .keepalive | .proxy .mainStep
  | .proxy (.txWork _) | .proxy .uartTxDone | .proxy .uartTxAborted =>
    inferInstanceAs (Decidable True)

end Firmware

def firmwareMachine (p : Platform) (κ : Type) [DecidableEq κ] :
    Machine (Firmware κ) (FirmwareEvent κ) Reply where
  enabled := Firmware.Enabled
  step := Firmware.step p

instance (p : Platform) {κ : Type} [DecidableEq κ] (d : Firmware κ) (e : FirmwareEvent κ) :
    Decidable ((firmwareMachine p κ).enabled d e) :=
  inferInstanceAs (Decidable (d.Enabled e))

-- ---------------------------------------------------------------------------
-- The receiver
-- ---------------------------------------------------------------------------

namespace RxDma

variable {s : RxDma} {e : DmaEvent}

def received (s : RxDma) : List UInt8 := s.path.stored ++ s.unreported

theorem step_received (h : s.Owned) (he : s.Enabled e)
    (hfit : ∀ x ∈ s.pathAt e, s.path.Fits x) :
    (s.step e).received = s.received ++ lineAt e := by
  have hflow := step_unreported h he
  have halong : rxPath.Along RxPath.Fits s.path (s.pathAt e) := by
    cases e with
    | rxRdy =>
      cases hc : s.current with
      | none => simp [pathAt, hc]
      | some c =>
        have hone : s.pathAt .rxRdy = [.rdy (c.part s.dmaBuf)] := by simp [pathAt, hc]
        rw [hone] at hfit ⊢
        exact ⟨hfit _ List.mem_cons_self, trivial⟩
    | rxWork => exact ⟨hfit _ (by simp [pathAt]), trivial⟩
    | _ => trivial
  have hstored := RxPath.stored_fits halong
  rw [← (step_path h he).1] at hstored
  rw [received, received, hstored, List.append_assoc, hflow, List.append_assoc]

theorem step_read (h : s.Owned) (he : s.Enabled e) (hr : RxPath.Read {} s.path) :
    RxPath.Read {} (s.step e).path := by
  rw [(step_path h he).1]
  exact hr.exec _

theorem step_delivered (h : s.Owned) (he : s.Enabled e) :
    (s.step e).path.delivered = s.path.delivered ++ (s.payloadAt e).toList := by
  rw [(step_path h he).1]
  cases e with
  | rxRdy =>
    obtain ⟨c, hc, -⟩ := he
    simp [pathAt, payloadAt, hc, rxPath, Machine.next, RxPath.step]
  | rxWork =>
    simp only [pathAt, payloadAt, Machine.exec_cons, Machine.exec_nil]
    show (s.path.step .byte).delivered = _
    unfold RxPath.step
    dsimp only
    cases s.path.ring with
    | nil => simp
    | cons byte rest => rfl
  | _ => simp [pathAt, payloadAt]

theorem payloadAt_sized (hw : s.path.sm.Wf) (h : s.payloadAt e = some payload) :
    1 ≤ payload.length ∧ payload.length ≤ meshtasticMaxPayload := by
  cases e with
  | rxWork =>
    simp only [payloadAt] at h
    split at h
    · cases h
    · exact rxProcessByte_payload hw h
  | _ => cases h

theorem delivered_prefix (hr : RxPath.Read {} s.path) :
    s.path.delivered <+: rxDeliveries {} s.received ∧
      (s.path.ring = [] → s.unreported = [] → s.path.delivered = rxDeliveries {} s.received) := by
  obtain ⟨gone, hstored, -, hdelivered⟩ := hr
  rw [received, hstored, hdelivered]
  refine ⟨?_, fun hring hun => ?_⟩
  · rw [List.append_assoc, rxDeliveries_append]
    exact List.prefix_append _ _
  · rw [hring, hun, List.append_nil, List.append_nil]

end RxDma

-- ---------------------------------------------------------------------------
-- A run of the firmware is a run of the proxy
-- ---------------------------------------------------------------------------

variable {κ : Type} (p : Platform)

variable [DecidableEq κ] {d : Firmware κ} {e : FirmwareEvent κ}

structure Firmware.Inv (d : Firmware κ) : Prop where
  proxy : d.proxy.Reachable p
  owned : d.rx.Owned
  read : RxPath.Read {} d.rx.path
  /-- Before `uart_meshtastic_init`. -/
  silent : d.proxy.main = .uartInit → d.rx = {}

theorem Firmware.inv_boot : Firmware.Inv p ({} : Firmware κ) where
  proxy := .refl _
  owned :=
    { idle := fun _ => rfl
      alone := fun _ h => by cases h
      apart := fun _ _ h => by cases h
      ahead := fun _ _ h => by cases h
      bounds := fun _ h => by cases h
      room := fun _ h => by cases h }
  read := RxPath.read_start {}
  silent _ := rfl

theorem Firmware.Inv.sm (h : d.Inv p) : d.rx.path.sm.Wf := by
  obtain ⟨gone, -, hsm, -⟩ := h.read
  rw [hsm]
  exact rxSm_wf_exec gone rxSm_init_wf

theorem Firmware.Inv.initRx (h : d.Inv p) (e : Event κ) :
    d.initRx p e = d.rx ∨
      e = .mainStep ∧ d.proxy.main = .uartInit ∧ (d.initRx p e = .init ∨ d.initRx p e = {}) := by
  cases e with
  | mainStep =>
    by_cases hm : d.proxy.main = .uartInit
    · refine .inr ⟨rfl, hm, ?_⟩
      rw [Firmware.initRx, if_pos hm, h.silent hm]
      cases p.uartBringUp with
      | ok => exact .inl rfl
      | error err => exact .inr rfl
    · exact .inl (if_neg hm)
  | _ => exact .inl rfl

theorem Firmware.initRx_owned (h : d.Inv p) (e : Event κ) :
    (d.initRx p e).Owned ∧ RxPath.Read {} (d.initRx p e).path ∧
      (d.initRx p e).received = d.rx.received := by
  obtain hsame | ⟨-, hm, hinit | hnone⟩ := h.initRx p e
  · rw [hsame]
    exact ⟨h.owned, h.read, rfl⟩
  · rw [hinit, h.silent hm]
    exact ⟨RxDma.owned_init, RxPath.read_start {}, rfl⟩
  · rw [hnone, h.silent hm]
    exact ⟨(Firmware.inv_boot p (κ := κ)).owned, RxPath.read_start {}, rfl⟩

theorem Firmware.step_rx (d : Firmware κ) (e : DmaEvent) :
    (d.step p (.rx e)).1.rx = d.rx.step e ∧
      (d.step p (.rx e)).1.proxy = (proxyMachine p κ).exec d.proxy (d.eventsAt (.rx e)) := by
  simp only [Firmware.step, Firmware.eventsAt]
  split
  · rename_i hnone
    simp [hnone]
  · rename_i payload hsome
    simp [hsome, proxyMachine, Machine.next]

theorem Firmware.Inv.step (h : d.Inv p) (he : d.Enabled e) :
    (d.step p e).1.Inv p ∧ (proxyMachine p κ).Admits d.proxy (d.eventsAt e) ∧
      (proxyMachine p κ).exec d.proxy (d.eventsAt e) = (d.step p e).1.proxy := by
  cases e with
  | rx e =>
    obtain ⟨hup, hrx⟩ := he
    obtain ⟨hrx', hproxy⟩ := Firmware.step_rx p d e
    have hadm : (proxyMachine p κ).Admits d.proxy (d.eventsAt (.rx e)) := by
      simp only [Firmware.eventsAt]
      cases hp : d.rx.payloadAt e with
      | none => trivial
      | some payload => exact ⟨RxDma.payloadAt_sized (h.sm p) hp, trivial⟩
    refine ⟨⟨?_, ?_, ?_, ?_⟩, hadm, hproxy.symm⟩
    · rw [hproxy]
      exact h.proxy.exec hadm
    · rw [hrx']
      exact h.owned.step hrx
    · rw [hrx']
      exact RxDma.step_read h.owned hrx h.read
    · intro hm
      have hmain : (d.step p (.rx e)).1.proxy.main = d.proxy.main := by
        rw [hproxy]
        simp only [Firmware.eventsAt]
        cases d.rx.payloadAt e with
        | none => rfl
        | some payload => exact step_main p (by simp)
      exact absurd (hmain.symm.trans hm) hup
  | proxy e =>
    have hen : d.proxy.Enabled e := by
      cases e with
      | uartFrame => exact he.elim
      | _ => exact he
    obtain ⟨howned, hread, -⟩ := Firmware.initRx_owned p h e
    refine ⟨⟨h.proxy.next hen, howned, hread, ?_⟩, ⟨hen, trivial⟩, rfl⟩
    intro hm
    obtain hsame | ⟨rfl, -⟩ := h.initRx p e
    · exact hsame.trans (h.silent (main_uartInit p hm))
    · exact absurd hm (mainStep_main p d.proxy)

theorem firmware_translates : (firmwareMachine p κ).Translates (proxyMachine p κ) (Firmware.Inv p)
    Firmware.proxy Firmware.eventsAt :=
  fun _ _ he h => h.step p he

def Firmware.handledAt (d : Firmware κ) (e : FirmwareEvent κ) : List (List UInt8) :=
  payloads (d.eventsAt e)

theorem Firmware.Inv.step_line (h : d.Inv p) (he : d.Enabled e) (hfit : d.Fits e) :
    (d.step p e).1.rx.received = d.rx.received ++ e.lineAt ∧
      (d.step p e).1.rx.path.delivered = d.rx.path.delivered ++ d.handledAt e := by
  cases e with
  | rx e =>
    rw [(Firmware.step_rx p d e).1]
    refine ⟨RxDma.step_received h.owned he.2 hfit, ?_⟩
    rw [RxDma.step_delivered h.owned he.2, Firmware.handledAt, Firmware.eventsAt]
    cases d.rx.payloadAt e <;> rfl
  | proxy e =>
    obtain ⟨-, -, hreceived⟩ := Firmware.initRx_owned p h e
    have hnone : d.handledAt (.proxy e) = [] := by
      cases e with
      | uartFrame => exact he.elim
      | _ => rfl
    have hdelivered : (d.initRx p e).path.delivered = d.rx.path.delivered := by
      obtain hsame | ⟨-, hm, hinit | hinit⟩ := h.initRx p e
      · rw [hsame]
      · rw [hinit, h.silent hm]
        rfl
      · rw [hinit, h.silent hm]
    rw [hnone, List.append_nil]
    exact ⟨hreceived.trans (List.append_nil _).symm, hdelivered⟩

-- ---------------------------------------------------------------------------
-- From the line to a phone
-- ---------------------------------------------------------------------------

def lineOf (es : List (FirmwareEvent κ)) : List UInt8 := es.flatMap FirmwareEvent.lineAt

theorem handled_prefix {es : List (FirmwareEvent κ)} (ha : (firmwareMachine p κ).Admits {} es)
    (hfit : (firmwareMachine p κ).Along Firmware.Fits {} es) :
    let rx := ((firmwareMachine p κ).exec {} es).rx
    (firmwareMachine p κ).collect Firmware.handledAt {} es <+: rxDeliveries {} (lineOf es) ∧
      (rx.path.ring = [] → rx.unreported = [] →
        (firmwareMachine p κ).collect Firmware.handledAt {} es = rxDeliveries {} (lineOf es)) := by
  have halong := (firmwareMachine p κ).along_and.mpr ⟨ha, hfit⟩
  have hinv := firmware_translates p |>.exec ha (Firmware.inv_boot p) |>.1
  have hreceived := Machine.exec_collect (m := firmwareMachine p κ) (I := Firmware.Inv p)
    (v := fun d => d.rx.received) (f := fun _ e => e.lineAt)
    (fun d e he h => ⟨(h.step p he.1).1, (h.step_line p he.1 he.2).1⟩) halong (Firmware.inv_boot p)
  have hdelivered := Machine.exec_collect (m := firmwareMachine p κ) (I := Firmware.Inv p)
    (v := fun d => d.rx.path.delivered) (f := Firmware.handledAt)
    (fun d e he h => ⟨(h.step p he.1).1, (h.step_line p he.1 he.2).2⟩) halong (Firmware.inv_boot p)
  have hline : (({} : Firmware κ).rx.received) = [] := rfl
  have hnone : (({} : Firmware κ).rx.path.delivered) = [] := rfl
  rw [Machine.collect_event, hline, List.nil_append] at hreceived
  rw [hnone, List.nil_append] at hdelivered
  rw [lineOf, ← hreceived, ← hdelivered]
  exact RxDma.delivered_prefix hinv.read

/-- Let the line carry the first bytes of the frames of `sent`, in any pieces
that fit into the ring buffer, and let a phone keep its link from `es` on. The
proxy handles the payloads of `sent` in order, and all of them when the line is
complete and the buffers are empty. What the phone's fresh reads then take from
its queue, and what stays there, is what was there and what came in; of that,
the packets from the node are handled payloads in order, and all of them if
each finds the phone listening and room in its queue. -/
theorem line_reaches_phone (es fs : List (FirmwareEvent κ)) (sent : List (List UInt8)) (conn : κ)
    (ha : (firmwareMachine p κ).Admits {} (es ++ fs))
    (hfit : (firmwareMachine p κ).Along Firmware.Fits {} (es ++ fs))
    (hlen : ∀ payload ∈ sent, payload.length ≤ meshtasticMaxPayload)
    (hwire : lineOf (es ++ fs) <+: sent.flatMap wireFrame)
    (hup : (slotOf ((firmwareMachine p κ).exec {} es).proxy.gatt conn).isSome)
    (hstay : ∀ e ∈ fs, e ≠ .proxy (.disconnected conn)) :
    let d := (firmwareMachine p κ).exec {} es
    let d' := (firmwareMachine p κ).exec d fs
    let handled := (firmwareMachine p κ).collect Firmware.handledAt d fs
    let events := (firmwareMachine p κ).collect Firmware.eventsAt d fs
    let came := (proxyMachine p κ).collect (arrivalsAt p conn) d.proxy events
    (firmwareMachine p κ).collect Firmware.handledAt {} es ++ handled <+: sent.filter (· ≠ []) ∧
    (lineOf (es ++ fs) = sent.flatMap wireFrame → d'.rx.path.ring = [] → d'.rx.unreported = [] →
      (firmwareMachine p κ).collect Firmware.handledAt {} es ++ handled = sent.filter (· ≠ [])) ∧
    (proxyMachine p κ).collect (fetchedAt p conn) d.proxy events ++ queueOf d'.proxy conn =
      queueOf d.proxy conn ++ came.map Arrival.bytes ∧
    (came.filterMap Arrival.fromNode).Sublist handled ∧
    ((proxyMachine p κ).Along (fun s e => heard p conn s e = true) d.proxy events →
      came.filterMap Arrival.fromNode = handled) := by
  intro d d' handled events came
  obtain ⟨hpre, hall⟩ := handled_prefix p ha hfit
  have hsent : rxDeliveries {} (sent.flatMap wireFrame) = sent.filter (· ≠ []) :=
    (exec_frames rfl sent hlen).1
  obtain ⟨hes, hfs⟩ := (firmwareMachine p κ).along_append.mp ha
  obtain ⟨hinv, -, -⟩ := (firmware_translates p).exec hes (Firmware.inv_boot p)
  obtain ⟨-, hadm, hexec⟩ := (firmware_translates p).exec hfs hinv
  have hhandled : payloads events = handled := Machine.collect_filterMap _ _ _
  rw [Machine.collect_append] at hpre hall
  refine ⟨?_, ?_, ?_, ?_, ?_⟩
  · obtain ⟨rest, hrest⟩ := hwire
    rw [← hsent, ← hrest, rxDeliveries_append]
    exact hpre.trans (List.prefix_append _ _)
  · intro hline hring hun
    rw [Machine.exec_append] at hall
    rw [← hsent, ← hline]
    exact hall hring hun
  · have hflow := exec_arrivals p hinv.proxy hup hadm fun e he => by
      obtain ⟨d₀, e₀, he₀, hmem⟩ := Machine.mem_collect he
      cases e₀ with
      | rx e₀ =>
        obtain ⟨payload, -, rfl⟩ := List.mem_map.mp hmem
        simp
      | proxy e₀ =>
        obtain rfl := List.mem_singleton.mp hmem
        rintro rfl
        exact hstay _ he₀ rfl
    rwa [hexec] at hflow
  · rw [← hhandled]
    exact arrivals_sublist p conn d.proxy events
  · intro hheard
    rw [← hhandled]
    exact arrivals_heard p hheard

def plugIn : List (FirmwareEvent Nat) := [.proxy .mainStep, .proxy (.connected 1 0)]

def nodeInfoBytes : List DmaEvent :=
  [.line 0x94, .line 0xC3, .line 0, .rxRdy, .rxWork, .line 2, .line 0x22, .line 0, .rxRdy] ++
    List.replicate 5 .rxWork

def nodeInfoLine : List (FirmwareEvent Nat) :=
  nodeInfoBytes.map .rx ++ [.proxy (.fromradioRead 1 512 0)]

theorem line_reaches_phone_nodeInfo :
    let d := (firmwareMachine (wirePlatform 9) Nat).exec {} plugIn
    let d' := (firmwareMachine (wirePlatform 9) Nat).exec d nodeInfoLine
    let events := (firmwareMachine (wirePlatform 9) Nat).collect Firmware.eventsAt d nodeInfoLine
    ((proxyMachine (wirePlatform 9) Nat).collect (arrivalsAt (wirePlatform 9) 1) d.proxy
      events).filterMap Arrival.fromNode = [[0x22, 0]] ∧
    (proxyMachine (wirePlatform 9) Nat).collect (fetchedAt (wirePlatform 9) 1) d.proxy events =
      [[0x22, 0]] ∧
    queueOf d'.proxy 1 = [] := by
  intro d d' events
  obtain ⟨-, hall, hflow, -, hheard⟩ := line_reaches_phone (wirePlatform 9) plugIn nodeInfoLine
    [[0x22, 0]] 1 (by decide +kernel) (by decide +kernel) (by decide) (by decide +kernel)
    (by decide +kernel) (by decide +kernel)
  have hnone : (firmwareMachine (wirePlatform 9) Nat).collect Firmware.handledAt {} plugIn = [] := by
    decide +kernel
  have hall := hall (by decide +kernel) (by decide +kernel) (by decide +kernel)
  rw [hnone, List.nil_append] at hall
  have hqueue : queueOf d'.proxy 1 = [] := by decide +kernel
  refine ⟨(hheard (by decide +kernel)).trans hall, ?_, hqueue⟩
  rw [hqueue, List.append_nil] at hflow
  exact hflow.trans (by decide +kernel)

end MeshProxy

import MeshProxy.RxPath
import MeshProxy.UplinkWire

/-!
# From a phone's write to the node's parser

The driver of the UART sends the frame that `uart_tx` gave it byte by byte,
until it reports the end or aborts; of an aborted frame a part has gone out.
Where no transmission is aborted, a receiver of the same framing at the other
end of the cable hears the payloads the driver took, in order
(`uplink_reaches_node`).
-/

namespace MeshProxy

variable {κ : Type} (p : Platform)

/-- A transmission under way. -/
structure Sending where
  gone : List UInt8 := []
  rest : List UInt8

def Sending.frame (x : Sending) : List UInt8 := x.gone ++ x.rest

/-- A transmission that has ended. -/
structure Ended where
  gone : List UInt8
  aborted : Bool
  deriving DecidableEq

structure Ended.Of (x : Ended) (frame : List UInt8) : Prop where
  part : x.gone <+: frame
  whole : x.aborted = false → x.gone = frame

structure TxLine (κ : Type) where
  proxy : Proxy κ := .boot
  ended : List Ended := []
  sending : Option Sending := none

inductive LineEvent (κ : Type)
  /-- The driver sends a byte. -/
  | shift
  | proxy (e : Event κ)
  deriving DecidableEq

def LineEvent.onProxy : LineEvent κ → List (Event κ)
  | .shift => []
  | .proxy e => [e]

def proxyEvents (es : List (LineEvent κ)) : List (Event κ) := es.flatMap LineEvent.onProxy

namespace TxLine

/-- The bytes on the line so far. -/
def line (s : TxLine κ) : List UInt8 :=
  (s.ended.map Ended.gone).flatten ++ (s.sending.map Sending.gone).getD []

/-- The driver starts on a frame that was handed to it. -/
def startTx (s : TxLine κ) : List (List UInt8) → Option Sending
  | [] => s.sending
  | frame :: _ => some { rest := frame }

def shift (s : TxLine κ) : TxLine κ :=
  match s.sending with
  | some ⟨gone, byte :: rest⟩ => { s with sending := some ⟨gone ++ [byte], rest⟩ }
  | _ => s

/-- The driver gives a frame back. -/
def finish (s : TxLine κ) (aborted : Bool) : List Ended :=
  s.ended ++ (s.sending.map fun x => ⟨x.gone, aborted⟩).toList

theorem finish_sending (s : TxLine κ) (hx : s.sending = some x) (aborted : Bool) :
    s.finish aborted = s.ended ++ [⟨x.gone, aborted⟩] := by
  simp [finish, hx]

theorem shift_proxy (s : TxLine κ) : s.shift.proxy = s.proxy := by
  unfold shift
  split <;> rfl

variable [DecidableEq κ]

def step (s : TxLine κ) : LineEvent κ → TxLine κ × Reply
  | .shift => (s.shift, .none)
  | .proxy e =>
    let (proxy, reply) := s.proxy.step p e
    match e with
    | .txWork false =>
      let handed := proxy.uart.started.drop s.proxy.uart.started.length
      ({ s with proxy, sending := s.startTx handed }, reply)
    | .uartTxDone => ({ proxy, ended := s.finish false, sending := none }, reply)
    | .uartTxAborted => ({ proxy, ended := s.finish true, sending := none }, reply)
    | _ => ({ s with proxy }, reply)

/-- `uart_tx` takes nothing before `main` has initialised the UART, and the
driver reports the end of a transmission only when it has one. -/
def Enabled (s : TxLine κ) : LineEvent κ → Prop
  | .shift => ∃ x ∈ s.sending, x.rest ≠ []
  | .proxy (.txWork failed) => s.proxy.main = .uartInit → failed = true
  | .proxy .uartTxDone => ∃ x ∈ s.sending, x.rest = []
  | .proxy .uartTxAborted => s.sending.isSome
  | .proxy e => s.proxy.Enabled e

instance (s : TxLine κ) : (e : LineEvent κ) → Decidable (s.Enabled e)
  | .shift => inferInstanceAs (Decidable (∃ x ∈ s.sending, x.rest ≠ []))
  | .proxy (.txWork failed) =>
    inferInstanceAs (Decidable (s.proxy.main = .uartInit → failed = true))
  | .proxy .uartTxDone => inferInstanceAs (Decidable (∃ x ∈ s.sending, x.rest = []))
  | .proxy .uartTxAborted => inferInstanceAs (Decidable (s.sending.isSome = true))
  | .proxy (.connected conn err) =>
    inferInstanceAs (Decidable (err = 0 → findSlot s.proxy.gatt conn = none))
  | .proxy (.uartFrame payload) =>
    inferInstanceAs (Decidable (1 ≤ payload.length ∧ payload.length ≤ meshtasticMaxPayload))
  | .proxy (.disconnected _) | .proxy (.fromnumRead ..) | .proxy (.fromradioRead ..)
  | .proxy (.toradioWrite ..) | .proxy (.nodeRegWrite ..) | .proxy .keepalive | .proxy .mainStep =>
    inferInstanceAs (Decidable True)

end TxLine

/-- `tx_in_progress` says whether the driver has a transmission. -/
structure TxLine.Inv (s : TxLine κ) : Prop where
  uplinked : Uplinked p s.proxy
  busy : s.proxy.uart.inProgress = s.sending.isSome
  silent : s.proxy.main = .uartInit → s.sending = none

theorem TxLine.inv_boot : TxLine.Inv p ({} : TxLine κ) where
  uplinked := uplinked_boot p
  busy := rfl
  silent _ := rfl

/-- The frames so far: those whose transmission has ended, and the one under
way, split in what has gone and what has not. -/
def TxLine.Framed (s : TxLine κ) (frames : List (List UInt8)) : Prop :=
  ∃ done, frames = done ++ (s.sending.map Sending.frame).toList ∧
    List.Forall₂ Ended.Of s.ended done

variable {s : TxLine κ}

theorem Ended.gone_eq {xs : List Ended} (h : List.Forall₂ Ended.Of xs frames)
    (hwhole : ∀ x ∈ xs, x.aborted = false) : xs.map Ended.gone = frames := by
  induction h with
  | nil => rfl
  | cons hx _ ih =>
    obtain ⟨hhead, htail⟩ := List.forall_mem_cons.mp hwhole
    rw [List.map_cons, hx.whole hhead, ih htail]

theorem TxLine.Framed.line (hf : s.Framed frames) (hwhole : ∀ x ∈ s.ended, x.aborted = false) :
    s.line <+: frames.flatten ∧ ((∀ x ∈ s.sending, x.rest = []) → s.line = frames.flatten) := by
  obtain ⟨done, rfl, hended⟩ := hf
  unfold TxLine.line
  rw [Ended.gone_eq hended hwhole]
  cases s.sending with
  | none => simp
  | some x =>
    refine ⟨?_, fun hrest => ?_⟩
    · simp [Sending.frame, List.prefix_append]
    · simp [Sending.frame, hrest x rfl]

variable [DecidableEq κ]

def lineMachine (κ : Type) [DecidableEq κ] : Machine (TxLine κ) (LineEvent κ) Reply where
  enabled := TxLine.Enabled
  step := TxLine.step p

instance (s : TxLine κ) (e : LineEvent κ) : Decidable ((lineMachine p κ).enabled s e) :=
  inferInstanceAs (Decidable (s.Enabled e))

theorem step_proxy (s : TxLine κ) (e : Event κ) :
    ((lineMachine p κ).next s (.proxy e)).proxy = (s.proxy.step p e).1 := by
  cases e with
  | txWork failed => cases failed <;> rfl
  | _ => rfl

theorem line_translates : (lineMachine p κ).Translates (proxyMachine p κ) (fun _ => True)
    TxLine.proxy fun _ => LineEvent.onProxy := by
  intro s e he _
  cases e with
  | shift => exact ⟨trivial, trivial, s.shift_proxy.symm⟩
  | proxy e =>
    have hen : s.proxy.Enabled e := by
      cases e with
      | txWork | uartTxDone | uartTxAborted => trivial
      | _ => exact he
    exact ⟨trivial, ⟨hen, trivial⟩, (step_proxy p s e).symm⟩

theorem exec_proxy (ha : (lineMachine p κ).Admits s es) :
    (proxyMachine p κ).exec s.proxy (proxyEvents es) = ((lineMachine p κ).exec s es).proxy := by
  obtain ⟨-, -, hexec⟩ := (line_translates p).exec ha trivial
  rwa [Machine.collect_event] at hexec

/-- The frames that the driver takes in a step. -/
def TxLine.wired (s : TxLine κ) (e : LineEvent κ) : List (List UInt8) :=
  (proxyMachine p κ).collect wiredAt s.proxy e.onProxy

@[simp] theorem TxLine.wired_shift (s : TxLine κ) : s.wired p .shift = [] := rfl

@[simp] theorem TxLine.wired_proxy (s : TxLine κ) (e : Event κ) :
    s.wired p (.proxy e) = wiredAt s.proxy e := List.append_nil _

theorem collect_wired (ha : (lineMachine p κ).Admits s es) :
    (lineMachine p κ).collect (TxLine.wired p) s es =
      (proxyMachine p κ).collect wiredAt s.proxy (proxyEvents es) := by
  have hcollect := (line_translates p).collect ha trivial wiredAt
  rw [Machine.collect_event] at hcollect
  exact hcollect.symm

-- ---------------------------------------------------------------------------
-- One transmission at a time
-- ---------------------------------------------------------------------------

inductive TxStep (s : TxLine κ) : LineEvent κ → TxLine κ → Prop
  | shifted (hx : s.sending = some ⟨gone, byte :: rest⟩) :
      TxStep s .shift { s with sending := some ⟨gone ++ [byte], rest⟩ }
  | started (hx : s.sending = none) (hm : s.proxy.main ≠ .uartInit)
      (hw : wiredAt s.proxy e = [payload]) (he : ¬ e.EndsTx) :
      TxStep s (.proxy e)
        { s with proxy := (s.proxy.step p e).1, sending := some { rest := wireFrame payload } }
  | ended (hx : s.sending = some x) (he : e.EndsTx) (hrest : aborted = false → x.rest = []) :
      TxStep s (.proxy e)
        { proxy := (s.proxy.step p e).1, ended := s.ended ++ [⟨x.gone, aborted⟩], sending := none }
  | same (hw : wiredAt s.proxy e = []) (he : ¬ e.EndsTx) :
      TxStep s (.proxy e) { s with proxy := (s.proxy.step p e).1 }

theorem txWorkHandler_inProgress (u : UartTx) (hw : u.workPending = true) (failed : Bool) :
    (txWorkHandler u failed).inProgress = (u.inProgress || !failed && !u.frames.isEmpty) := by
  unfold UartTx.frames txWorkHandler
  cases hb : u.inProgress with
  | true => simp
  | false =>
    cases hq : u.msgq with
    | nil => simp [hw]
    | cons entry rest => cases failed <;> simp [hw, txWorkSubmit]

section
variable (henc : ∀ nonce, ∃ len, (protoEncodeHeartbeat p nonce 16).2 = .ok len)
include henc

theorem handed_eq {s : Proxy κ} (hu : Uplinked p s) (e : Event κ) :
    (s.step p e).1.uart.started.drop s.uart.started.length = (framedAt s e).map wireFrame := by
  rw [(step_queue p henc hu e).2, List.drop_left]

theorem txStep (h : s.Inv p) (he : s.Enabled e) : TxStep p s e ((lineMachine p κ).next s e) := by
  cases e with
  | shift =>
    obtain ⟨⟨gone, rest⟩, hx, hne⟩ := he
    have hx : s.sending = some ⟨gone, rest⟩ := hx
    cases rest with
    | nil => exact absurd rfl hne
    | cons byte rest =>
      have hnext : (lineMachine p κ).next s .shift =
          { s with sending := some ⟨gone ++ [byte], rest⟩ } := by
        show s.shift = _
        simp only [TxLine.shift, hx]
      rw [hnext]
      exact .shifted hx
  | proxy e =>
    cases e with
    | txWork failed =>
      cases failed with
      | true => exact .same rfl id
      | false =>
        have hnext : (lineMachine p κ).next s (.proxy (.txWork false)) =
            { s with
              proxy := (s.proxy.step p (.txWork false)).1
              sending := s.startTx (s.proxy.uart.frames.map wireFrame) } :=
          congrArg (fun handed => { s with
              proxy := (s.proxy.step p (.txWork false)).1, sending := s.startTx handed })
            (handed_eq p henc h.uplinked (.txWork false))
        rw [hnext]
        have hm : s.proxy.main ≠ .uartInit := fun hm => Bool.noConfusion (he hm)
        rcases hf : s.proxy.uart.frames with _ | ⟨payload, rest⟩
        · exact .same hf id
        · obtain ⟨⟨-, hb⟩, hone⟩ :
              (s.proxy.uart.workPending = true ∧ s.proxy.uart.inProgress = false) ∧ rest = [] := by
            unfold UartTx.frames at hf
            split at hf
            · rename_i hidle
              refine ⟨hidle, ?_⟩
              cases hq : s.proxy.uart.msgq.head? <;> simp_all
            · cases hf
          subst hone
          have hx : s.sending = none := by simpa [hb] using h.busy.symm
          exact .started hx hm hf id
    | uartTxDone =>
      obtain ⟨x, hx, hrest⟩ := he
      have hx : s.sending = some x := hx
      have hnext : (lineMachine p κ).next s (.proxy .uartTxDone) =
          ⟨(s.proxy.step p .uartTxDone).1, s.ended ++ [⟨x.gone, false⟩], none⟩ :=
        congrArg (TxLine.mk _ · none) (s.finish_sending hx false)
      rw [hnext]
      exact .ended hx trivial fun _ => hrest
    | uartTxAborted =>
      obtain ⟨x, hx⟩ := Option.isSome_iff_exists.mp he
      have hnext : (lineMachine p κ).next s (.proxy .uartTxAborted) =
          ⟨(s.proxy.step p .uartTxAborted).1, s.ended ++ [⟨x.gone, true⟩], none⟩ :=
        congrArg (TxLine.mk _ · none) (s.finish_sending hx true)
      rw [hnext]
      exact .ended hx trivial nofun
    | _ => exact .same rfl id

theorem step_inProgress {s : Proxy κ} (hu : Uplinked p s) (he : ¬ e.EndsTx) :
    (s.step p e).1.uart.inProgress = (s.uart.inProgress || !(wiredAt s e).isEmpty) ∨
      s.main = .uartInit ∧ (s.step p e).1.uart.inProgress = false := by
  have hstep := step_uart p henc hu.carries e
  generalize (s.step p e).1.uart = u at hstep ⊢
  have hnone (hno : ∀ failed, e ≠ .txWork failed) : wiredAt s e = [] := by
    cases e with
    | txWork failed => exact absurd rfl (hno failed)
    | _ => rfl
  cases hstep with
  | passed x hx hno =>
    refine .inl ?_
    rw [hnone hno, List.isEmpty_nil, Bool.not_true, Bool.or_false]
    exact uartMeshtasticTx_inProgress s.uart (x.bytes p)
  | quiet hx hno hm hs hb =>
    refine .inl ?_
    rw [hnone hno, List.isEmpty_nil, Bool.not_true, Bool.or_false]
    exact hb.resolve_left he
  | init hm => exact .inr ⟨hm, rfl⟩
  | ran failed hw =>
    refine .inl ((txWorkHandler_inProgress s.uart hw failed).trans ?_)
    cases failed with
    | false => simp [wiredAt]
    | true => simp [wiredAt]
  | asleep failed hw =>
    have hf : s.uart.frames = [] := if_neg fun h => by simp [hw] at h
    cases failed <;> simp [wiredAt, hf]

theorem TxLine.Inv.step (h : s.Inv p) (he : s.Enabled e) : ((lineMachine p κ).next s e).Inv p := by
  have hstep := txStep p henc h he
  generalize (lineMachine p κ).next s e = s' at hstep ⊢
  cases hstep with
  | shifted hx =>
    exact ⟨h.uplinked, h.busy.trans (by simp [hx]), fun hm => absurd (h.silent hm) (by simp [hx])⟩
  | @started e payload hx hm hw hno =>
    refine ⟨step_uplinked p henc h.uplinked e, ?_, fun hm' => absurd (main_uartInit p hm') hm⟩
    obtain hb | ⟨hinit, -⟩ := step_inProgress p henc h.uplinked hno
    · simpa [hw] using hb
    · exact absurd hinit hm
  | @ended x aborted e hx hend hrest =>
    refine ⟨step_uplinked p henc h.uplinked e, ?_, fun _ => rfl⟩
    cases e with
    | uartTxDone | uartTxAborted => rfl
    | _ => exact hend.elim
  | @same e hw hno =>
    refine ⟨step_uplinked p henc h.uplinked e, ?_, fun hm' => h.silent (main_uartInit p hm')⟩
    obtain hb | ⟨hinit, hb⟩ := step_inProgress p henc h.uplinked hno
    · rw [hb, hw, h.busy]
      exact Bool.or_false _
    · rw [hb, h.silent hinit]
      rfl

-- ---------------------------------------------------------------------------
-- What goes out
-- ---------------------------------------------------------------------------

theorem TxLine.Framed.step (h : s.Inv p) (he : s.Enabled e) (hf : s.Framed frames) :
    ((lineMachine p κ).next s e).Framed
      (frames ++ (s.wired p e).map wireFrame) := by
  obtain ⟨done, rfl, hended⟩ := hf
  have hstep := txStep p henc h he
  generalize (lineMachine p κ).next s e = s' at hstep ⊢
  cases hstep with
  | shifted hx => exact ⟨done, by simp [hx, Sending.frame], hended⟩
  | started hx hm hw hno => exact ⟨done, by simp [hx, hw, Sending.frame], hended⟩
  | same hw hno => exact ⟨done, by simp [hw], hended⟩
  | @ended x aborted e hx hend hrest =>
    have hw : wiredAt s.proxy e = [] := by
      cases e with
      | txWork => exact hend.elim
      | _ => rfl
    have hof : Ended.Of ⟨x.gone, aborted⟩ x.frame :=
      ⟨List.prefix_append _ _, fun hab => by simp [Sending.frame, hrest hab]⟩
    exact ⟨done ++ [x.frame], by simp [hx, hw],
      List.rel_append hended (.cons hof .nil)⟩

theorem exec_framed (h : s.Inv p) (ha : (lineMachine p κ).Admits s es) (hf : s.Framed frames) :
    ((lineMachine p κ).exec s es).Framed
      (frames ++ ((lineMachine p κ).collect (TxLine.wired p) s es).map wireFrame) := by
  induction es generalizing s frames with
  | nil => simpa using hf
  | cons e es ih =>
    have hrest := ih (h.step p henc ha.1) ha.2 (hf.step p henc h ha.1)
    rw [Machine.collect_cons, List.map_append, ← List.append_assoc]
    exact hrest

omit henc in
theorem step_whole (he : e ≠ .proxy .uartTxAborted) (h : ∀ x ∈ s.ended, x.aborted = false) :
    ∀ x ∈ ((lineMachine p κ).next s e).ended, x.aborted = false := by
  have hshift : s.shift.ended = s.ended := by
    unfold TxLine.shift
    split <;> rfl
  cases e with
  | shift => exact fun x hx => h x (hshift ▸ hx)
  | proxy e =>
    cases e with
    | uartTxAborted => exact absurd rfl he
    | uartTxDone =>
      intro x hx
      obtain hx | hx := List.mem_append.mp hx
      · exact h x hx
      · obtain ⟨y, -, rfl⟩ := Option.map_eq_some_iff.mp (Option.mem_toList.mp hx)
        rfl
    | txWork failed => cases failed <;> exact h
    | _ => exact h

/-- The node's end of the cable, over any run. The frames that the driver took
go out in order, each whole unless its transmission is aborted. Where none is, a
receiver that gets the bytes in any chunks delivers the payloads the driver took,
as far as they have gone out. These are those that the queue took and lets go, in
order and each once; all of them if no `uart_tx` fails. -/
theorem uplink_reaches_node (es : List (LineEvent κ)) (ha : (lineMachine p κ).Admits {} es)
    (rs : List RxEvent) (hline : rs.flatMap RxEvent.chunk = ((lineMachine p κ).exec {} es).line)
    (hfit : rxPath.Along RxPath.Fits {} rs) :
    let s := (lineMachine p κ).exec {} es
    let taken := ((proxyMachine p κ).collect (takenAt p) .boot (proxyEvents es)).map (Sent.bytes p)
    let wired := (proxyMachine p κ).collect wiredAt .boot (proxyEvents es)
    let heard := (rxWorkHandler (rxPath.exec {} rs)).delivered
    s.Framed (wired.map wireFrame) ∧
      ((∀ e ∈ es, e ≠ .proxy .uartTxAborted) →
        heard <+: wired.filter (· ≠ []) ∧
          ((∀ x ∈ s.sending, x.rest = []) → heard = wired.filter (· ≠ []))) ∧
      (wired ++ s.proxy.uart.msgq).Sublist taken ∧
      ((∀ e ∈ es, e ≠ .proxy (.txWork true)) → wired ++ s.proxy.uart.msgq = taken) := by
  intro s taken wired heard
  have hproxy : (proxyMachine p κ).exec .boot (proxyEvents es) = s.proxy := exec_proxy p ha
  obtain ⟨-, hflow⟩ := exec_queue p henc (uplinked_boot p) (proxyEvents es)
  have htaken :
      (proxyMachine p κ).collect framedAt .boot (proxyEvents es) ++ s.proxy.uart.msgq = taken := by
    rw [← hproxy]
    exact hflow.trans (List.nil_append _)
  have hframed : s.Framed (wired.map wireFrame) := by
    have hrun := exec_framed p henc (TxLine.inv_boot p) ha ⟨[], rfl, .nil⟩
    rwa [collect_wired p ha, List.nil_append] at hrun
  refine ⟨hframed, ?_, ?_, ?_⟩
  · intro hno
    have hwhole : ∀ x ∈ s.ended, x.aborted = false :=
      Machine.invariant (I := fun s : TxLine κ => ∀ x ∈ s.ended, x.aborted = false)
        (fun _ _ he h => step_whole p he h) ((lineMachine p κ).along_of_mem hno) nofun
    obtain ⟨hpre, hall⟩ := hframed.line hwhole
    have hsent : rxDeliveries {} (wired.map wireFrame).flatten = wired.filter (· ≠ []) :=
      (exec_frames rfl wired (exec_wired p henc (uplinked_boot p) _)).1
    have hheard : heard = rxDeliveries {} s.line := by
      rw [← hline]
      exact delivered_chunks {} hfit
    rw [hheard, ← hsent]
    refine ⟨?_, fun hrest => congrArg _ (hall hrest)⟩
    obtain ⟨rest, hrest⟩ := hpre
    rw [← hrest, rxDeliveries_append]
    exact List.prefix_append _ _
  · rw [← htaken]
    exact (wired_sublist p .boot _).append_right _
  · intro hok
    rw [← htaken, ← wired_eq p .boot]
    intro e he
    obtain ⟨e', he', hmem⟩ := List.mem_flatMap.mp he
    cases e' with
    | shift => cases hmem
    | proxy e' =>
      obtain rfl := List.mem_singleton.mp hmem
      rintro rfl
      exact hok _ he' rfl

end

def packetOut : List (LineEvent Nat) :=
  mainSteps.map .proxy ++ [.proxy (.connected 1 0), .proxy (.toradioWrite 1 [0xFF] 0),
    .proxy (.txWork false)] ++ List.replicate 6 .shift ++ [.proxy .uartTxDone,
    .proxy (.txWork false), .shift, .proxy (.toradioWrite 1 [0xFE, 7] 0)] ++ List.replicate 4 .shift

def abortedOut : List (LineEvent Nat) :=
  mainSteps.map .proxy ++ [.proxy (.txWork false)] ++ List.replicate 4 .shift ++
    [.proxy .uartTxAborted]

/-- The node hears it all; and where the want_config is aborted after four
bytes, they are still the first part of its frame. -/
theorem uplink_reaches_node_packetOut :
    (rxWorkHandler (rxPath.exec {} [.rdy [0x94, 0xC3, 0, 2, 0x18], .rdy [9, 0x94], .byte,
      .rdy [0xC3, 0, 1, 0xFF]])).delivered = [[0x18, 9], [0xFF]] ∧
    ((proxyMachine (wirePlatform 9) Nat).collect (takenAt (wirePlatform 9)) .boot
      (proxyEvents packetOut)).map (Sent.bytes (wirePlatform 9)) = [[0x18, 9], [0xFF], [0xFE, 7]] ∧
    ((lineMachine (wirePlatform 9) Nat).exec {} abortedOut).ended = [⟨[0x94, 0xC3, 0, 2], true⟩] ∧
    ((lineMachine (wirePlatform 9) Nat).exec {} abortedOut).Framed [wireFrame [0x18, 9]] := by
  obtain ⟨-, hheard, -, hall⟩ := uplink_reaches_node (wirePlatform 9) (wire_heartbeat 9) packetOut
    (by decide +kernel)
    [.rdy [0x94, 0xC3, 0, 2, 0x18], .rdy [9, 0x94], .byte, .rdy [0xC3, 0, 1, 0xFF]]
    (by decide +kernel) (by decide)
  obtain ⟨hframed, -⟩ := uplink_reaches_node (wirePlatform 9) (wire_heartbeat 9) abortedOut
    (by decide +kernel) [.rdy [0x94, 0xC3, 0, 2]] (by decide +kernel) (by decide)
  refine ⟨((hheard (by decide)).2 (by decide +kernel)).trans (by decide), ?_, by decide +kernel,
    hframed⟩
  exact (hall (by decide)).symm.trans (by decide)

end MeshProxy

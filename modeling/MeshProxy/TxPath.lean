import MeshProxy.UartTx

/-!
# The transmit path, statement by statement

`txWorkHandler` runs in one piece. Here the handler, the callers of
`uart_meshtastic_tx` and the UART interrupt take turns: a caller may stop
between its put and its submit, the handler between any two statements, and
the driver reports the end of a transmission at any time while it owns the
frame buffer. `TxPath.run_handler` shows that the handler left alone is
`txWorkHandler`.
-/

namespace MeshProxy

/-- The next statement of `tx_work_handler`. `clear` and `resubmit` are those
after a `uart_tx` that failed, `leave` is the return. -/
inductive TxPc
  | idle
  | guard
  | get
  | header (entry : List UInt8)
  | body (entry : List UInt8)
  | mark (entry : List UInt8)
  | call (entry : List UInt8)
  | clear
  | resubmit
  | leave
  deriving DecidableEq, Repr

def TxPc.inHand : TxPc → List (List UInt8)
  | .header entry | .body entry | .mark entry | .call entry => [entry]
  | _ => []

def TxPc.writesFrame : TxPc → Bool
  | .header _ | .body _ => true
  | _ => false

def TxPc.serving : TxPc → Bool
  | .get | .header _ | .body _ | .mark _ | .call _ | .clear | .resubmit => true
  | _ => false

def TxPc.marked : TxPc → Bool
  | .call _ | .clear => true
  | _ => false

structure TxPath where
  uart : UartTx := {}
  pc : TxPc := .idle
  /-- Callers between `k_msgq_put` and `k_work_submit`. -/
  between : Nat := 0
  /-- The driver owns `tx_frame_buf`. -/
  owned : Bool := false
  accepted : List (List UInt8) := []
  dequeued : List (List UInt8) := []

inductive TxEvent
  /-- A call of `uart_meshtastic_tx`, up to its put. -/
  | put (payload : List UInt8)
  | submit
  /-- The work queue takes `tx_work` up. -/
  | start
  /-- The next statement of the handler; `failed` is what `uart_tx` returns. -/
  | run (failed : Bool)
  | done
  | aborted
  deriving DecidableEq, Repr

namespace TxPath

/-- `k_work_is_pending(&tx_work)`: queued or running. -/
def Pending (s : TxPath) : Prop := s.uart.workPending = true ∨ s.pc ≠ .idle

def put (s : TxPath) (payload : List UInt8) : TxPath :=
  let s := { s with uart := { s.uart with passed := s.uart.passed ++ [payload] } }
  if meshtasticMaxPayload < payload.length then s
  else
    match txMsgqPut s.uart payload with
    | (_, .error _) => s
    | (uart, .ok ()) =>
      { s with uart, between := s.between + 1, accepted := s.accepted ++ [payload] }

def run (s : TxPath) (failed : Bool) : TxPath :=
  match s.pc with
  | .idle => s
  | .guard => if s.uart.inProgress then { s with pc := .leave } else { s with pc := .get }
  | .get =>
    match s.uart.msgq with
    | [] => { s with pc := .leave }
    | entry :: rest =>
      { s with
        pc := .header entry, uart := { s.uart with msgq := rest }
        dequeued := s.dequeued ++ [entry] }
  | .header entry =>
    { s with
      pc := .body entry
      uart := { s.uart with frameBuf := s.uart.frameBuf.memcpy 0 (frameHeader entry.length) } }
  | .body entry =>
    { s with
      pc := .mark entry
      uart := { s.uart with frameBuf := s.uart.frameBuf.memcpy 4 entry } }
  | .mark entry => { s with pc := .call entry, uart := { s.uart with inProgress := true } }
  | .call entry =>
    { s with
      pc := if failed then .clear else .leave
      owned := !failed
      uart := { s.uart with
        started := s.uart.started ++ [s.uart.frameBuf.slice 0 (entry.length + 4)] } }
  | .clear => { s with pc := .resubmit, uart := { s.uart with inProgress := false } }
  | .resubmit => { s with pc := .leave, uart := txWorkSubmit s.uart }
  | .leave => { s with pc := .idle }

def step (s : TxPath) : TxEvent → TxPath
  | .put payload => s.put payload
  | .submit => { s with uart := txWorkSubmit s.uart, between := s.between - 1 }
  | .start => { s with pc := .guard, uart := { s.uart with workPending := false } }
  | .run failed => s.run failed
  | .done => { s with uart := uartTxDone s.uart, owned := false }
  | .aborted => { s with uart := uartTxAborted s.uart, owned := false }

/-- The driver reports the end of a transmission only when it has one, and
the work queue runs one handler at a time. -/
def Enabled (s : TxPath) : TxEvent → Prop
  | .put _ => True
  | .submit => 0 < s.between
  | .start => s.pc = .idle ∧ s.uart.workPending = true
  | .run _ => s.pc ≠ .idle
  | .done | .aborted => s.owned = true

instance (s : TxPath) : (e : TxEvent) → Decidable (s.Enabled e)
  | .put _ => inferInstanceAs (Decidable True)
  | .submit => inferInstanceAs (Decidable (0 < s.between))
  | .start => inferInstanceAs (Decidable (s.pc = .idle ∧ s.uart.workPending = true))
  | .run _ => inferInstanceAs (Decidable (s.pc ≠ .idle))
  | .done | .aborted => inferInstanceAs (Decidable (s.owned = true))

end TxPath

def txMachine : Machine TxPath TxEvent Unit where
  enabled := TxPath.Enabled
  step s e := (s.step e, ())

instance (s : TxPath) (e : TxEvent) : Decidable (txMachine.enabled s e) :=
  inferInstanceAs (Decidable (s.Enabled e))

def wireFrame (payload : List UInt8) : List UInt8 := frameHeader payload.length ++ payload

-- ---------------------------------------------------------------------------
-- The frame buffer
-- ---------------------------------------------------------------------------

@[simp] theorem length_frameHeader (len : Nat) : (frameHeader len).length = 4 := rfl

@[simp] theorem length_wireFrame (payload : List UInt8) :
    (wireFrame payload).length = payload.length + 4 := by
  simp [wireFrame, Nat.add_comm]

variable {buf : Cells (meshtasticMaxPayload + 4) UInt8} {entry : List UInt8}

theorem slice_frameHeader : (buf.memcpy 0 (frameHeader len)).slice 0 4 = frameHeader len :=
  Cells.slice_memcpy buf (frameHeader len) (by simp [meshtasticMaxPayload])

theorem slice_wireFrame (hlen : entry.length ≤ meshtasticMaxPayload)
    (hb : buf.slice 0 4 = frameHeader entry.length) :
    (buf.memcpy 4 entry).slice 0 (entry.length + 4) = wireFrame entry := by
  have hh : (buf.memcpy 4 entry).slice 0 4 = frameHeader entry.length :=
    (Cells.slice_memcpy_disjoint buf entry (.inl (by simp))).trans hb
  have hp : (buf.memcpy 4 entry).slice 4 entry.length = entry :=
    Cells.slice_memcpy buf entry (by omega)
  rw [Nat.add_comm entry.length 4, Cells.slice_add, hh, hp, wireFrame]

-- ---------------------------------------------------------------------------
-- The invariant
-- ---------------------------------------------------------------------------

namespace TxPath

/-- What the handler has already written for the entry in hand. -/
def FrameReady (s : TxPath) : Prop :=
  match s.pc with
  | .body entry => s.uart.frameBuf.slice 0 4 = frameHeader entry.length
  | .mark entry | .call entry => s.uart.frameBuf.slice 0 (entry.length + 4) = wireFrame entry
  | _ => True

/-- Somebody will still look at the queue. -/
def Awake (s : TxPath) : Prop :=
  s.owned = true ∨ s.uart.workPending = true ∨ 0 < s.between ∨ s.pc ≠ .idle ∧ s.pc ≠ .leave

structure Inv (s : TxPath) : Prop where
  unowned : s.pc.serving = true → s.owned = false
  flag : s.uart.inProgress = (s.owned || s.pc.marked)
  short : ∀ payload ∈ s.pc.inHand ++ s.accepted, payload.length ≤ meshtasticMaxPayload
  fifo : s.accepted = s.dequeued ++ s.uart.msgq
  handed : s.uart.started ++ s.pc.inHand.map wireFrame = s.dequeued.map wireFrame
  frame : s.FrameReady
  awake : s.uart.msgq ≠ [] → s.Awake

theorem inv_boot : ({} : TxPath).Inv where
  unowned _ := rfl
  flag := rfl
  short := by simp [TxPc.inHand]
  fifo := rfl
  handed := rfl
  frame := trivial
  awake h := absurd rfl h

variable {s : TxPath}

/-- A call either leaves the path as it was, or appends its payload and owes
a submit. -/
theorem put_cases (s : TxPath) (payload : List UInt8) :
    (∃ passed, s.put payload = { s with uart := { s.uart with passed } }) ∨
    payload.length ≤ meshtasticMaxPayload ∧ ∃ passed,
      s.put payload = { s with
        uart := { s.uart with passed, msgq := s.uart.msgq ++ [payload] }
        between := s.between + 1, accepted := s.accepted ++ [payload] } := by
  unfold TxPath.put txMsgqPut
  simp only
  split
  · exact .inl ⟨_, rfl⟩
  · rename_i hlen
    by_cases hq : txQueueDepth ≤ s.uart.msgq.length
    · exact .inl ⟨s.uart.passed ++ [payload], by simp [hq]⟩
    · exact .inr ⟨by omega, s.uart.passed ++ [payload], by simp [hq]⟩

theorem Inv.put (hi : s.Inv) (payload : List UInt8) : (s.put payload).Inv := by
  obtain ⟨passed, hs⟩ | ⟨hlen, passed, hs⟩ := put_cases s payload
  · rw [hs]
    exact { hi with }
  · rw [hs]
    exact { hi with
      short := by
        intro p hp
        rw [← List.append_assoc, List.mem_append, List.mem_singleton] at hp
        obtain hp | rfl := hp
        · exact hi.short p hp
        · exact hlen
      fifo := by
        show s.accepted ++ [payload] = s.dequeued ++ (s.uart.msgq ++ [payload])
        rw [hi.fifo, List.append_assoc]
      awake := fun _ => .inr (.inr (.inl (Nat.succ_pos _))) }

theorem Inv.submit (hi : s.Inv) (between : Nat) :
    ({ s with uart := txWorkSubmit s.uart, between } : TxPath).Inv :=
  { hi with awake := fun _ => .inr (.inl rfl) }

theorem Inv.released (hi : s.Inv) (ho : s.owned = true) :
    ({ s with uart := txWorkSubmit { s.uart with inProgress := false }, owned := false } :
      TxPath).Inv :=
  { hi with
    unowned := fun _ => rfl
    flag := by
      have hm : s.pc.marked = false := by
        cases hpc : s.pc <;> first | rfl | simp [hi.unowned (by rw [hpc]; rfl)] at ho
      simp [hm, txWorkSubmit]
    awake := fun _ => .inr (.inl rfl) }

theorem Inv.start (hi : s.Inv) (hpc : s.pc = .idle) :
    ({ s with pc := .guard, uart := { s.uart with workPending := false } } : TxPath).Inv where
  unowned h := by cases h
  flag := by simpa [hpc, TxPc.marked] using hi.flag
  short := by simpa [hpc, TxPc.inHand] using hi.short
  fifo := hi.fifo
  handed := by simpa [hpc, TxPc.inHand] using hi.handed
  frame := trivial
  awake _ := .inr (.inr (.inr ⟨by simp, by simp⟩))

theorem awake_of_pc (hidle : s.pc ≠ .idle) (hleave : s.pc ≠ .leave) : s.Awake :=
  .inr (.inr (.inr ⟨hidle, hleave⟩))

theorem Inv.move (hi : s.Inv) {pc : TxPc} {frameBuf : Cells (meshtasticMaxPayload + 4) UInt8}
    (hhand : pc.inHand = s.pc.inHand) (hmark : pc.marked = s.pc.marked)
    (hun : pc.serving = true → s.owned = false)
    (hframe : ({ s with pc, uart := { s.uart with frameBuf } } : TxPath).FrameReady)
    (hawake : s.uart.msgq ≠ [] → ({ s with pc, uart := { s.uart with frameBuf } } : TxPath).Awake) :
    ({ s with pc, uart := { s.uart with frameBuf } } : TxPath).Inv where
  unowned := hun
  flag := by simpa only [hmark] using hi.flag
  short := by simpa only [hhand] using hi.short
  fifo := hi.fifo
  handed := by simpa only [hhand] using hi.handed
  frame := hframe
  awake := hawake

theorem Inv.guard (hi : s.Inv) (hpc : s.pc = .guard) (failed : Bool) : (s.run failed).Inv := by
  have hflag : s.uart.inProgress = s.owned := by simpa [hpc, TxPc.marked] using hi.flag
  simp only [TxPath.run, hpc]
  split
  · -- the transmission under way resubmits the work item when it ends
    rename_i hp
    exact hi.move (by rw [hpc]; rfl) (by rw [hpc]; rfl) (by simp [TxPc.serving]) trivial
      fun _ => .inl (hflag.symm.trans hp)
  · rename_i hp
    have ho : s.owned = false := by simpa [hflag] using hp
    exact hi.move (by rw [hpc]; rfl) (by rw [hpc]; rfl) (fun _ => ho) trivial
      fun _ => awake_of_pc (by simp) (by simp)

theorem Inv.get (hi : s.Inv) (hpc : s.pc = .get) (failed : Bool) : (s.run failed).Inv := by
  have ho := hi.unowned (by rw [hpc]; rfl)
  have hflag : s.uart.inProgress = s.owned := by simpa [hpc, TxPc.marked] using hi.flag
  have hshort : ∀ payload ∈ s.accepted, payload.length ≤ meshtasticMaxPayload := by
    simpa [hpc, TxPc.inHand] using hi.short
  simp only [TxPath.run, hpc]
  split
  · rename_i hq
    exact hi.move (by rw [hpc]; rfl) (by rw [hpc]; rfl) (by simp [TxPc.serving]) trivial
      fun h => absurd hq h
  · rename_i entry rest hq
    have he : entry ∈ s.accepted := by simp [hi.fifo, hq]
    refine ⟨fun _ => ho, by simp [hflag, TxPc.marked], ?_, ?_, ?_, trivial,
      fun _ => awake_of_pc (by simp) (by simp)⟩
    · simpa [TxPc.inHand] using ⟨hshort entry he, hshort⟩
    · simp [hi.fifo, hq]
    · simpa [hpc, TxPc.inHand] using hi.handed

theorem Inv.call (hi : s.Inv) (hpc : s.pc = .call entry) (failed : Bool) : (s.run failed).Inv := by
  have ho := hi.unowned (by rw [hpc]; rfl)
  have hflag : s.uart.inProgress = true := by simpa [hpc, ho, TxPc.marked] using hi.flag
  have hframe : s.uart.frameBuf.slice 0 (entry.length + 4) = wireFrame entry := by
    simpa [FrameReady, hpc] using hi.frame
  have hshort : ∀ payload ∈ s.accepted, payload.length ≤ meshtasticMaxPayload :=
    fun payload hp => hi.short payload (List.mem_append_right _ hp)
  have hhanded : s.uart.started ++ [wireFrame entry] = s.dequeued.map wireFrame := by
    simpa [hpc, TxPc.inHand] using hi.handed
  simp only [TxPath.run, hpc]
  cases failed with
  | false =>
    refine ⟨by simp [TxPc.serving], by simp [hflag], by simpa [TxPc.inHand] using hshort, hi.fifo, ?_,
      trivial, fun _ => .inl rfl⟩
    simpa [TxPc.inHand, hframe] using hhanded
  | true =>
    refine ⟨fun _ => rfl, by simp [hflag, TxPc.marked], by simpa [TxPc.inHand] using hshort, hi.fifo, ?_,
      trivial, fun _ => awake_of_pc (by simp) (by simp)⟩
    simpa [TxPc.inHand, hframe] using hhanded

theorem Inv.run (hi : s.Inv) (failed : Bool) : (s.run failed).Inv := by
  cases hpc : s.pc with
  | guard => exact hi.guard hpc failed
  | get => exact hi.get hpc failed
  | call entry => exact hi.call hpc failed
  | idle => simpa only [TxPath.run, hpc] using hi
  | header entry =>
    have ho := hi.unowned (by rw [hpc]; rfl)
    simp only [TxPath.run, hpc]
    exact hi.move (by rw [hpc]; rfl) (by rw [hpc]; rfl) (fun _ => ho) slice_frameHeader
      fun _ => awake_of_pc (by simp) (by simp)
  | body entry =>
    have ho := hi.unowned (by rw [hpc]; rfl)
    have hlen : entry.length ≤ meshtasticMaxPayload := hi.short entry (by simp [hpc, TxPc.inHand])
    have hhead : s.uart.frameBuf.slice 0 4 = frameHeader entry.length := by
      simpa [FrameReady, hpc] using hi.frame
    simp only [TxPath.run, hpc]
    exact hi.move (by rw [hpc]; rfl) (by rw [hpc]; rfl) (fun _ => ho) (slice_wireFrame hlen hhead)
      fun _ => awake_of_pc (by simp) (by simp)
  | mark entry =>
    have ho := hi.unowned (by rw [hpc]; rfl)
    obtain ⟨-, -, hshort, hfifo, hhanded, hframe, -⟩ := hi
    simp only [hpc, TxPc.inHand, FrameReady] at hshort hhanded hframe
    simp only [TxPath.run, hpc]
    exact ⟨fun _ => ho, by simp [TxPc.marked], hshort, hfifo, hhanded, hframe,
      fun _ => awake_of_pc (by simp) (by simp)⟩
  | clear =>
    have ho := hi.unowned (by rw [hpc]; rfl)
    obtain ⟨-, -, hshort, hfifo, hhanded, -, -⟩ := hi
    simp only [hpc, TxPc.inHand] at hshort hhanded
    simp only [TxPath.run, hpc]
    exact ⟨fun _ => ho, by simp [ho, TxPc.marked], hshort, hfifo, hhanded, trivial,
      fun _ => awake_of_pc (by simp) (by simp)⟩
  | resubmit =>
    obtain ⟨-, hflag, hshort, hfifo, hhanded, -, -⟩ := hi
    simp only [hpc, TxPc.marked, TxPc.inHand, Bool.or_false] at hflag hshort hhanded
    simp only [TxPath.run, hpc]
    exact ⟨by simp [TxPc.serving], by simp [hflag, TxPc.marked, txWorkSubmit], hshort, hfifo,
      hhanded, trivial, fun _ => .inr (.inl rfl)⟩
  | leave =>
    simp only [TxPath.run, hpc]
    refine hi.move (by rw [hpc]; rfl) (by rw [hpc]; rfl) (by simp [TxPc.serving]) trivial fun h => ?_
    obtain h | h | h | ⟨-, h⟩ := hi.awake h
    · exact .inl h
    · exact .inr (.inl h)
    · exact .inr (.inr (.inl h))
    · exact absurd hpc h

theorem Inv.step (hi : s.Inv) (he : s.Enabled e) : (s.step e).Inv := by
  cases e with
  | put payload => exact hi.put payload
  | submit => exact hi.submit (s.between - 1)
  | start => exact hi.start he.1
  | run failed => exact hi.run failed
  | done => exact hi.released he
  | aborted => exact hi.released he

theorem inv_reachable (hr : txMachine.Reachable {} s) : s.Inv :=
  hr.invariant inv_boot fun _ _ he hi => hi.step he

theorem Inv.frameBuf_kept (hi : s.Inv) (ho : s.owned = true) :
    s.pc.writesFrame = false ∧
      ∀ e, s.Enabled e → (s.step e).uart.frameBuf = s.uart.frameBuf := by
  have hns : s.pc.serving = false := by
    cases hs : s.pc.serving with
    | false => rfl
    | true => simp [hi.unowned hs] at ho
  refine ⟨by cases hpc : s.pc <;> simp_all [TxPc.serving, TxPc.writesFrame], ?_⟩
  intro e _
  cases e with
  | put payload =>
    obtain ⟨passed, hs⟩ | ⟨-, passed, hs⟩ := put_cases s payload
    · exact congrArg (·.uart.frameBuf) hs
    · exact congrArg (·.uart.frameBuf) hs
  | run failed =>
    show (s.run failed).uart.frameBuf = _
    unfold TxPath.run
    cases hpc : s.pc with
    | guard => dsimp only; split <;> rfl
    | idle | leave => rfl
    | _ => simp [hpc, TxPc.serving] at hns
  | submit | start | done | aborted => rfl

-- ---------------------------------------------------------------------------
-- The same path taken in one piece
-- ---------------------------------------------------------------------------

/-- A call that is not interrupted is `uartMeshtasticTx`: what it accepts is
what the call returns zero for. -/
theorem put_submit (s : TxPath) (payload : List UInt8) :
    match uartMeshtasticTx s.uart payload with
    | (uart, .ok ()) => (s.put payload).step .submit =
        { s with uart, accepted := s.accepted ++ [payload] }
    | (uart, .error _) => s.put payload = { s with uart } := by
  unfold uartMeshtasticTx TxPath.put txMsgqPut
  simp only
  by_cases hlen : meshtasticMaxPayload < payload.length
  · simp [hlen]
  · by_cases hq : txQueueDepth ≤ s.uart.msgq.length
    · simp [hlen, hq]
    · simp [hlen, hq, TxPath.step]

/-- A run of the handler that is not interrupted is `txWorkHandler`. -/
theorem run_handler (hpc : s.pc = .idle) (hw : s.uart.workPending = true) (failed : Bool) :
    ∃ n, txMachine.Admits s (.start :: List.replicate n (.run failed)) ∧
      (txMachine.exec s (.start :: List.replicate n (.run failed))).pc = .idle ∧
      (txMachine.exec s (.start :: List.replicate n (.run failed))).uart =
        txWorkHandler s.uart failed := by
  obtain ⟨uart, pc, between, owned, accepted, dequeued⟩ := s
  obtain ⟨msgq, pending, inProgress, frameBuf, passed, started⟩ := uart
  obtain rfl : pc = .idle := hpc
  obtain rfl : pending = true := hw
  cases inProgress with
  | true =>
    refine ⟨2, ?_, rfl, rfl⟩
    simp [txMachine, Machine.next, Enabled, TxPath.step, TxPath.run, List.replicate]
  | false =>
    cases msgq with
    | nil =>
      refine ⟨3, ?_, rfl, rfl⟩
      simp [txMachine, Machine.next, Enabled, TxPath.step, TxPath.run, List.replicate]
    | cons entry rest =>
      cases failed with
      | false =>
        refine ⟨7, ?_, rfl, rfl⟩
        simp [txMachine, Machine.next, Enabled, TxPath.step, TxPath.run, List.replicate]
      | true =>
        refine ⟨9, ?_, rfl, rfl⟩
        simp [txMachine, Machine.next, Enabled, TxPath.step, TxPath.run, List.replicate]

end TxPath

-- ---------------------------------------------------------------------------
-- The contract
-- ---------------------------------------------------------------------------

/-- In every state the path can reach: the driver's buffer is left alone,
every accepted payload is in the queue, in the handler's hand or was handed
to `uart_tx` once and in order, and a payload in the queue has somebody who
will send it: the driver's transmission, the work item or a caller. -/
theorem tx_path_loses_nothing (s : TxPath) (hr : txMachine.Reachable {} s) :
    (s.owned = true → s.pc.writesFrame = false ∧
      ∀ e, s.Enabled e → (s.step e).uart.frameBuf = s.uart.frameBuf) ∧
    s.accepted = s.dequeued ++ s.uart.msgq ∧
    s.uart.started ++ s.pc.inHand.map wireFrame = s.dequeued.map wireFrame ∧
    (s.uart.msgq ≠ [] → s.owned = true ∨ s.Pending ∨ 0 < s.between) ∧
    (s.uart.msgq ≠ [] → s.pc = .idle ∨ s.pc = .leave →
      s.owned = true ∨ s.uart.workPending = true ∨ 0 < s.between) := by
  have hi := TxPath.inv_reachable hr
  refine ⟨hi.frameBuf_kept, hi.fifo, hi.handed, ?_, ?_⟩
  · intro hq
    obtain h | h | h | ⟨h, -⟩ := hi.awake hq
    · exact .inl h
    · exact .inr (.inl (.inl h))
    · exact .inr (.inr h)
    · exact .inr (.inl (.inr h))
  · intro hq hpc
    obtain h | h | h | ⟨hidle, hleave⟩ := hi.awake hq
    · exact .inl h
    · exact .inr (.inl h)
    · exact .inr (.inr h)
    · exact hpc.elim (absurd · hidle) (absurd · hleave)

def busyTx : List TxEvent :=
  [.put [1, 2], .submit, .start] ++ List.replicate 6 (.run false) ++ [.put [3], .submit]

def abortedTx : List TxEvent :=
  busyTx ++ [.run false, .start, .run false, .run false, .aborted]

/-- The second payload waits through it all, and the abort wakes the work
item. -/
theorem tx_path_aborted :
    (txMachine.exec {} abortedTx).accepted =
      (txMachine.exec {} abortedTx).dequeued ++ (txMachine.exec {} abortedTx).uart.msgq ∧
    (txMachine.exec {} abortedTx).uart.msgq = [[3]] ∧
    (txMachine.exec {} abortedTx).uart.workPending = true := by
  obtain ⟨-, hfifo, -, -, hwake⟩ := tx_path_loses_nothing _ ⟨abortedTx, by decide, rfl⟩
  refine ⟨hfifo, by decide, ?_⟩
  obtain ho | hw | hb := hwake (by decide) (.inl (by decide))
  · exact absurd ho (by decide)
  · exact hw
  · exact absurd hb (by decide)

end MeshProxy

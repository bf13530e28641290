import MeshProxy.Lib.Progress
import MeshProxy.TxPath

/-!
# The transmit path comes to rest

Callers put payloads in; everything else the path does by itself or with the
driver. Each of those steps lowers `TxPath.potential`, to which a payload adds
15, so the work item never spins, and once nothing can happen any more every
payload that was accepted has been handed to `uart_tx` (`tx_path_drains`).
-/

namespace MeshProxy

def TxEvent.isPut : TxEvent → Bool
  | .put _ => true
  | _ => false

def TxEvent.Internal (e : TxEvent) : Prop := e.isPut = false

instance (e : TxEvent) : Decidable e.Internal := inferInstanceAs (Decidable (e.isPut = false))

/-- The steps that a run of the handler may still take, with those of the runs
it may cause. -/
def TxPc.remaining : TxPc → Nat
  | .idle => 0
  | .leave => 1
  | .get => 2
  | .guard => 3
  | .resubmit => 6
  | .clear => 7
  | .call _ => 8
  | .mark _ => 9
  | .body _ => 10
  | .header _ => 11

namespace TxPath

/-- A submit owes a run of four steps, a transmission its end and a submit, a
queued payload the ten steps that its run takes beyond an empty one's. -/
def potential (s : TxPath) : Nat :=
  10 * s.uart.msgq.length + s.pc.remaining + 4 * s.uart.workPending.toNat + 5 * s.owned.toNat +
    5 * s.between

def gain (s : TxPath) : TxEvent → Nat
  | .put payload => 15 * ((s.put payload).accepted.length - s.accepted.length)
  | _ => 0

variable {s : TxPath}

theorem potential_put (s : TxPath) (payload : List UInt8) :
    (s.put payload).potential ≤ s.potential + s.gain (.put payload) := by
  simp only [gain]
  obtain ⟨passed, hs⟩ | ⟨-, passed, hs⟩ := put_cases s payload
  · rw [hs]
    exact Nat.le_add_right _ _
  · rw [hs]
    simp only [potential, List.length_append, List.length_singleton]
    omega

theorem potential_run (hpc : s.pc ≠ .idle) (failed : Bool) :
    (s.run failed).potential < s.potential := by
  obtain ⟨uart, pc, between, owned, accepted, dequeued⟩ := s
  cases pc with
  | idle => exact absurd rfl hpc
  | guard =>
    simp only [TxPath.run]
    split <;> simp [potential, TxPc.remaining]
  | get =>
    simp only [TxPath.run]
    split
    · simp [potential, TxPc.remaining]
    · rename_i entry rest hq
      simp only [potential, TxPc.remaining, hq, List.length_cons]
      omega
  | call entry =>
    cases failed with
    | false =>
      simp only [TxPath.run, potential, TxPc.remaining, Bool.not_false, Bool.toNat_true,
        Bool.false_eq_true, ↓reduceIte]
      omega
    | true =>
      simp only [TxPath.run, potential, TxPc.remaining, Bool.not_true, Bool.toNat_false, ↓reduceIte]
      omega
  | resubmit =>
    simp only [TxPath.run, potential, TxPc.remaining, txWorkSubmit, Bool.toNat_true]
    omega
  | header entry | body entry | mark entry | clear | leave =>
    simp only [TxPath.run, potential, TxPc.remaining]
    omega

theorem potential_submit (s : TxPath) (inProgress : Bool) :
    ({ s with uart := txWorkSubmit { s.uart with inProgress } } : TxPath).potential ≤
      s.potential + 4 := by
  simp only [potential, txWorkSubmit, Bool.toNat_true]
  omega

theorem lowers : txMachine.Lowers TxEvent.Internal potential gain where
  pays s e hi he := by
    cases e with
    | put payload => cases hi
    | run failed => exact potential_run he failed
    | submit =>
      have hb : 0 < s.between := he
      have hs := potential_submit s s.uart.inProgress
      simp only [potential, txWorkSubmit, txMachine, Machine.next, TxPath.step, Bool.toNat_true]
        at hs ⊢
      omega
    | start =>
      obtain ⟨hpc, hw⟩ := he
      simp only [potential, txMachine, Machine.next, TxPath.step, hpc, hw, TxPc.remaining,
        Bool.toNat_true, Bool.toNat_false]
      omega
    | done | aborted =>
      have ho : s.owned = true := he
      have hs := potential_submit s false
      simp only [potential, txWorkSubmit, txMachine, Machine.next, TxPath.step, uartTxDone,
        uartTxAborted, ho, Bool.toNat_true, Bool.toNat_false] at hs ⊢
      omega
  gains s e hi _ := by
    cases e with
    | put payload => exact potential_put s payload
    | submit | start | run | done | aborted => exact absurd rfl hi

theorem total_gain (s : TxPath) (es : List TxEvent) :
    txMachine.total gain s es = 15 * ((txMachine.exec s es).accepted.length - s.accepted.length) ∧
      s.accepted.length ≤ (txMachine.exec s es).accepted.length := by
  induction es generalizing s with
  | nil => simp
  | cons e es ih =>
    obtain ⟨hrest, hle⟩ := ih (txMachine.next s e)
    have hstep : gain s e =
          15 * ((txMachine.next s e).accepted.length - s.accepted.length) ∧
        s.accepted.length ≤ (txMachine.next s e).accepted.length := by
      cases e with
      | put payload =>
        refine ⟨rfl, ?_⟩
        obtain ⟨passed, hs⟩ | ⟨-, passed, hs⟩ := put_cases s payload
        · exact (congrArg (·.accepted.length) hs).ge
        · have hlen := congrArg (·.accepted.length) hs
          simp only [List.length_append] at hlen
          show _ ≤ (s.put payload).accepted.length
          omega
      | run failed =>
        have hsame : (s.run failed).accepted = s.accepted := by
          unfold TxPath.run
          repeat' split
          all_goals rfl
        simp [gain, txMachine, Machine.next, TxPath.step, hsame]
      | submit | start | done | aborted => simp [gain, txMachine, Machine.next, TxPath.step]
    rw [Machine.total_cons, Machine.exec_cons, hrest, hstep.1]
    have hle' := hstep.2
    exact ⟨by omega, by omega⟩

/-- At rest there is nobody left to look at the queue, so it is empty. -/
theorem Inv.drained (hi : s.Inv) (hr : txMachine.AtRest TxEvent.Internal s) :
    s.uart.started = s.accepted.map wireFrame ∧ s.uart.inProgress = false := by
  have hpc : s.pc = .idle := by
    by_contra hne
    exact hr (.run false) rfl hne
  have hw : s.uart.workPending = false := by
    cases hw : s.uart.workPending with
    | false => rfl
    | true => exact absurd ⟨hpc, hw⟩ (hr .start rfl)
  have hb : s.between = 0 := by
    by_contra hne
    exact hr .submit rfl (Nat.pos_of_ne_zero hne)
  have ho : s.owned = false := by
    cases ho : s.owned with
    | false => rfl
    | true => exact absurd ho (hr .done rfl)
  have hflag : s.uart.inProgress = false := by simp [hi.flag, ho, hpc, TxPc.marked]
  have hq : s.uart.msgq = [] := by
    by_contra hne
    obtain h | h | h | ⟨h, -⟩ := hi.awake hne
    · simp [ho] at h
    · simp [hw] at h
    · omega
    · exact h hpc
  have hd : s.accepted = s.dequeued := by simp [hi.fifo, hq]
  have hh : s.uart.started = s.dequeued.map wireFrame := by
    simpa [hpc, TxPc.inHand] using hi.handed
  exact ⟨hh.trans (congrArg _ hd.symm), hflag⟩

theorem accepted_internal (hi : ∀ e ∈ es, TxEvent.Internal e) (s : TxPath) :
    (txMachine.exec s es).accepted = s.accepted := by
  induction es generalizing s with
  | nil => rfl
  | cons e es ih =>
    rw [Machine.exec_cons, ih fun e' he => hi e' (List.mem_cons_of_mem _ he)]
    have he := hi e List.mem_cons_self
    cases e with
    | put payload => cases he
    | run failed =>
      show (s.run failed).accepted = _
      unfold TxPath.run
      repeat' split
      all_goals rfl
    | submit | start | done | aborted => rfl

end TxPath

/-- However callers, the work queue, failing transmissions and the driver take
turns, the path takes at most fifteen steps of its own for each payload it
accepts; from any state it reaches it comes to rest by itself, and wherever it
does, every payload accepted so far has been handed to `uart_tx`, in order, and
`tx_in_progress` is clear. -/
theorem tx_path_drains (es : List TxEvent) (ha : txMachine.Admits {} es) :
    let s := txMachine.exec {} es
    es.countP (fun e => decide e.Internal) ≤ 15 * s.accepted.length ∧
    (∃ fs, (∀ e ∈ fs, TxEvent.Internal e) ∧ txMachine.Admits s fs ∧
      txMachine.AtRest TxEvent.Internal (txMachine.exec s fs)) ∧
    ∀ fs, (∀ e ∈ fs, TxEvent.Internal e) → txMachine.Admits s fs →
      fs.length ≤ s.potential ∧
      (txMachine.AtRest TxEvent.Internal (txMachine.exec s fs) →
        (txMachine.exec s fs).uart.started = s.accepted.map wireFrame ∧
        (txMachine.exec s fs).uart.inProgress = false) := by
  intro s
  refine ⟨?_, TxPath.lowers.exists_rest s, fun fs hfs hadm => ⟨TxPath.lowers.length_le hfs hadm, ?_⟩⟩
  · have hcount := TxPath.lowers.countP_le ha
    have htotal := (TxPath.total_gain {} es).1
    have hboot : TxPath.potential {} = 0 := rfl
    simp only [List.length_nil, Nat.sub_zero] at htotal
    simp only [s]
    omega
  · intro hrest
    have hi := TxPath.inv_reachable (s := txMachine.exec s fs)
      ((Machine.Reachable.exec ⟨es, ha, rfl⟩ hadm))
    have hdrained := hi.drained hrest
    rwa [TxPath.accepted_internal hfs s] at hdrained

def drainTx : List TxEvent :=
  [.run false, .done, .start] ++ List.replicate 7 (.run false) ++ [.done, .start] ++
    List.replicate 3 (.run false)

theorem tx_path_drains_busyTx :
    drainTx.length ≤ (txMachine.exec {} busyTx).potential ∧
      (txMachine.exec (txMachine.exec {} busyTx) drainTx).uart.started =
        [[1, 2], [3]].map wireFrame := by
  obtain ⟨-, -, hdrain⟩ := tx_path_drains busyTx (by decide)
  obtain ⟨hlen, hrest⟩ := hdrain drainTx (by decide) (by decide)
  refine ⟨hlen, (hrest ?_).1⟩
  rintro (_ | _ | _ | _ | _ | _) hi
  · cases hi
  · decide
  · decide
  · exact fun hne => hne rfl
  · decide
  · decide

end MeshProxy

import MeshProxy.Table

/-!
# Phones can find the proxy

The stack stops advertising when a link comes up, and `on_connected` and
`on_disconnected` start it again. What `bt_le_adv_start` answers is part of the
event here. While a slot is free the proxy advertises, unless the last call
failed (`advertises_while_free`): `on_connected` goes by `active_conn_count`,
which counts the slots.
-/

namespace MeshProxy

variable {κ : Type} (p : Platform)

/-- What `bt_le_adv_start` returns: 0, `-EALREADY` (the stack advertises as it is) or
another error. -/
inductive AdvAnswer
  | started
  | already
  | failed
  deriving DecidableEq, Repr

structure Radio (κ : Type) where
  proxy : Proxy κ := {}
  /-- The stack is advertising; `main` has seen to it. -/
  advertising : Bool := true
  /-- The last call of `ble_gatt_start_advertising` returned an error. -/
  failed : Bool := false

def GattCall.isAdvStart : GattCall κ → Bool
  | .advStart => true
  | _ => false

/-- `bt_le_adv_start` is called on the way from `g` to `g'`. -/
def callsAdvStart (g g' : BleGatt κ) : Bool :=
  (g'.calls.drop g.calls.length).any GattCall.isAdvStart

namespace Radio

def linked (r : Radio κ) : Event κ → Bool
  | .connected _ err => r.advertising && decide (err ≠ 0)
  | _ => r.advertising

def startAdvertising (r : Radio κ) : AdvAnswer → Radio κ
  | .started => { r with advertising := true, failed := false }
  | .already => { r with advertising := true, failed := false }
  | .failed => { r with failed := true }

/-- A phone finds the proxy while it has a slot to give. -/
def Found (r : Radio κ) : Prop :=
  (∃ i, (r.proxy.gatt.conns i).conn = none) → r.advertising = true ∨ r.failed = true

variable [DecidableEq κ]

def step (r : Radio κ) (e : Event κ × AdvAnswer) : Radio κ × Reply :=
  let (proxy, reply) := r.proxy.step p e.1
  let r' : Radio κ := { r with proxy, advertising := r.linked e.1 }
  (if callsAdvStart r.proxy.gatt proxy.gatt then r'.startAdvertising e.2 else r', reply)

end Radio

def radioMachine (p : Platform) (κ : Type) [DecidableEq κ] :
    Machine (Radio κ) (Event κ × AdvAnswer) Reply where
  enabled r e := r.proxy.Enabled e.1
  step := Radio.step p

instance (p : Platform) {κ : Type} [DecidableEq κ] (r : Radio κ) (e : Event κ × AdvAnswer) :
    Decidable ((radioMachine p κ).enabled r e) :=
  inferInstanceAs (Decidable (r.proxy.Enabled e.1))

-- ---------------------------------------------------------------------------
-- Who calls bt_le_adv_start
-- ---------------------------------------------------------------------------

theorem onConnected_adv {g : BleGatt κ} (conn : κ) (hf : freeIndex g = some i)
    (hno : callsAdvStart g (onConnected g conn 0) = false) :
    maxBleConnections ≤ (onConnected g conn 0).activeConnCount := by
  unfold onConnected allocSlot at hno ⊢
  simp only [hf, Option.map_some, ne_eq, not_true_eq_false, ↓reduceIte] at hno ⊢
  split at hno
  · simp [callsAdvStart, bleGattStartAdvertising, BleGatt.log, BleGatt.setSlot,
      GattCall.isAdvStart] at hno
  · rename_i hge
    rw [if_neg hge]
    exact Nat.not_lt.mp hge

variable [DecidableEq κ]

theorem onDisconnected_adv (g : BleGatt κ) (conn : κ) :
    callsAdvStart g (onDisconnected g conn) = true := by
  obtain ⟨i, -, h⟩ | ⟨-, h⟩ := onDisconnected_cases g conn
  · simp [h, callsAdvStart, GattCall.isAdvStart]
  · simp [h, callsAdvStart, BleGatt.log, GattCall.isAdvStart]

-- ---------------------------------------------------------------------------
-- Every step
-- ---------------------------------------------------------------------------

variable {r : Radio κ} {e : Event κ}

theorem full_after {conn : κ} (hr : r.proxy.Reachable p)
    (he : r.proxy.Enabled (.connected conn 0))
    (hno : callsAdvStart r.proxy.gatt (onConnected r.proxy.gatt conn 0) = false)
    (i : Fin maxBleConnections) : ((onConnected r.proxy.gatt conn 0).conns i).conn ≠ none := by
  have hr' : ((proxyMachine p κ).next r.proxy (.connected conn 0)).Reachable p :=
    hr.next (m := proxyMachine p κ) he
  have hcount : (onConnected r.proxy.gatt conn 0).activeConnCount =
      (occupied (onConnected r.proxy.gatt conn 0)).card := (tableInv_reachable p hr').count
  cases hf : freeIndex r.proxy.gatt with
  | none =>
    obtain ⟨k, -, hk, -⟩ | ⟨-, hc⟩ := onConnected_conns r.proxy.gatt conn 0
    · rw [hf] at hk
      cases hk
    · rw [hc]
      simpa using List.find?_eq_none.mp hf i (List.mem_finRange i)
  | some k =>
    -- the counter says that all slots are taken, and it counts the slots
    have hfull := onConnected_adv conn hf hno
    have huniv : occupied (onConnected r.proxy.gatt conn 0) = Finset.univ := by
      apply Finset.eq_univ_of_card
      have hle := Finset.card_le_univ (occupied (onConnected r.proxy.gatt conn 0))
      rw [Fintype.card_fin] at hle ⊢
      omega
    have hmem : i ∈ occupied (onConnected r.proxy.gatt conn 0) := huniv ▸ Finset.mem_univ i
    simpa [occupied, Option.isSome_iff_ne_none] using hmem

theorem free_before (hr : r.proxy.Reachable p) (he : r.proxy.Enabled e)
    (hno : callsAdvStart r.proxy.gatt (r.proxy.step p e).1.gatt = false)
    (hi : ((r.proxy.step p e).1.gatt.conns i).conn = none) :
    (∃ j, (r.proxy.gatt.conns j).conn = none) ∧ r.linked e = r.advertising := by
  have hup (conn : κ) : e ≠ .connected conn 0 := by
    rintro rfl
    exact full_after p hr he hno i hi
  have hlinked : r.linked e = r.advertising := by
    cases e with
    | connected conn err =>
      have herr : err ≠ 0 := by
        rintro rfl
        exact hup conn rfl
      simp [Radio.linked, herr]
    | _ => rfl
  refine ⟨⟨i, ?_⟩, hlinked⟩
  obtain hsame | ⟨conn, rfl, -⟩ | ⟨conn, rfl, -⟩ := step_conn_cases p r.proxy e i
  · exact hsame.symm.trans hi
  · exact absurd rfl (hup conn)
  · have hadv : callsAdvStart r.proxy.gatt (r.proxy.step p (.disconnected conn)).1.gatt = true :=
      onDisconnected_adv r.proxy.gatt conn
    rw [hadv] at hno
    cases hno

theorem Radio.Found.step (hf : r.Found) (hr : r.proxy.Reachable p) {e : Event κ × AdvAnswer}
    (he : r.proxy.Enabled e.1) : (r.step p e).1.Found := by
  obtain ⟨e, answer⟩ := e
  simp only [Radio.step]
  rintro ⟨i, hi⟩
  cases hadv : callsAdvStart r.proxy.gatt (r.proxy.step p e).1.gatt with
  | true =>
    simp only [↓reduceIte]
    cases answer with
    | started => exact .inl rfl
    | already => exact .inl rfl
    | failed => exact .inr rfl
  | false =>
    simp only [hadv, Bool.false_eq_true, ↓reduceIte] at hi ⊢
    obtain ⟨hfree, hlinked⟩ := free_before p hr he hadv hi
    rw [hlinked]
    exact hf hfree

theorem Radio.step_proxy (r : Radio κ) (e : Event κ × AdvAnswer) :
    (r.step p e).1.proxy = (r.proxy.step p e.1).1 := by
  obtain ⟨e, answer⟩ := e
  simp only [Radio.step]
  split
  · cases answer <;> rfl
  · rfl

/-- While a slot is free the proxy advertises, unless the last call of
`ble_gatt_start_advertising` failed. -/
theorem advertises_while_free (es : List (Event κ × AdvAnswer))
    (ha : (radioMachine p κ).Admits {} es) :
    let r := (radioMachine p κ).exec {} es
    (∃ i, (r.proxy.gatt.conns i).conn = none) → r.advertising = true ∨ r.failed = true := by
  obtain ⟨-, hfound⟩ := Machine.invariant (m := radioMachine p κ)
    (I := fun r => r.proxy.Reachable p ∧ r.Found)
    (fun r e he h => ⟨by
      rw [show ((radioMachine p κ).next r e).proxy = _ from r.step_proxy p e]
      exact h.1.next he, h.2.step p h.1 he⟩)
    ha ⟨.refl _, fun _ => .inl rfl⟩
  exact hfound

def leavingRun : List (Event ℕ × AdvAnswer) :=
  [(.connected 1 0, .already), (.connected 2 0, .failed), (.disconnected 1, .started)]

theorem advertises_while_free_leavingRun :
    ((radioMachine (wirePlatform 9) ℕ).exec {} leavingRun).advertising = true := by
  have h := advertises_while_free (wirePlatform 9) leavingRun (by decide +kernel)
    ⟨0, by decide +kernel⟩
  have hans : ((radioMachine (wirePlatform 9) ℕ).exec {} leavingRun).failed = false := by
    decide +kernel
  rcases h with h | h
  · exact h
  · rw [hans] at h
    cases h

end MeshProxy

import MeshProxy.BleGatt

/-!
# The connection table, one connection at a time

Everything the proxy does to the table is a sequence of a few operations
(`GattOp`), each about one connection. `slotOf` is the slot a connection
finds. As long as no connection has two slots, an operation leaves the slots
of all other connections as they were and acts on its own connection's slot
by a function of that slot alone (`slotOf_apply_ne`, `slotOf_apply_self`).
-/

namespace MeshProxy

variable {κ : Type} (p : Platform)

inductive GattOp (κ : Type)
  | connected (conn : κ) (err : UInt8)
  | disconnected (conn : κ)
  | enqueue (conn : κ) (data : List UInt8)
  | replay (conn : κ) (nonce : UInt32)
  | park (conn : κ) (nonce : UInt32)
  | register (conn : κ) (id : ProxyId)
  | stage (conn : κ)
  | setQs (qs : Cells ccFrameSize UInt8) (qsLen : Nat)

def GattOp.target : GattOp κ → Option κ
  | .connected conn _ | .disconnected conn | .enqueue conn _ | .replay conn _ | .park conn _
  | .register conn _ | .stage conn => some conn
  | .setQs .. => none

/-- The operations other than a connect or a disconnect. -/
def GattOp.Inner : GattOp κ → Prop
  | .connected .. | .disconnected .. => False
  | _ => True

-- ---------------------------------------------------------------------------
-- What an operation does to its own slot
-- ---------------------------------------------------------------------------

/-- `ble_gatt_enqueue_fromradio` on the slot it finds. -/
def ProxyConn.enqueue (pc : ProxyConn κ) (data : List UInt8) : ProxyConn κ :=
  if data.length ≤ fromradioMaxPktSize ∧ pc.queue.count < fromradioQueueDepth then pc.push data else pc

def ProxyConn.replay (pc : ProxyConn κ) (nonce : UInt32) : ProxyConn κ :=
  let pc := pc.takeNonce nonce
  match protoEncodeConfigComplete p pc.nonce ccFrameSize with
  | (written, .error _) => { pc with ccFrame := pc.ccFrame.memcpy 0 written }
  | (cc, .ok _) => pc.arm cc

def GattOp.onSlot (cache : ConfigCache) : GattOp κ → ProxyConn κ → ProxyConn κ
  | .enqueue _ data, pc => pc.enqueue data
  | .replay _ nonce, pc => pc.replay p nonce
  | .park _ nonce, pc => pc.park nonce
  | .register _ id, pc => { pc with proxyId := id }
  | .stage _, pc => pc.stageNext cache
  | .connected .., pc | .disconnected .., pc | .setQs .., pc => pc

section
variable (pc : ProxyConn κ) (cache : ConfigCache)

@[simp] theorem push_conn (data : List UInt8) : (pc.push data).conn = pc.conn := rfl

theorem takeNonce_eq (nonce : UInt32) :
    pc.takeNonce nonce = { pc with nonce := (pc.takeNonce nonce).nonce } := by
  unfold ProxyConn.takeNonce
  split <;> rfl

@[simp] theorem takeNonce_conn (nonce : UInt32) : (pc.takeNonce nonce).conn = pc.conn := by
  rw [takeNonce_eq]

@[simp] theorem enqueue_conn (data : List UInt8) : (pc.enqueue data).conn = pc.conn := by
  unfold ProxyConn.enqueue
  split <;> rfl

@[simp] theorem replay_conn (nonce : UInt32) : (pc.replay p nonce).conn = pc.conn := by
  unfold ProxyConn.replay
  simp only
  split <;> simp [ProxyConn.arm]

@[simp] theorem stageNext_conn : (pc.stageNext cache).conn = pc.conn := by
  unfold ProxyConn.stageNext ProxyConn.stageReplay
  simp only
  repeat' split
  all_goals rfl

theorem onSlot_conn (op : GattOp κ) : (op.onSlot p cache pc).conn = pc.conn := by
  cases op <;> simp [GattOp.onSlot, ProxyConn.park]

end

-- ---------------------------------------------------------------------------
-- Slots and connections
-- ---------------------------------------------------------------------------

def Distinct (g : BleGatt κ) : Prop :=
  ∀ i j conn, (g.conns i).conn = some conn → (g.conns j).conn = some conn → i = j

@[simp] theorem setSlot_conns (g : BleGatt κ) (i : Fin maxBleConnections) (pc : ProxyConn κ) :
    (g.setSlot i pc).conns = Function.update g.conns i pc := rfl

@[simp] theorem log_conns (g : BleGatt κ) (calls : List (GattCall κ)) :
    (g.log calls).conns = g.conns := rfl

theorem Distinct.congr {g g' : BleGatt κ} (hd : Distinct g) (h : ∀ i, (g'.conns i).conn = (g.conns i).conn) :
    Distinct g' := by
  intro i j conn hi hj
  rw [h] at hi hj
  exact hd i j conn hi hj

theorem update_conn {g : BleGatt κ} (h : pc.conn = (g.conns i).conn) (j : Fin maxBleConnections) :
    (Function.update g.conns i pc j).conn = (g.conns j).conn := by
  by_cases hj : j = i
  · subst hj
    simp [h]
  · simp [hj]

/-- A slot without a connection is not in a config session. -/
def Idle (g : BleGatt κ) : Prop := ∀ i, (g.conns i).conn = none → (g.conns i).state = .connected

theorem Idle.setSlot {g : BleGatt κ} (h : Idle g) (i : Fin maxBleConnections)
    (hpc : pc.conn = none → pc.state = .connected) : Idle (g.setSlot i pc) := by
  intro j hj
  rw [setSlot_conns] at hj ⊢
  by_cases hji : j = i
  · subst hji
    rw [Function.update_self] at hj ⊢
    exact hpc hj
  · rw [Function.update_of_ne hji] at hj ⊢
    exact h j hj

theorem Idle.congr {g g' : BleGatt κ} (h : Idle g) (hc : g'.conns = g.conns) : Idle g' := by
  intro i
  rw [hc]
  exact h i

theorem freeIndex_conn {g : BleGatt κ} (h : freeIndex g = some i) : (g.conns i).conn = none := by
  simpa using List.find?_some h

theorem onConnected_conns (g : BleGatt κ) (conn : κ) (err : UInt8) :
    (∃ i, err = 0 ∧ freeIndex g = some i ∧
      (onConnected g conn err).conns = (g.setSlot i ((g.conns i).clear (some conn))).conns) ∨
    ((err = 0 → freeIndex g = none) ∧ (onConnected g conn err).conns = g.conns) := by
  unfold onConnected allocSlot
  by_cases he : err = 0
  · subst he
    cases hf : freeIndex g with
    | none => exact .inr ⟨fun _ => rfl, rfl⟩
    | some i =>
      refine .inl ⟨i, rfl, rfl, ?_⟩
      simp only [Option.map_some, ne_eq, not_true_eq_false, ↓reduceIte]
      split <;> rfl
  · exact .inr ⟨fun h => absurd h he, by simp [he]⟩

-- ---------------------------------------------------------------------------
-- Operations on the table
-- ---------------------------------------------------------------------------

variable [DecidableEq κ]

/-- The first half of `ble_gatt_park_pending`. -/
def parkSlot (g : BleGatt κ) (conn : κ) (nonce : UInt32) : BleGatt κ :=
  match findSlot g conn with
  | none => g
  | some i => g.setSlot i ((g.conns i).park nonce)

def GattOp.apply (cache : ConfigCache) (g : BleGatt κ) : GattOp κ → BleGatt κ
  | .connected conn err => onConnected g conn err
  | .disconnected conn => onDisconnected g conn
  | .enqueue conn data => (bleGattEnqueueFromradio g conn data).1
  | .replay conn nonce => bleGattReplayCachedBurst p conn nonce g
  | .park conn nonce => parkSlot g conn nonce
  | .register conn id => (bleGattRegisterProxyId g conn id).1
  | .stage conn => (fromradioRead p cache g conn 0 0).1
  | .setQs qs qsLen => { g with qs, qsLen }

-- ---------------------------------------------------------------------------
-- Finding a slot
-- ---------------------------------------------------------------------------

def slotOf (g : BleGatt κ) (conn : κ) : Option (ProxyConn κ) := (findSlot g conn).map g.conns

theorem findSlot_conn {g : BleGatt κ} (h : findSlot g conn = some i) : (g.conns i).conn = some conn := by
  simpa using List.find?_some h

theorem findSlot_eq_none {g : BleGatt κ} :
    findSlot g conn = none ↔ ∀ i, (g.conns i).conn ≠ some conn := by
  simp [findSlot, List.find?_eq_none]

theorem Distinct.findSlot_eq {g : BleGatt κ} (hd : Distinct g) :
    findSlot g conn = some i ↔ (g.conns i).conn = some conn := by
  refine ⟨findSlot_conn, fun h => ?_⟩
  cases hf : findSlot g conn with
  | none => exact absurd h (findSlot_eq_none.mp hf i)
  | some j => exact congrArg some (hd j i conn (findSlot_conn hf) h)

theorem Distinct.slotOf_eq {g : BleGatt κ} (hd : Distinct g) :
    slotOf g conn = some pc ↔ ∃ i, (g.conns i).conn = some conn ∧ g.conns i = pc := by
  simp only [slotOf, Option.map_eq_some_iff]
  exact exists_congr fun i => and_congr_left fun _ => hd.findSlot_eq

theorem slotOf_eq_none {g : BleGatt κ} : slotOf g conn = none ↔ findSlot g conn = none := by
  simp [slotOf]

theorem slotOf_congr {g g' : BleGatt κ} (h : g'.conns = g.conns) : slotOf g' conn = slotOf g conn := by
  simp [slotOf, findSlot, h]

-- ---------------------------------------------------------------------------
-- Changing one slot
-- ---------------------------------------------------------------------------

theorem slotOf_setSlot {g : BleGatt κ} (hd : Distinct g) (hi : findSlot g conn = some i)
    (h : pc.conn = (g.conns i).conn) (other : κ) :
    slotOf (g.setSlot i pc) other = if other = conn then some pc else slotOf g other := by
  have hc := findSlot_conn hi
  have hd' : Distinct (g.setSlot i pc) := hd.congr (update_conn h)
  split
  · subst other
    exact hd'.slotOf_eq.mpr ⟨i, by simp [h, hc], by simp⟩
  · rename_i hne
    have hfind : findSlot (g.setSlot i pc) other = findSlot g other := by
      simp only [findSlot, setSlot_conns, update_conn h]
    simp only [slotOf, hfind]
    cases hf : findSlot g other with
    | none => rfl
    | some j =>
      have hji : j ≠ i := by
        rintro rfl
        exact hne (Option.some.inj ((findSlot_conn hf).symm.trans hc))
      simp [hji]

-- ---------------------------------------------------------------------------
-- Operations within a connection
-- ---------------------------------------------------------------------------

variable {g : BleGatt κ} {op : GattOp κ} {cache : ConfigCache}

/-- An inner operation changes the slot it finds, or no slot at all. -/
theorem apply_inner (cache : ConfigCache) (g : BleGatt κ) (hop : op.Inner) :
    (∃ conn i, op.target = some conn ∧ findSlot g conn = some i ∧
      (op.apply p cache g).conns = (g.setSlot i (op.onSlot p cache (g.conns i))).conns) ∨
    ((∀ conn, op.target = some conn → findSlot g conn = none) ∧
      (op.apply p cache g).conns = g.conns) := by
  cases op with
  | connected | disconnected => exact hop.elim
  | enqueue conn data =>
    simp only [GattOp.apply, GattOp.target, bleGattEnqueueFromradio, GattOp.onSlot, ProxyConn.enqueue]
    cases hf : findSlot g conn with
    | none => exact .inr ⟨by rintro _ ⟨⟩; exact hf, by split <;> rfl⟩
    | some i =>
      refine .inl ⟨conn, i, rfl, hf, ?_⟩
      by_cases hl : fromradioMaxPktSize < data.length
      · rw [if_pos hl, if_neg (by omega)]
        simp
      · rw [if_neg hl]
        by_cases hc : fromradioQueueDepth ≤ (g.conns i).queue.count
        · simp only [hc, ↓reduceIte]
          rw [if_neg (by omega)]
          simp
        · simp only [hc, ↓reduceIte]
          rw [if_pos (by omega)]
          simp
  | replay conn nonce =>
    simp only [GattOp.apply, GattOp.target, bleGattReplayCachedBurst, GattOp.onSlot, ProxyConn.replay]
    cases hf : findSlot g conn with
    | none => exact .inr ⟨by rintro _ ⟨⟩; exact hf, rfl⟩
    | some i =>
      refine .inl ⟨conn, i, rfl, hf, ?_⟩
      dsimp only
      generalize protoEncodeConfigComplete p ((g.conns i).takeNonce nonce).nonce ccFrameSize = enc
      obtain ⟨_, _ | _⟩ := enc <;> rfl
  | park conn nonce =>
    simp only [GattOp.apply, GattOp.target, parkSlot, GattOp.onSlot]
    cases hf : findSlot g conn with
    | none => exact .inr ⟨by rintro _ ⟨⟩; exact hf, rfl⟩
    | some i => exact .inl ⟨conn, i, rfl, hf, rfl⟩
  | register conn id =>
    simp only [GattOp.apply, GattOp.target, bleGattRegisterProxyId, GattOp.onSlot]
    cases hf : findSlot g conn with
    | none => exact .inr ⟨by rintro _ ⟨⟩; exact hf, rfl⟩
    | some i => exact .inl ⟨conn, i, rfl, hf, rfl⟩
  | stage conn =>
    simp only [GattOp.apply, GattOp.target, fromradioRead, GattOp.onSlot]
    cases hf : findSlot g conn with
    | none => exact .inr ⟨by rintro _ ⟨⟩; exact hf, rfl⟩
    | some i => exact .inl ⟨conn, i, rfl, hf, rfl⟩
  | setQs qs qsLen => exact .inr ⟨by simp [GattOp.target], rfl⟩

theorem apply_inner_conn (cache : ConfigCache) (g : BleGatt κ) (hop : op.Inner) (i : Fin maxBleConnections) :
    ((op.apply p cache g).conns i).conn = (g.conns i).conn := by
  rcases apply_inner p cache g hop with ⟨conn, j, -, -, h⟩ | ⟨-, h⟩
  · rw [h, setSlot_conns]
    exact update_conn (onSlot_conn p _ cache op) i
  · rw [h]

theorem slotOf_apply_inner (hd : Distinct g) (hop : op.Inner) (conn : κ) :
    slotOf (op.apply p cache g) conn =
      if op.target = some conn then (slotOf g conn).map (op.onSlot p cache) else slotOf g conn := by
  rcases apply_inner p cache g hop with ⟨c, i, ht, hi, h⟩ | ⟨hnone, h⟩
  · rw [slotOf_congr h, slotOf_setSlot hd hi (onSlot_conn p _ cache op), ht]
    simp only [Option.some.injEq]
    by_cases hc : conn = c
    · subst hc
      simp [slotOf, hi]
    · rw [if_neg hc, if_neg (Ne.symm hc)]
  · rw [slotOf_congr h]
    split
    · rename_i ht
      rw [slotOf_eq_none.mpr (hnone conn ht)]
      rfl
    · rfl

-- ---------------------------------------------------------------------------
-- Connect and disconnect
-- ---------------------------------------------------------------------------

theorem onDisconnected_conns (g : BleGatt κ) (conn : κ) :
    (∃ i, findSlot g conn = some i ∧
      (onDisconnected g conn).conns = (g.setSlot i ((g.conns i).clear none)).conns) ∨
    (findSlot g conn = none ∧ (onDisconnected g conn).conns = g.conns) := by
  unfold onDisconnected
  cases hf : findSlot g conn with
  | none => exact .inr ⟨rfl, rfl⟩
  | some i =>
    refine .inl ⟨i, rfl, ?_⟩
    simp only [freeSlot, findSlot_conn hf]
    rfl

def freshSlot (g : BleGatt κ) (conn : κ) : Option (ProxyConn κ) :=
  (freeIndex g).map fun i => (g.conns i).clear (some conn)

theorem onConnected_distinct (hd : Distinct g)
    (hnew : err = 0 → findSlot g conn = none) : Distinct (onConnected g conn err) := by
  rcases onConnected_conns g conn err with ⟨k, he, hk, h⟩ | ⟨-, h⟩
  · have hnone := findSlot_eq_none.mp (hnew he)
    intro i j c hi hj
    rw [h, setSlot_conns] at hi hj
    by_cases hik : i = k <;> by_cases hjk : j = k
    · rw [hik, hjk]
    · subst hik
      simp only [Function.update_self, ProxyConn.clear, Option.some.injEq] at hi
      rw [Function.update_of_ne hjk, ← hi] at hj
      exact absurd hj (hnone j)
    · subst hjk
      simp only [Function.update_self, ProxyConn.clear, Option.some.injEq] at hj
      rw [Function.update_of_ne hik, ← hj] at hi
      exact absurd hi (hnone i)
    · rw [Function.update_of_ne hik] at hi
      rw [Function.update_of_ne hjk] at hj
      exact hd i j c hi hj
  · exact hd.congr fun i => by rw [h]

theorem onDisconnected_distinct (hd : Distinct g) : Distinct (onDisconnected g conn) := by
  rcases onDisconnected_conns g conn with ⟨k, hk, h⟩ | ⟨-, h⟩
  · intro i j c hi hj
    rw [h, setSlot_conns] at hi hj
    by_cases hik : i = k
    · subst hik
      simp [ProxyConn.clear] at hi
    · by_cases hjk : j = k
      · subst hjk
        simp [ProxyConn.clear] at hj
      · rw [Function.update_of_ne hik] at hi
        rw [Function.update_of_ne hjk] at hj
        exact hd i j c hi hj
  · exact hd.congr fun i => by rw [h]

theorem slotOf_onConnected (hd : Distinct g)
    (hnew : err = 0 → findSlot g conn = none) (other : κ) :
    slotOf (onConnected g conn err) other =
      if other = conn ∧ err = 0 then freshSlot g conn else slotOf g other := by
  have hd' := onConnected_distinct hd hnew
  rcases onConnected_conns g conn err with ⟨k, rfl, hk, h⟩ | ⟨hno, h⟩
  · simp only [and_true]
    split
    · subst other
      simp only [freshSlot, hk, Option.map_some]
      exact hd'.slotOf_eq.mpr ⟨k, by simp [h, ProxyConn.clear], by simp [h]⟩
    · rename_i hne
      apply Option.ext
      intro pc
      rw [hd'.slotOf_eq, hd.slotOf_eq, h, setSlot_conns]
      constructor
      · rintro ⟨i, hi, rfl⟩
        have hik : i ≠ k := by
          rintro rfl
          simp only [Function.update_self, ProxyConn.clear, Option.some.injEq] at hi
          exact hne hi.symm
        rw [Function.update_of_ne hik] at hi ⊢
        exact ⟨i, hi, rfl⟩
      · rintro ⟨i, hi, rfl⟩
        have hik : i ≠ k := by
          rintro rfl
          rw [freeIndex_conn hk] at hi
          cases hi
        exact ⟨i, by rw [Function.update_of_ne hik]; exact hi, Function.update_of_ne hik _ _⟩
  · rw [slotOf_congr h]
    split
    · rename_i hc
      obtain ⟨rfl, he⟩ := hc
      simp only [freshSlot, hno he, Option.map_none]
      exact slotOf_eq_none.mpr (hnew he)
    · rfl

theorem slotOf_onDisconnected (hd : Distinct g) (other : κ) :
    slotOf (onDisconnected g conn) other = if other = conn then none else slotOf g other := by
  have hd' : Distinct (onDisconnected g conn) := onDisconnected_distinct hd
  rcases onDisconnected_conns g conn with ⟨k, hk, h⟩ | ⟨hno, h⟩
  · have hkc := findSlot_conn hk
    apply Option.ext
    intro pc
    rw [hd'.slotOf_eq, h, setSlot_conns]
    split
    · subst other
      simp only [reduceCtorEq, iff_false, not_exists, not_and]
      intro i hi
      by_cases hik : i = k
      · subst hik
        simp [ProxyConn.clear] at hi
      · rw [Function.update_of_ne hik] at hi
        exact absurd (hd i k conn hi hkc) hik
    · rename_i hne
      rw [hd.slotOf_eq]
      constructor
      · rintro ⟨i, hi, rfl⟩
        have hik : i ≠ k := by
          rintro rfl
          simp [ProxyConn.clear] at hi
        rw [Function.update_of_ne hik] at hi ⊢
        exact ⟨i, hi, rfl⟩
      · rintro ⟨i, hi, rfl⟩
        have hik : i ≠ k := by
          rintro rfl
          exact hne (Option.some.inj (hi.symm.trans hkc))
        exact ⟨i, by rw [Function.update_of_ne hik]; exact hi, Function.update_of_ne hik _ _⟩
  · rw [slotOf_congr h]
    split
    · subst other
      exact slotOf_eq_none.mpr hno
    · rfl

theorem Idle.apply (h : Idle g) (op : GattOp κ) (cache : ConfigCache) :
    Idle (op.apply p cache g) := by
  by_cases hop : op.Inner
  · rcases apply_inner p cache g hop with ⟨conn, i, -, hi, hc⟩ | ⟨-, hc⟩
    · refine (h.setSlot i fun hn => ?_).congr hc
      -- the slot an operation finds has a connection, and keeps it
      rw [onSlot_conn, findSlot_conn hi] at hn
      cases hn
    · exact h.congr hc
  · cases op with
    | connected conn err =>
      rcases onConnected_conns g conn err with ⟨i, -, -, hc⟩ | ⟨-, hc⟩
      · exact (h.setSlot i fun _ => rfl).congr hc
      · exact h.congr hc
    | disconnected conn =>
      rcases onDisconnected_conns g conn with ⟨i, -, hc⟩ | ⟨-, hc⟩
      · exact (h.setSlot i fun _ => rfl).congr hc
      · exact h.congr hc
    | _ => exact absurd trivial hop

end MeshProxy

import MeshProxy.Queue
import Mathlib.Data.Fintype.Card

/-!
# The slot table on its own

The entry points of `ble_gatt.c` called in any order, for connections that
have a slot and for others. The counter, the slots and the references taken
from the Bluetooth stack are kept in separate places; `TableInv` ties them
together and every entry point keeps it.
-/

namespace MeshProxy

variable {κ : Type} (p : Platform)

/-- The calls into `ble_gatt.c`, from the Bluetooth stack and from the other
modules. -/
inductive TableEvent (κ : Type)
  | connected (conn : κ) (err : UInt8)
  | disconnected (conn : κ)
  | enqueue (conn : κ) (data : List UInt8)
  | broadcast (data : List UInt8)
  | fromnumRead (conn : κ) (len offset : Nat)
  | fromradioRead (cache : ConfigCache) (conn : κ) (len offset : Nat)
  | nodeRegWrite (conn : κ) (data : List UInt8) (offset : Nat)
  | register (conn : κ) (id : ProxyId)
  | park (up : UpstreamSession κ) (cache : ConfigCache) (conn : κ) (nonce : UInt32)
  | replay (conn : κ) (nonce : UInt32)
  | replyQueuestatus (conn : κ)

def TableEvent.link : TableEvent κ → Option κ
  | .connected conn _ | .disconnected conn => some conn
  | _ => none

structure ProxyConn.Cleared (pc : ProxyConn κ) : Prop where
  proxyId : pc.proxyId = Cells.zero
  packets : pc.packets = []
  stagedLen : pc.stagedLen = 0
  state : pc.state = .connected

def occupied (g : BleGatt κ) : Finset (Fin maxBleConnections) :=
  Finset.univ.filter fun i => (g.conns i).conn.isSome

theorem cleared_clear (pc : ProxyConn κ) (conn : Option κ) : (pc.clear conn).Cleared where
  proxyId := rfl
  packets := rfl
  stagedLen := rfl
  state := rfl

@[simp] theorem mem_occupied {g : BleGatt κ} : i ∈ occupied g ↔ (g.conns i).conn.isSome := by
  simp [occupied]

theorem card_occupied_le (g : BleGatt κ) : (occupied g).card ≤ configBtMaxConn := by
  simpa using Finset.card_le_univ (occupied g)

theorem onConnected_cases (g : BleGatt κ) (conn : κ) (err : UInt8) :
    (∃ i adv, err = 0 ∧ (g.conns i).conn = none ∧ (∀ call ∈ adv, call = .advStart) ∧
      onConnected g conn err = { g with
        conns := Function.update g.conns i ((g.conns i).clear (some conn))
        activeConnCount := (g.activeConnCount + 1) % 256
        calls := g.calls ++ .ref conn :: adv }) ∨
    ∃ calls, (∀ call ∈ calls, call = .disconnect conn) ∧ onConnected g conn err = g.log calls := by
  unfold onConnected allocSlot
  by_cases he : err = 0
  · subst he
    cases hf : freeIndex g with
    | none => exact .inr ⟨[.disconnect conn], by simp, by simp⟩
    | some i =>
      simp only [Option.map_some, ne_eq, not_true_eq_false, ↓reduceIte]
      split
      · refine .inl ⟨i, [.advStart], trivial, freeIndex_conn hf, by simp, ?_⟩
        simp [bleGattStartAdvertising, BleGatt.log, BleGatt.setSlot]
      · exact .inl ⟨i, [], trivial, freeIndex_conn hf, by simp, rfl⟩
  · exact .inr ⟨[], by simp, by simp [he, BleGatt.log]⟩

variable [DecidableEq κ]

def tableStep (g : BleGatt κ) : TableEvent κ → BleGatt κ
  | .connected conn err => onConnected g conn err
  | .disconnected conn => onDisconnected g conn
  | .enqueue conn data => (bleGattEnqueueFromradio g conn data).1
  | .broadcast data => (bleGattBroadcastFromradio g data).1
  | .fromnumRead .. => g
  | .fromradioRead cache conn len offset => (fromradioRead p cache g conn len offset).1
  | .nodeRegWrite conn data offset => (nodeRegWrite g conn data offset).1
  | .register conn id => (bleGattRegisterProxyId g conn id).1
  | .park up cache conn nonce => (bleGattParkPending p g up cache conn nonce).2
  | .replay conn nonce => bleGattReplayCachedBurst p conn nonce g
  | .replyQueuestatus conn => bleGattReplyQueuestatus p g conn

/-- The stack reports no second connect for a link that has a slot. -/
def TableEvent.Enabled (g : BleGatt κ) : TableEvent κ → Prop
  | .connected conn err => err = 0 → findSlot g conn = none
  | _ => True

instance (g : BleGatt κ) : (e : TableEvent κ) → Decidable (e.Enabled g)
  | .connected conn err => inferInstanceAs (Decidable (err = 0 → findSlot g conn = none))
  | .disconnected _ | .enqueue .. | .broadcast _ | .fromnumRead .. | .fromradioRead ..
  | .nodeRegWrite .. | .register .. | .park .. | .replay .. | .replyQueuestatus _ =>
    inferInstanceAs (Decidable True)

def tableMachine (κ : Type) [DecidableEq κ] : Machine (BleGatt κ) (TableEvent κ) Unit where
  enabled g e := e.Enabled g
  step g e := (tableStep p g e, ())

instance (g : BleGatt κ) (e : TableEvent κ) : Decidable ((tableMachine p κ).enabled g e) :=
  inferInstanceAs (Decidable (e.Enabled g))

def slotsOf (g : BleGatt κ) (conn : κ) : Finset (Fin maxBleConnections) :=
  Finset.univ.filter fun i => (g.conns i).conn = some conn

@[simp] theorem mem_slotsOf {g : BleGatt κ} : i ∈ slotsOf g conn ↔ (g.conns i).conn = some conn := by
  simp [slotsOf]

def refCalls (calls : List (GattCall κ)) (conn : κ) : Nat :=
  calls.countP fun
    | .ref c => c = conn
    | _ => false

def unrefCalls (calls : List (GattCall κ)) (conn : κ) : Nat :=
  calls.countP fun
    | .unref c => c = conn
    | _ => false

/-- `bt_conn_ref` minus `bt_conn_unref`. -/
def refsHeld (g : BleGatt κ) (conn : κ) : Int := refCalls g.calls conn - unrefCalls g.calls conn

structure TableInv (g : BleGatt κ) : Prop where
  count : g.activeConnCount = (occupied g).card
  distinct : Distinct g
  refs : ∀ conn, refsHeld g conn = (slotsOf g conn).card
  free : ∀ i, (g.conns i).conn = none → (g.conns i).Cleared

-- ---------------------------------------------------------------------------
-- Connect and disconnect
-- ---------------------------------------------------------------------------

theorem onDisconnected_cases (g : BleGatt κ) (conn : κ) :
    (∃ i, (g.conns i).conn = some conn ∧
      onDisconnected g conn = { g with
        conns := Function.update g.conns i ((g.conns i).clear none)
        activeConnCount := (g.activeConnCount + 255) % 256
        calls := g.calls ++ [.unref conn, .advStart] }) ∨
    findSlot g conn = none ∧ onDisconnected g conn = g.log [.advStart] := by
  unfold onDisconnected
  cases hf : findSlot g conn with
  | none => exact .inr ⟨rfl, rfl⟩
  | some i =>
    refine .inl ⟨i, findSlot_conn hf, ?_⟩
    simp [freeSlot, findSlot_conn hf, bleGattStartAdvertising, BleGatt.log, BleGatt.setSlot]

variable {g : BleGatt κ} {op : GattOp κ}

theorem refsHeld_append (hc : ∀ call ∈ calls, ∀ c, call ≠ GattCall.ref c ∧ call ≠ .unref c)
    (h : g'.calls = g.calls ++ calls) (conn : κ) : refsHeld g' conn = refsHeld g conn := by
  have hr : refCalls calls conn = 0 := by
    rw [refCalls, List.countP_eq_zero]
    intro call hm
    cases call with
    | ref c => exact absurd rfl (hc _ hm c).1
    | _ => simp
  have hu : unrefCalls calls conn = 0 := by
    rw [unrefCalls, List.countP_eq_zero]
    intro call hm
    cases call with
    | unref c => exact absurd rfl (hc _ hm c).2
    | _ => simp
  simp only [refCalls, unrefCalls] at hr hu
  simp [refsHeld, refCalls, unrefCalls, h, hr, hu]

theorem TableInv.keep {g' : BleGatt κ} (hi : TableInv g)
    (hcount : g'.activeConnCount = g.activeConnCount)
    (hconn : ∀ i, (g'.conns i).conn = (g.conns i).conn)
    (hfree : ∀ i, (g.conns i).conn = none → g'.conns i = g.conns i)
    (hcalls : g'.calls = g.calls ++ calls)
    (hc : ∀ call ∈ calls, ∀ c, call ≠ GattCall.ref c ∧ call ≠ .unref c) : TableInv g' where
  count := by simp only [hcount, hi.count, occupied, hconn]
  distinct := hi.distinct.congr hconn
  refs conn := by
    rw [refsHeld_append hc hcalls, hi.refs]
    simp only [slotsOf, hconn]
  free i hn := by
    rw [hconn] at hn
    rw [hfree i hn]
    exact hi.free i hn

theorem free_update (hi : TableInv g) (conn : Option κ) (k : Fin maxBleConnections) :
    ∀ i, (Function.update g.conns k ((g.conns k).clear conn) i).conn = none →
      (Function.update g.conns k ((g.conns k).clear conn) i).Cleared := by
  intro i hn
  by_cases hik : i = k
  · subst hik
    rw [Function.update_self]
    exact cleared_clear _ _
  · rw [Function.update_of_ne hik] at hn ⊢
    exact hi.free i hn

theorem TableInv.onConnected (hi : TableInv g) (hnew : err = 0 → findSlot g conn = none) :
    TableInv (onConnected g conn err) := by
  have hd := onConnected_distinct hi.distinct hnew
  obtain ⟨k, adv, he, hk, hadv, h⟩ | ⟨calls, hcalls, h⟩ := onConnected_cases g conn err
  · generalize MeshProxy.onConnected g conn err = g' at hd h ⊢
    have hconns : g'.conns = Function.update g.conns k ((g.conns k).clear (some conn)) := by rw [h]
    refine ⟨?_, hd, fun c => ?_, hconns ▸ free_update hi _ k⟩
    · have hocc : occupied g' = insert k (occupied g) := by
        ext i
        by_cases hik : i = k <;> simp [hconns, hik, ProxyConn.clear]
      have hcard : (insert k (occupied g)).card = (occupied g).card + 1 :=
        Finset.card_insert_of_notMem (by simp [hk])
      have hle := card_occupied_le g'
      have hcount : g'.activeConnCount = ((occupied g).card + 1) % 256 := by rw [h, ← hi.count]
      rw [hocc, hcard] at hle ⊢
      rw [hcount, Nat.mod_eq_of_lt (Nat.lt_of_le_of_lt hle (by decide))]
    · have hcalls : g'.calls = (g.log [.ref conn]).calls ++ adv := by simp [h, BleGatt.log]
      have hadv' : ∀ call ∈ adv, ∀ c, call ≠ GattCall.ref c ∧ call ≠ .unref c := by
        intro call hm c
        rw [hadv call hm]
        exact ⟨by simp, by simp⟩
      rw [refsHeld_append hadv' hcalls]
      have hi' := hi.refs c
      by_cases hc : conn = c
      · have hslots : slotsOf g' c = insert k (slotsOf g c) := by
          ext i
          by_cases hik : i = k <;> simp [hconns, hik, ProxyConn.clear, hc]
        rw [hslots, Finset.card_insert_of_notMem (by simp [hk])]
        simp only [refsHeld, refCalls, unrefCalls] at hi'
        simp [refsHeld, refCalls, unrefCalls, BleGatt.log, hc]
        omega
      · have hslots : slotsOf g' c = slotsOf g c := by
          ext i
          by_cases hik : i = k <;> simp [hconns, hik, ProxyConn.clear, hc, hk]
        rw [hslots, ← hi']
        simp [refsHeld, refCalls, unrefCalls, BleGatt.log, hc]
  · have hquiet : ∀ call ∈ calls, ∀ c, call ≠ GattCall.ref c ∧ call ≠ .unref c := by
      intro call hm c
      rw [hcalls call hm]
      exact ⟨by simp, by simp⟩
    rw [h]
    exact hi.keep rfl (fun _ => rfl) (fun _ _ => rfl) rfl hquiet

theorem TableInv.onDisconnected (hi : TableInv g) : TableInv (onDisconnected g conn) := by
  have hd : Distinct (MeshProxy.onDisconnected g conn) := onDisconnected_distinct hi.distinct
  obtain ⟨k, hk, h⟩ | ⟨-, h⟩ := onDisconnected_cases g conn
  · generalize MeshProxy.onDisconnected g conn = g' at hd h ⊢
    have hconns : g'.conns = Function.update g.conns k ((g.conns k).clear none) := by rw [h]
    refine ⟨?_, hd, fun c => ?_, hconns ▸ free_update hi _ k⟩
    · have hocc : occupied g' = (occupied g).erase k := by
        ext i
        by_cases hik : i = k <;> simp [hconns, hik, ProxyConn.clear]
      have hmem : k ∈ occupied g := by simp [hk]
      have hpos := Finset.card_pos.mpr ⟨k, hmem⟩
      have hle := card_occupied_le g
      have hcount : g'.activeConnCount = ((occupied g).card + 255) % 256 := by rw [h, ← hi.count]
      have hsmall : configBtMaxConn < 256 := by decide
      rw [hocc, hcount, Finset.card_erase_of_mem hmem]
      omega
    · have hi' := hi.refs c
      by_cases hc : conn = c
      · have hslots : slotsOf g' c = (slotsOf g c).erase k := by
          ext i
          by_cases hik : i = k <;> simp [hconns, hik, ProxyConn.clear]
        have hmem : k ∈ slotsOf g c := by simp [hk, hc]
        have hpos := Finset.card_pos.mpr ⟨k, hmem⟩
        rw [hslots, Finset.card_erase_of_mem hmem]
        simp only [refsHeld, refCalls, unrefCalls] at hi'
        simp [refsHeld, refCalls, unrefCalls, h, hc]
        omega
      · have hslots : slotsOf g' c = slotsOf g c := by
          ext i
          by_cases hik : i = k <;> simp [hconns, hik, ProxyConn.clear, hc, hk]
        rw [hslots, ← hi']
        simp [refsHeld, refCalls, unrefCalls, h, hc]
  · rw [h]
    exact hi.keep rfl (fun _ => rfl) (fun _ _ => rfl) rfl (by simp)

-- ---------------------------------------------------------------------------
-- Every other call
-- ---------------------------------------------------------------------------

theorem apply_activeConnCount (cache : ConfigCache) (g : BleGatt κ) (hop : op.Inner) :
    (op.apply p cache g).activeConnCount = g.activeConnCount := by
  cases op with
  | connected | disconnected => exact hop.elim
  | enqueue conn data =>
    simp only [GattOp.apply, bleGattEnqueueFromradio]
    repeat' split
    all_goals rfl
  | replay conn nonce =>
    simp only [GattOp.apply, bleGattReplayCachedBurst]
    repeat' split
    all_goals rfl
  | park conn nonce =>
    simp only [GattOp.apply, parkSlot]
    split <;> rfl
  | register conn id =>
    simp only [GattOp.apply, bleGattRegisterProxyId]
    split <;> rfl
  | stage conn =>
    simp only [GattOp.apply, fromradioRead]
    split <;> rfl
  | setQs qs qsLen => rfl

theorem TableInv.apply (hi : TableInv g) (cache : ConfigCache) (hop : op.Inner) :
    TableInv (op.apply p cache g) := by
  have hcalls : ∃ calls, (op.apply p cache g).calls = g.calls ++ calls ∧
      ∀ call ∈ calls, ∀ c, call ≠ .ref c ∧ call ≠ .unref c := by
    obtain ⟨conn, i, -, -, h⟩ | ⟨-, calls, h, hc⟩ := apply_calls p cache g hop
    · exact ⟨_, h, fun call hm => (slotCalls_conn p hm).2⟩
    · exact ⟨calls, h, fun call hm c => ⟨((hc call hm).2 c).1, ((hc call hm).2 c).2.1⟩⟩
  obtain ⟨calls, h, hc⟩ := hcalls
  refine hi.keep (apply_activeConnCount p cache g hop) (apply_inner_conn p cache g hop) ?_ h hc
  intro i hn
  obtain ⟨conn, k, -, hk, hconns⟩ | ⟨-, hconns⟩ := apply_inner p cache g hop
  · have hik : i ≠ k := by
      rintro rfl
      simp [findSlot_conn hk] at hn
    simp [hconns, hik]
  · rw [hconns]

theorem TableInv.applyOps (hi : TableInv g) (cache : ConfigCache) (hops : ∀ op ∈ ops, op.Inner) :
    TableInv (applyOps p cache g ops) := by
  induction ops generalizing g with
  | nil => exact hi
  | cons op ops ih =>
    exact ih (hi.apply p cache (hops op (by simp))) fun op' hm => hops op' (by simp [hm])

theorem tableStep_ops (g : BleGatt κ) (e : TableEvent κ) (hl : e.link = none) :
    ∃ cache ops, tableStep p g e = applyOps p cache g ops ∧ ∀ op ∈ ops, op.Inner := by
  cases e with
  | connected | disconnected => cases hl
  | enqueue conn data => exact ⟨{}, [.enqueue conn data], rfl, by simp [GattOp.Inner]⟩
  | broadcast data =>
    refine ⟨{}, broadcastOps g data, broadcast_ops p {} g data, fun op hm => ?_⟩
    obtain ⟨conn, rfl⟩ := mem_broadcastOps hm
    trivial
  | fromnumRead => exact ⟨{}, [], rfl, by simp⟩
  | fromradioRead cache conn len offset =>
    by_cases ho : offset = 0
    · refine ⟨cache, [.stage conn], ?_, by simp [GattOp.Inner]⟩
      simp only [tableStep, fromradioRead, applyOps, List.foldl_cons, List.foldl_nil, GattOp.apply, ho]
      split <;> rfl
    · refine ⟨cache, [], ?_, by simp⟩
      simp only [tableStep, fromradioRead, applyOps, List.foldl_nil, ho, ↓reduceIte]
      split <;> rfl
  | nodeRegWrite conn data offset =>
    by_cases hb : offset ≠ 0 ∨ data.length ≠ proxyIdSize
    · exact ⟨{}, [], by simp only [tableStep, nodeRegWrite, if_pos hb]; rfl, by simp⟩
    · refine ⟨{}, [.register conn (ProxyId.ofBytes data 0)], ?_, by simp [GattOp.Inner]⟩
      simp only [tableStep, nodeRegWrite, if_neg hb]
      rfl
  | register conn id => exact ⟨{}, [.register conn id], rfl, by simp [GattOp.Inner]⟩
  | park up cache conn nonce =>
    let s : Proxy κ := { gatt := g, upstream := up, cache := cache }
    refine ⟨cache, parkOps s conn nonce, congrArg Prod.snd (bleGattParkPending_eq p s conn nonce), ?_⟩
    intro op hm
    simp only [parkOps] at hm
    repeat' split at hm
    all_goals simp only [List.mem_cons, List.not_mem_nil, or_false] at hm
    · obtain rfl | rfl := hm <;> trivial
    · subst hm
      trivial
  | replay conn nonce => exact ⟨{}, [.replay conn nonce], rfl, by simp [GattOp.Inner]⟩
  | replyQueuestatus conn =>
    refine ⟨{}, heartbeatOps p g conn, bleGattReplyQueuestatus_eq p {} g conn, fun op hm => ?_⟩
    obtain ⟨data, rfl, -⟩ | ⟨qs, len, rfl⟩ := mem_heartbeatOps p hm <;> trivial

theorem TableInv.step (hi : TableInv g) (he : e.Enabled g) : TableInv (tableStep p g e) := by
  cases hl : e.link with
  | none =>
    obtain ⟨cache, ops, h, hops⟩ := tableStep_ops p g e hl
    rw [h]
    exact hi.applyOps p cache hops
  | some conn =>
    cases e with
    | connected c err => exact hi.onConnected he
    | disconnected c => exact hi.onDisconnected
    | _ => cases hl

theorem tableInv_empty : TableInv ({} : BleGatt κ) where
  count := by simp [occupied]
  distinct i j conn h := by cases h
  refs conn := by simp [refsHeld, refCalls, unrefCalls, slotsOf]
  free i _ := ⟨rfl, rfl, rfl, rfl⟩

theorem link_one_slot (g : BleGatt κ) (hl : e.link = some conn) :
    ∃ i, (∀ j ≠ i, (tableStep p g e).conns j = g.conns j) ∧
      ((tableStep p g e).conns i = g.conns i ∨ (g.conns i).conn = none ∨
        (g.conns i).conn = some conn) := by
  cases e with
  | connected c err =>
    cases hl
    obtain ⟨k, adv, -, hk, -, h⟩ | ⟨calls, -, h⟩ := onConnected_cases g conn err
    · exact ⟨k, fun j hj => by simp [tableStep, h, hj], .inr (.inl hk)⟩
    · exact ⟨0, fun j _ => by simp [tableStep, h], .inl (by simp [tableStep, h])⟩
  | disconnected c =>
    cases hl
    obtain ⟨k, hk, h⟩ | ⟨-, h⟩ := onDisconnected_cases g conn
    · exact ⟨k, fun j hj => by simp [tableStep, h, hj], .inr (.inr hk)⟩
    · exact ⟨0, fun j _ => by simp [tableStep, h], .inl (by simp [tableStep, h])⟩
  | _ => cases hl

/-- The counter, the slots and the references agree in every state the table
can reach. -/
theorem slot_table_bookkeeping (g : BleGatt κ) (hr : (tableMachine p κ).Reachable {} g) :
    g.activeConnCount = (occupied g).card ∧ g.activeConnCount ≤ configBtMaxConn ∧
    (∀ conn, findSlot g conn ≠ none → 0 < g.activeConnCount) ∧
    (∀ i j conn, (g.conns i).conn = some conn → (g.conns j).conn = some conn → i = j) ∧
    (∀ conn, refsHeld g conn = (slotsOf g conn).card ∧ (slotsOf g conn).card ≤ 1) ∧
    (∀ i, (g.conns i).conn = none →
      (g.conns i).proxyId = Cells.zero ∧ (g.conns i).packets = [] ∧ (g.conns i).stagedLen = 0 ∧
        (g.conns i).state = .connected) ∧
    (∀ e conn, e.link = some conn → ∃ i, (∀ j ≠ i, (tableStep p g e).conns j = g.conns j) ∧
      ((tableStep p g e).conns i = g.conns i ∨ (g.conns i).conn = none ∨
        (g.conns i).conn = some conn)) := by
  have hi : TableInv g := hr.invariant tableInv_empty fun _ _ he hi => hi.step p he
  refine ⟨hi.count, hi.count ▸ card_occupied_le g, ?_, hi.distinct, ?_, ?_, ?_⟩
  · intro conn hf
    obtain ⟨i, hfi⟩ := Option.ne_none_iff_exists'.mp hf
    have hmem : i ∈ occupied g := by simp [findSlot_conn hfi]
    rw [hi.count]
    exact Finset.card_pos.mpr ⟨i, hmem⟩
  · intro conn
    refine ⟨hi.refs conn, Finset.card_le_one.mpr ?_⟩
    intro i hmi j hmj
    exact hi.distinct i j conn (mem_slotsOf.mp hmi) (mem_slotsOf.mp hmj)
  · intro i hn
    exact ⟨(hi.free i hn).proxyId, (hi.free i hn).packets, (hi.free i hn).stagedLen,
      (hi.free i hn).state⟩
  · intro e conn hl
    exact link_one_slot p g hl

def crowdedTable : List (TableEvent Nat) :=
  [.connected 9 1, .connected 0 0, .connected 1 0, .connected 2 0, .connected 3 0, .connected 4 0,
    .connected 5 0, .connected 6 0, .enqueue 6 [1], .enqueue 2 [1], .register 2 (fun _ => 7),
    .disconnected 6, .disconnected 2]

theorem slot_table_crowded :
    ((tableMachine (wirePlatform 9) Nat).exec {} crowdedTable).activeConnCount = 5 ∧
    (occupied ((tableMachine (wirePlatform 9) Nat).exec {} crowdedTable)).card = 5 := by
  have hfive : ((tableMachine (wirePlatform 9) Nat).exec {} crowdedTable).activeConnCount = 5 := by
    decide
  refine ⟨hfive, ?_⟩
  rw [← hfive]
  exact (slot_table_bookkeeping (wirePlatform 9) _ ⟨crowdedTable, by decide, rfl⟩).1.symm

-- ---------------------------------------------------------------------------
-- The table inside the proxy
-- ---------------------------------------------------------------------------

theorem TableInv.proxyStep {s : Proxy κ} (hi : TableInv s.gatt) (he : s.Enabled e) :
    TableInv (s.step p e).1.gatt := by
  by_cases hl : e.IsLink
  · cases e with
    | connected conn err => exact hi.onConnected he
    | disconnected conn => exact hi.onDisconnected
    | _ => exact hl.elim
  · rw [step_gatt]
    exact hi.applyOps p s.cache fun op hop => (gattOps_stepOp p s e hl hop).inner

/-- The proxy calls the table only in ways it allows. -/
theorem tableInv_reachable {s : Proxy κ} (hr : s.Reachable p) : TableInv s.gatt :=
  Machine.Reachable.invariant (I := fun s : Proxy κ => TableInv s.gatt) hr tableInv_empty
    fun _ _ he hi => hi.proxyStep p he

end MeshProxy

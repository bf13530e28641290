import MeshProxy.Invariant
import MeshProxy.Wire

/-!
# The packet queue of a phone

The log of the table, cut down to one connection since it last came up
(`sinceConnect`), is the history a phone's queue is judged by: what its fresh
reads consumed and what is still queued is what was accepted for it, in
order (`QueueSpec`).
-/

namespace MeshProxy

variable {κ : Type} (p : Platform)

-- ---------------------------------------------------------------------------
-- The history of a connection
-- ---------------------------------------------------------------------------

def accepted (h : List (GattCall κ)) : List (List UInt8) :=
  h.filterMap fun
    | .enqueue _ data (.ok ()) => some data
    | _ => none

/-- The packets that fresh reads took from the queue: those staged while the
phone was not replaying and the queue was not empty. -/
def consumed (h : List (GattCall κ)) : List (List UInt8) :=
  h.filterMap fun
    | .staged _ state queued packet => if state ≠ .replaying ∧ 0 < queued then some packet else none
    | _ => none

def armedCount (h : List (GattCall κ)) : Nat :=
  h.countP fun
    | .armed .. => true
    | _ => false

def GattCall.conn : GattCall κ → Option κ
  | .ref conn | .unref conn | .disconnect conn | .notify conn _ | .enqueue conn .. | .armed conn _
  | .staged conn .. => some conn
  | .advStart => none

@[simp] theorem accepted_append (h h' : List (GattCall κ)) :
    accepted (h ++ h') = accepted h ++ accepted h' := List.filterMap_append

@[simp] theorem consumed_append (h h' : List (GattCall κ)) :
    consumed (h ++ h') = consumed h ++ consumed h' := List.filterMap_append

@[simp] theorem armedCount_append (h h' : List (GattCall κ)) :
    armedCount (h ++ h') = armedCount h + armedCount h' := List.countP_append

/-- What the queue of a slot owes to the history of its connection. -/
structure QueueSpec (h : List (GattCall κ)) (pc : ProxyConn κ) : Prop where
  ring : pc.queue.Wf
  entry_le : ∀ e ∈ pc.queue.toList, e.len ≤ fromradioMaxPktSize
  fifo : consumed h ++ pc.packets = accepted h
  fromnum : pc.fromnum = UInt32.ofNat ((accepted h).length + armedCount h)

variable {h : List (GattCall κ)} {pc : ProxyConn κ} {cache : ConfigCache} {op : GattOp κ}

theorem QueueSpec.quiet {pc' : ProxyConn κ} (hs : QueueSpec h pc) (hq : pc'.queue = pc.queue)
    (hf : pc'.fromnum = pc.fromnum) : QueueSpec h pc' where
  ring := hq ▸ hs.ring
  entry_le := hq ▸ hs.entry_le
  fifo := by rw [ProxyConn.packets, hq]; exact hs.fifo
  fromnum := hf ▸ hs.fromnum

theorem QueueSpec.push (hs : QueueSpec h pc) (hroom : pc.queue.count < fromradioQueueDepth)
    (hl : data.length ≤ fromradioMaxPktSize) (conn : κ) (n : UInt32) :
    QueueSpec (h ++ [.notify conn n, .enqueue conn data (.ok ())]) (pc.push data) where
  ring := hs.ring.put hroom
  entry_le e he := by
    simp only [ProxyConn.push, Ring.toList_put hs.ring hroom, List.mem_append, List.mem_singleton] at he
    rcases he with he | rfl
    · exact hs.entry_le e he
    · exact hl
  fifo := by
    have hc : consumed [.notify conn n, .enqueue conn data (.ok ())] = [] := rfl
    have ha : accepted [.notify conn n, .enqueue conn data (.ok ())] = [data] := rfl
    rw [push_packets hs.ring hroom hl, accepted_append, consumed_append, hc, ha, List.append_nil,
      ← List.append_assoc, hs.fifo]
  fromnum := by
    have ha : accepted [.notify conn n, .enqueue conn data (.ok ())] = [data] := rfl
    have hr : armedCount [.notify conn n, .enqueue conn data (.ok ())] = 0 := rfl
    have hn : (pc.push data).fromnum = pc.fromnum + 1 := rfl
    rw [hn, hs.fromnum, accepted_append, armedCount_append, ha, hr, List.length_append,
      ← UInt32.ofNat_one, ← UInt32.ofNat_add]
    congr 1
    simp only [List.length_singleton]
    omega

theorem QueueSpec.arm (hs : QueueSpec h pc) (cc : List UInt8) (conn : κ) (nonce n : UInt32) :
    QueueSpec (h ++ [.armed conn nonce, .notify conn n]) (pc.arm cc) where
  ring := hs.ring
  entry_le := hs.entry_le
  fifo := by
    have hc : consumed [.armed conn nonce, .notify conn n] = [] := rfl
    have ha : accepted [.armed conn nonce, .notify conn n] = [] := rfl
    rw [accepted_append, consumed_append, hc, ha, List.append_nil, List.append_nil]
    exact hs.fifo
  fromnum := by
    have ha : accepted [.armed conn nonce, .notify conn n] = [] := rfl
    have hr : armedCount [.armed conn nonce, .notify conn n] = 1 := rfl
    have hn : (pc.arm cc).fromnum = pc.fromnum + 1 := rfl
    rw [hn, hs.fromnum, accepted_append, armedCount_append, ha, hr, List.append_nil,
      ← UInt32.ofNat_one, ← UInt32.ofNat_add]
    rfl

/-- What an operation logs about the slot it finds. -/
def GattOp.slotCalls (cache : ConfigCache) (pc : ProxyConn κ) : GattOp κ → List (GattCall κ)
  | .enqueue conn data =>
    if fromradioMaxPktSize < data.length then [.enqueue conn data (.error .emsgsize)]
    else if fromradioQueueDepth ≤ pc.queue.count then [.enqueue conn data (.error .enomem)]
    else [.notify conn (pc.push data).fromnum, .enqueue conn data (.ok ())]
  | .replay conn nonce =>
    match (protoEncodeConfigComplete p (pc.takeNonce nonce).nonce ccFrameSize).2 with
    | .error _ => []
    | .ok _ => [.armed conn (pc.takeNonce nonce).nonce, .notify conn (pc.replay p nonce).fromnum]
  | .stage conn => [.staged conn pc.state pc.queue.count (pc.stageNext cache).stagedBytes]
  | .connected .. | .disconnected .. | .park .. | .register .. | .setQs .. => []

theorem QueueSpec.enqueue (hs : QueueSpec h pc) (conn : κ) (data : List UInt8) :
    QueueSpec (h ++ (GattOp.enqueue conn data).slotCalls p cache pc) (pc.enqueue data) := by
  have hrejected (e : Errno) : QueueSpec (h ++ [.enqueue conn data (.error e)]) pc := by
    have hc : consumed [.enqueue conn data (.error e)] = [] := rfl
    have ha : accepted [.enqueue conn data (.error e)] = [] := rfl
    have hr : armedCount [.enqueue conn data (.error e)] = 0 := rfl
    exact ⟨hs.ring, hs.entry_le, by simpa [hc, ha] using hs.fifo, by simpa [ha, hr] using hs.fromnum⟩
  simp only [GattOp.slotCalls, ProxyConn.enqueue]
  by_cases hl : fromradioMaxPktSize < data.length
  · rw [if_pos hl, if_neg (by omega)]
    exact hrejected _
  · rw [if_neg hl]
    by_cases hc : fromradioQueueDepth ≤ pc.queue.count
    · rw [if_pos hc, if_neg (by omega)]
      exact hrejected _
    · rw [if_neg hc, if_pos (by omega)]
      exact hs.push (by omega) (by omega) conn _

theorem QueueSpec.replay (hs : QueueSpec h pc) (conn : κ) (nonce : UInt32) :
    QueueSpec (h ++ (GattOp.replay conn nonce).slotCalls p cache pc) (pc.replay p nonce) := by
  have ht : QueueSpec h (pc.takeNonce nonce) := by
    rw [takeNonce_eq]
    exact hs.quiet rfl rfl
  simp only [GattOp.slotCalls]
  have hstep := replay_step p pc nonce
  generalize pc.replay p nonce = pc' at hstep ⊢
  cases hstep with
  | armed henc =>
    obtain ⟨n, hn⟩ := henc
    rw [hn]
    exact ht.arm _ conn _ _
  | failed henc =>
    obtain ⟨e, he⟩ := henc
    rw [he, List.append_nil]
    exact ht.quiet rfl rfl

theorem stageNext_fromnum (cache : ConfigCache) (pc : ProxyConn κ) :
    (pc.stageNext cache).fromnum = pc.fromnum := by
  unfold ProxyConn.stageNext ProxyConn.stageReplay
  simp only
  repeat' split
  all_goals rfl

theorem stageNext_queue (cache : ConfigCache) (hr : pc.state = .replaying) :
    (pc.stageNext cache).queue = pc.queue := by
  unfold ProxyConn.stageNext ProxyConn.stageReplay
  rw [if_pos hr]
  simp only
  repeat' split
  all_goals rfl

theorem QueueSpec.read (hs : QueueSpec h pc) (hq : (pc.stageNext cache).queue = pc.queue)
    (hn : pc.state = .replaying ∨ pc.queue.count = 0) (conn : κ) :
    QueueSpec (h ++ (GattOp.stage conn).slotCalls p cache pc) (pc.stageNext cache) := by
  have hs' := hs.quiet hq (stageNext_fromnum cache pc)
  have hc : consumed ((GattOp.stage conn).slotCalls p cache pc) = [] := by
    rcases hn with hn | hn <;> simp [consumed, GattOp.slotCalls, hn]
  have ha : accepted ((GattOp.stage conn).slotCalls p cache pc) = [] := rfl
  have hr : armedCount ((GattOp.stage conn).slotCalls p cache pc) = 0 := rfl
  exact ⟨hs'.ring, hs'.entry_le, by simpa [hc, ha] using hs'.fifo, by simpa [ha, hr] using hs'.fromnum⟩

theorem QueueSpec.pop (hs : QueueSpec h pc) (hr : pc.state ≠ .replaying) (hc : 0 < pc.queue.count)
    (conn : κ) : QueueSpec (h ++ (GattOp.stage conn).slotCalls p cache pc) (pc.stageNext cache) := by
  have hnext : pc.stageNext cache = { pc.stage pc.queue.front.bytes with queue := pc.queue.pop } := by
    rw [ProxyConn.stageNext, if_neg hr, if_pos hc]
  have hfront : pc.queue.front.len ≤ fromradioMaxPktSize := by
    apply hs.entry_le
    rw [Ring.toList_pop _ hc]
    exact List.mem_cons_self
  have hbytes : (pc.stageNext cache).stagedBytes = pc.queue.front.bytes := by
    rw [hnext]
    have hlen : pc.queue.front.bytes.length ≤ fromradioMaxPktSize := by
      simpa [PktEntry.bytes] using hfront
    exact stage_bytes hlen
  have hcons : consumed ((GattOp.stage conn).slotCalls p cache pc) = [pc.queue.front.bytes] := by
    simp [consumed, GattOp.slotCalls, hr, hc, hbytes]
  have ha : accepted ((GattOp.stage conn).slotCalls p cache pc) = [] := rfl
  have hz : armedCount ((GattOp.stage conn).slotCalls p cache pc) = 0 := rfl
  refine ⟨?_, ?_, ?_, ?_⟩
  · rw [hnext]
    exact hs.ring.pop hc
  · intro e he
    rw [hnext] at he
    apply hs.entry_le
    rw [Ring.toList_pop _ hc]
    exact List.mem_cons_of_mem _ he
  · rw [consumed_append, accepted_append, hcons, ha, List.append_nil, List.append_assoc, ← hs.fifo,
      pop_packets hc, hnext]
    rfl
  · rw [stageNext_fromnum, accepted_append, armedCount_append, ha, hz, List.append_nil]
    exact hs.fromnum

theorem QueueSpec.stage (hs : QueueSpec h pc) (conn : κ) :
    QueueSpec (h ++ (GattOp.stage conn).slotCalls p cache pc) (pc.stageNext cache) := by
  by_cases hr : pc.state = .replaying
  · exact hs.read p (stageNext_queue cache hr) (.inl hr) conn
  · rcases Nat.eq_zero_or_pos pc.queue.count with hc | hc
    · refine hs.read p ?_ (.inr hc) conn
      rw [ProxyConn.stageNext, if_neg hr, if_neg (by omega)]
    · exact hs.pop p hr hc conn

theorem QueueSpec.onSlot (hs : QueueSpec h pc) (hop : op.Inner) :
    QueueSpec (h ++ op.slotCalls p cache pc) (op.onSlot p cache pc) := by
  cases op with
  | connected | disconnected => exact hop.elim
  | enqueue conn data => exact hs.enqueue p conn data
  | replay conn nonce => exact hs.replay p conn nonce
  | stage conn => exact hs.stage p conn
  | park | register | setQs =>
    simp only [GattOp.slotCalls, List.append_nil]
    exact hs.quiet rfl rfl

theorem slotCalls_conn (h : call ∈ op.slotCalls p cache pc) :
    call.conn = op.target ∧ ∀ c, call ≠ .ref c ∧ call ≠ .unref c := by
  cases op with
  | enqueue conn data =>
    simp only [GattOp.slotCalls] at h
    repeat' split at h
    all_goals simp only [List.mem_cons, List.not_mem_nil, or_false] at h
    · subst h
      exact ⟨rfl, by simp⟩
    · subst h
      exact ⟨rfl, by simp⟩
    · rcases h with rfl | rfl <;> exact ⟨rfl, by simp⟩
  | replay conn nonce =>
    simp only [GattOp.slotCalls] at h
    split at h
    · cases h
    · simp only [List.mem_cons, List.not_mem_nil, or_false] at h
      rcases h with rfl | rfl <;> exact ⟨rfl, by simp⟩
  | stage conn =>
    obtain rfl := List.mem_singleton.mp h
    exact ⟨rfl, by simp⟩
  | connected | disconnected | park | register | setQs => cases h

theorem queueSpec_clear (pc : ProxyConn κ) (conn : Option κ) : QueueSpec [] (pc.clear conn) :=
  ⟨Ring.Wf.reset _, fun _ h => (nomatch h), rfl, rfl⟩

def ProxyConn.runCalls (cache : ConfigCache) (pc : ProxyConn κ) : List (GattOp κ) → List (GattCall κ)
  | [] => []
  | op :: ops => op.slotCalls p cache pc ++ runCalls cache (op.onSlot p cache pc) ops

theorem QueueSpec.run (hs : QueueSpec h pc) (hops : ∀ op ∈ ops, op.Inner) :
    QueueSpec (h ++ pc.runCalls p cache ops) (pc.run p cache ops) := by
  induction ops generalizing h pc with
  | nil => simpa [ProxyConn.runCalls, ProxyConn.run] using hs
  | cons op ops ih =>
    have hone : QueueSpec (h ++ op.slotCalls p cache pc) (op.onSlot p cache pc) :=
      hs.onSlot p (hops op List.mem_cons_self)
    have hrest := ih hone fun op' hop' => hops op' (List.mem_cons_of_mem _ hop')
    rwa [List.append_assoc] at hrest

-- ---------------------------------------------------------------------------
-- The log of the table
-- ---------------------------------------------------------------------------

theorem onConnected_calls (g : BleGatt κ) (conn : κ) :
    ∃ tail, (onConnected g conn 0).calls =
      (if (freeIndex g).isSome then g.calls ++ [.ref conn] else g.calls) ++ tail ∧
      ∀ call ∈ tail, call = .advStart ∨ (call = .disconnect conn ∧ freeIndex g = none) := by
  unfold onConnected allocSlot
  cases freeIndex g with
  | none => exact ⟨[.disconnect conn], by simp [BleGatt.log], by simp⟩
  | some i =>
    simp only [Option.map_some, ne_eq, not_true_eq_false, ↓reduceIte, Option.isSome_some]
    split
    · exact ⟨[.advStart], rfl, by simp⟩
    · exact ⟨[], by simp [BleGatt.log, BleGatt.setSlot], by simp⟩

variable [DecidableEq κ]

/-- The entries about `conn` since its last `bt_conn_ref`. -/
def sinceConnect (conn : κ) (calls : List (GattCall κ)) : List (GattCall κ) :=
  calls.foldl (fun h call =>
    match call with
    | .ref c => if c = conn then [] else h
    | call => if call.conn = some conn then h ++ [call] else h) []

variable {g : BleGatt κ}

theorem sinceConnect_append (conn : κ) (calls : List (GattCall κ))
    (hnew : ∀ call ∈ new, ∀ c, call ≠ GattCall.ref c) :
    sinceConnect conn (calls ++ new) =
      sinceConnect conn calls ++ new.filter fun call => call.conn = some conn := by
  unfold sinceConnect
  rw [List.foldl_append]
  generalize calls.foldl _ [] = h
  induction new generalizing h with
  | nil => simp
  | cons call new ih =>
    have hrest : ∀ call ∈ new, ∀ c, call ≠ GattCall.ref c :=
      fun call' hc => hnew call' (List.mem_cons_of_mem _ hc)
    rw [List.foldl_cons, ih hrest, List.filter_cons]
    cases call with
    | ref c => exact absurd rfl (hnew _ List.mem_cons_self c)
    | _ => simp only [decide_eq_true_eq]; split <;> simp

theorem sinceConnect_ref (conn c : κ) (calls : List (GattCall κ)) :
    sinceConnect conn (calls ++ [.ref c]) = if c = conn then [] else sinceConnect conn calls := by
  simp [sinceConnect]

theorem apply_calls (cache : ConfigCache) (g : BleGatt κ) (hop : op.Inner) :
    (∃ conn i, op.target = some conn ∧ findSlot g conn = some i ∧
      (op.apply p cache g).calls = g.calls ++ op.slotCalls p cache (g.conns i)) ∨
    ((∀ conn, op.target = some conn → findSlot g conn = none) ∧
      ∃ calls, (op.apply p cache g).calls = g.calls ++ calls ∧
        ∀ call ∈ calls, call.conn = op.target ∧
          ∀ c, call ≠ .ref c ∧ call ≠ .unref c ∧ ∀ n, call ≠ .notify c n) := by
  cases op with
  | connected | disconnected => exact hop.elim
  | enqueue conn data =>
    simp only [GattOp.apply, GattOp.target, bleGattEnqueueFromradio, GattOp.slotCalls]
    cases hf : findSlot g conn with
    | none =>
      refine .inr ⟨by rintro _ ⟨⟩; exact hf, ?_⟩
      split
      · exact ⟨_, rfl, by simp [GattCall.conn]⟩
      · exact ⟨_, rfl, by simp [GattCall.conn]⟩
    | some i =>
      refine .inl ⟨conn, i, rfl, hf, ?_⟩
      simp only
      repeat' split
      all_goals rfl
  | replay conn nonce =>
    simp only [GattOp.apply, GattOp.target, bleGattReplayCachedBurst, GattOp.slotCalls]
    cases hf : findSlot g conn with
    | none => exact .inr ⟨by rintro _ ⟨⟩; exact hf, [], by simp, by simp⟩
    | some i =>
      refine .inl ⟨conn, i, rfl, hf, ?_⟩
      simp only [ProxyConn.replay]
      generalize protoEncodeConfigComplete p ((g.conns i).takeNonce nonce).nonce ccFrameSize = enc
      obtain ⟨_, _ | _⟩ := enc
      · simp [BleGatt.setSlot]
      · rfl
  | park conn nonce =>
    simp only [GattOp.apply, GattOp.target, parkSlot, GattOp.slotCalls]
    cases hf : findSlot g conn with
    | none => exact .inr ⟨by rintro _ ⟨⟩; exact hf, [], by simp, by simp⟩
    | some i => exact .inl ⟨conn, i, rfl, hf, by simp [BleGatt.setSlot]⟩
  | register conn id =>
    simp only [GattOp.apply, GattOp.target, bleGattRegisterProxyId, GattOp.slotCalls]
    cases hf : findSlot g conn with
    | none => exact .inr ⟨by rintro _ ⟨⟩; exact hf, [], by simp, by simp⟩
    | some i => exact .inl ⟨conn, i, rfl, hf, by simp [BleGatt.setSlot]⟩
  | stage conn =>
    simp only [GattOp.apply, GattOp.target, fromradioRead, GattOp.slotCalls]
    cases hf : findSlot g conn with
    | none => exact .inr ⟨by rintro _ ⟨⟩; exact hf, [], by simp, by simp⟩
    | some i => exact .inl ⟨conn, i, rfl, hf, rfl⟩
  | setQs qs qsLen => exact .inr ⟨by simp [GattOp.target], [], by simp [GattOp.apply], by simp⟩

theorem sinceConnect_apply (hop : op.Inner) (hpc : slotOf g conn = some pc) :
    sinceConnect conn (op.apply p cache g).calls =
      sinceConnect conn g.calls ++ if op.target = some conn then op.slotCalls p cache pc else [] := by
  rcases apply_calls p cache g hop with ⟨c, i, ht, hi, h⟩ | ⟨hnone, calls, h, hcalls⟩
  · rw [h, sinceConnect_append conn _ fun call hc c => ((slotCalls_conn p hc).2 c).1, ht]
    congr 1
    by_cases hcc : c = conn
    · subst hcc
      have hpc' : g.conns i = pc := by simpa [slotOf, hi] using hpc
      rw [if_pos rfl, hpc', List.filter_eq_self]
      intro call hc
      simp [(slotCalls_conn p hc).1, ht]
    · rw [if_neg (by simpa using hcc), List.filter_eq_nil_iff]
      intro call hc
      simp [(slotCalls_conn p hc).1, ht, hcc]
  · have htn : op.target ≠ some conn := by
      intro ht
      rw [slotOf_eq_none.mpr (hnone conn ht)] at hpc
      cases hpc
    rw [h, sinceConnect_append conn _ fun call hc c => ((hcalls call hc).2 c).1,
      if_neg htn]
    congr 1
    rw [List.filter_eq_nil_iff]
    intro call hc
    simp [(hcalls call hc).1, htn]

theorem sinceConnect_applyOps (hd : Distinct g) (hops : ∀ op ∈ ops, op.Inner)
    (hpc : slotOf g conn = some pc) :
    sinceConnect conn (applyOps p cache g ops).calls =
      sinceConnect conn g.calls ++ pc.runCalls p cache (opsFor conn ops) := by
  induction ops generalizing g pc with
  | nil => simp [applyOps, opsFor, ProxyConn.runCalls]
  | cons op ops ih =>
    have hop := hops op List.mem_cons_self
    have hrest : ∀ op ∈ ops, op.Inner := fun op' hop' => hops op' (List.mem_cons_of_mem _ hop')
    have hcons : applyOps p cache g (op :: ops) = applyOps p cache (op.apply p cache g) ops := rfl
    have hslot : slotOf (op.apply p cache g) conn = _ := slotOf_apply_inner p hd hop conn
    rw [hcons]
    by_cases ht : op.target = some conn
    · rw [if_pos ht, hpc] at hslot
      rw [ih (hd.apply_inner p hop) hrest hslot, sinceConnect_apply p hop hpc, if_pos ht,
        List.append_assoc]
      simp [opsFor, ht, ProxyConn.runCalls]
    · rw [if_neg ht, hpc] at hslot
      rw [ih (hd.apply_inner p hop) hrest hslot, sinceConnect_apply p hop hpc, if_neg ht,
        List.append_nil]
      simp [opsFor, ht]

variable {s : Proxy κ} {e : Event κ}

theorem sinceConnect_step (hd : Distinct s.gatt) (hl : ¬ e.IsLink) (hpc : slotOf s.gatt conn = some pc) :
    sinceConnect conn (s.step p e).1.gatt.calls =
      sinceConnect conn s.gatt.calls ++ pc.runCalls p s.cache (opsFor conn (gattOps p s e)) := by
  rw [step_gatt]
  exact sinceConnect_applyOps p hd (fun op hop => (gattOps_stepOp p s e hl hop).inner) hpc

theorem onDisconnected_calls (g : BleGatt κ) (conn : κ) :
    ∃ tail, (onDisconnected g conn).calls = g.calls ++ tail ∧
      ∀ call ∈ tail, call = .advStart ∨ call = .unref conn := by
  unfold onDisconnected
  cases hf : findSlot g conn with
  | none => exact ⟨[.advStart], rfl, by simp⟩
  | some i =>
    refine ⟨[.unref conn, .advStart], ?_, by simp⟩
    simp [freeSlot, findSlot_conn hf, bleGattStartAdvertising, BleGatt.log, BleGatt.setSlot]

theorem sinceConnect_skip (hskip : ∀ call ∈ tail, (∀ c, call ≠ GattCall.ref c) ∧ call.conn ≠ some conn)
    (calls : List (GattCall κ)) : sinceConnect conn (calls ++ tail) = sinceConnect conn calls := by
  rw [sinceConnect_append conn calls fun call hc => (hskip call hc).1]
  have hnil : (tail.filter fun call => call.conn = some conn) = [] := by
    rw [List.filter_eq_nil_iff]
    intro call hc
    simpa using (hskip call hc).2
  rw [hnil, List.append_nil]

theorem sinceConnect_link (hd : Distinct s.gatt) (he : s.Enabled e) (hl : e.IsLink)
    (hpc : (slotOf s.gatt conn).isSome) (hpc' : (slotOf (s.step p e).1.gatt conn).isSome) :
    sinceConnect conn (s.step p e).1.gatt.calls = sinceConnect conn s.gatt.calls := by
  cases e with
  | connected c err =>
    by_cases h0 : err = 0
    · subst h0
      have hc : c ≠ conn := by
        rintro rfl
        rw [slotOf_eq_none.mpr (he rfl)] at hpc
        cases hpc
      obtain ⟨tail, hcalls, htail⟩ := onConnected_calls s.gatt c
      simp only [Proxy.step]
      rw [hcalls, sinceConnect_skip]
      · split
        · rw [sinceConnect_ref, if_neg hc]
        · rfl
      · intro call hcall
        rcases htail call hcall with rfl | ⟨rfl, -⟩
        · exact ⟨by simp, by simp [GattCall.conn]⟩
        · exact ⟨by simp, fun h => hc (Option.some.inj h)⟩
    · simp [Proxy.step, onConnected, h0]
  | disconnected c =>
    have hc : c ≠ conn := by
      rintro rfl
      simp [Proxy.step, slotOf_onDisconnected hd] at hpc'
    obtain ⟨tail, hcalls, htail⟩ := onDisconnected_calls s.gatt c
    simp only [Proxy.step]
    rw [hcalls, sinceConnect_skip]
    intro call hcall
    rcases htail call hcall with rfl | rfl
    · exact ⟨by simp, by simp [GattCall.conn]⟩
    · exact ⟨by simp, fun h => hc (Option.some.inj h)⟩
  | _ => exact hl.elim

theorem sinceConnect_connected (hf : (freeIndex s.gatt).isSome) (conn : κ) :
    sinceConnect conn (s.step p (.connected conn 0)).1.gatt.calls = [] := by
  obtain ⟨tail, hcalls, htail⟩ := onConnected_calls s.gatt conn
  simp only [Proxy.step]
  rw [hcalls, if_pos hf, sinceConnect_skip, sinceConnect_ref, if_pos rfl]
  intro call hcall
  rcases htail call hcall with rfl | ⟨-, hnone⟩
  · exact ⟨by simp, by simp [GattCall.conn]⟩
  · simp [hnone] at hf

-- ---------------------------------------------------------------------------
-- Every run
-- ---------------------------------------------------------------------------

def Recorded (g : BleGatt κ) : Prop :=
  ∀ conn pc, slotOf g conn = some pc → QueueSpec (sinceConnect conn g.calls) pc

theorem step_recorded (hd : Distinct s.gatt) (he : s.Enabled e) (h : Recorded s.gatt) :
    Recorded (s.step p e).1.gatt := by
  intro conn pc' hpc'
  rcases slotOf_step_cases p hd he hpc' with ⟨hsame, hl⟩ | ⟨i, rfl, hi, rfl⟩ | ⟨pc, hpc, hl, rfl⟩
  · rw [sinceConnect_link p hd he hl (by simp [hsame]) (by simp [hpc'])]
    exact h conn pc' hsame
  · rw [sinceConnect_connected p (by simp [hi])]
    exact queueSpec_clear _ _
  · rw [sinceConnect_step p hd hl hpc]
    exact (h conn pc hpc).run p fun op hop => (gattOps_stepOp p s e hl (mem_opsFor.mp hop).1).inner

theorem recorded_reachable (hr : s.Reachable p) : Recorded s.gatt := by
  refine reachable_invariant p (J := fun s => Recorded s.gatt) hr ?_ ?_
  · intro conn pc hpc
    rw [slotOf_boot] at hpc
    cases hpc
  · exact fun _ _ he hinv h => step_recorded p hinv.distinct he h

theorem enqueue_rejected (g : BleGatt κ) (conn : κ) (data : List UInt8) (err : Errno)
    (h : (bleGattEnqueueFromradio g conn data).2 = .error err) :
    (bleGattEnqueueFromradio g conn data).1.conns = g.conns := by
  unfold bleGattEnqueueFromradio at h ⊢
  split
  · rfl
  · rename_i hl
    rw [if_neg hl] at h
    cases hf : findSlot g conn with
    | none => rfl
    | some i =>
      simp only [hf] at h ⊢
      split
      · rfl
      · rename_i hc
        rw [if_neg hc] at h
        cases h

end MeshProxy

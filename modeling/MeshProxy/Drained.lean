import MeshProxy.Replay

/-!
# What an empty reply means

A phone stops reading at the first empty reply. `empty_means_drained_iff`
says when that is safe: always, except on the read that ends a replay while
packets wait in the queue.
-/

namespace MeshProxy

variable {κ : Type} (p : Platform)

structure Filled (pc : ProxyConn κ) : Prop where
  ring : pc.queue.Wf
  entry : ∀ e ∈ pc.queue.toList, 1 ≤ e.len
  ccLen : pc.state = .replaying → 1 ≤ pc.ccLen

variable {pc : ProxyConn κ} {cache : ConfigCache}

theorem Filled.clear (pc : ProxyConn κ) (conn : Option κ) : Filled (pc.clear conn) :=
  ⟨Ring.Wf.reset _, fun _ h => (nomatch h), fun h => (nomatch h)⟩

theorem Filled.enqueue (h : Filled pc) (hd : data ≠ []) : Filled (pc.enqueue data) := by
  unfold ProxyConn.enqueue
  split
  · rename_i hc
    refine ⟨h.ring.put hc.2, fun e he => ?_, h.ccLen⟩
    simp only [ProxyConn.push, Ring.toList_put h.ring hc.2, List.mem_append, List.mem_singleton] at he
    rcases he with he | rfl
    · exact h.entry e he
    · exact List.length_pos_iff.mpr hd
  · exact h

theorem terminator_pos (hne : p.NonemptyMessages)
    (hok : (protoEncodeConfigComplete p nonce ccFrameSize).2 = .ok n) : 1 ≤ (terminator p nonce).length := by
  obtain ⟨-, hn, hw⟩ := protoEncode_ok hok
  have hne := hne.configComplete nonce
  have hlen : n = (terminator p nonce).length := by
    rw [hn, ← hw]
    rfl
  have hn0 : n ≠ 0 := by
    rintro rfl
    exact hne hok
  omega

theorem Filled.replay (h : Filled pc) (hne : p.NonemptyMessages) (nonce : UInt32) :
    Filled (pc.replay p nonce) := by
  have ht : Filled (pc.takeNonce nonce) := by
    rw [takeNonce_eq]
    exact ⟨h.ring, h.entry, h.ccLen⟩
  have hstep := replay_step p pc nonce
  generalize pc.replay p nonce = pc' at hstep ⊢
  cases hstep with
  | armed hok =>
    obtain ⟨n, hok⟩ := hok
    refine ⟨ht.ring, ht.entry, fun _ => ?_⟩
    have hpos := terminator_pos p hne hok
    have hle := terminator_le p (pc.takeNonce nonce).nonce
    have hmod : (terminator p (pc.takeNonce nonce).nonce).length % 256 =
        (terminator p (pc.takeNonce nonce).nonce).length :=
      Nat.mod_eq_of_lt (Nat.lt_of_le_of_lt hle (by decide))
    simp only [ProxyConn.arm, hmod]
    exact hpos
  | failed => exact ⟨ht.ring, ht.entry, ht.ccLen⟩

theorem Filled.stageNext (h : Filled pc) : Filled (pc.stageNext cache) := by
  by_cases hs : pc.state = .replaying
  · refine ⟨?_, ?_, fun _ => ?_⟩
    · rw [stageNext_queue cache hs]
      exact h.ring
    · rw [stageNext_queue cache hs]
      exact h.entry
    · rw [(stageNext_cc cache pc).2]
      exact h.ccLen hs
  · rw [ProxyConn.stageNext, if_neg hs]
    split
    · rename_i hc
      refine ⟨h.ring.pop hc, fun e he => h.entry e ?_, fun hr => absurd hr hs⟩
      rw [Ring.toList_pop _ hc]
      exact List.mem_cons_of_mem _ he
    · exact ⟨h.ring, h.entry, fun hr => absurd hr hs⟩

theorem serveStaged_eq (pc : ProxyConn κ) (hle : offset ≤ pc.stagedBytes.length) :
    pc.serveStaged p len offset = .ok ((pc.stagedBytes.drop offset).take len) := by
  unfold ProxyConn.serveStaged
  split
  · exact p.attrRead_eq len offset _ hle
  · rename_i hnone
    have hnil : pc.stagedBytes = [] :=
      List.length_eq_zero_iff.mp (by rw [ProxyConn.stagedBytes, Cells.length_slice]; omega)
    simp [hnil]

theorem serveStaged_nil (pc : ProxyConn κ) (hlen : 0 < len) :
    pc.serveStaged p len 0 = .ok [] ↔ pc.stagedLen = 0 := by
  rw [serveStaged_eq p pc (Nat.zero_le _), List.drop_zero, Except.ok.injEq, List.take_eq_nil_iff,
    ← List.length_eq_zero_iff, ProxyConn.stagedBytes, Cells.length_slice]
  omega

variable [DecidableEq κ] {s : Proxy κ}

theorem step_filled (hne : p.NonemptyMessages) (hd : Distinct s.gatt) (he : s.Enabled e)
    (h : EachSlot Filled s.gatt) : EachSlot Filled (s.step p e).1.gatt := by
  refine eachSlot_step p hd he (fun pc conn => .clear pc _) ?_ h
  intro op hop pc hpc
  cases hop with
  | read => exact hpc.stageNext
  | register | setQs => exact ⟨hpc.ring, hpc.entry, hpc.ccLen⟩
  | heartbeat _ _ pkt _ hpkt => exact hpc.enqueue fun hnil => hne.queueStatus (hpkt hnil)
  | frame _ payload =>
    refine hpc.enqueue fun hnil => ?_
    have hlen := he.1
    simp [hnil] at hlen
  | replayed _ _ nonce => exact hpc.replay p hne nonce
  | parkedReady | serve => exact hpc.replay p hne 0
  | parked _ _ nonce => exact ⟨hpc.ring, hpc.entry, fun hr => (nomatch hr)⟩

theorem filled_reachable (hne : p.NonemptyMessages) (hr : s.Reachable p) : EachSlot Filled s.gatt :=
  reachable_invariant p (J := fun s => EachSlot Filled s.gatt) hr (eachSlot_boot _)
    fun _ _ he hinv h => step_filled p hne hinv.distinct he h

theorem freshRead_step (hd : Distinct s.gatt) (hpc : slotOf s.gatt conn = some pc) (len : Nat) :
    slotOf (s.step p (.fromradioRead conn len 0)).1.gatt conn = some (pc.stageNext s.cache) ∧
      (s.step p (.fromradioRead conn len 0)).2 =
        .read ((pc.stageNext s.cache).serveStaged p len 0) := by
  constructor
  · rw [slotOf_step p (e := .fromradioRead conn len 0) hd (fun h => h), hpc, opsFor_freshRead]
    rfl
  · obtain ⟨i, hi, rfl⟩ := Option.map_eq_some_iff.mp hpc
    simp [Proxy.step, fromradioRead, hi]

def NothingLeft (g : BleGatt κ) (conn : κ) : Prop :=
  ∀ pc, slotOf g conn = some pc → pc.queue.count = 0 ∧ pc.state ≠ .replaying

/-- A fresh read that is answered with nothing leaves nothing behind. -/
def EmptyMeansDrained (s : Proxy κ) (conn : κ) (len : Nat) : Prop :=
  ((proxyMachine p κ).step s (.fromradioRead conn len 0)).2 = .read (.ok []) →
    NothingLeft ((proxyMachine p κ).step s (.fromradioRead conn len 0)).1.gatt conn

theorem emptyMeansDrained_iff_slot (hd : Distinct s.gatt) (hpc : slotOf s.gatt conn = some pc)
    (hlen : 0 < len) :
    EmptyMeansDrained p s conn len ↔
      ((pc.stageNext s.cache).stagedLen = 0 →
        (pc.stageNext s.cache).queue.count = 0 ∧ (pc.stageNext s.cache).state ≠ .replaying) := by
  obtain ⟨hslot, hreply⟩ := freshRead_step p hd hpc len
  have hstep : (proxyMachine p κ).step s (.fromradioRead conn len 0) =
      s.step p (.fromradioRead conn len 0) := rfl
  simp only [EmptyMeansDrained, NothingLeft, hstep, hreply, hslot, Reply.read.injEq,
    serveStaged_nil p _ hlen, Option.some.injEq, forall_eq']

/-- An empty reply means that nothing is left, except on the read that ends a
replay while packets are queued. -/
theorem empty_means_drained_iff (hne : p.NonemptyMessages) (hr : s.Reachable p)
    (hpc : slotOf s.gatt conn = some pc) (hlen : 0 < len) :
    EmptyMeansDrained p s conn len ↔
      ¬ (pc.state = .replaying ∧ pc.replayCursor = s.cache.count + 1 ∧ 0 < pc.queue.count) := by
  have hinv := inv_reachable p hr
  have hfilled := filled_reachable p hne hr conn pc hpc
  rw [emptyMeansDrained_iff_slot p hinv.distinct hpc hlen]
  have hstep := stageNext_step hinv.cacheWf.count_le (hinv.slots conn pc hpc).cursor
  generalize pc.stageNext s.cache = pc' at hstep
  cases hstep with
  | frame i hs hi hseg =>
    have hpos : 1 ≤ (s.cache.frame i).bytes.length := by
      rw [ConfigCache.frame, cacheFrameBytes, Cells.length_slice]
      exact (hinv.sized i hi).1
    have hne : segment s.cache pc.nonce pc.replayCursor ≠ [] := by simp [hseg]
    have hcur := segment_ne_nil hne
    exact iff_of_true (fun h0 => absurd h0 (Nat.ne_of_gt hpos)) (fun h => by omega)
  | terminator hs hc hseg =>
    have hpos : 1 ≤ (pc.ccFrame.slice 0 pc.ccLen).length := by
      rw [Cells.length_slice]
      exact hfilled.ccLen hs
    exact iff_of_true (fun h0 => absurd h0 (Nat.ne_of_gt hpos)) (fun h => by omega)
  | drained hs hc =>
    constructor
    · intro h hbad
      exact absurd (h rfl).1 (Nat.ne_of_gt hbad.2.2)
    · intro h _
      exact ⟨Nat.eq_zero_of_not_pos fun hpos => h ⟨hs, hc, hpos⟩, by simp⟩
  | packet hs hc =>
    have hpos : 1 ≤ pc.queue.front.bytes.length := by
      rw [PktEntry.bytes, Cells.length_slice]
      apply hfilled.entry
      rw [Ring.toList_pop _ hc]
      exact List.mem_cons_self
    exact iff_of_true (fun h0 => absurd h0 (Nat.ne_of_gt hpos)) (fun h => hs h.1)
  | empty hs hc => exact iff_of_true (fun _ => ⟨hc, hs⟩) (fun h => hs h.1)

def midReplay : List (Event Nat) :=
  liveRun ++ [.toradioWrite 1 [0x18, 5] 0, .fromradioRead 1 64 0, .uartFrame [0x12, 0]]

theorem empty_means_drained_midReplay :
    EmptyMeansDrained (wirePlatform 9) ((proxyMachine (wirePlatform 9) Nat).exec .boot midReplay) 1 64 := by
  have hpc : slotOf ((proxyMachine (wirePlatform 9) Nat).exec .boot midReplay).gatt 1 =
      some (((proxyMachine (wirePlatform 9) Nat).exec .boot midReplay).gatt.conns 0) := rfl
  have hiff := empty_means_drained_iff (wirePlatform 9) (wire_nonemptyMessages 9)
    ⟨midReplay, by decide, rfl⟩ hpc (by decide : 0 < 64)
  exact hiff.mpr (by decide)

/-- A packet arrives while the phone drains its replay; the next fresh read ends
the replay. -/
def strandedRun : List (Event Nat) :=
  liveRun ++ [.toradioWrite 1 [0x18, 5] 0, .fromradioRead 1 64 0, .uartFrame [0x12, 0],
    .fromradioRead 1 64 0]

theorem not_empty_means_drained :
    ∃ s : Proxy Nat, s.Reachable (wirePlatform 9) ∧ (slotOf s.gatt 1).isSome ∧
      ¬ EmptyMeansDrained (wirePlatform 9) s 1 64 := by
  refine ⟨(proxyMachine (wirePlatform 9) Nat).exec .boot strandedRun, ⟨strandedRun, by decide, rfl⟩,
    by decide, fun h => ?_⟩
  have hleft := h rfl _ rfl
  exact absurd hleft.1 (by decide)

end MeshProxy

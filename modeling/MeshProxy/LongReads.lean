import MeshProxy.Drained

/-!
# Reading one packet in several reads

A packet can be longer than what one read returns. The phone reads on at
growing offsets, and between its reads the queue, the replay and the cache may
change. A fresh read copies the packet into the slot's staging buffer, and only
a disconnect or the next fresh read changes that copy (`step_hasStaged`), so the
pieces make up the packet (`long_reads_reassemble`).
-/

namespace MeshProxy

variable {κ : Type} (p : Platform)

-- ---------------------------------------------------------------------------
-- The packet a fresh read stages
-- ---------------------------------------------------------------------------

/-- What the next fresh read of the slot takes: the next packet of its replay,
else the oldest one queued; nothing when there is none. -/
def nextPacket (cache : ConfigCache) (pc : ProxyConn κ) : List UInt8 :=
  if pc.state = .replaying then (script cache pc).headD [] else pc.packets.headD []

def CcFits (pc : ProxyConn κ) : Prop := pc.state = .replaying → pc.ccLen ≤ ccFrameSize

variable {pc : ProxyConn κ} {cache : ConfigCache}

theorem stageNext_bytes (hi : SlotInv cache pc) (hw : cache.Wf) (hz : cache.Sized) (hcc : CcFits pc) :
    (pc.stageNext cache).stagedBytes = nextPacket cache pc := by
  unfold nextPacket
  by_cases hs : pc.state = .replaying
  · rw [if_pos hs]
    rcases stageNext_script hs hi hw hz (hcc hs) with ⟨-, hscript⟩ | ⟨-, hb, hscript⟩
    · rw [hscript]
      rfl
    · rw [hscript, hb]
      rfl
  · rw [if_neg hs]
    have hstep := stageNext_step hw.count_le hi.cursor
    generalize pc.stageNext cache = pc' at hstep ⊢
    cases hstep with
    | frame _ hr | terminator hr | drained hr => exact absurd hr hs
    | packet _ hc =>
      have hlen : pc.queue.front.bytes.length ≤ fromradioMaxPktSize := by
        rw [PktEntry.bytes, Cells.length_slice]
        exact hi.entry_le _ (by rw [Ring.toList_pop _ hc]; exact List.mem_cons_self)
      rw [pop_packets hc]
      exact stage_bytes hlen
    | empty _ hc =>
      have hnil : pc.packets = [] := List.length_eq_zero_iff.mp (by simp [ProxyConn.packets, hc])
      rw [hnil]
      rfl

theorem CcFits.replay (h : CcFits pc) (nonce : UInt32) : CcFits (pc.replay p nonce) := by
  have hstep := replay_step p pc nonce
  generalize pc.replay p nonce = pc' at hstep ⊢
  cases hstep with
  | armed =>
    intro _
    exact Nat.le_trans (Nat.mod_le _ _) (terminator_le p _)
  | failed =>
    intro hs
    simp only [takeNonce_state] at hs
    rw [takeNonce_eq]
    exact h hs

theorem CcFits.stageNext (h : CcFits pc) : CcFits (pc.stageNext cache) := by
  intro hs
  rw [(stageNext_cc cache pc).2]
  rcases stageNext_state cache pc with hst | hst
  · exact h (hst ▸ hs)
  · rw [hs] at hst
    cases hst

theorem enqueue_cc (pc : ProxyConn κ) (data : List UInt8) : (pc.enqueue data).ccLen = pc.ccLen := by
  unfold ProxyConn.enqueue
  split <;> rfl

-- ---------------------------------------------------------------------------
-- The staged copy
-- ---------------------------------------------------------------------------

theorem onSlot_staged {op : GattOp κ} (hop : ∀ conn, op ≠ .stage conn) (pc : ProxyConn κ) :
    (op.onSlot p cache pc).stagedBytes = pc.stagedBytes := by
  cases op with
  | enqueue conn data =>
    simp only [GattOp.onSlot, ProxyConn.enqueue]
    split <;> rfl
  | replay conn nonce =>
    have htake : (pc.takeNonce nonce).stagedBytes = pc.stagedBytes := by
      rw [takeNonce_eq]
      rfl
    have hstep := replay_step p pc nonce
    simp only [GattOp.onSlot]
    generalize pc.replay p nonce = pc' at hstep ⊢
    rw [← htake]
    cases hstep with
    | armed => rfl
    | failed => rfl
  | stage conn => exact absurd rfl (hop conn)
  | _ => rfl

section Run

variable [DecidableEq κ] {s : Proxy κ} {e : Event κ} {conn : κ}

def HasStaged (conn : κ) (pkt : List UInt8) (s : Proxy κ) : Prop :=
  ∃ pc, slotOf s.gatt conn = some pc ∧ pc.stagedBytes = pkt

def Event.Restages (conn : κ) : Event κ → Prop
  | .disconnected c => c = conn
  | .fromradioRead c _ offset => c = conn ∧ offset = 0
  | _ => False

theorem step_hasStaged (hinv : Inv s) (he : s.Enabled e) (hk : ¬ e.Restages conn)
    (h : HasStaged conn pkt s) : HasStaged conn pkt (s.step p e).1 := by
  obtain ⟨pc, hpc, hb⟩ := h
  by_cases hl : e.IsLink
  · have hne : e ≠ .disconnected conn := by
      rintro rfl
      exact hk rfl
    exact ⟨pc, slotOf_link p hinv.distinct he hl hne hpc, hb⟩
  · refine ⟨_, by rw [slotOf_step p hinv.distinct hl, hpc]; rfl, ?_⟩
    refine run_invariant p (I := fun pc => pc.stagedBytes = pkt) ?_ hb
    intro op hop pc' hpc'
    obtain ⟨hmem, htarget⟩ := mem_opsFor.mp hop
    have hstep := gattOps_stepOp p s e hl hmem
    rw [onSlot_staged p ?_, hpc']
    rintro c rfl
    cases hstep with
    | read c len => exact hk ⟨Option.some.inj htarget, rfl⟩

theorem read_hasStaged (h : HasStaged conn pkt s) (hpos : offset ≠ 0) (hle : offset ≤ pkt.length)
    (len : Nat) :
    (s.step p (.fromradioRead conn len offset)).2 = .read (.ok ((pkt.drop offset).take len)) := by
  obtain ⟨pc, hpc, rfl⟩ := h
  obtain ⟨i, hi, rfl⟩ := Option.map_eq_some_iff.mp hpc
  simp [Proxy.step, fromradioRead, hi, hpos, serveStaged_eq p _ hle]

-- ---------------------------------------------------------------------------
-- The reads of a phone
-- ---------------------------------------------------------------------------

/-- Length and offset of the FROMRADIO reads of `conn`. -/
def longReads (conn : κ) (es : List (Event κ)) : List (Nat × Nat) :=
  es.filterMap fun
    | .fromradioRead c len offset => if c = conn then some (len, offset) else none
    | _ => none

def readResults (conn : κ) (s : Proxy κ) (e : Event κ) : List (Except AttError (List UInt8)) :=
  match e, (s.step p e).2 with
  | .fromradioRead c _ _, .read result => if c = conn then [result] else []
  | _, _ => []

theorem longReads_own (conn : κ) (len offset : Nat) (es : List (Event κ)) :
    longReads conn (.fromradioRead conn len offset :: es) = (len, offset) :: longReads conn es := by
  simp [longReads]

theorem reads_other (he : ∀ len offset, e ≠ .fromradioRead conn len offset) (s : Proxy κ)
    (es : List (Event κ)) :
    longReads conn (e :: es) = longReads conn es ∧ readResults p conn s e = [] := by
  cases e with
  | fromradioRead c len offset =>
    have hc : c ≠ conn := by
      rintro rfl
      exact he len offset rfl
    simp [longReads, readResults, Proxy.step, hc]
  | _ => exact ⟨rfl, rfl⟩

theorem exec_reads (hinv : Inv s) (h : HasStaged conn pkt s) (ha : (proxyMachine p κ).Admits s es)
    (hkeep : ∀ e ∈ es, ¬ e.Restages conn) (hoff : ∀ r ∈ longReads conn es, r.2 ≤ pkt.length) :
    (proxyMachine p κ).collect (readResults p conn) s es =
      (longReads conn es).map fun r => .ok ((pkt.drop r.2).take r.1) := by
  induction es generalizing s with
  | nil => rfl
  | cons e es ih =>
    have hk := hkeep e List.mem_cons_self
    have htail (hrest : ∀ r ∈ longReads conn es, r.2 ≤ pkt.length) :=
      ih (s := (s.step p e).1) (step_inv p hinv ha.1) (step_hasStaged p hinv ha.1 hk h) ha.2
        (fun e' he' => hkeep e' (List.mem_cons_of_mem _ he')) hrest
    rw [Machine.collect_cons]
    by_cases hown : ∃ len offset, e = .fromradioRead conn len offset
    · obtain ⟨len, offset, rfl⟩ := hown
      rw [longReads_own] at hoff ⊢
      have hread := read_hasStaged p h (fun h0 => hk ⟨rfl, h0⟩) (hoff _ List.mem_cons_self) len
      have hresult : readResults p conn s (.fromradioRead conn len offset) =
          [.ok ((pkt.drop offset).take len)] := by
        simp [readResults, hread]
      rw [hresult, List.map_cons, ← htail fun r hr => hoff r (List.mem_cons_of_mem _ hr)]
      rfl
    · have hother : ∀ len offset, e ≠ .fromradioRead conn len offset :=
        fun len offset he => hown ⟨len, offset, he⟩
      obtain ⟨hreads, hnone⟩ := reads_other p hother s es
      rw [hreads] at hoff ⊢
      rw [hnone, List.nil_append]
      exact htail hoff

theorem step_ccFits (hd : Distinct s.gatt) (he : s.Enabled e) (h : EachSlot CcFits s.gatt) :
    EachSlot CcFits (s.step p e).1.gatt := by
  refine eachSlot_step p hd he (fun pc conn hs => by cases hs) ?_ h
  intro op hop pc hpc
  cases hop with
  | read => exact hpc.stageNext
  | register | setQs => exact hpc
  | heartbeat _ _ pkt | frame _ pkt =>
    intro hs
    simp only [GattOp.onSlot] at hs ⊢
    rw [enqueue_state] at hs
    rw [enqueue_cc]
    exact hpc hs
  | replayed _ _ nonce => exact hpc.replay p nonce
  | parkedReady | serve => exact hpc.replay p 0
  | parked =>
    intro hs
    cases hs

theorem ccFits_reachable (hr : s.Reachable p) : EachSlot CcFits s.gatt :=
  reachable_invariant p (J := fun s => EachSlot CcFits s.gatt) hr (eachSlot_boot _)
    fun _ _ he hinv h => step_ccFits p hinv.distinct he h

theorem freshRead_hasStaged (hr : s.Reachable p) (hpc : slotOf s.gatt conn = some pc) (len : Nat) :
    HasStaged conn (nextPacket s.cache pc) (s.step p (.fromradioRead conn len 0)).1 ∧
      readResults p conn s (.fromradioRead conn len 0) =
        [.ok ((nextPacket s.cache pc).take len)] := by
  have hinv := inv_reachable p hr
  have hbytes := stageNext_bytes (hinv.slots conn pc hpc) hinv.cacheWf hinv.sized
    (ccFits_reachable p hr conn pc hpc)
  obtain ⟨hslot, hreply⟩ := freshRead_step p hinv.distinct hpc len
  refine ⟨⟨_, hslot, hbytes⟩, ?_⟩
  rw [serveStaged_eq p _ (Nat.zero_le _), hbytes, List.drop_zero] at hreply
  simp [readResults, hreply]

/-- The offsets after 0 at which a packet of `total` bytes is read on in reads
of `m` bytes: `m`, `2 * m` and so on, below `total`. -/
def restOffsets (m total : Nat) : List Nat := (List.range ((total - 1) / m)).map fun k => (k + 1) * m

theorem mem_restOffsets (hm : 1 ≤ m) :
    offset ∈ restOffsets m total ↔ 0 < offset ∧ offset < total ∧ m ∣ offset := by
  simp only [restOffsets, List.mem_map, List.mem_range]
  constructor
  · rintro ⟨k, hk, rfl⟩
    have hle : (k + 1) * m ≤ total - 1 := (Nat.le_div_iff_mul_le hm).mp hk
    have hpos : 0 < (k + 1) * m := Nat.mul_pos (Nat.succ_pos k) hm
    exact ⟨hpos, by omega, Nat.dvd_mul_left _ _⟩
  · rintro ⟨hpos, hlt, k, rfl⟩
    cases k with
    | zero => simp at hpos
    | succ k =>
      refine ⟨k, (Nat.le_div_iff_mul_le hm).mpr ?_, Nat.mul_comm _ _⟩
      rw [Nat.mul_comm] at hlt
      exact Nat.le_sub_one_of_lt hlt

theorem flatten_pieces (l : List α) (m k : Nat) :
    ((List.range k).map fun i => (l.drop (i * m)).take m).flatten = l.take (k * m) := by
  induction k with
  | zero => simp
  | succ k ih =>
    rw [List.range_succ, List.map_append, List.flatten_append, ih, Nat.succ_mul, List.take_add]
    simp

theorem flatten_restOffsets (hm : 1 ≤ m) (l : List α) :
    (l.take m :: (restOffsets m l.length).map fun offset => (l.drop offset).take m).flatten = l := by
  have hpieces : l.take m :: (restOffsets m l.length).map (fun offset => (l.drop offset).take m) =
      (List.range ((l.length - 1) / m + 1)).map fun i => (l.drop (i * m)).take m := by
    rw [List.range_succ_eq_map, restOffsets]
    simp
  rw [hpieces, flatten_pieces]
  apply List.take_of_length_le
  have hcover := Nat.lt_mul_div_succ (l.length - 1) hm
  rw [Nat.mul_comm] at hcover
  omega

/-- A packet that is read in pieces of `m` bytes is the packet that the first
read staged, whatever happens between the reads but a disconnect or another
fresh read of the same phone. -/
theorem long_reads_reassemble (hr : s.Reachable p) (hpc : slotOf s.gatt conn = some pc)
    (hm : 1 ≤ m) (es : List (Event κ))
    (ha : (proxyMachine p κ).Admits s (.fromradioRead conn m 0 :: es))
    (hkeep : ∀ e ∈ es, ¬ e.Restages conn)
    (hreads : longReads conn es =
      (restOffsets m (nextPacket s.cache pc).length).map fun offset => (m, offset)) :
    ∃ pieces : List (List UInt8),
      (proxyMachine p κ).collect (readResults p conn) s (.fromradioRead conn m 0 :: es) =
        pieces.map .ok ∧ pieces.flatten = nextPacket s.cache pc := by
  obtain ⟨hstaged, hfirst⟩ := freshRead_hasStaged p hr hpc m
  have hinv := step_inv p (e := .fromradioRead conn m 0) (inv_reachable p hr) ha.1
  have hoff : ∀ r ∈ longReads conn es, r.2 ≤ (nextPacket s.cache pc).length := by
    intro r hmem
    rw [hreads] at hmem
    obtain ⟨offset, hoffset, rfl⟩ := List.mem_map.mp hmem
    exact Nat.le_of_lt ((mem_restOffsets hm).mp hoffset).2.1
  have hrest := exec_reads p hinv hstaged ha.2 hkeep hoff
  refine ⟨_, ?_, flatten_restOffsets hm (nextPacket s.cache pc)⟩
  rw [Machine.collect_cons, hfirst, List.map_cons, List.map_map]
  rw [hreads, List.map_map] at hrest
  exact congrArg (_ :: ·) hrest

end Run

theorem long_reads_reassemble_rearmed :
    ∃ pieces : List (List UInt8),
      (proxyMachine (wirePlatform 9) Nat).collect (readResults (wirePlatform 9) 1) armedState
        [.fromradioRead 1 1 0, .uartFrame [0x12, 0], .toradioWrite 1 [0x18, 6] 0,
          .fromradioRead 1 1 1] = pieces.map .ok ∧
      pieces.flatten = [0x22, 0] := by
  have hr : armedState.Reachable (wirePlatform 9) := ⟨_, by decide, rfl⟩
  have hpc : slotOf armedState.gatt 1 = some (armedState.gatt.conns 0) := rfl
  have hpkt : nextPacket armedState.cache (armedState.gatt.conns 0) = [0x22, 0] := by decide
  have hkeep : ∀ e ∈ [Event.uartFrame [0x12, 0], .toradioWrite 1 [0x18, 6] 0, .fromradioRead 1 1 1],
      ¬ e.Restages 1 := by
    simp [Event.Restages]
  rw [← hpkt]
  exact long_reads_reassemble (wirePlatform 9) hr hpc (Nat.le_refl 1) _ (by decide) hkeep
    (by rw [hpkt]; decide)

end MeshProxy

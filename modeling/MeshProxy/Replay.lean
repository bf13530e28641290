import MeshProxy.Queue

/-!
# Replaying the cache to a phone

`script` is what the fresh reads of a replaying slot have still to stage: the
rest of its segment, the terminator and an empty packet. A fresh read takes
the head of the script, nothing else touches it, and the packets that arrive
meanwhile stay queued (`Draining`). `replay_drain_exact` is that fact for
whole runs, and `nonce_echo_iff` says when a phone gets the terminator it
asked for.
-/

namespace MeshProxy

variable {κ : Type} (p : Platform)

/-- The packets that fresh reads staged. -/
def readPackets (h : List (GattCall κ)) : List (List UInt8) :=
  h.filterMap fun
    | .staged _ _ _ packet => some packet
    | _ => none

@[simp] theorem readPackets_append (h h' : List (GattCall κ)) :
    readPackets (h ++ h') = readPackets h ++ readPackets h' := List.filterMap_append

/-- What a replay with this nonce serves from the start. -/
def replayScript (cache : ConfigCache) (nonce : UInt32) : List (List UInt8) :=
  ((List.range cache.count).filter fun i => cacheFrameInSegment cache i nonce).map
    (fun i => (cache.frame i).bytes) ++ [terminator p nonce, []]

/-- What a replaying slot has still to serve. -/
def script (cache : ConfigCache) (pc : ProxyConn κ) : List (List UInt8) :=
  if pc.replayCursor ≤ cache.count then
    (segment cache pc.nonce pc.replayCursor).map (fun i => (cache.frame i).bytes) ++
      [pc.ccFrame.slice 0 pc.ccLen, []]
  else [[]]

def Armed (nonce : UInt32) (pc : ProxyConn κ) : Prop :=
  ∃ pc₀ : ProxyConn κ, pc₀.nonce = nonce ∧ pc = pc₀.arm (terminator p nonce)

variable {pc pc' pc₀ : ProxyConn κ} {cache : ConfigCache} {h : List (GattCall κ)}

theorem script_armed (ha : Armed p nonce pc) : script cache pc = replayScript p cache nonce := by
  obtain ⟨pc₀, rfl, rfl⟩ := ha
  have hcursor : (pc₀.arm (terminator p pc₀.nonce)).replayCursor = 0 := rfl
  have hnonce : (pc₀.arm (terminator p pc₀.nonce)).nonce = pc₀.nonce := rfl
  simp only [script, replayScript, hcursor, hnonce, Nat.zero_le, ↓reduceIte, arm_terminator, segment,
    Nat.sub_zero, List.range_eq_range']

theorem segment_ne_nil (hs : segment cache nonce cursor ≠ []) : cursor ≤ cache.count := by
  rcases Nat.le_total cursor cache.count with hle | hle
  · exact hle
  · exact absurd (segment_of_le hle) hs

/-- A fresh read of a replaying slot stages the head of its script; the replay
ends with the script. -/
theorem stageNext_script (hs : pc.state = .replaying) (hi : SlotInv cache pc) (hw : cache.Wf)
    (hz : cache.Sized) (hcc : pc.ccLen ≤ ccFrameSize) :
    ((pc.stageNext cache).state = .replaying ∧
      script cache pc = (pc.stageNext cache).stagedBytes :: script cache (pc.stageNext cache)) ∨
    ((pc.stageNext cache).state = .active ∧ (pc.stageNext cache).stagedBytes = [] ∧
      script cache pc = [[]]) := by
  have hstep := stageNext_step hw.count_le hi.cursor
  generalize pc.stageNext cache = pc' at hstep ⊢
  cases hstep with
  | frame i _ hlt hseg =>
    have hlen : (cache.frame i).bytes.length ≤ fromradioMaxPktSize := by
      rw [ConfigCache.frame, cacheFrameBytes, Cells.length_slice]
      exact (hz i hlt).2
    have hne : segment cache pc.nonce pc.replayCursor ≠ [] := by simp [hseg]
    have hcur := segment_ne_nil hne
    refine .inl ⟨hs, ?_⟩
    rw [script, if_pos hcur, hseg, script, if_pos (Nat.succ_le_of_lt hlt)]
    simp only [List.map_cons, List.cons_append, List.cons.injEq]
    exact ⟨(stage_bytes hlen).symm, rfl⟩
  | terminator _ hcur hseg =>
    have hlen : (pc.ccFrame.slice 0 pc.ccLen).length ≤ fromradioMaxPktSize := by
      rw [Cells.length_slice]
      exact Nat.le_trans hcc (by decide)
    refine .inl ⟨hs, ?_⟩
    rw [script, if_pos hcur, hseg, script, if_neg (by simp)]
    simp only [List.map_nil, List.nil_append, List.cons.injEq, and_true]
    exact (stage_bytes hlen).symm
  | drained _ hcur => exact .inr ⟨rfl, rfl, by rw [script, if_neg (by omega)]⟩
  | packet hn | empty hn => exact absurd hs hn

/-- How far a replay that started from `pc₀` has come, with the history `h`
since then. -/
inductive Draining (cache : ConfigCache) (pc₀ : ProxyConn κ) (h : List (GattCall κ))
    (pc : ProxyConn κ) : Prop
  | replaying (hs : pc.state = .replaying) (hcc : pc.ccLen ≤ ccFrameSize)
      (hread : readPackets h ++ script cache pc = script cache pc₀)
      (hq : pc.packets = pc₀.packets ++ accepted h)
  | done (hs : pc.state = .active) (hread : script cache pc₀ <+: readPackets h)
      (hq : (readPackets h).length ≤ (script cache pc₀).length →
        pc.packets = pc₀.packets ++ accepted h)

theorem Draining.stage (hd : Draining cache pc₀ h pc) (hi : SlotInv cache pc) (hw : cache.Wf)
    (hz : cache.Sized) (conn : κ) :
    Draining cache pc₀ (h ++ (GattOp.stage conn).slotCalls p cache pc) (pc.stageNext cache) := by
  have hr : readPackets ((GattOp.stage conn).slotCalls p cache pc) = [(pc.stageNext cache).stagedBytes] :=
    rfl
  have ha : accepted ((GattOp.stage conn).slotCalls p cache pc) = [] := rfl
  cases hd with
  | replaying hs hcc hread hq =>
    have hpackets : (pc.stageNext cache).packets =
        pc₀.packets ++ accepted (h ++ (GattOp.stage conn).slotCalls p cache pc) := by
      rw [accepted_append, ha, List.append_nil, ← hq, ProxyConn.packets, stageNext_queue cache hs]
      rfl
    rcases stageNext_script hs hi hw hz hcc with ⟨hs', hscript⟩ | ⟨hs', hb, hscript⟩
    · refine .replaying hs' ?_ ?_ hpackets
      · rw [(stageNext_cc cache pc).2]
        exact hcc
      · rw [readPackets_append, hr, List.append_assoc, ← hread, hscript]
        rfl
    · refine .done hs' ?_ fun _ => hpackets
      rw [readPackets_append, hr, hb, ← hread, hscript]
  | done hs hread hq =>
    have hs' : (pc.stageNext cache).state = .active := by
      rcases stageNext_state cache pc with hst | hst
      · rw [hst, hs]
      · exact hst
    refine .done hs' ?_ ?_
    · rw [readPackets_append]
      exact hread.trans (List.prefix_append _ _)
    · intro hle
      have hlen := hread.length_le
      rw [readPackets_append, hr, List.length_append, List.length_singleton] at hle
      omega

theorem Draining.enqueue (hd : Draining cache pc₀ h pc) (hi : SlotInv cache pc) (conn : κ)
    (data : List UInt8) :
    Draining cache pc₀ (h ++ (GattOp.enqueue conn data).slotCalls p cache pc) (pc.enqueue data) := by
  have hr : readPackets ((GattOp.enqueue conn data).slotCalls p cache pc) = [] := by
    simp only [GattOp.slotCalls]
    repeat' split
    all_goals rfl
  have hscript : script cache (pc.enqueue data) = script cache pc := by
    unfold ProxyConn.enqueue
    split <;> rfl
  have hcc : (pc.enqueue data).ccLen = pc.ccLen := by
    unfold ProxyConn.enqueue
    split <;> rfl
  have hpackets : (pc.enqueue data).packets =
      pc.packets ++ accepted ((GattOp.enqueue conn data).slotCalls p cache pc) := by
    simp only [GattOp.slotCalls, ProxyConn.enqueue]
    by_cases hl : fromradioMaxPktSize < data.length
    · rw [if_pos hl, if_neg (by omega)]
      exact (List.append_nil _).symm
    · rw [if_neg hl]
      by_cases hc : fromradioQueueDepth ≤ pc.queue.count
      · rw [if_pos hc, if_neg (by omega)]
        exact (List.append_nil _).symm
      · rw [if_neg hc, if_pos (by omega)]
        exact push_packets hi.ring (by omega) (by omega)
  cases hd with
  | replaying hs hle hread hq =>
    refine .replaying ((enqueue_state pc data).trans hs) (hcc ▸ hle) ?_ ?_
    · rw [readPackets_append, hr, List.append_nil, hscript, hread]
    · rw [hpackets, hq, accepted_append, List.append_assoc]
  | done hs hread hq =>
    refine .done ((enqueue_state pc data).trans hs) ?_ ?_
    · rw [readPackets_append, hr, List.append_nil]
      exact hread
    · intro hle
      rw [readPackets_append, hr, List.append_nil] at hle
      rw [hpackets, hq hle, accepted_append, List.append_assoc]

def GattOp.Passive : GattOp κ → Prop
  | .stage _ | .enqueue .. | .register .. => True
  | _ => False

theorem Draining.run (hd : Draining cache pc₀ h pc) (hi : SlotInv cache pc) (hw : cache.Wf)
    (hz : cache.Sized) (hops : ∀ op ∈ ops, op.Passive) :
    Draining cache pc₀ (h ++ pc.runCalls p cache ops) (pc.run p cache ops) := by
  induction ops generalizing h pc with
  | nil => simpa [ProxyConn.runCalls, ProxyConn.run] using hd
  | cons op ops ih =>
    have hone : Draining cache pc₀ (h ++ op.slotCalls p cache pc) (op.onSlot p cache pc) ∧
        SlotInv cache (op.onSlot p cache pc) := by
      have hop := hops op List.mem_cons_self
      cases op with
      | stage conn => exact ⟨hd.stage p hi hw hz conn, hi.stageNext hw.count_le⟩
      | enqueue conn data => exact ⟨hd.enqueue p hi conn data, hi.enqueue data⟩
      | register conn id =>
        simp only [GattOp.slotCalls, List.append_nil]
        refine ⟨?_, hi.ring, hi.entry_le, hi.ready, hi.cursor⟩
        cases hd with
        | replaying hs hcc hread hq => exact .replaying hs hcc hread hq
        | done hs hread hq => exact .done hs hread hq
      | _ => exact hop.elim
    have hrest := ih hone.1 hone.2 fun op' hop' => hops op' (List.mem_cons_of_mem _ hop')
    rwa [List.append_assoc] at hrest

/-- The fresh reads of a history follow a script: they are the script as far as
it goes, and the slot replays until the script is used up and is ACTIVE from
its last packet on. -/
structure FollowsScript (script : List (List UInt8)) (h : List (GattCall κ)) (pc : ProxyConn κ) :
    Prop where
  before : (readPackets h).length < script.length → pc.state = .replaying ∧ readPackets h <+: script
  after : script.length ≤ (readPackets h).length → pc.state = .active ∧ script <+: readPackets h

theorem FollowsScript.length_le {sc sc' : List (List UInt8)} (hf : FollowsScript sc h pc)
    (hf' : FollowsScript sc' h pc) (hk : (readPackets h).length = sc.length) :
    sc'.length ≤ sc.length := by
  rcases Nat.lt_or_ge (readPackets h).length sc'.length with hlt | hge
  · have hactive := (hf.after (by omega)).1
    rw [(hf'.before hlt).1] at hactive
    cases hactive
  · omega

theorem script_ne_nil (cache : ConfigCache) (pc : ProxyConn κ) : 0 < (script cache pc).length := by
  unfold script
  split <;> simp

theorem Draining.follows (hd : Draining cache pc₀ h pc) : FollowsScript (script cache pc₀) h pc := by
  cases hd with
  | replaying hs hcc hread hq =>
    have hlen := script_ne_nil cache pc
    have hsum := congrArg List.length hread
    rw [List.length_append] at hsum
    exact ⟨fun _ => ⟨hs, hread ▸ List.prefix_append _ _⟩, fun hle => by omega⟩
  | done hs hread hq =>
    have hlen := hread.length_le
    exact ⟨fun hlt => by omega, fun _ => ⟨hs, hread⟩⟩

theorem Draining.queue (hd : Draining cache pc₀ h pc)
    (hle : (readPackets h).length ≤ (script cache pc₀).length) :
    pc.packets = pc₀.packets ++ accepted h := by
  cases hd with
  | replaying hs hcc hread hq => exact hq
  | done hs hread hq => exact hq hle

theorem Armed.draining (ha : Armed p nonce pc) : Draining cache pc [] pc := by
  have hle := terminator_le p nonce
  obtain ⟨pc₀, rfl, rfl⟩ := ha
  refine .replaying rfl ?_ rfl (by simp [accepted])
  exact Nat.le_trans (Nat.mod_le _ _) hle

-- ---------------------------------------------------------------------------
-- Runs
-- ---------------------------------------------------------------------------

def Event.Disturbs (conn : κ) (e : Event κ) : Prop := e.Wants p conn ∨ e = .disconnected conn

def freshReads (conn : κ) (k : Nat) : List (Event κ) := List.replicate k (.fromradioRead conn 64 0)

theorem freshReads_undisturbed (conn : κ) (k : Nat) : ∀ e ∈ freshReads conn k, ¬ e.Disturbs p conn := by
  intro e he
  obtain rfl := List.eq_of_mem_replicate he
  rintro (h | h) <;> cases h

theorem readPackets_runCalls {ops : List (GattOp κ)} (hops : ∀ op ∈ ops, ∀ c, op ≠ .stage c)
    (pc : ProxyConn κ) : readPackets (pc.runCalls p cache ops) = [] := by
  induction ops generalizing pc with
  | nil => rfl
  | cons op ops ih =>
    have hone : readPackets (op.slotCalls p cache pc) = [] := by
      cases op with
      | stage c => exact absurd rfl (hops _ List.mem_cons_self c)
      | enqueue | replay =>
        simp only [GattOp.slotCalls]
        repeat' split
        all_goals rfl
      | connected | disconnected | park | register | setQs => rfl
    rw [ProxyConn.runCalls, readPackets_append, hone,
      ih fun op' hop' => hops op' (List.mem_cons_of_mem _ hop')]
    rfl

variable [DecidableEq κ] {s : Proxy κ} {e : Event κ}

instance (conn : κ) (e : Event κ) : Decidable (e.Disturbs p conn) :=
  inferInstanceAs (Decidable (e.Wants p conn ∨ e = .disconnected conn))

def Event.isFreshRead (conn : κ) : Event κ → Bool
  | .fromradioRead c _ offset => decide (c = conn ∧ offset = 0)
  | _ => false

theorem step_freshRead (hl : ¬ e.IsLink) (conn : κ) (pc : ProxyConn κ) :
    (readPackets (pc.runCalls p s.cache (opsFor conn (gattOps p s e)))).length =
      (e.isFreshRead conn).toNat := by
  cases hr : e.isFreshRead conn with
  | true =>
    cases e with
    | fromradioRead c len offset =>
      obtain ⟨rfl, rfl⟩ := of_decide_eq_true hr
      rw [opsFor_freshRead]
      rfl
    | _ => cases hr
  | false =>
    rw [readPackets_runCalls]
    · rfl
    · rintro op hop c rfl
      obtain ⟨hmem, ht⟩ := mem_opsFor.mp hop
      cases gattOps_stepOp p s e hl hmem with
      | read _ len => exact of_decide_eq_false hr ⟨Option.some.inj ht, rfl⟩

theorem exec_freshReads (hinv : Inv s) (ha : (proxyMachine p κ).Admits s es)
    (hstay : ∀ e ∈ es, e ≠ .disconnected conn) (hup : (slotOf s.gatt conn).isSome) :
    (readPackets (sinceConnect conn ((proxyMachine p κ).exec s es).gatt.calls)).length =
      (readPackets (sinceConnect conn s.gatt.calls)).length + es.countP (Event.isFreshRead conn) := by
  induction es generalizing s with
  | nil => rfl
  | cons e es ih =>
    obtain ⟨pc, hpc⟩ := Option.isSome_iff_exists.mp hup
    have hne := hstay e List.mem_cons_self
    have hrest := fun hup' => ih (step_inv p hinv ha.1) ha.2
      (fun e' he' => hstay e' (List.mem_cons_of_mem _ he')) hup'
    by_cases hl : e.IsLink
    · have hsame := slotOf_link p hinv.distinct ha.1 hl hne hpc
      have hno : e.isFreshRead conn = false := by
        cases e with
        | fromradioRead => exact hl.elim
        | _ => rfl
      have hend := hrest (by simp [hsame])
      rw [sinceConnect_link p hinv.distinct ha.1 hl (by simp [hpc]) (by simp [hsame])] at hend
      rw [List.countP_cons_of_neg (by simp [hno])]
      exact hend
    · have hend := hrest (by simp [slotOf_step p hinv.distinct hl, hpc])
      rw [sinceConnect_step p hinv.distinct hl hpc, readPackets_append, List.length_append,
        step_freshRead p hl] at hend
      rw [Machine.exec_cons, List.countP_cons]
      refine hend.trans ?_
      cases e.isFreshRead conn <;> simp [Nat.add_assoc, Nat.add_comm]

theorem passive_step (hp : Phase s) (hready : s.cache.ready = true) (hl : ¬ e.IsLink)
    (hu : ¬ e.Disturbs p conn) (hop : op ∈ opsFor conn (gattOps p s e)) : op.Passive := by
  obtain ⟨hmem, ht⟩ := mem_opsFor.mp hop
  cases gattOps_stepOp p s e hl hmem with
  | read | register | heartbeat | frame => trivial
  | setQs => cases ht
  | replayed _ _ _ hw | parked _ _ _ hw | parkedReady _ _ _ hw =>
    cases ht
    exact absurd (.inl ⟨rfl, rfl, by simp [hw]⟩) hu
  | serve _ _ _ hf =>
    rw [hp.ready_iff, hf] at hready
    cases hready

theorem step_draining (hinv : Inv s) (he : s.Enabled e) (hready : s.cache.ready = true)
    (hu : ¬ e.Disturbs p conn) (hpc : slotOf s.gatt conn = some pc)
    (hlog : sinceConnect conn s.gatt.calls = base ++ h) (hd : Draining s.cache pc₀ h pc) :
    ∃ pc' h', slotOf (s.step p e).1.gatt conn = some pc' ∧
      sinceConnect conn (s.step p e).1.gatt.calls = base ++ h' ∧ Draining s.cache pc₀ h' pc' := by
  by_cases hl : e.IsLink
  · have hsame := slotOf_link p hinv.distinct he hl (fun hd => hu (.inr hd)) hpc
    refine ⟨pc, h, hsame, ?_, hd⟩
    rw [sinceConnect_link p hinv.distinct he hl (by simp [hpc]) (by simp [hsame]), hlog]
  · refine ⟨_, _, ?_, ?_, hd.run p (hinv.slots conn pc hpc) hinv.cacheWf hinv.sized
      fun op hop => passive_step p hinv.phase hready hl hu hop⟩
    · rw [slotOf_step p hinv.distinct hl, hpc]
      rfl
    · rw [sinceConnect_step p hinv.distinct hl hpc, hlog, List.append_assoc]

theorem exec_draining (hinv : Inv s) (ha : (proxyMachine p κ).Admits s es)
    (hready : s.cache.ready = true) (hu : ∀ e ∈ es, ¬ e.Disturbs p conn)
    (hpc : slotOf s.gatt conn = some pc)
    (hlog : sinceConnect conn s.gatt.calls = base ++ h) (hd : Draining s.cache pc₀ h pc) :
    ∃ pc' h', slotOf ((proxyMachine p κ).exec s es).gatt conn = some pc' ∧
      sinceConnect conn ((proxyMachine p κ).exec s es).gatt.calls = base ++ h' ∧
      Draining s.cache pc₀ h' pc' := by
  induction es generalizing s pc h with
  | nil => exact ⟨pc, h, hpc, hlog, hd⟩
  | cons e es ih =>
    have hcache := step_cache_ready p hinv.phase hready e
    obtain ⟨pc', h', hpc', hlog', hd'⟩ :=
      step_draining p hinv ha.1 hready (hu e List.mem_cons_self) hpc hlog hd
    have hrest := ih (s := (s.step p e).1) (step_inv p hinv ha.1) ha.2 (by rw [hcache]; exact hready)
      (fun e' he' => hu e' (List.mem_cons_of_mem _ he')) hpc' hlog' (by rw [hcache]; exact hd')
    rw [hcache] at hrest
    exact hrest

-- ---------------------------------------------------------------------------
-- The drain is exact
-- ---------------------------------------------------------------------------

theorem exec_armed (hinv : Inv s) (hpc : slotOf s.gatt conn = some pc) (harm : Armed p nonce pc)
    (ha : (proxyMachine p κ).Admits s es) (hu : ∀ e ∈ es, ¬ e.Disturbs p conn) :
    ∃ pc' h, slotOf ((proxyMachine p κ).exec s es).gatt conn = some pc' ∧
      sinceConnect conn ((proxyMachine p κ).exec s es).gatt.calls =
        sinceConnect conn s.gatt.calls ++ h ∧
      (readPackets h).length = es.countP (Event.isFreshRead conn) ∧ Draining s.cache pc h pc' := by
  have hs : pc.state = .replaying := by
    obtain ⟨pc₀, -, rfl⟩ := harm
    rfl
  obtain ⟨pc', h, hpc', hlog, hd⟩ := exec_draining p hinv ha ((hinv.slots conn pc hpc).ready hs) hu hpc
    (List.append_nil _).symm (harm.draining p)
  have hreads := exec_freshReads p hinv ha (fun e he hdis => hu e he (.inr hdis)) (by simp [hpc])
  rw [hlog, readPackets_append, List.length_append] at hreads
  exact ⟨pc', h, hpc', hlog, Nat.add_left_cancel hreads, hd⟩

/-- A replay armed with `nonce` is drained by the fresh reads of its phone, in
any interleaving, frame by frame, each of them staging one packet, and takes
nothing from the phone's queue. -/
theorem replay_drain_exact (hr : s.Reachable p) (hpc : slotOf s.gatt conn = some pc)
    (harm : Armed p nonce pc) (es : List (Event κ)) (ha : (proxyMachine p κ).Admits s es)
    (hu : ∀ e ∈ es, ¬ e.Disturbs p conn) :
    (∃ pc' h, slotOf ((proxyMachine p κ).exec s es).gatt conn = some pc' ∧
      sinceConnect conn ((proxyMachine p κ).exec s es).gatt.calls =
        sinceConnect conn s.gatt.calls ++ h ∧
      (readPackets h).length = es.countP (Event.isFreshRead conn) ∧
      FollowsScript (replayScript p s.cache nonce) h pc' ∧
      ((readPackets h).length ≤ (replayScript p s.cache nonce).length →
        pc'.packets = pc.packets ++ accepted h)) ∧
    ∀ i, cacheFrameInSegment s.cache i nonce = true →
      (s.cache.frame i).variant ≠ .configCompleteId := by
  refine ⟨?_, fun i hseg => inSegment_variant hseg⟩
  obtain ⟨pc', h, hpc', hlog, hreads, hd⟩ := exec_armed p (inv_reachable p hr) hpc harm ha hu
  have hscript : script s.cache pc = replayScript p s.cache nonce := script_armed p harm
  refine ⟨pc', h, hpc', hlog, hreads, hscript ▸ hd.follows, fun hle => hd.queue ?_⟩
  rw [hscript]
  exact hle

def liveRun : List (Event Nat) := mainSteps ++ shortBurst ++ [.connected 1 0]

def drainRun : List (Event Nat) :=
  [.fromradioRead 1 64 0, .uartFrame [0x12, 0], .fromradioRead 1 64 1, .fromradioRead 1 64 0,
    .toradioWrite 1 [0x3A, 0] 0, .fromradioRead 1 64 0]

def armedState : Proxy Nat :=
  (proxyMachine (wirePlatform 9) Nat).exec .boot (liveRun ++ [.toradioWrite 1 [0x18, 5] 0])

theorem replay_drain_exact_drainRun :
    ∃ pc' h, slotOf ((proxyMachine (wirePlatform 9) Nat).exec armedState drainRun).gatt 1 = some pc' ∧
      sinceConnect 1 ((proxyMachine (wirePlatform 9) Nat).exec armedState drainRun).gatt.calls =
        sinceConnect 1 armedState.gatt.calls ++ h ∧
      readPackets h = [[0x22, 0], [0x38, 5], []] ∧ pc'.state = .active := by
  have hscript : replayScript (wirePlatform 9) armedState.cache 5 = [[0x22, 0], [0x38, 5], []] := by
    decide
  have hr : armedState.Reachable (wirePlatform 9) := ⟨_, by decide, rfl⟩
  have hpc : slotOf armedState.gatt 1 = some (armedState.gatt.conns 0) := rfl
  have harm : Armed (wirePlatform 9) 5 (armedState.gatt.conns 0) :=
    ⟨((proxyMachine (wirePlatform 9) Nat).exec .boot liveRun).gatt.conns 0 |>.takeNonce 5, rfl, rfl⟩
  obtain ⟨⟨pc', h, hpc', hlog, hreads, hf, -⟩, -⟩ :=
    replay_drain_exact (wirePlatform 9) hr hpc harm drainRun (by decide) (by decide)
  rw [hscript] at hf
  have hthree : (readPackets h).length = 3 := hreads.trans (by decide)
  obtain ⟨hactive, hpre⟩ := hf.after hthree.ge
  exact ⟨pc', h, hpc', hlog, (hpre.eq_of_length hthree.symm).symm, hactive⟩

-- ---------------------------------------------------------------------------
-- The nonce a phone gets back
-- ---------------------------------------------------------------------------

/-- Until the next want_config or the disconnect, the replay is the one for
`nonce`: its segment, then the terminator that encodes it, a packet for each
fresh read. -/
def NonceEchoed (conn : κ) (nonce : UInt32) (s : Proxy κ) : Prop :=
  ∀ es, (proxyMachine p κ).Admits s es → (∀ e ∈ es, ¬ e.Disturbs p conn) →
    ∃ pc h, slotOf ((proxyMachine p κ).exec s es).gatt conn = some pc ∧
      sinceConnect conn ((proxyMachine p κ).exec s es).gatt.calls =
        sinceConnect conn s.gatt.calls ++ h ∧
      (readPackets h).length = es.countP (Event.isFreshRead conn) ∧
      FollowsScript (replayScript p s.cache nonce) h pc

theorem wantConfig_gattOps (hl : s.upstream.state = .cacheReady ∨ s.upstream.state = .live)
    (hw : wantConfigOf p data = some nonce) :
    gattOps p s (.toradioWrite conn data 0) = [.replay conn nonce] := by
  unfold wantConfigOf at hw
  cases hd : protoDecodeToradio p data with
  | error e => simp [hd] at hw
  | ok ti =>
    simp only [hd] at hw
    split at hw
    · rename_i hwant
      cases hw
      simp only [gattOps, ne_eq, not_true_eq_false, ↓reduceIte, hd, hwant]
      rw [if_pos hl]
    · cases hw

theorem wantConfig_armed (henc : p.EncodesConfigComplete) (hinv : Inv s)
    (hl : s.upstream.state = .cacheReady ∨ s.upstream.state = .live)
    (hpc : slotOf s.gatt conn = some pc) (hw : wantConfigOf p data = some nonce) :
    ∃ pc', slotOf (s.step p (.toradioWrite conn data 0)).1.gatt conn = some pc' ∧
      Armed p (pc.takeNonce nonce).nonce pc' := by
  have hops : opsFor conn [GattOp.replay conn nonce] = [.replay conn nonce] := by
    simp [opsFor, GattOp.target]
  refine ⟨pc.replay p nonce, ?_, pc.takeNonce nonce, rfl, replay_arms p henc.succeeds pc nonce⟩
  rw [slotOf_step p (e := .toradioWrite conn data 0) hinv.distinct (fun h => h), hpc,
    wantConfig_gattOps p hl hw, hops]
  rfl

theorem nonceEchoed_of_armed (hinv : Inv s) (hpc : slotOf s.gatt conn = some pc)
    (harm : Armed p nonce pc) : NonceEchoed p conn nonce s := by
  intro es ha hu
  obtain ⟨pc', h, hpc', hlog, hreads, hd⟩ := exec_armed p hinv hpc harm ha hu
  exact ⟨pc', h, hpc', hlog, hreads, script_armed p harm ▸ hd.follows⟩

theorem freshReads_admits (conn : κ) (k : Nat) (s : Proxy κ) :
    (proxyMachine p κ).Admits s (freshReads conn k) := by
  induction k generalizing s with
  | zero => trivial
  | succ k ih => exact ⟨trivial, ih _⟩

theorem freshReads_count (conn : κ) (k : Nat) :
    (freshReads conn k).countP (Event.isFreshRead conn) = k := by
  simp [freshReads, Event.isFreshRead, List.countP_replicate]

theorem replayScript_unique (hn : NonceEchoed p conn nonce s) (hn' : NonceEchoed p conn nonce' s) :
    replayScript p s.cache nonce = replayScript p s.cache nonce' := by
  have hboth (k : Nat) : ∃ (h : List (GattCall κ)) (pc : ProxyConn κ), (readPackets h).length = k ∧
      FollowsScript (replayScript p s.cache nonce) h pc ∧
      FollowsScript (replayScript p s.cache nonce') h pc := by
    obtain ⟨pc, h, hslot, hlog, hreads, hf⟩ :=
      hn _ (freshReads_admits p conn k s) (freshReads_undisturbed p conn k)
    obtain ⟨pc', h', hslot', hlog', -, hf'⟩ :=
      hn' _ (freshReads_admits p conn k s) (freshReads_undisturbed p conn k)
    obtain rfl : pc = pc' := Option.some.inj (hslot.symm.trans hslot')
    obtain rfl : h = h' := List.append_cancel_left (hlog.symm.trans hlog')
    exact ⟨h, pc, hreads.trans (freshReads_count conn k), hf, hf'⟩
  have hle : (replayScript p s.cache nonce').length ≤ (replayScript p s.cache nonce).length := by
    obtain ⟨h, pc, hk, hf, hf'⟩ := hboth (replayScript p s.cache nonce).length
    exact hf.length_le hf' hk
  obtain ⟨h, pc, hk, hf, hf'⟩ := hboth (replayScript p s.cache nonce').length
  have hle' := hf'.length_le hf hk
  have hread := (hf.after (by omega)).2.eq_of_length (by omega)
  have hread' := (hf'.after (by omega)).2.eq_of_length (by omega)
  rw [hread, hread']

theorem nonceEchoed_unique (henc : p.EncodesConfigComplete) (hn : NonceEchoed p conn nonce s)
    (hn' : NonceEchoed p conn nonce' s) : nonce = nonce' := by
  have hscript := replayScript_unique p hn hn'
  have hterm : terminator p nonce = terminator p nonce' := by
    have htail := List.append_inj_right' hscript rfl
    exact (List.cons.inj htail).1
  have hdec := henc.echoes nonce
  have hdec' := henc.echoes nonce'
  have heq : decodeConfigCompleteNonce p (terminator p nonce) = some nonce := hdec
  rw [hterm] at heq
  exact Option.some.inj (heq.symm.trans hdec')

/-- The nonce a phone gets back is the one its slot took. -/
theorem nonceEchoed_iff_taken (henc : p.EncodesConfigComplete) (hinv : Inv s)
    (hl : s.upstream.state = .cacheReady ∨ s.upstream.state = .live)
    (hpc : slotOf s.gatt conn = some pc) (hw : wantConfigOf p data = some nonce) :
    NonceEchoed p conn nonce (s.step p (.toradioWrite conn data 0)).1 ↔
      (pc.takeNonce nonce).nonce = nonce := by
  obtain ⟨pc', hpc', harm⟩ := wantConfig_armed p henc hinv hl hpc hw
  have hinv' := step_inv p hinv (e := .toradioWrite conn data 0) trivial
  have hecho := nonceEchoed_of_armed p hinv' hpc' harm
  exact ⟨fun hn => nonceEchoed_unique p henc hecho hn, fun h => h ▸ hecho⟩

/-- In a LIVE session a want_config is answered with its own nonce exactly when
that nonce is not 0 or the slot has none stored. -/
theorem nonce_echo_iff (henc : p.EncodesConfigComplete) (hr : s.Reachable p)
    (hl : s.upstream.state = .cacheReady ∨ s.upstream.state = .live)
    (hpc : slotOf s.gatt conn = some pc) (hw : wantConfigOf p data = some nonce) :
    NonceEchoed p conn nonce ((proxyMachine p κ).next s (.toradioWrite conn data 0)) ↔
      nonce ≠ 0 ∨ pc.nonce = 0 := by
  refine (nonceEchoed_iff_taken p henc (inv_reachable p hr) hl hpc hw).trans ?_
  unfold ProxyConn.takeNonce
  by_cases h0 : nonce = 0
  · simp [h0]
  · simp [h0]

theorem nonce_echo_liveRun :
    NonceEchoed (wirePlatform 9) 1 5
      ((proxyMachine (wirePlatform 9) Nat).next
        ((proxyMachine (wirePlatform 9) Nat).exec .boot liveRun) (.toradioWrite 1 [0x18, 5] 0)) := by
  have hpc : slotOf ((proxyMachine (wirePlatform 9) Nat).exec .boot liveRun).gatt 1 =
      some (((proxyMachine (wirePlatform 9) Nat).exec .boot liveRun).gatt.conns 0) := rfl
  have hiff := nonce_echo_iff (wirePlatform 9) (wire_encodesConfigComplete 9)
    ⟨liveRun, by decide, rfl⟩ (.inr (by decide)) hpc
    (by decide : wantConfigOf (wirePlatform 9) [0x18, 5] = some 5)
  exact hiff.mpr (.inl (by decide))

def secondRound : List (Event Nat) := liveRun ++ [.toradioWrite 1 [0x18, 5] 0] ++ freshReads 1 3

theorem not_nonce_echo :
    ∃ s : Proxy Nat, s.Reachable (wirePlatform 9) ∧ s.upstream.state = .live ∧
      (slotOf s.gatt 1).isSome ∧ wantConfigOf (wirePlatform 9) [0x18, 0] = some 0 ∧
      ¬ NonceEchoed (wirePlatform 9) 1 0
        ((proxyMachine (wirePlatform 9) Nat).next s (.toradioWrite 1 [0x18, 0] 0)) := by
  have hr : ((proxyMachine (wirePlatform 9) Nat).exec .boot secondRound).Reachable (wirePlatform 9) :=
    ⟨secondRound, by decide, rfl⟩
  have hpc : slotOf ((proxyMachine (wirePlatform 9) Nat).exec .boot secondRound).gatt 1 =
      some (((proxyMachine (wirePlatform 9) Nat).exec .boot secondRound).gatt.conns 0) := rfl
  have hw : wantConfigOf (wirePlatform 9) [0x18, 0] = some 0 := by decide
  refine ⟨_, hr, by decide, by decide, hw, fun hn => ?_⟩
  have htaken := (nonceEchoed_iff_taken (wirePlatform 9) (wire_encodesConfigComplete 9)
    (inv_reachable _ hr) (.inr (by decide)) hpc hw).mp hn
  exact absurd htaken (by decide)

end MeshProxy

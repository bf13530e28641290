import MeshProxy.Drained
import MeshProxy.Onboarding

/-!
# When a phone may sleep

A phone that is notified reads until it gets an empty reply, and then waits for
the next notification. Whether one waits, and whether the reply that sent it to
sleep ended a replay over queued packets, can be told from the history of its
connection (`mood`). A phone that waits misses something only in that case
(`waiting_phone`), and the notifications it waits for are numbered without gaps
(`notified_in_order`). A notification is a call of `bt_gatt_notify`; the code
only logs its failure, so one that the link drops counts here too.
-/

namespace MeshProxy

variable {κ : Type} (p : Platform)

inductive Mood
  | reading
  /-- `stranded`: its last empty reply ended a replay while packets were
  queued. -/
  | waiting (stranded : Bool)
  deriving DecidableEq, Repr

def Mood.after (m : Mood) : GattCall κ → Mood
  | .notify .. => .reading
  | .staged _ state queued packet =>
    if packet = [] then .waiting (decide (state = .replaying ∧ 0 < queued)) else .reading
  | _ => m

/-- A phone that has just connected waits. -/
def mood (h : List (GattCall κ)) : Mood := h.foldl Mood.after (.waiting false)

theorem mood_append (h h' : List (GattCall κ)) : mood (h ++ h') = h'.foldl Mood.after (mood h) :=
  List.foldl_append

-- ---------------------------------------------------------------------------
-- A property of a slot and the history of its connection
-- ---------------------------------------------------------------------------

theorem runCalls_invariant {R : List (GattCall κ) → ProxyConn κ → Prop} {pc : ProxyConn κ}
    {cache : ConfigCache} {ops : List (GattOp κ)}
    (hops : ∀ op ∈ ops, ∀ h pc, R h pc → R (h ++ op.slotCalls p cache pc) (op.onSlot p cache pc))
    (hR : R h pc) : R (h ++ pc.runCalls p cache ops) (pc.run p cache ops) := by
  induction ops generalizing h pc with
  | nil => simpa [ProxyConn.runCalls, ProxyConn.run] using hR
  | cons op ops ih =>
    have hone := hops op List.mem_cons_self h pc hR
    have hrest := ih (fun op' hop' => hops op' (List.mem_cons_of_mem _ hop')) hone
    rwa [List.append_assoc] at hrest

section
variable [DecidableEq κ] {s : Proxy κ} {e : Event κ} {R : List (GattCall κ) → ProxyConn κ → Prop}

def EachHistory (R : List (GattCall κ) → ProxyConn κ → Prop) (g : BleGatt κ) : Prop :=
  ∀ conn pc, slotOf g conn = some pc → R (sinceConnect conn g.calls) pc

theorem eachHistory_boot : EachHistory R (Proxy.boot : Proxy κ).gatt := by
  intro conn pc hpc
  rw [slotOf_boot] at hpc
  cases hpc

theorem eachHistory_step (hd : Distinct s.gatt) (he : s.Enabled e)
    (hfresh : ∀ (pc : ProxyConn κ) conn, R [] (pc.clear (some conn)))
    (hrun : ∀ conn pc h, slotOf s.gatt conn = some pc → ¬ e.IsLink → R h pc →
      R (h ++ pc.runCalls p s.cache (opsFor conn (gattOps p s e)))
        (pc.run p s.cache (opsFor conn (gattOps p s e))))
    (h : EachHistory R s.gatt) : EachHistory R (s.step p e).1.gatt := by
  intro conn pc' hpc'
  rcases slotOf_step_cases p hd he hpc' with ⟨hsame, hl⟩ | ⟨i, rfl, hi, rfl⟩ | ⟨pc, hpc, hl, rfl⟩
  · rw [sinceConnect_link p hd he hl (by simp [hsame]) (by simp [hpc'])]
    exact h conn pc' hsame
  · rw [sinceConnect_connected p (by simp [hi])]
    exact hfresh _ _
  · rw [sinceConnect_step p hd hl hpc]
    exact hrun conn pc _ hpc hl (h conn pc hpc)

end

-- ---------------------------------------------------------------------------
-- A phone that waits
-- ---------------------------------------------------------------------------

/-- A phone that waits replays nothing, and has packets queued only if it was
stranded. -/
def Rested (h : List (GattCall κ)) (pc : ProxyConn κ) : Prop :=
  ∀ stranded, mood h = .waiting stranded →
    pc.state ≠ .replaying ∧ (0 < pc.queue.count ↔ stranded = true)

variable {h : List (GattCall κ)} {pc : ProxyConn κ} {cache : ConfigCache}

theorem Rested.of_reading (hm : mood h = .reading) : Rested h pc := by
  intro stranded hw
  simp [hm] at hw

theorem rested_clear (pc : ProxyConn κ) (conn : Option κ) : Rested [] (pc.clear conn) := by
  rintro _ ⟨⟩
  exact ⟨by simp [ProxyConn.clear], by simp [ProxyConn.clear, Ring.reset]⟩

theorem Rested.quiet {pc' : ProxyConn κ} (hr : Rested h pc) (hm : mood h' = mood h)
    (hs : pc'.state = pc.state ∨ pc'.state ≠ .replaying) (hc : pc'.queue.count = pc.queue.count) :
    Rested h' pc' := by
  intro stranded hw
  obtain ⟨hnot, hcount⟩ := hr stranded (hm ▸ hw)
  refine ⟨?_, hc ▸ hcount⟩
  obtain hs | hs := hs
  · exact hs ▸ hnot
  · exact hs

theorem Rested.enqueue (hr : Rested h pc) (conn : κ) (data : List UInt8) :
    Rested (h ++ (GattOp.enqueue conn data).slotCalls p cache pc) (pc.enqueue data) := by
  simp only [GattOp.slotCalls, ProxyConn.enqueue]
  by_cases hl : fromradioMaxPktSize < data.length
  · rw [if_pos hl, if_neg (by omega)]
    exact hr.quiet (mood_append h _) (.inl rfl) rfl
  · rw [if_neg hl]
    by_cases hc : fromradioQueueDepth ≤ pc.queue.count
    · rw [if_pos hc, if_neg (by omega)]
      exact hr.quiet (mood_append h _) (.inl rfl) rfl
    · rw [if_neg hc]
      exact .of_reading (mood_append h _)

theorem Rested.replay (hr : Rested h pc) (conn : κ) (nonce : UInt32) :
    Rested (h ++ (GattOp.replay conn nonce).slotCalls p cache pc) (pc.replay p nonce) := by
  simp only [GattOp.slotCalls]
  have hstep := replay_step p pc nonce
  generalize pc.replay p nonce = pc' at hstep ⊢
  cases hstep with
  | armed henc =>
    obtain ⟨n, hn⟩ := henc
    rw [hn]
    exact .of_reading (mood_append h _)
  | failed henc =>
    obtain ⟨err, herr⟩ := henc
    rw [herr, List.append_nil]
    refine hr.quiet rfl (.inl ?_) ?_
    · rw [takeNonce_eq]
    · rw [takeNonce_eq]

theorem Rested.stage (hcount : cache.count ≤ configCacheMaxFrames)
    (hsized : ∀ i < cache.count, 1 ≤ (cache.frame i).bytes.length)
    (hcur : pc.state = .replaying → pc.replayCursor ≤ cache.count + 1) (hf : Filled pc) (conn : κ) :
    Rested (h ++ (GattOp.stage conn).slotCalls p cache pc) (pc.stageNext cache) := by
  have hmood : mood (h ++ (GattOp.stage conn).slotCalls p cache pc) =
      if (pc.stageNext cache).stagedBytes = [] then
        .waiting (decide (pc.state = .replaying ∧ 0 < pc.queue.count))
      else .reading := mood_append h _
  have hreading (hpos : 1 ≤ (pc.stageNext cache).stagedLen) :
      Rested (h ++ (GattOp.stage conn).slotCalls p cache pc) (pc.stageNext cache) := by
    refine .of_reading (hmood.trans (if_neg fun hnil => ?_))
    have hlen := congrArg List.length hnil
    rw [ProxyConn.stagedBytes, Cells.length_slice, List.length_nil] at hlen
    omega
  have hwaiting (hnil : (pc.stageNext cache).stagedLen = 0)
      (hs : (pc.stageNext cache).state ≠ .replaying)
      (hq : 0 < (pc.stageNext cache).queue.count ↔ pc.state = .replaying ∧ 0 < pc.queue.count) :
      Rested (h ++ (GattOp.stage conn).slotCalls p cache pc) (pc.stageNext cache) := by
    intro stranded hw
    have hempty : (pc.stageNext cache).stagedBytes = [] := by
      rw [ProxyConn.stagedBytes, hnil, Cells.slice_zero]
    rw [hmood, if_pos hempty, Mood.waiting.injEq] at hw
    exact ⟨hs, by rw [← hw, decide_eq_true_iff, hq]⟩
  have hstep := stageNext_step hcount hcur
  generalize pc.stageNext cache = pc' at hstep hmood hreading hwaiting ⊢
  cases hstep with
  | frame i hs hi hseg => exact hreading (hsized i hi)
  | terminator hs hc hseg =>
    refine hreading ?_
    simp only [ProxyConn.stage, Cells.length_slice]
    exact hf.ccLen hs
  | drained hs hc => exact hwaiting rfl (by simp) (by simp [hs])
  | packet hs hc =>
    refine hreading ?_
    simp only [ProxyConn.stage, PktEntry.bytes, Cells.length_slice]
    apply hf.entry
    rw [Ring.toList_pop _ hc]
    exact List.mem_cons_self
  | empty hs hc => exact hwaiting rfl hs (by simp [hs, hc])

theorem Rested.onSlot {op : GattOp κ} (hin : op.Inner) (hstage : ∀ conn, op ≠ .stage conn)
    (hr : Rested h pc) : Rested (h ++ op.slotCalls p cache pc) (op.onSlot p cache pc) := by
  cases op with
  | connected | disconnected => exact hin.elim
  | enqueue conn data => exact hr.enqueue p conn data
  | replay conn nonce => exact hr.replay p conn nonce
  | stage conn => exact absurd rfl (hstage conn)
  | park conn nonce => exact hr.quiet (mood_append h _) (.inr (by simp [GattOp.onSlot, ProxyConn.park])) rfl
  | register | setQs => exact hr.quiet (mood_append h _) (.inl rfl) rfl

section
variable [DecidableEq κ] {s : Proxy κ} {e : Event κ} {conn : κ}

theorem step_rested (hne : p.NonemptyMessages) (hr : s.Reachable p) (he : s.Enabled e)
    (h : EachHistory Rested s.gatt) : EachHistory Rested (s.step p e).1.gatt := by
  have hinv := inv_reachable p hr
  refine eachHistory_step p hinv.distinct he (fun pc conn => rested_clear pc _) ?_ h
  intro conn pc h hpc hl hR
  by_cases hread : ∃ len, e = .fromradioRead conn len 0
  · obtain ⟨len, rfl⟩ := hread
    have hsized (i : Nat) (hi : i < s.cache.count) : 1 ≤ (s.cache.frame i).bytes.length := by
      rw [ConfigCache.frame, cacheFrameBytes, Cells.length_slice]
      exact (hinv.sized i hi).1
    have hstage := Rested.stage p (h := h) hinv.cacheWf.count_le hsized
      (hinv.slots conn pc hpc).cursor (filled_reachable p hne hr conn pc hpc) conn
    rw [opsFor_freshRead]
    simpa [ProxyConn.runCalls, ProxyConn.run, GattOp.onSlot] using hstage
  · refine runCalls_invariant p (fun op hop h' pc' hR' => ?_) hR
    obtain ⟨hop, ht⟩ := mem_opsFor.mp hop
    have hstep := gattOps_stepOp p s e hl hop
    refine hR'.onSlot p hstep.inner ?_
    rintro c rfl
    obtain rfl : c = conn := Option.some.inj ht
    cases hstep with
    | read _ len => exact hread ⟨len, rfl⟩

theorem rested_reachable (hne : p.NonemptyMessages) (hr : s.Reachable p) :
    EachHistory Rested s.gatt := by
  obtain ⟨-, h⟩ := hr.invariant (I := fun s => s.Reachable p ∧ EachHistory Rested s.gatt)
    ⟨.refl _, eachHistory_boot⟩ fun s e he h => ⟨h.1.next he, step_rested p hne h.1 he h.2⟩
  exact h

/-- A connected phone that has read until an empty reply, with no call of
`bt_gatt_notify` for it since, has nothing left to fetch, unless that reply ended
a replay while packets were queued: then some are. -/
theorem waiting_phone (hne : p.NonemptyMessages) (hr : s.Reachable p)
    (conn : κ) (hup : (slotOf s.gatt conn).isSome) (stranded : Bool)
    (hw : mood (sinceConnect conn s.gatt.calls) = .waiting stranded) :
    NothingLeft s.gatt conn ↔ stranded = false := by
  obtain ⟨pc, hpc⟩ := Option.isSome_iff_exists.mp hup
  obtain ⟨hs, hq⟩ := rested_reachable p hne hr conn pc hpc stranded hw
  simp only [NothingLeft, hpc, Option.some.injEq, forall_eq']
  cases stranded with
  | false =>
    have hzero : ¬ 0 < pc.queue.count := by simp [hq]
    exact iff_of_true ⟨by omega, hs⟩ rfl
  | true =>
    have hpos : 0 < pc.queue.count := hq.mpr rfl
    exact iff_of_false (fun h => by omega) (by simp)

def sleepRun : List (Event Nat) :=
  liveRun ++ [.toradioWrite 1 [0x18, 5] 0, .fromradioRead 1 64 0, .fromradioRead 1 64 0,
    .fromradioRead 1 64 0]

theorem waiting_phone_sleepRun :
    NothingLeft ((proxyMachine (wirePlatform 9) Nat).exec .boot sleepRun).gatt 1 ∧
      ¬ NothingLeft ((proxyMachine (wirePlatform 9) Nat).exec .boot
        (strandedRun ++ [.fromradioRead 1 64 0])).gatt 1 := by
  have hrested := waiting_phone (wirePlatform 9) (wire_nonemptyMessages 9)
    ⟨sleepRun, by decide, rfl⟩ 1 (by decide) false (by decide)
  have hstranded := waiting_phone (wirePlatform 9) (wire_nonemptyMessages 9)
    ⟨strandedRun ++ [.fromradioRead 1 64 0], by decide, rfl⟩ 1 (by decide) true (by decide)
  exact ⟨hrested.mpr rfl, fun h => absurd (hstranded.mp h) (by decide)⟩

end

-- ---------------------------------------------------------------------------
-- The notifications
-- ---------------------------------------------------------------------------

def announced (h : List (GattCall κ)) : List UInt32 :=
  h.filterMap fun
    | .notify _ fromnum => some fromnum
    | _ => none

/-- The packets and replays that a phone is notified of. -/
def newsCount (h : List (GattCall κ)) : Nat := (accepted h).length + armedCount h

def countTo (n : Nat) : List UInt32 := (List.range n).map fun k => UInt32.ofNat (k + 1)

structure Numbered (h : List (GattCall κ)) (pc : ProxyConn κ) : Prop where
  queue : QueueSpec h pc
  inOrder : announced h = countTo (newsCount h)

theorem announced_append (h h' : List (GattCall κ)) :
    announced (h ++ h') = announced h ++ announced h' := List.filterMap_append

theorem newsCount_append (h h' : List (GattCall κ)) :
    newsCount (h ++ h') = newsCount h + newsCount h' := by
  simp only [newsCount, accepted_append, armedCount_append, List.length_append]
  omega

theorem countTo_succ (n : Nat) : countTo (n + 1) = countTo n ++ [UInt32.ofNat (n + 1)] := by
  simp [countTo, List.range_succ]

theorem slotCalls_news {op : GattOp κ} (cache : ConfigCache) (hq : QueueSpec h pc) (hin : op.Inner) :
    (announced (op.slotCalls p cache pc) = [] ∧ newsCount (op.slotCalls p cache pc) = 0) ∨
      (announced (op.slotCalls p cache pc) = [UInt32.ofNat (newsCount h + 1)] ∧
        newsCount (op.slotCalls p cache pc) = 1) := by
  have hnext : pc.fromnum + 1 = UInt32.ofNat (newsCount h + 1) := by
    rw [hq.fromnum, ← UInt32.ofNat_one, ← UInt32.ofNat_add]
    rfl
  cases op with
  | connected | disconnected => exact hin.elim
  | park | register | setQs | stage => exact .inl ⟨rfl, rfl⟩
  | enqueue conn data =>
    simp only [GattOp.slotCalls]
    split
    · exact .inl ⟨rfl, rfl⟩
    · split
      · exact .inl ⟨rfl, rfl⟩
      · exact .inr ⟨congrArg (fun n => [n]) hnext, rfl⟩
  | replay conn nonce =>
    simp only [GattOp.slotCalls]
    have hstep := replay_step p pc nonce
    generalize pc.replay p nonce = pc' at hstep ⊢
    have htake : (pc.takeNonce nonce).fromnum = pc.fromnum := by rw [takeNonce_eq]
    cases hstep with
    | armed henc =>
      obtain ⟨n, hn⟩ := henc
      rw [hn]
      refine .inr ⟨congrArg (fun n => [n]) ?_, rfl⟩
      rw [← hnext, ← htake]
      rfl
    | failed henc =>
      obtain ⟨err, herr⟩ := henc
      rw [herr]
      exact .inl ⟨rfl, rfl⟩

theorem Numbered.onSlot {op : GattOp κ} (hn : Numbered h pc) (hin : op.Inner) :
    Numbered (h ++ op.slotCalls p cache pc) (op.onSlot p cache pc) where
  queue := hn.queue.onSlot p hin
  inOrder := by
    rw [announced_append, newsCount_append, hn.inOrder]
    obtain ⟨ha, hc⟩ | ⟨ha, hc⟩ := slotCalls_news p cache hn.queue hin
    · rw [ha, hc, List.append_nil, Nat.add_zero]
    · rw [ha, hc, countTo_succ]

section
variable [DecidableEq κ] {s : Proxy κ}

theorem numbered_reachable (hr : s.Reachable p) : EachHistory Numbered s.gatt := by
  refine reachable_invariant p (J := fun s => EachHistory Numbered s.gatt) hr eachHistory_boot ?_
  intro s e he hinv h
  refine eachHistory_step p hinv.distinct he (fun pc conn => ⟨queueSpec_clear pc _, rfl⟩) ?_ h
  intro conn pc h hpc hl hR
  refine runCalls_invariant p (fun op hop h' pc' hR' => ?_) hR
  exact hR'.onSlot p (gattOps_stepOp p s e hl (mem_opsFor.mp hop).1).inner

/-- Since it connected, `bt_gatt_notify` was called for a phone once for each
packet accepted for it and each replay armed, with 1, 2, 3 and so on modulo 2^32,
and a FROMNUM read gives the last of these numbers. -/
theorem notified_in_order (s : Proxy κ) (hr : s.Reachable p) (conn : κ)
    (hup : (slotOf s.gatt conn).isSome) :
    let news := newsCount (sinceConnect conn s.gatt.calls)
    announced (sinceConnect conn s.gatt.calls) = countTo news ∧
      ∀ len offset, ((proxyMachine p κ).step s (.fromnumRead conn len offset)).2 =
        .read (p.attrRead len offset (le32 (UInt32.ofNat news))) := by
  obtain ⟨pc, hpc⟩ := Option.isSome_iff_exists.mp hup
  obtain ⟨hqueue, horder⟩ := numbered_reachable p hr conn pc hpc
  refine ⟨horder, fun len offset => ?_⟩
  obtain ⟨i, hi, rfl⟩ := Option.map_eq_some_iff.mp hpc
  have hnum := hqueue.fromnum
  simp only [proxyMachine, Proxy.step, fromnumRead, hi, hnum]
  rfl

theorem notified_in_order_sleepRun :
    announced (sinceConnect 1 ((proxyMachine (wirePlatform 9) Nat).exec .boot
      (sleepRun ++ [.uartFrame [0x12, 0]])).gatt.calls) = [1, 2] := by
  obtain ⟨h, -⟩ := notified_in_order (wirePlatform 9) ((proxyMachine (wirePlatform 9) Nat).exec .boot
    (sleepRun ++ [.uartFrame [0x12, 0]])) ⟨_, by decide, rfl⟩ 1 (by decide)
  exact h.trans (by decide)

end

end MeshProxy

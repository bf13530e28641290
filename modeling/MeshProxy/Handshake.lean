import MeshProxy.HubRefinement
import MeshProxy.Pending

/-!
# A handshake from the node to the phone

A phone that asks for its config while the proxy still fetches it is parked
with its nonce (`Waits`). Nothing but its own disconnect or next want_config
ends that before the node's terminator does, and then its replay is armed with
that nonce. `parked_handshake` puts the fetch, the parking and the replay
together: the phone reads the node's burst.
-/

namespace MeshProxy

variable {κ : Type} (p : Platform)

theorem onSlot_nonce {op : GattOp κ} (hop : op.Passive) (cache : ConfigCache) (pc : ProxyConn κ) :
    (op.onSlot p cache pc).nonce = pc.nonce := by
  cases op with
  | stage conn =>
    simp only [GattOp.onSlot, ProxyConn.stageNext, ProxyConn.stageReplay]
    repeat' split
    all_goals rfl
  | enqueue conn data =>
    simp only [GattOp.onSlot, ProxyConn.enqueue]
    split <;> rfl
  | register conn id => rfl
  | _ => exact hop.elim

variable [DecidableEq κ]

/-- The phone has asked with this nonce and is in `s_pending`. -/
structure Waits (conn : κ) (nonce : UInt32) (s : Proxy κ) : Prop where
  listed : conn ∈ s.upstream.pending
  asked : ∃ pc, slotOf s.gatt conn = some pc ∧ pc.nonce = nonce

variable {s : Proxy κ} {e : Event κ} {conn : κ} {nonce own : UInt32}

theorem passive_open (hc : ¬ s.Closes p e) (hl : ¬ e.IsLink) (hu : ¬ e.Disturbs p conn)
    (hop : op ∈ opsFor conn (gattOps p s e)) : op.Passive := by
  obtain ⟨hmem, ht⟩ := mem_opsFor.mp hop
  cases gattOps_stepOp p s e hl hmem with
  | read | register | heartbeat | frame => trivial
  | setQs => cases ht
  | replayed _ _ _ hw | parked _ _ _ hw | parkedReady _ _ _ hw =>
    cases ht
    exact absurd (.inl ⟨rfl, rfl, by simp [hw]⟩) hu
  | serve _ _ hcb hf hn => exact absurd ⟨hcb, hf, hn⟩ hc

theorem step_waits (hf : Fetching p own h s) (he : s.Enabled e) (hc : ¬ s.Closes p e)
    (hu : ¬ e.Disturbs p conn) (hw : Waits conn nonce s) : Waits conn nonce (s.step p e).1 where
  listed := by
    cases step_session p s e with
    | same _ _ heq | fetching _ _ _ heq =>
      rw [heq]
      exact hw.listed
    | parked other _ _ heq =>
      rw [heq]
      exact mem_parkSession_of_mem hw.listed
    | reset _ buf hm => rcases hf.main with h | h <;> simp [h] at hm
    | closed hclose => exact absurd hclose hc
  asked := by
    obtain ⟨pc, hpc, hn⟩ := hw.asked
    by_cases hl : e.IsLink
    · exact ⟨pc, slotOf_link p hf.inv.distinct he hl (fun hd => hu (.inr hd)) hpc, hn⟩
    · refine ⟨pc.run p s.cache (opsFor conn (gattOps p s e)), ?_, ?_⟩
      · rw [slotOf_step p hf.inv.distinct hl, hpc]
        rfl
      · refine run_invariant p (I := fun pc : ProxyConn κ => pc.nonce = nonce) (fun op hop pc h => ?_) hn
        rw [onSlot_nonce p (passive_open p hc hl hu hop) s.cache pc, h]

theorem ask_waits (hinv : Inv s) (hs : s.upstream.state = .fetching)
    (hroom : conn ∈ s.upstream.pending ∨ s.upstream.pending.length < configBtMaxConn)
    (hpc : slotOf s.gatt conn = some pc) (hask : wantConfigOf p data = some nonce) :
    Waits conn nonce (s.step p (.toradioWrite conn data 0)).1 := by
  have hns : ¬ (s.upstream.state = .cacheReady ∨ s.upstream.state = .live) := by simp [hs]
  have hwants : (Event.toradioWrite conn data 0).Wants p conn := ⟨rfl, rfl, by simp [hask]⟩
  have hf : (findSlot s.gatt conn).isSome := by
    obtain ⟨i, hi, -⟩ := Option.map_eq_some_iff.mp hpc
    simp [hi]
  have hr : s.cache.ready = false := hinv.phase.not_ready (by simp [hs])
  have hops : opsFor conn (gattOps p s (.toradioWrite conn data 0)) = [.park conn nonce] := by
    unfold wantConfigOf at hask
    cases hd : protoDecodeToradio p data with
    | error e => simp [hd] at hask
    | ok ti =>
      simp only [hd] at hask
      split at hask
      · rename_i hwant
        cases hask
        simp [gattOps, hd, hwant, hs, parkOps, hf, hr, opsFor, GattOp.target]
      · cases hask
  refine ⟨?_, pc.park nonce, ?_, rfl⟩
  · rw [wants_step p hwants hns]
    exact mem_parkSession hf hr hroom
  · rw [slotOf_step p (e := .toradioWrite conn data 0) hinv.distinct (fun h => h), hpc, hops]
    rfl

theorem opsFor_serve (hcb : s.upstream.serveCb = true) (hnd : s.upstream.pending.Nodup)
    (hc : conn ∈ s.upstream.pending) : opsFor conn (serveOps s.upstream) = [.replay conn 0] := by
  unfold opsFor serveOps
  rw [if_pos hcb, List.filter_map]
  have hfilter : s.upstream.pending.filter
      ((fun op : GattOp κ => decide (op.target = some conn)) ∘ fun c => .replay c 0) = [conn] := by
    have hcomp : ((fun op : GattOp κ => decide (op.target = some conn)) ∘ fun c => .replay c 0) =
        fun c => c == conn := by
      funext c
      simp [GattOp.target, beq_eq_decide]
    rw [hcomp, List.filter_beq, List.count_eq_one_of_mem hnd hc]
    rfl
  rw [hfilter]
  rfl

theorem closes_armed (henc : p.EncodesTerminators) (hinv : Inv s) (hnd : s.upstream.pending.Nodup)
    (hc : s.Closes p e) (hw : Waits conn nonce s) :
    ∃ pc, slotOf (s.step p e).1.gatt conn = some pc ∧ Armed p nonce pc := by
  obtain ⟨pc, hpc, hn⟩ := hw.asked
  have hcb : s.upstream.serveCb = true := hinv.phase.serveCb (by simp [hc.state])
  refine ⟨pc.replay p 0, ?_, pc.takeNonce 0, hn, ?_⟩
  · rw [slotOf_step p hinv.distinct hc.not_link, hpc, closes_gattOps p hc, opsFor_serve hcb hnd hw.listed]
    rfl
  · rw [replay_arms p henc]
    exact congrArg (fun n => (pc.takeNonce 0).arm (terminator p n)) hn

theorem replayScript_eq (hrep : Represents cache fs) (nonce : UInt32) :
    replayScript p cache nonce =
      (burstFor fs nonce).map Frame.bytes ++ [terminator p nonce, []] := by
  rw [← hrep.burstFor_eq, List.map_map, segment, Nat.sub_zero, ← List.range_eq_range']
  rfl

-- ---------------------------------------------------------------------------
-- The run
-- ---------------------------------------------------------------------------

theorem exec_waits (hf : Fetching p own h s) (ha : (proxyMachine p κ).Admits s es)
    (hopen : ∀ payload ∈ payloads (h ++ es), ¬ Terminates p own payload)
    (hu : ∀ e ∈ es, ¬ e.Disturbs p conn) (hw : Waits conn nonce s) :
    Fetching p own (h ++ es) ((proxyMachine p κ).exec s es) ∧
      Waits conn nonce ((proxyMachine p κ).exec s es) := by
  induction es generalizing h s with
  | nil => exact ⟨(List.append_nil h).symm ▸ hf, hw⟩
  | cons e es ih =>
    have hc : ¬ s.Closes p e := by
      intro hc
      cases e with
      | uartFrame payload =>
        refine hopen payload (by simp [payloads]) ?_
        rw [← hf.own]
        exact hc.2.2
      | _ => exact hc
    have happ : h ++ e :: es = h ++ [e] ++ es := by simp
    rw [happ] at hopen ⊢
    exact ih (step_fetching p hf ha.1) ha.2 hopen (fun e' he' => hu e' (List.mem_cons_of_mem _ he'))
      (step_waits p hf ha.1 hc (hu e List.mem_cons_self) hw)

theorem exec_parked [Fintype κ] (hpool : Fintype.card κ ≤ configBtMaxConn) (hr : s.Reachable p)
    (hm : s.main = .start .setFetching)
    (ha : (proxyMachine p κ).Admits s
      (.mainStep :: before ++ [.toradioWrite conn data 0] ++ meanwhile))
    (hconn : (slotOf ((proxyMachine p κ).exec s (.mainStep :: before)).gatt conn).isSome)
    (hask : wantConfigOf p data = some nonce)
    (hopen : ∀ payload ∈ payloads (before ++ [.toradioWrite conn data 0] ++ meanwhile),
      ¬ Terminates p s.upstream.nonce payload)
    (hu : ∀ e ∈ meanwhile, ¬ e.Disturbs p conn) :
    Fetching p s.upstream.nonce (before ++ [.toradioWrite conn data 0] ++ meanwhile)
        ((proxyMachine p κ).exec s (.mainStep :: before ++ [.toradioWrite conn data 0] ++ meanwhile)) ∧
      Waits conn nonce
        ((proxyMachine p κ).exec s (.mainStep :: before ++ [.toradioWrite conn data 0] ++ meanwhile)) := by
  obtain ⟨ha, hmeanwhile⟩ := (proxyMachine p κ).along_append.mp ha
  obtain ⟨⟨hmain, hbefore⟩, hwrite, -⟩ := (proxyMachine p κ).along_append.mp ha
  have hf : Fetching p s.upstream.nonce before ((proxyMachine p κ).exec s (.mainStep :: before)) :=
    exec_fetching p (fetching_start p (inv_reachable p hr) (begun_reachable p hr) hm) hbefore
  have hopened : ∀ payload ∈ payloads before, ¬ Terminates p s.upstream.nonce payload :=
    fun payload hp => hopen payload (by simp [hp])
  obtain ⟨pc, hpc⟩ := Option.isSome_iff_exists.mp hconn
  have hstarted : (proxyMachine p κ).Admits s (.mainStep :: before) := ⟨hmain, hbefore⟩
  have hroom := pending_room p hpool (hr.exec hstarted) conn
  have hw := ask_waits p hf.inv (hf.opened hopened).1 hroom hpc hask
  rw [Machine.exec_append] at hmeanwhile
  rw [Machine.exec_append, Machine.exec_append]
  exact exec_waits p (step_fetching p (e := .toradioWrite conn data 0) hf hwrite) hmeanwhile hopen hu hw

theorem terminator_serves (henc : p.EncodesTerminators) (hr : s.Reachable p)
    (hf : Fetching p own h s) (hopen : ∀ payload ∈ payloads h, ¬ Terminates p own payload)
    (hterm : Terminates p own term) (hw : Waits conn nonce s) :
    ∃ pc, slotOf (s.step p (.uartFrame term)).1.gatt conn = some pc ∧ Armed p nonce pc ∧
      replayScript p (s.step p (.uartFrame term)).1.cache nonce =
        (burstFor (burst p (payloads h)) nonce).map Frame.bytes ++ [terminator p nonce, []] := by
  obtain ⟨hst, hframes⟩ := hf.opened hopen
  have hc : s.Closes p (.uartFrame term) := ⟨hf.receiving, hst, by rw [hf.own]; exact hterm⟩
  obtain ⟨pc, hpc, harm⟩ := closes_armed p henc hf.inv (pending_nodup p hr) hc hw
  have hcache : (s.step p (.uartFrame term)).1.cache = { s.cache with ready := true } := by
    simp only [Proxy.step, hf.receiving, ↓reduceIte]
    rw [(onFromradioUart_step p s term).eq_goLive p hst hc.2.2]
    rfl
  have hrep := step_represents p (e := .uartFrame term) (represents_reachable p hr)
  refine ⟨pc, hpc, harm, ?_⟩
  rw [replayScript_eq p hrep, ← hframes, hcache]
  rfl

/-- A phone asks during the boot fetch and then reads. Whatever else happens,
from the node's terminator on each of its fresh reads stages a packet, and these
are the part of the node's burst its nonce asks for, the terminator with that
nonce and an empty packet. -/
theorem parked_handshake [Fintype κ] (hpool : Fintype.card κ ≤ configBtMaxConn)
    (henc : p.EncodesTerminators) (hr : s.Reachable p) (hm : s.main = .start .setFetching)
    (conn : κ) (nonce : UInt32) (before meanwhile after : List (Event κ)) (data term : List UInt8)
    (ha : (proxyMachine p κ).Admits s
      (.mainStep :: before ++ [.toradioWrite conn data 0] ++ meanwhile ++ [.uartFrame term] ++ after))
    (hconn : (slotOf ((proxyMachine p κ).exec s (.mainStep :: before)).gatt conn).isSome)
    (hask : wantConfigOf p data = some nonce)
    (hopen : ∀ payload ∈ payloads (before ++ meanwhile), ¬ Terminates p s.upstream.nonce payload)
    (hterm : Terminates p s.upstream.nonce term)
    (hu : ∀ e ∈ meanwhile ++ after, ¬ e.Disturbs p conn) :
    let served := (proxyMachine p κ).exec s
      (.mainStep :: before ++ [.toradioWrite conn data 0] ++ meanwhile ++ [.uartFrame term])
    ∃ pc h, slotOf ((proxyMachine p κ).exec served after).gatt conn = some pc ∧
      sinceConnect conn ((proxyMachine p κ).exec served after).gatt.calls =
        sinceConnect conn served.gatt.calls ++ h ∧
      (readPackets h).length = after.countP (Event.isFreshRead conn) ∧
      FollowsScript
        ((burstFor (burst p (payloads (before ++ meanwhile))) nonce).map Frame.bytes ++
          [terminator p nonce, []]) h pc := by
  intro served
  have hpays : payloads (before ++ [.toradioWrite conn data 0] ++ meanwhile) =
      payloads (before ++ meanwhile) := by simp [payloads]
  obtain ⟨ha, hafter⟩ := (proxyMachine p κ).along_append.mp ha
  have hinv := inv_reachable p (hr.exec ha)
  obtain ⟨ha, -⟩ := (proxyMachine p κ).along_append.mp ha
  obtain ⟨hf, hw⟩ := exec_parked p hpool hr hm ha hconn hask (hpays ▸ hopen)
    fun e he => hu e (List.mem_append_left _ he)
  obtain ⟨pc, hpc, harm, hscript⟩ :=
    terminator_serves p henc (hr.exec ha) hf (hpays ▸ hopen) hterm hw
  rw [hpays] at hscript
  have hserved : served = (((proxyMachine p κ).exec s
      (.mainStep :: before ++ [.toradioWrite conn data 0] ++ meanwhile)).step p (.uartFrame term)).1 :=
    Machine.exec_append _ _ _ _
  rw [← hserved] at hpc hscript
  obtain ⟨pc', h, hpc', hlog, hreads, hd⟩ := exec_armed p hinv hpc harm hafter
    fun e he => hu e (List.mem_append_right _ he)
  refine ⟨pc', h, hpc', hlog, hreads, ?_⟩
  rw [← hscript, ← script_armed p harm]
  exact hd.follows

def askedRun : List (Event (Fin 6)) :=
  List.replicate 7 .mainStep ++ [.connected 1 0, .uartFrame [0x22, 0], .toradioWrite 1 [0x18, 5] 0,
    .mainStep, .uartFrame [0x12, 0], .fromradioRead 1 64 0, .uartFrame [0x2A, 0], .uartFrame [0x38, 9]]

theorem parked_handshake_nonce_five :
    let served := (proxyMachine (wirePlatform 9) (Fin 6)).exec .boot askedRun
    let read := (proxyMachine (wirePlatform 9) (Fin 6)).exec served (freshReads 1 4)
    ∃ pc h, slotOf read.gatt 1 = some pc ∧
      sinceConnect 1 read.gatt.calls = sinceConnect 1 served.gatt.calls ++ h ∧
      readPackets h = [[0x22, 0], [0x2A, 0], [0x38, 5], []] ∧ pc.state = .active := by
  have hburst : (burstFor (burst (wirePlatform 9) [[0x22, 0], [0x12, 0], [0x2A, 0]]) 5).map Frame.bytes ++
      [terminator (wirePlatform 9) 5, []] = [[0x22, 0], [0x2A, 0], [0x38, 5], []] := by decide
  obtain ⟨pc, h, hpc, hlog, hreads, hf⟩ := parked_handshake (wirePlatform 9) (by decide)
    (wire_encodesConfigComplete 9).succeeds ⟨List.replicate 6 .mainStep, by decide, rfl⟩ (by decide)
    (1 : Fin 6) 5 [.connected 1 0, .uartFrame [0x22, 0]]
    [.mainStep, .uartFrame [0x12, 0], .fromradioRead 1 64 0, .uartFrame [0x2A, 0]]
    (freshReads 1 4) [0x18, 5] [0x38, 9] (by decide) (by decide) (by decide) (by decide) (by decide)
    (by decide)
  have hfour : (readPackets h).length = 4 := hreads.trans (by decide)
  obtain ⟨hactive, hpre⟩ := (hburst ▸ hf).after hfour.ge
  exact ⟨pc, h, hpc, hlog, (hpre.eq_of_length hfour.symm).symm, hactive⟩

end MeshProxy

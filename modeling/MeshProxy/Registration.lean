import MeshProxy.Routing

/-!
# Registered identifiers

`registration` reads off the events what a phone last registered since it
connected. In every state the slot of a phone holds exactly that, so an
identifier that a former occupant of a slot left behind never routes. A
lookup takes the first slot that holds the identifier, whoever registered
last.
-/

namespace MeshProxy

variable {κ : Type} (p : Platform)

variable [DecidableEq κ]

def regId (data : List UInt8) (offset : Nat) : Option ProxyId :=
  if offset ≠ 0 ∨ data.length ≠ proxyIdSize then none else some (ProxyId.ofBytes data 0)

def regStep (conn : κ) (r : Option ProxyId) : Event κ → Option ProxyId
  | .connected c err => if c = conn ∧ err = 0 then none else r
  | .disconnected c => if c = conn then none else r
  | .nodeRegWrite c data offset => if c = conn then (regId data offset).or r else r
  | _ => r

/-- What `conn` last registered since it connected. -/
def registration (conn : κ) (es : List (Event κ)) : Option ProxyId := es.foldl (regStep conn) none

/-- The connection that registered `id` last. -/
def lastRegistrant (id : ProxyId) (es : List (Event κ)) : Option κ :=
  es.foldl (fun last e =>
    match e with
    | .nodeRegWrite c data offset => if regId data offset = some id then some c else last
    | _ => last) none

theorem registration_snoc (conn : κ) (es : List (Event κ)) (e : Event κ) :
    registration conn (es ++ [e]) = regStep conn (registration conn es) e := by
  simp [registration]

-- ---------------------------------------------------------------------------
-- The slots hold the registrations
-- ---------------------------------------------------------------------------

def Registered (h : List (Event κ)) (s : Proxy κ) : Prop :=
  ∀ conn pc, slotOf s.gatt conn = some pc → pc.proxyId = (registration conn h).getD Cells.zero

variable {s : Proxy κ} {e : Event κ} {h : List (Event κ)}

theorem regStep_quiet (conn : κ) (r : Option ProxyId) (hl : ¬ e.IsLink)
    (hw : ∀ c data offset, e ≠ .nodeRegWrite c data offset) : regStep conn r e = r := by
  cases e with
  | connected | disconnected => exact absurd trivial hl
  | nodeRegWrite c data offset => exact absurd rfl (hw c data offset)
  | _ => rfl

theorem opsFor_nodeReg (s : Proxy κ) (conn c : κ) (data : List UInt8) (offset : Nat) :
    opsFor conn (gattOps p s (.nodeRegWrite c data offset)) =
      match regId data offset with
      | some id => if c = conn then [.register conn id] else []
      | none => [] := by
  simp only [regId, gattOps]
  by_cases hb : offset ≠ 0 ∨ data.length ≠ proxyIdSize
  · simp only [if_pos hb]
    rfl
  · simp only [if_neg hb]
    by_cases hc : c = conn
    · simp [opsFor, GattOp.target, hc]
    · simp [opsFor, GattOp.target, hc]

theorem Registered.step (hr : Registered h s) (hd : Distinct s.gatt) (he : s.Enabled e) :
    Registered (h ++ [e]) (s.step p e).1 := by
  intro conn pc' hpc'
  rw [registration_snoc]
  obtain ⟨hsame, hl⟩ | ⟨i, rfl, -, rfl⟩ | ⟨pc, hpc, hl, rfl⟩ := slotOf_step_cases p hd he hpc'
  · have hkeep : regStep conn (registration conn h) e = registration conn h := by
      cases e with
      | connected c err =>
        refine if_neg ?_
        rintro ⟨rfl, h0⟩
        rw [slotOf_eq_none.mpr (he h0)] at hsame
        cases hsame
      | disconnected c =>
        refine if_neg ?_
        rintro rfl
        rw [show (s.step p (.disconnected c)).1.gatt = onDisconnected s.gatt c from rfl,
          slotOf_onDisconnected hd, if_pos rfl] at hpc'
        cases hpc'
      | _ => exact hl.elim
    rw [hkeep]
    exact hr conn pc' hsame
  · simp [regStep, ProxyConn.clear]
  · by_cases hw : ∃ c data offset, e = .nodeRegWrite c data offset
    · obtain ⟨c, data, offset, rfl⟩ := hw
      rw [opsFor_nodeReg]
      have hold := hr conn pc hpc
      simp only [regStep]
      cases regId data offset with
      | none => by_cases hc : c = conn <;> simpa [hc, ProxyConn.run] using hold
      | some id =>
        by_cases hc : c = conn
        · simp [hc, ProxyConn.run, GattOp.onSlot]
        · simpa [hc, ProxyConn.run] using hold
    · have hw' : ∀ c data offset, e ≠ .nodeRegWrite c data offset :=
        fun c data offset he => hw ⟨c, data, offset, he⟩
      rw [regStep_quiet conn _ hl hw']
      refine run_invariant p (I := fun pc => pc.proxyId = _) (fun op hop pc hpc => ?_) (hr conn pc hpc)
      refine (onSlot_proxyId p s.cache pc fun c id hreg => ?_).trans hpc
      have hop' := gattOps_stepOp p s e hl (mem_opsFor.mp hop).1
      rw [hreg] at hop'
      cases hop'
      exact hw ⟨_, _, _, rfl⟩

theorem registered_run {es : List (Event κ)} (ha : (proxyMachine p κ).Admits .boot es) :
    Registered es ((proxyMachine p κ).exec .boot es) := by
  have hrun : Inv ((proxyMachine p κ).exec .boot es) ∧
      Registered es ((proxyMachine p κ).exec .boot es) := by
    refine Machine.history_invariant (I := fun h s => Inv s ∧ Registered h s) (h := []) ?_ ha
      ⟨boot_inv, ?_⟩
    · exact fun h s e he hi => ⟨step_inv p hi.1 he, hi.2.step p hi.1.distinct he⟩
    · intro conn pc hpc
      rw [slotOf_boot] at hpc
      cases hpc
  exact hrun.2

theorem holds_iff {es : List (Event κ)} (ha : (proxyMachine p κ).Admits .boot es) {id : ProxyId}
    (hz : id ≠ Cells.zero) {i : Fin maxBleConnections} :
    Holds ((proxyMachine p κ).exec .boot es).gatt id i ↔
      ∃ conn, (((proxyMachine p κ).exec .boot es).gatt.conns i).conn = some conn ∧
        registration conn es = some id := by
  have hreg := registered_run p ha
  have hd : Distinct ((proxyMachine p κ).exec .boot es).gatt := (inv_reachable p ⟨es, ha, rfl⟩).distinct
  generalize (proxyMachine p κ).exec .boot es = s at hreg hd ⊢
  constructor
  · rintro ⟨hc, hid⟩
    obtain ⟨conn, hconn⟩ := Option.ne_none_iff_exists'.mp hc
    have hslot := hreg conn _ (hd.slotOf_eq.mpr ⟨i, hconn, rfl⟩)
    refine ⟨conn, hconn, ?_⟩
    cases hr : registration conn es with
    | none => simp [hr, hid, hz] at hslot
    | some id' => simp [hr, hid] at hslot; rw [hslot]
  · rintro ⟨conn, hconn, hr⟩
    have hslot := hreg conn _ (hd.slotOf_eq.mpr ⟨i, hconn, rfl⟩)
    exact ⟨by simp [hconn], by simpa [hr] using hslot⟩

-- ---------------------------------------------------------------------------
-- A registered phone and its messages
-- ---------------------------------------------------------------------------

/-- A message for `id` reaches a phone that registered it exactly when no
phone in an earlier slot has the same registration. -/
theorem registered_receives_iff (es : List (Event κ)) (ha : (proxyMachine p κ).Admits .boot es)
    (conn : κ) (i : Fin maxBleConnections)
    (hc : findSlot ((proxyMachine p κ).exec .boot es).gatt conn = some i)
    (id : ProxyId) (hz : id ≠ Cells.zero) (hreg : registration conn es = some id)
    (payload : List UInt8) (hlen : 1 ≤ payload.length ∧ payload.length ≤ 512)
    (hdr : ProxyHeader) (hp : proxyHeaderOf p payload = some hdr) (hdst : hdr.dst = id)
    (hroom : (((proxyMachine p κ).exec .boot es).gatt.conns i).queue.count < fromradioQueueDepth) :
    ((onFromradioUart p ((proxyMachine p κ).exec .boot es) payload).gatt.conns i).packets =
        (((proxyMachine p κ).exec .boot es).gatt.conns i).packets ++ [payload] ↔
      ∀ j < i, ∀ other, (((proxyMachine p κ).exec .boot es).gatt.conns j).conn = some other →
        registration other es ≠ some id := by
  have hr : ((proxyMachine p κ).exec .boot es).Reachable p := ⟨es, ha, rfl⟩
  have hholds (j : Fin maxBleConnections) := holds_iff p ha hz (i := j)
  generalize (proxyMachine p κ).exec .boot es = s at hc hroom hr hholds ⊢
  obtain ⟨k, hk⟩ := firstHolder_exists ⟨i, (hholds i).mpr ⟨conn, findSlot_conn hc, hreg⟩⟩
  have hguard : (Outcome.targeted k).Guard p s payload := ⟨hdr, hp, hdst ▸ hz, hdst ▸ hk⟩
  obtain ⟨gatt, hs, hgets, hothers⟩ := frame_effect p hr hlen.2 hguard
  rw [hs]
  constructor
  · intro hgot j hj other hother hreg'
    -- slot `i` is not the first holder, so the frame left it alone
    have hki : i ≠ k := by
      rintro rfl
      exact hk.2 j hj ((hholds j).mpr ⟨other, hother, hreg'⟩)
    rw [hothers i hki] at hgot
    simp at hgot
  · intro hnone
    have hik : FirstHolder s.gatt id i := by
      refine ⟨(hholds i).mpr ⟨conn, findSlot_conn hc, hreg⟩, fun j hj hh => ?_⟩
      obtain ⟨other, hother, hreg'⟩ := (hholds j).mp hh
      exact hnone j hj other hother hreg'
    obtain rfl := firstHolder_unique hk hik
    exact (hgets.room hroom).1

theorem registered_receives_second :
    (((onFromradioUart (packetPlatform 9) ((proxyMachine (packetPlatform 9) Nat).exec .boot
      registeredRun) (addressedFrame 7)).gatt.conns 1).packets = [addressedFrame 7]) := by
  have hiff := registered_receives_iff (packetPlatform 9) registeredRun (by decide) 2 1 (by decide)
    (ProxyId.ofBytes [0, 0, 0, 7] 0) (by decide) (by decide) (addressedFrame 7) (by decide)
    ⟨ProxyId.ofBytes [0, 0, 0, 9] 0, ProxyId.ofBytes [0, 0, 0, 7] 0, []⟩ (by rfl) rfl (by decide)
  exact hiff.mpr (by decide)

/-- A phone registers, its link stays up, and it comes back on a second link and
registers again. -/
def reconnectRun : List (Event Nat) :=
  mainSteps ++ shortBurst ++ [.connected 1 0, .nodeRegWrite 1 [0, 0, 0, 7] 0, .connected 2 0,
    .nodeRegWrite 2 [0, 0, 0, 7] 0]

theorem reconnected_misses :
    (proxyMachine (packetPlatform 9) Nat).Admits .boot reconnectRun ∧
    findSlot ((proxyMachine (packetPlatform 9) Nat).exec .boot reconnectRun).gatt 2 = some 1 ∧
    registration 2 reconnectRun = some (ProxyId.ofBytes [0, 0, 0, 7] 0) ∧
    ProxyId.ofBytes [0, 0, 0, 7] 0 ≠ Cells.zero ∧
    lastRegistrant (ProxyId.ofBytes [0, 0, 0, 7] 0) reconnectRun = some 2 ∧
    (proxyHeaderOf (packetPlatform 9) (addressedFrame 7)).map ProxyHeader.dst =
      some (ProxyId.ofBytes [0, 0, 0, 7] 0) ∧
    (((proxyMachine (packetPlatform 9) Nat).exec .boot reconnectRun).gatt.conns 1).queue.count <
      fromradioQueueDepth ∧
    ((onFromradioUart (packetPlatform 9) ((proxyMachine (packetPlatform 9) Nat).exec .boot
      reconnectRun) (addressedFrame 7)).gatt.conns 1).packets ≠
      (((proxyMachine (packetPlatform 9) Nat).exec .boot reconnectRun).gatt.conns 1).packets ++
        [addressedFrame 7] := by
  refine ⟨by decide, by decide, by decide, by decide, by decide, by decide, by decide, by decide⟩

-- ---------------------------------------------------------------------------
-- Nobody else gets them
-- ---------------------------------------------------------------------------

theorem frame_targeted (hp : proxyHeaderOf p payload = some hdr)
    (hg : bleGattGetConnByProxyId s.gatt hdr.dst = some conn) :
    onFromradioUart p s payload = { s with gatt := (bleGattEnqueueFromradio s.gatt conn payload).1 } := by
  have hpacket := proxyHeaderOf_packet p hp
  have hstep := onFromradioUart_step p s payload
  generalize onFromradioUart p s payload = s' at hstep ⊢
  cases hstep with
  | undecodable hnone =>
    have herr : protoDecodeFromradio p payload = .error .einval := by
      simp [protoDecodeFromradio, hnone]
    simp [proxyHeaderOf, herr] at hp
  | stored info hinfo hf hv hn => exact absurd ⟨info, hinfo, hv⟩ hpacket
  | closed hf hn =>
    obtain ⟨info, hinfo, hv⟩ := decodes_of_nonce p hn
    exact absurd ⟨info, hinfo, by simp [hv]⟩ hpacket
  | routed info hinfo h =>
    have hhdr : info.proxyHeader = some hdr := by simpa [proxyHeaderOf, hinfo] using hp
    obtain ⟨-, hq, -⟩ | ⟨hdr', conn', hroute, hp', hg'⟩ | ⟨-, -, hno⟩ := route_cases s info
    · exact absurd ⟨info, hinfo, by simp [hq]⟩ hpacket
    · obtain rfl : hdr = hdr' := Option.some.inj (hhdr.symm.trans hp')
      obtain rfl : conn = conn' := Option.some.inj (hg.symm.trans hg')
      rw [hroute]
      rfl
    · rw [hno hdr hhdr] at hg
      cases hg

theorem enqueue_enqueues (g : BleGatt κ) (conn : κ) (data : List UInt8) :
    enqueues (bleGattEnqueueFromradio g conn data).1.calls = enqueues g.calls ++ [(conn, data)] := by
  unfold bleGattEnqueueFromradio
  simp only
  repeat' split
  all_goals simp [enqueues, BleGatt.log, BleGatt.setSlot]

theorem lookup_registered {es : List (Event κ)} (ha : (proxyMachine p κ).Admits .boot es)
    {id : ProxyId} {conn : κ}
    (hg : bleGattGetConnByProxyId ((proxyMachine p κ).exec .boot es).gatt id = some conn) :
    findSlot ((proxyMachine p κ).exec .boot es).gatt conn ≠ none ∧
      registration conn es = some id := by
  obtain ⟨hz, i, hi, hc⟩ := getConnByProxyId_iff.mp hg
  obtain ⟨conn', hc', hreg⟩ := (holds_iff p ha hz).mp hi.1
  obtain rfl : conn = conn' := Option.some.inj (hc.symm.trans hc')
  exact ⟨fun hn => findSlot_eq_none.mp hn i hc, hreg⟩

/-- Whenever a frame is targeted, its one phone is connected and last
registered the destination; and a frame whose destination some connected
phone holds is enqueued to no phone with another registration. -/
theorem targeted_only_owner (es : List (Event κ)) (ha : (proxyMachine p κ).Admits .boot es) :
    (∀ payload hdr conn, proxyHeaderOf p payload = some hdr →
      bleGattGetConnByProxyId ((proxyMachine p κ).exec .boot es).gatt hdr.dst = some conn →
      onFromradioUart p ((proxyMachine p κ).exec .boot es) payload =
          { (proxyMachine p κ).exec .boot es with
            gatt := (bleGattEnqueueFromradio ((proxyMachine p κ).exec .boot es).gatt conn payload).1 } ∧
        findSlot ((proxyMachine p κ).exec .boot es).gatt conn ≠ none ∧
        registration conn es = some hdr.dst) ∧
    (∀ payload hdr, proxyHeaderOf p payload = some hdr → hdr.dst ≠ Cells.zero →
      (∃ owner, findSlot ((proxyMachine p κ).exec .boot es).gatt owner ≠ none ∧
        registration owner es = some hdr.dst) →
      ∃ copies, enqueues (onFromradioUart p ((proxyMachine p κ).exec .boot es) payload).gatt.calls =
          enqueues ((proxyMachine p κ).exec .boot es).gatt.calls ++ copies ∧
        ∀ c ∈ copies, registration c.1 es = some hdr.dst) := by
  refine ⟨fun payload hdr conn hp hg => ⟨frame_targeted p hp hg, lookup_registered p ha hg⟩, ?_⟩
  rintro payload hdr hp hz ⟨owner, hf, hreg⟩
  obtain ⟨i, hi⟩ := Option.ne_none_iff_exists'.mp hf
  have hholds := (holds_iff p ha hz).mpr ⟨owner, findSlot_conn hi, hreg⟩
  cases hg : bleGattGetConnByProxyId ((proxyMachine p κ).exec .boot es).gatt hdr.dst with
  | none =>
    obtain hz' | hno := getConnByProxyId_none.mp hg
    · exact absurd hz' hz
    · exact absurd hholds (hno i)
  | some conn =>
    rw [frame_targeted p hp hg]
    refine ⟨[(conn, payload)], enqueue_enqueues _ conn payload, ?_⟩
    intro c hc
    obtain rfl := List.mem_singleton.mp hc
    exact (lookup_registered p ha hg).2

theorem targeted_only_second :
    registration 2 registeredRun = some (ProxyId.ofBytes [0, 0, 0, 7] 0) ∧
    ∃ copies, enqueues (onFromradioUart (packetPlatform 9) ((proxyMachine (packetPlatform 9) Nat).exec
        .boot registeredRun) (addressedFrame 7)).gatt.calls =
        enqueues ((proxyMachine (packetPlatform 9) Nat).exec .boot registeredRun).gatt.calls ++ copies ∧
      ∀ c ∈ copies, registration c.1 registeredRun = some (ProxyId.ofBytes [0, 0, 0, 7] 0) := by
  refine ⟨by decide, ?_⟩
  exact (targeted_only_owner (packetPlatform 9) registeredRun (by decide)).2 (addressedFrame 7)
    ⟨ProxyId.ofBytes [0, 0, 0, 9] 0, ProxyId.ofBytes [0, 0, 0, 7] 0, []⟩ rfl (by decide)
    ⟨2, by decide, by decide⟩

end MeshProxy

import MeshProxy.OwnNodeInfo

/-!
# The measurement of the boot burst

`upstream_session.c` counts the bytes and frames of the burst by variant and
logs them when the cache is ready, so that the arena can be sized from a real
node. `phase0_measures` says what the numbers are worth: they add up, they
count every frame of the burst, also one that found no room, and they meet the
arena's own count exactly when nothing was dropped.
-/

namespace MeshProxy

variable {κ : Type} (p : Platform)

/-- Field numbers of the generated header that only the measurement uses. -/
structure FromRadioTags where
  myInfo : Nat
  deviceuiConfig : Nat
  metadata : Nat
  channel : Nat
  config : Nat
  moduleConfig : Nat
  fileInfo : Nat

structure Phase0Stats where
  totalBytes : UInt32 := 0
  myInfoBytes : UInt32 := 0
  deviceuiConfigBytes : UInt32 := 0
  nodeInfoBytes : UInt32 := 0
  nodeInfoCount : UInt16 := 0
  metadataBytes : UInt32 := 0
  channelBytes : UInt32 := 0
  channelCount : UInt16 := 0
  configBytes : UInt32 := 0
  configCount : UInt16 := 0
  moduleConfigBytes : UInt32 := 0
  moduleConfigCount : UInt16 := 0
  fileInfoBytes : UInt32 := 0
  fileInfoCount : UInt16 := 0
  queueStatusBytes : UInt32 := 0
  queueStatusCount : UInt16 := 0
  configCompleteId : UInt32 := 0
  otherBytes : UInt32 := 0
  otherCount : UInt16 := 0
  deriving DecidableEq, Repr

def phase0Reset : Phase0Stats := {}

variable (tags : FromRadioTags)

def phase0Account (st : Phase0Stats) (variant : FromRadioVariant) (len : Nat) : Phase0Stats :=
  let n := UInt32.ofNat len
  let st := { st with totalBytes := st.totalBytes + n }
  match variant with
  | .nodeInfo =>
    { st with nodeInfoBytes := st.nodeInfoBytes + n, nodeInfoCount := st.nodeInfoCount + 1 }
  | .queueStatus =>
    { st with queueStatusBytes := st.queueStatusBytes + n, queueStatusCount := st.queueStatusCount + 1 }
  | .packet | .configCompleteId =>
    { st with otherBytes := st.otherBytes + n, otherCount := st.otherCount + 1 }
  | .other tag =>
    if tag = tags.myInfo then { st with myInfoBytes := st.myInfoBytes + n }
    else if tag = tags.deviceuiConfig then
      { st with deviceuiConfigBytes := st.deviceuiConfigBytes + n }
    else if tag = tags.metadata then { st with metadataBytes := st.metadataBytes + n }
    else if tag = tags.channel then
      { st with channelBytes := st.channelBytes + n, channelCount := st.channelCount + 1 }
    else if tag = tags.config then
      { st with configBytes := st.configBytes + n, configCount := st.configCount + 1 }
    else if tag = tags.moduleConfig then
      { st with
        moduleConfigBytes := st.moduleConfigBytes + n, moduleConfigCount := st.moduleConfigCount + 1 }
    else if tag = tags.fileInfo then
      { st with fileInfoBytes := st.fileInfoBytes + n, fileInfoCount := st.fileInfoCount + 1 }
    else { st with otherBytes := st.otherBytes + n, otherCount := st.otherCount + 1 }

/-- The calls of `phase0_account` in `upstream_on_fromradio`. -/
def upstreamAccount (up : UpstreamSession κ) (st : Phase0Stats) (payload : List UInt8)
    (info : FromradioInfo) : Phase0Stats :=
  if up.state ≠ .fetching then st
  else if info.whichVariant = .packet then st
  else
    let st := phase0Account tags st info.whichVariant payload.length
    if info.whichVariant = .configCompleteId then
      match decodeConfigCompleteNonce p payload with
      | none => st
      | some gotNonce => if gotNonce ≠ up.nonce then st else { st with configCompleteId := gotNonce }
    else st

-- ---------------------------------------------------------------------------
-- The lines of the log
-- ---------------------------------------------------------------------------

/-- The lines of `log_phase0_breakdown`. -/
inductive Phase0Kind
  | myInfo
  | deviceuiConfig
  | nodeInfo
  | metadata
  | channel
  | config
  | moduleConfig
  | fileInfo
  | queueStatus
  | other
  deriving DecidableEq, Repr

namespace Phase0Stats

def bytes (st : Phase0Stats) : Phase0Kind → UInt32
  | .myInfo => st.myInfoBytes
  | .deviceuiConfig => st.deviceuiConfigBytes
  | .nodeInfo => st.nodeInfoBytes
  | .metadata => st.metadataBytes
  | .channel => st.channelBytes
  | .config => st.configBytes
  | .moduleConfig => st.moduleConfigBytes
  | .fileInfo => st.fileInfoBytes
  | .queueStatus => st.queueStatusBytes
  | .other => st.otherBytes

/-- Variants that come once a burst are not counted. -/
def frames (st : Phase0Stats) : Phase0Kind → Option UInt16
  | .myInfo | .deviceuiConfig | .metadata => none
  | .nodeInfo => some st.nodeInfoCount
  | .channel => some st.channelCount
  | .config => some st.configCount
  | .moduleConfig => some st.moduleConfigCount
  | .fileInfo => some st.fileInfoCount
  | .queueStatus => some st.queueStatusCount
  | .other => some st.otherCount

def breakdown (st : Phase0Stats) : UInt32 :=
  st.bytes .myInfo + st.bytes .deviceuiConfig + st.bytes .nodeInfo + st.bytes .metadata +
    st.bytes .channel + st.bytes .config + st.bytes .moduleConfig + st.bytes .fileInfo +
    st.bytes .queueStatus + st.bytes .other

end Phase0Stats

def phase0Kind : FromRadioVariant → Phase0Kind
  | .nodeInfo => .nodeInfo
  | .queueStatus => .queueStatus
  | .packet | .configCompleteId => .other
  | .other tag =>
    if tag = tags.myInfo then .myInfo
    else if tag = tags.deviceuiConfig then .deviceuiConfig
    else if tag = tags.metadata then .metadata
    else if tag = tags.channel then .channel
    else if tag = tags.config then .config
    else if tag = tags.moduleConfig then .moduleConfig
    else if tag = tags.fileInfo then .fileInfo
    else .other

theorem account_bytes (st : Phase0Stats) (variant : FromRadioVariant) (len : Nat) (k : Phase0Kind) :
    (phase0Account tags st variant len).bytes k =
      st.bytes k + if phase0Kind tags variant = k then UInt32.ofNat len else 0 := by
  unfold phase0Account phase0Kind
  cases variant with
  | other tag =>
    simp only
    repeat' split
    all_goals cases k <;> simp_all [Phase0Stats.bytes]
  | _ => cases k <;> simp [Phase0Stats.bytes]

theorem account_frames (st : Phase0Stats) (variant : FromRadioVariant) (len : Nat) (k : Phase0Kind) :
    (phase0Account tags st variant len).frames k =
      (st.frames k).map (· + if phase0Kind tags variant = k then 1 else 0) := by
  unfold phase0Account phase0Kind
  cases variant with
  | other tag =>
    simp only
    repeat' split
    all_goals cases k <;> simp_all [Phase0Stats.frames]
  | _ => cases k <;> simp [Phase0Stats.frames]

theorem account_total (st : Phase0Stats) (variant : FromRadioVariant) (len : Nat) :
    (phase0Account tags st variant len).totalBytes = st.totalBytes + UInt32.ofNat len := by
  unfold phase0Account
  cases variant with
  | other tag =>
    simp only
    repeat' split
    all_goals rfl
  | _ => rfl

-- ---------------------------------------------------------------------------
-- A list of frames
-- ---------------------------------------------------------------------------

def ofKind (k : Phase0Kind) (fs : List Frame) : List Frame :=
  fs.filter fun f => phase0Kind tags f.variant = k

theorem sum_ofKind (fs : List Frame) :
    (lengths fs).sum =
      (lengths (ofKind tags .myInfo fs)).sum + (lengths (ofKind tags .deviceuiConfig fs)).sum +
      (lengths (ofKind tags .nodeInfo fs)).sum + (lengths (ofKind tags .metadata fs)).sum +
      (lengths (ofKind tags .channel fs)).sum + (lengths (ofKind tags .config fs)).sum +
      (lengths (ofKind tags .moduleConfig fs)).sum + (lengths (ofKind tags .fileInfo fs)).sum +
      (lengths (ofKind tags .queueStatus fs)).sum + (lengths (ofKind tags .other fs)).sum := by
  induction fs with
  | nil => rfl
  | cons f fs ih =>
    have hcons (k : Phase0Kind) : (lengths (ofKind tags k (f :: fs))).sum =
        (if phase0Kind tags f.variant = k then f.bytes.length else 0) +
          (lengths (ofKind tags k fs)).sum := by
      unfold ofKind
      rw [List.filter_cons]
      by_cases hk : phase0Kind tags f.variant = k <;> simp [hk, lengths]
    have hsum : (lengths (f :: fs)).sum = f.bytes.length + (lengths fs).sum := rfl
    rw [hsum, ih]
    simp only [hcons]
    cases phase0Kind tags f.variant <;> simp only [reduceCtorEq, ↓reduceIte] <;> omega

structure Measures (fs : List Frame) (st : Phase0Stats) : Prop where
  total : st.totalBytes = UInt32.ofNat (lengths fs).sum
  bytes : ∀ k, st.bytes k = UInt32.ofNat (lengths (ofKind tags k fs)).sum
  frames : ∀ k n, st.frames k = some n → n = UInt16.ofNat (ofKind tags k fs).length

theorem measures_reset : Measures tags [] phase0Reset where
  total := rfl
  bytes k := by cases k <;> rfl
  frames k n h := by cases k <;> cases h <;> rfl

theorem Measures.account (h : Measures tags fs st) (f : Frame) :
    Measures tags (fs ++ [f]) (phase0Account tags st f.variant f.bytes.length) where
  total := by
    rw [account_total, h.total, ← UInt32.ofNat_add]
    simp [lengths]
  bytes k := by
    rw [account_bytes, h.bytes k, ofKind, ofKind, List.filter_append, List.filter_singleton]
    by_cases hk : phase0Kind tags f.variant = k
    · simp [hk, lengths, UInt32.ofNat_add]
    · simp [hk]
  frames k n hn := by
    rw [account_frames] at hn
    obtain ⟨m, hm, rfl⟩ := Option.map_eq_some_iff.mp hn
    rw [h.frames k m hm, ofKind, ofKind, List.filter_append, List.filter_singleton]
    by_cases hk : phase0Kind tags f.variant = k
    · simp [hk, UInt16.ofNat_add]
    · simp [hk]

theorem Measures.congr (h : Measures tags fs st) (nonce : UInt32) :
    Measures tags fs { st with configCompleteId := nonce } where
  total := h.total
  bytes k := by
    rw [← h.bytes k]
    cases k <;> rfl
  frames k n hn := by
    refine h.frames k n ?_
    rw [← hn]
    cases k <;> rfl

theorem Measures.adds_up (h : Measures tags fs st) : st.breakdown = st.totalBytes := by
  rw [h.total, sum_ofKind tags fs]
  simp only [Phase0Stats.breakdown, h.bytes, UInt32.ofNat_add]

-- ---------------------------------------------------------------------------
-- The proxy with its measurement
-- ---------------------------------------------------------------------------

structure Measured (κ : Type) where
  proxy : Proxy κ := {}
  p0 : Phase0Stats := {}

/-- What an event does to `s_p0`. The reset stands next to `cache_begin`. -/
def Proxy.measure (s : Proxy κ) (st : Phase0Stats) : Event κ → Phase0Stats
  | .mainStep =>
    match s.main with
    | .start (.cacheBegin _) => phase0Reset
    | _ => st
  | .uartFrame payload =>
    if s.fromradioCb then
      match protoDecodeFromradio p payload with
      | .error _ => st
      | .ok info => upstreamAccount p tags s.upstream st payload info
    else st
  | _ => st

/-- The frames that are counted: those the session consumes, and its own
terminator. -/
def measuredFrames (nonce : UInt32) (es : List (Event κ)) : List Frame :=
  sentFrames p nonce es ++
    ((payloads es).find? fun pl => decide (Terminates p nonce pl)).toList.filterMap (burstFrame p)

variable {s : Proxy κ} {e : Event κ} {st : Phase0Stats} {fs : List Frame} {nonce : UInt32}

theorem measure_fetching (hcb : s.fromradioCb = true) (hf : s.upstream.state = .fetching)
    (h : Measures tags fs st) (payload : List UInt8) :
    Measures tags (fs ++ (burstFrame p payload).toList)
      (s.measure p tags st (.uartFrame payload)) := by
  simp only [Proxy.measure, hcb, ↓reduceIte, burstFrame]
  cases protoDecodeFromradio p payload with
  | error err => simpa using h
  | ok info =>
    simp only [upstreamAccount, hf, ne_eq, not_true_eq_false, ↓reduceIte]
    by_cases hv : info.whichVariant = .packet
    · simpa [hv] using h
    · simp only [hv, not_false_eq_true, ↓reduceIte, Option.toList_some]
      have hone := h.account tags ⟨payload, info.whichVariant⟩
      repeat' split
      all_goals first | exact hone | exact hone.congr tags _

theorem measure_live (hl : s.upstream.state = .live) (payload : List UInt8) :
    s.measure p tags st (.uartFrame payload) = st := by
  simp only [Proxy.measure, upstreamAccount, hl]
  repeat' split
  all_goals first | rfl | simp_all

theorem measuredFrames_open {es : List (Event κ)} (hno : ∀ pl ∈ payloads es, ¬ Terminates p nonce pl)
    (payload : List UInt8) :
    measuredFrames p nonce (es ++ [.uartFrame payload]) =
      measuredFrames p nonce es ++ (burstFrame p payload).toList := by
  have hall : (payloads es).takeWhile (fun pl => !decide (Terminates p nonce pl)) = payloads es :=
    List.takeWhile_eq_self_iff.mpr fun pl hpl => by simpa using hno pl hpl
  have hnone : (payloads es).find? (fun pl => decide (Terminates p nonce pl)) = none :=
    List.find?_eq_none.mpr fun pl hpl => by simpa using hno pl hpl
  simp only [measuredFrames, sentFrames, payloads_frame, List.takeWhile_append, hall, ↓reduceIte,
    List.find?_append, hnone, Option.none_or, Option.toList_none, List.filterMap_nil, List.append_nil]
  have hone : [payload].filterMap (burstFrame p) = (burstFrame p payload).toList := by
    cases hf : burstFrame p payload <;> simp [hf]
  by_cases ht : Terminates p nonce payload
  · simp [ht, hone]
  · simp [ht, hone]

theorem measuredFrames_closed {es : List (Event κ)} (hterm : ∃ pl ∈ payloads es, Terminates p nonce pl)
    (payload : List UInt8) :
    measuredFrames p nonce (es ++ [.uartFrame payload]) = measuredFrames p nonce es := by
  obtain ⟨pl, hpl, ht⟩ := hterm
  have hsent : sentFrames p nonce (es ++ [.uartFrame payload]) = sentFrames p nonce es :=
    sentFrames_closed p ⟨pl, by rw [payloads_frame]; exact List.mem_append_left _ hpl, ht⟩
  have hsome : ((payloads es).find? fun pl => decide (Terminates p nonce pl)).isSome :=
    List.find?_isSome.mpr ⟨pl, hpl, decide_eq_true ht⟩
  obtain ⟨t, hfound⟩ := Option.isSome_iff_exists.mp hsome
  rw [measuredFrames, hsent, payloads_frame, List.find?_append, hfound, measuredFrames, hfound]
  rfl

variable [DecidableEq κ]

def measuredMachine (κ : Type) [DecidableEq κ] : Machine (Measured κ) (Event κ) Reply where
  enabled m e := (proxyMachine p κ).enabled m.proxy e
  step m e :=
    ({ proxy := (m.proxy.step p e).1, p0 := m.proxy.measure p tags m.p0 e }, (m.proxy.step p e).2)

instance (m : Measured κ) (e : Event κ) : Decidable ((measuredMachine p tags κ).enabled m e) :=
  inferInstanceAs (Decidable (m.proxy.Enabled e))

theorem measured_simulates :
    (measuredMachine p tags κ).Simulates (proxyMachine p κ) (fun _ => True) Measured.proxy :=
  fun _ _ he _ => ⟨trivial, he, rfl⟩

structure Counting (nonce : UInt32) (h : List (Event κ)) (m : Measured κ) : Prop where
  captured : Captured p nonce h m.proxy
  measures : Measures tags (measuredFrames p nonce h) m.p0

theorem step_counting {m : Measured κ} (hc : Counting p tags nonce h m) (he : m.proxy.Enabled e) :
    Counting p tags nonce (h ++ [e]) ((measuredMachine p tags κ).next m e) where
  captured := step_captured p hc.captured he
  measures := by
    have hfetch := hc.captured.fetch
    cases e with
    | uartFrame payload =>
      by_cases hterm : ∃ pl ∈ payloads h, Terminates p nonce pl
      · have hsame : ((measuredMachine p tags κ).next m (.uartFrame payload)).p0 = m.p0 :=
          measure_live p tags (hfetch.closed hterm) payload
        rw [measuredFrames_closed p hterm, hsame]
        exact hc.measures
      · have hno : ∀ pl ∈ payloads h, ¬ Terminates p nonce pl := fun pl hpl ht => hterm ⟨pl, hpl, ht⟩
        rw [measuredFrames_open p hno]
        exact measure_fetching p tags hfetch.receiving (hfetch.opened hno).1 hc.measures payload
    | mainStep =>
      have hsame : ((measuredMachine p tags κ).next m .mainStep).p0 = m.p0 := by
        rcases hfetch.main with hm | hm <;> simp [Machine.next, measuredMachine, Proxy.measure, hm]
      rw [measuredFrames, sentFrames_quiet p (by simp), payloads_quiet (by simp), hsame]
      exact hc.measures
    | _ =>
      rw [measuredFrames, sentFrames_quiet p (by simp), payloads_quiet (by simp)]
      exact hc.measures

-- ---------------------------------------------------------------------------
-- Runs
-- ---------------------------------------------------------------------------

def Uncounted (m : Measured κ) : Prop := m.proxy.upstream.state = .boot → m.p0 = phase0Reset

theorem step_uncounted {m : Measured κ} (h : Uncounted m) (e : Event κ) :
    Uncounted ((measuredMachine p tags κ).next m e) := by
  intro hboot
  have hbefore : m.proxy.upstream.state = .boot := by
    have hboot : (m.proxy.step p e).1.upstream.state = .boot := hboot
    cases step_session p m.proxy e with
    | same _ hst | reset _ _ _ hst => exact hst ▸ hboot
    | parked conn _ _ hup => rwa [hup, (parkSession_quiet m.proxy conn m.proxy.gatt).state] at hboot
    | fetching _ _ hst | closed _ hst => cases hst.symm.trans hboot
  have hzero := h hbefore
  simp only [Machine.next, measuredMachine]
  cases e with
  | mainStep =>
    simp only [Proxy.measure]
    split
    · rfl
    · exact hzero
  | uartFrame payload =>
    simp only [Proxy.measure, upstreamAccount, hbefore]
    repeat' split
    all_goals first | exact hzero | simp_all
  | _ => exact hzero

theorem foldl_store_sublist (fs sent : List Frame) : (sent.foldl store fs).Sublist (fs ++ sent) := by
  induction sent generalizing fs with
  | nil => exact (List.append_nil fs).symm ▸ List.Sublist.refl fs
  | cons f sent ih =>
    rw [List.foldl_cons, store]
    split
    · have hrest := ih (fs ++ [f])
      rwa [List.append_assoc] at hrest
    · exact (ih fs).trans ((List.sublist_cons_self f sent).append_left fs)

theorem lengths_sublist {fs gs : List Frame} (h : fs.Sublist gs) (hpos : ∀ f ∈ gs, 1 ≤ f.bytes.length) :
    (lengths fs).sum ≤ (lengths gs).sum ∧ ((lengths fs).sum = (lengths gs).sum ↔ fs = gs) := by
  induction h with
  | slnil => exact ⟨Nat.le_refl _, iff_of_true rfl rfl⟩
  | cons g hsub ih =>
    obtain ⟨hle, -⟩ := ih fun f hf => hpos f (List.mem_cons_of_mem _ hf)
    have hg := hpos g List.mem_cons_self
    simp only [lengths, List.map_cons, List.sum_cons] at hle ⊢
    refine ⟨by omega, iff_of_false (by omega) ?_⟩
    rintro rfl
    exact absurd hsub.length_le (by simp)
  | cons_cons g _ ih =>
    obtain ⟨hle, hiff⟩ := ih fun f hf => hpos f (List.mem_cons_of_mem _ hf)
    simp only [lengths, List.map_cons, List.sum_cons, List.cons.injEq, true_and] at hle hiff ⊢
    exact ⟨by omega, by rw [← hiff]; omega⟩

theorem payloads_nonempty (ha : (proxyMachine p κ).Admits s es) :
    ∀ pl ∈ payloads es, 1 ≤ pl.length := by
  induction es generalizing s with
  | nil =>
    intro pl hpl
    cases hpl
  | cons e es ih =>
    have hrest := ih ha.2
    cases e with
    | uartFrame payload =>
      intro pl hpl
      rcases List.mem_cons.mp hpl with rfl | hpl
      · exact ha.1.1
      · exact hrest pl hpl
    | _ => exact hrest

theorem sentFrames_nonempty (ha : (proxyMachine p κ).Admits s es) :
    ∀ f ∈ sentFrames p nonce es, 1 ≤ f.bytes.length := by
  intro f hf
  obtain ⟨pl, hpl, hb⟩ := List.mem_filterMap.mp hf
  have hlen := payloads_nonempty p ha pl (List.takeWhile_subset _ hpl)
  unfold burstFrame at hb
  split at hb
  · split at hb
    · cases hb
      exact hlen
    · cases hb
  · cases hb

theorem counting_start {pre : List (Event κ)} (hpre : (measuredMachine p tags κ).Admits {} pre)
    (hm : ((measuredMachine p tags κ).exec {} pre).proxy.main = .start .setFetching) :
    Counting p tags ((measuredMachine p tags κ).exec {} pre).proxy.upstream.nonce []
      ((measuredMachine p tags κ).next ((measuredMachine p tags κ).exec {} pre) .mainStep) := by
  obtain ⟨hpre', hexec, -⟩ := (measured_simulates p tags).exec hpre trivial
  have hun : Uncounted ((measuredMachine p tags κ).exec {} pre) :=
    Machine.invariant (fun m e _ h => step_uncounted p tags h e) hpre fun _ => rfl
  generalize (measuredMachine p tags κ).exec {} pre = m at hm hexec hun ⊢
  have hr : m.proxy.Reachable p := ⟨pre, hpre', hexec⟩
  have hnone : (proxyMachine p κ).Admits ((proxyMachine p κ).next m.proxy .mainStep) [] := trivial
  refine ⟨exec_captured p hr hm hnone, ?_⟩
  have hzero := hun ((inv_reachable p hr).phase.early (by rw [hm]; trivial))
  have hp0 : ((measuredMachine p tags κ).next m .mainStep).p0 = phase0Reset := by
    simp [Machine.next, measuredMachine, Proxy.measure, hm, hzero]
  rw [hp0]
  exact measures_reset tags

/-- The measurement in any run, from the moment the session is set to FETCHING.
Every line is the number of bytes and frames of its variants among all frames
of the burst, the lines add up to the total, and the arena holds as many bytes
as the frames before the terminator have exactly when it holds those frames. -/
theorem phase0_measures (pre es : List (Event κ))
    (ha : (measuredMachine p tags κ).Admits {} (pre ++ .mainStep :: es))
    (hm : ((measuredMachine p tags κ).exec {} pre).proxy.main = .start .setFetching) :
    let m := (measuredMachine p tags κ).exec {} (pre ++ .mainStep :: es)
    let own := ((measuredMachine p tags κ).exec {} pre).proxy.upstream.nonce
    let sent := sentFrames p own es
    Measures tags (measuredFrames p own es) m.p0 ∧ m.p0.breakdown = m.p0.totalBytes ∧
      m.proxy.cache.used ≤ (lengths sent).sum ∧
      (m.proxy.cache.used = (lengths sent).sum ↔ m.proxy.cache.frames = sent) := by
  intro m own sent
  obtain ⟨hpre, hstart, hes⟩ := (measuredMachine p tags κ).along_append.mp ha
  obtain ⟨hes', -, -⟩ := (measured_simulates p tags).exec hes trivial
  have hcount : Counting p tags own es m := by
    have hm' : m = (measuredMachine p tags κ).exec ((measuredMachine p tags κ).next
        ((measuredMachine p tags κ).exec {} pre) .mainStep) es := Machine.exec_append _ _ _ _
    rw [hm']
    exact Machine.history_invariant (I := Counting p tags own)
      (fun _ _ _ he h => step_counting p tags h he) hes (counting_start p tags hpre hm)
  have hpos : ∀ f ∈ sent, 1 ≤ f.bytes.length := sentFrames_nonempty p hes'
  obtain ⟨hle, hiff⟩ := lengths_sublist (foldl_store_sublist [] sent) hpos
  have hframes : m.proxy.cache.frames = sent.foldl store [] := hcount.captured.frames
  have hused : (lengths m.proxy.cache.frames).sum = m.proxy.cache.used :=
    hcount.captured.fetch.inv.cacheWf.used_eq
  rw [← hused, hframes]
  exact ⟨hcount.measures, hcount.measures.adds_up, hle, hiff⟩

def meshtasticTags : FromRadioTags where
  myInfo := 3
  deviceuiConfig := 17
  metadata := 13
  channel := 10
  config := 5
  moduleConfig := 9
  fileInfo := 15

theorem phase0_measures_channels :
    let m := (measuredMachine (wirePlatform 9) meshtasticTags Nat).exec {} (sentRun ++ .mainStep ::
      [.uartFrame [0x1A, 0], .uartFrame [0x52, 0], .uartFrame [0x12, 0], .uartFrame [0x52, 0],
        .uartFrame [0x38, 9]])
    m.p0.channelBytes = 4 ∧ m.p0.totalBytes = 8 ∧ m.proxy.cache.used = 6 := by
  intro m
  obtain ⟨hmeasures, -, -, hiff⟩ := phase0_measures (wirePlatform 9) meshtasticTags sentRun
    [.uartFrame [0x1A, 0], .uartFrame [0x52, 0], .uartFrame [0x12, 0], .uartFrame [0x52, 0],
      .uartFrame [0x38, 9]] (by decide) (by decide)
  refine ⟨(hmeasures.bytes .channel).trans (by decide), hmeasures.total.trans (by decide), ?_⟩
  exact (hiff.mpr (by decide)).trans (by decide)

end MeshProxy

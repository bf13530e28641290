import MeshProxy.ConfigCache
import MeshProxy.Lib.Machine

/-!
# The arena as a list of frames

`cacheMachine` is the cache on its own, driven by `cacheBegin` and
`cacheAddFrame` in any order. `Represents` ties its arena, its index and its
two remembered positions to the list of the frames it accepted since the last
`cacheBegin`. Every call keeps it, so every run does.
-/

namespace MeshProxy

inductive CacheEvent
  | begin
  | add (raw : List UInt8) (variant : FromRadioVariant)
  deriving DecidableEq, Repr

def cacheMachine : Machine ConfigCache CacheEvent (Except Errno Unit) where
  enabled _ _ := True
  step c
    | .begin => (cacheBegin c, .ok ())
    | .add raw variant => cacheAddFrame c raw variant

def keep (fs : List Frame) : CacheEvent → Except Errno Unit → List Frame
  | .begin, _ => []
  | .add raw variant, .ok () => fs ++ [⟨raw, variant⟩]
  | .add _ _, .error _ => fs

/-- The frames accepted since the last `cacheBegin`, read off the calls and
their results. -/
def acceptedFrames (fs : List Frame) (es : List CacheEvent) (rs : List (Except Errno Unit)) :
    List Frame :=
  (es.zip rs).foldl (fun fs er => keep fs er.1 er.2) fs

-- ---------------------------------------------------------------------------
-- The representation
-- ---------------------------------------------------------------------------

def Frame.isNodeInfo (f : Frame) : Bool := f.variant = .nodeInfo

def Frame.isQueueStatus (f : Frame) : Bool := f.variant = .queueStatus

def offsetAt (fs : List Frame) (i : Nat) : Nat := ((fs.take i).map fun f => f.bytes.length).sum

def lastStatus (fs : List Frame) : Option Frame := (fs.filter Frame.isQueueStatus).getLast?

def firstNodeInfo (fs : List Frame) : Option Nat := fs.findIdx? Frame.isNodeInfo

/-- A remembered position, with the source's `-1` for none. -/
def idxOf (i : Option Nat) : Int := i.elim (-1) Int.ofNat

def StatusAt (idx : Int) (fs : List Frame) : Prop :=
  match lastStatus fs with
  | none => idx = -1
  | some f => ∃ i : Nat, idx = i ∧ fs[i]? = some f

/-- The arena and the index hold the frames of `fs`, packed in order. -/
structure Represents (c : ConfigCache) (fs : List Frame) : Prop where
  count : c.count = fs.length
  count_le : c.count ≤ configCacheMaxFrames
  used : c.used = offsetAt fs fs.length
  used_le : c.used ≤ configCacheArenaBytes
  entry : ∀ i f, fs[i]? = some f → c.index.read i = ⟨offsetAt fs i, f.bytes.length, f.variant⟩
  bytes : ∀ i f, fs[i]? = some f → c.arena.slice (offsetAt fs i) f.bytes.length = f.bytes
  status : StatusAt c.queuestatusIdx fs
  own : c.ownNodeinfoIdx = idxOf (firstNodeInfo fs)

variable {c : ConfigCache} {fs : List Frame} {raw : List UInt8} {v : FromRadioVariant}

theorem offsetAt_length (fs : List Frame) :
    offsetAt fs fs.length = (fs.map fun f => f.bytes.length).sum := by
  rw [offsetAt, List.take_length]

theorem offsetAt_succ (h : fs[i]? = some f) : offsetAt fs (i + 1) = offsetAt fs i + f.bytes.length := by
  rw [offsetAt, offsetAt, List.take_add_one, h]
  simp

theorem offsetAt_append (fs gs : List Frame) (h : i ≤ fs.length) :
    offsetAt (fs ++ gs) i = offsetAt fs i := by
  rw [offsetAt, offsetAt, List.take_append_of_le_length h]

theorem offsetAt_le (h : fs[i]? = some f) : offsetAt fs i + f.bytes.length ≤ offsetAt fs fs.length := by
  rw [← offsetAt_succ h, offsetAt_length]
  calc offsetAt fs (i + 1)
      ≤ ((fs.take (i + 1)).map fun f => f.bytes.length).sum +
          ((fs.drop (i + 1)).map fun f => f.bytes.length).sum := Nat.le_add_right _ _
    _ = (fs.map fun f => f.bytes.length).sum := by
        rw [← List.sum_append, ← List.map_append, List.take_append_drop]

namespace Represents

theorem frame_eq (h : Represents c fs) (hf : fs[i]? = some f) : c.frame i = f := by
  simp only [ConfigCache.frame, cacheFrameBytes, h.entry i f hf, h.bytes i f hf]

theorem frames (h : Represents c fs) : c.frames = fs := by
  apply List.ext_getElem?
  intro i
  rcases Nat.lt_or_ge i fs.length with hi | hi
  · have hframe : c.frame i = fs[i] := h.frame_eq (List.getElem?_eq_getElem hi)
    simp [ConfigCache.frames, h.count, hi, hframe]
  · simp [ConfigCache.frames, h.count, hi]

theorem self (h : Represents c fs) : Represents c c.frames := by
  rw [h.frames]
  exact h

theorem wf (h : Represents c fs) : c.Wf where
  count_le := h.count_le
  used_le := h.used_le
  entry_le := by
    intro i hi
    rw [h.count] at hi
    have hf : fs[i]? = some fs[i] := List.getElem?_eq_getElem hi
    rw [h.entry i _ hf, h.used]
    exact offsetAt_le hf
  used_eq := by rw [h.frames, h.used, offsetAt_length]

-- ---------------------------------------------------------------------------
-- One call
-- ---------------------------------------------------------------------------

theorem empty (c : ConfigCache) : Represents (cacheBegin c) [] where
  count := rfl
  count_le := Nat.zero_le _
  used := rfl
  used_le := Nat.zero_le _
  entry := by simp
  bytes := by simp
  status := rfl
  own := rfl

theorem markReady (h : Represents c fs) : Represents (cacheMarkReady c) fs :=
  ⟨h.count, h.count_le, h.used, h.used_le, h.entry, h.bytes, h.status, h.own⟩

theorem fits_iff (h : Represents c fs) :
    Fits fs raw ↔ c.count < configCacheMaxFrames ∧ c.used + raw.length ≤ configCacheArenaBytes := by
  rw [← MeshProxy.fits_iff h.wf, h.frames]

theorem rejects (h : Represents c fs) (hf : ¬ Fits fs raw) :
    cacheAddFrame c raw v = (c, .error .enomem) :=
  cacheAddFrame_rejects h.wf (by rwa [h.frames])

theorem cursors (h : Represents c fs) (hf : Fits fs raw) :
    (cacheAddFrame c raw v).2 = .ok () ∧
      (cacheAddFrame c raw v).1.queuestatusIdx =
        (if v = .queueStatus then (c.count : Int) else c.queuestatusIdx) ∧
      (cacheAddFrame c raw v).1.ownNodeinfoIdx =
        (if v = .nodeInfo ∧ c.ownNodeinfoIdx < 0 then (c.count : Int) else c.ownNodeinfoIdx) := by
  obtain ⟨hc, hu⟩ := h.fits_iff.mp hf
  unfold cacheAddFrame
  rw [if_neg (by omega), if_neg (by omega)]
  exact ⟨rfl, rfl, rfl⟩

theorem status_snoc (h : Represents c fs) :
    StatusAt (if v = .queueStatus then (c.count : Int) else c.queuestatusIdx) (fs ++ [⟨raw, v⟩]) := by
  unfold StatusAt
  by_cases hv : v = .queueStatus
  · have hlast : lastStatus (fs ++ [⟨raw, v⟩]) = some ⟨raw, v⟩ := by
      simp [lastStatus, Frame.isQueueStatus, hv]
    rw [hlast]
    exact ⟨fs.length, by rw [if_pos hv, h.count], by simp⟩
  · have hlast : lastStatus (fs ++ [⟨raw, v⟩]) = lastStatus fs := by
      simp [lastStatus, Frame.isQueueStatus, hv]
    have hold := h.status
    unfold StatusAt at hold
    rw [hlast, if_neg hv]
    cases hs : lastStatus fs with
    | none =>
      rw [hs] at hold
      exact hold
    | some f =>
      rw [hs] at hold
      obtain ⟨i, hi, hf⟩ := hold
      exact ⟨i, hi, List.getElem?_append_left (List.getElem?_eq_some_iff.mp hf).1 ▸ hf⟩

theorem own_snoc (h : Represents c fs) :
    (if v = .nodeInfo ∧ c.ownNodeinfoIdx < 0 then (c.count : Int) else c.ownNodeinfoIdx) =
      idxOf (firstNodeInfo (fs ++ [⟨raw, v⟩])) := by
  have hfirst : firstNodeInfo (fs ++ [⟨raw, v⟩]) =
      (firstNodeInfo fs).or (if v = .nodeInfo then some fs.length else none) := by
    by_cases hv : v = .nodeInfo
    · simp [firstNodeInfo, List.findIdx?_append, Frame.isNodeInfo, hv]
    · simp [firstNodeInfo, List.findIdx?_append, Frame.isNodeInfo, hv]
  rw [hfirst, h.own, h.count]
  cases firstNodeInfo fs with
  | none => by_cases hv : v = .nodeInfo <;> simp [idxOf, hv]
  | some i =>
    have hpos : ¬ ((i : Int) < 0) := by omega
    simp [idxOf, hpos]

theorem entry_snoc (h : Represents c fs) (hi : (fs ++ [g])[i]? = some f) :
    (i < c.count ∧ fs[i]? = some f ∧ offsetAt (fs ++ [g]) i = offsetAt fs i) ∨
      (i = c.count ∧ f = g ∧ offsetAt (fs ++ [g]) i = c.used) := by
  have hlt := (List.getElem?_eq_some_iff.mp hi).1
  rw [List.length_append, List.length_singleton] at hlt
  rw [h.count]
  rcases Nat.lt_succ_iff_lt_or_eq.mp hlt with hlt | rfl
  · rw [List.getElem?_append_left hlt] at hi
    exact .inl ⟨hlt, hi, offsetAt_append fs _ (Nat.le_of_lt hlt)⟩
  · refine .inr ⟨rfl, by simpa using hi.symm, ?_⟩
    rw [offsetAt_append fs _ (Nat.le_refl _), h.used]

theorem accepts (h : Represents c fs) (hf : Fits fs raw) :
    Represents (cacheAddFrame c raw v).1 (fs ++ [⟨raw, v⟩]) := by
  obtain ⟨hc, hu⟩ := h.fits_iff.mp hf
  obtain ⟨-, hstatus, hown⟩ := h.cursors (v := v) hf
  have ha : Appended c (cacheAddFrame c raw v).1 raw v :=
    cacheAddFrame_fits h.wf (by rwa [h.frames])
  have hend : offsetAt (fs ++ [⟨raw, v⟩]) (fs ++ [(⟨raw, v⟩ : Frame)]).length =
      c.used + raw.length := by
    rw [offsetAt_length, h.used, offsetAt_length]
    simp
  refine ⟨?_, ?_, ?_, ?_, ?_, ?_, ?_, ?_⟩
  · simp [ha.count, h.count]
  · rw [ha.count]
    exact hc
  · rw [ha.used, hend]
  · rw [ha.used]
    exact hu
  · intro i f hi
    rcases h.entry_snoc hi with ⟨hlt, hold, hoff⟩ | ⟨rfl, rfl, hoff⟩
    · rw [ha.index_old hlt, h.entry i f hold, hoff]
    · rw [ha.index_new hc, hoff]
  · intro i f hi
    rcases h.entry_snoc hi with ⟨hlt, hold, hoff⟩ | ⟨rfl, rfl, hoff⟩
    · have hbelow : offsetAt fs i + f.bytes.length ≤ c.used := h.used ▸ offsetAt_le hold
      rw [ha.arena, hoff, Cells.slice_memcpy_disjoint _ _ (.inl hbelow), h.bytes i f hold]
    · rw [ha.arena, hoff, Cells.slice_memcpy _ _ hu]
  · rw [hstatus]
    exact h.status_snoc
  · rw [hown]
    exact h.own_snoc

/-- The cache follows the greedy policy. -/
theorem add (h : Represents c fs) : Represents (cacheAddFrame c raw v).1 (store fs ⟨raw, v⟩) := by
  unfold store
  split
  · rename_i hf
    exact h.accepts hf
  · rename_i hf
    rw [h.rejects hf]
    exact h

theorem step (h : Represents c fs) (e : CacheEvent) :
    Represents (cacheMachine.next c e) (keep fs e (cacheMachine.step c e).2) := by
  cases e with
  | begin => exact empty c
  | add raw v =>
    simp only [Machine.next, cacheMachine]
    by_cases hf : Fits fs raw
    · rw [(h.cursors hf).1]
      exact h.accepts hf
    · rw [h.rejects hf]
      exact h

theorem run (h : Represents c fs) (es : List CacheEvent) :
    Represents (cacheMachine.exec c es) (acceptedFrames fs es (cacheMachine.outs c es)) := by
  induction es generalizing c fs with
  | nil => exact h
  | cons e es ih => exact ih (h.step e)

end Represents

-- ---------------------------------------------------------------------------
-- What the accessors show
-- ---------------------------------------------------------------------------

/-- The readers of the cache see the frames of `fs`, packed from the start of
the arena without a gap. -/
structure ListView (c : ConfigCache) (fs : List Frame) : Prop where
  count : cacheFrameCount c = fs.length
  count_le : fs.length ≤ 128
  frame : ∀ i f, fs[i]? = some f → ∃ ref, cacheFrameAt c i = some ref ∧
    ref.len = f.bytes.length ∧ ref.variant = f.variant ∧ cacheFrameBytes c ref = f.bytes
  past : ∀ i, fs.length ≤ i → cacheFrameAt c i = none
  first : ∀ ref, cacheFrameAt c 0 = some ref → ref.offset = 0
  consecutive : ∀ i ref ref', cacheFrameAt c i = some ref → cacheFrameAt c (i + 1) = some ref' →
    ref'.offset = ref.offset + ref.len
  last : ∀ i ref, cacheFrameAt c i = some ref → i + 1 = fs.length → ref.offset + ref.len = c.used
  used : c.used = (fs.map fun f => f.bytes.length).sum
  used_le : c.used ≤ 4096
  queuestatus : cacheGetQueuestatus c = (lastStatus fs).map Frame.bytes

namespace Represents

theorem frameAt (h : Represents c fs) (hi : fs[i]? = some f) :
    cacheFrameAt c i = some ⟨offsetAt fs i, f.bytes.length, f.variant⟩ := by
  have hlt : i < fs.length := (List.getElem?_eq_some_iff.mp hi).1
  rw [← h.count] at hlt
  rw [cacheFrameAt, if_neg (Nat.not_le.mpr hlt), h.entry i f hi]

theorem frameAt_none (h : Represents c fs) (hi : fs.length ≤ i) : cacheFrameAt c i = none := by
  rw [cacheFrameAt, if_pos (h.count ▸ hi)]

theorem frameAt_some (h : Represents c fs) (hi : cacheFrameAt c i = some ref) :
    ∃ f, fs[i]? = some f ∧ ref = ⟨offsetAt fs i, f.bytes.length, f.variant⟩ := by
  rcases Nat.lt_or_ge i fs.length with hlt | hge
  · have hf : fs[i]? = some fs[i] := List.getElem?_eq_getElem hlt
    rw [h.frameAt hf] at hi
    exact ⟨_, hf, (Option.some.inj hi).symm⟩
  · rw [h.frameAt_none hge] at hi
    cases hi

theorem queuestatus (h : Represents c fs) :
    cacheGetQueuestatus c = (lastStatus fs).map Frame.bytes := by
  have hs := h.status
  unfold StatusAt at hs
  cases hl : lastStatus fs with
  | none =>
    rw [hl] at hs
    simp only at hs
    simp [cacheGetQueuestatus, hs]
  | some f =>
    rw [hl] at hs
    obtain ⟨i, hi, hf⟩ := hs
    have hpos : ¬ ((i : Int) < 0) := by omega
    simp [cacheGetQueuestatus, hi, hpos, h.entry i f hf, h.bytes i f hf]

theorem view (h : Represents c fs) : ListView c fs where
  count := h.count
  count_le := h.count ▸ h.count_le
  frame := fun i f hi => ⟨_, h.frameAt hi, rfl, rfl, h.bytes i f hi⟩
  past := fun i hi => h.frameAt_none hi
  first := by
    intro ref href
    obtain ⟨f, -, rfl⟩ := h.frameAt_some href
    rfl
  consecutive := by
    intro i ref ref' href href'
    obtain ⟨f, hf, rfl⟩ := h.frameAt_some href
    obtain ⟨f', -, rfl⟩ := h.frameAt_some href'
    exact offsetAt_succ hf
  last := by
    intro i ref href hlast
    obtain ⟨f, hf, rfl⟩ := h.frameAt_some href
    rw [h.used, ← hlast, offsetAt_succ hf]
  used := by rw [h.used, offsetAt_length]
  used_le := h.used_le
  queuestatus := h.queuestatus

end Represents

/-- After any calls the cache shows the frames it accepted since the last
`cacheBegin`; the next frame is accepted exactly when both limits allow it, and
a rejected one changes nothing. -/
theorem cache_refines_list (es : List CacheEvent) :
    let c := cacheMachine.exec {} es
    ListView c (acceptedFrames [] es (cacheMachine.outs {} es)) ∧
      ∀ raw v,
        ((cacheAddFrame c raw v).2 = .ok () ↔ c.count < 128 ∧ c.used + raw.length ≤ 4096) ∧
        ((cacheAddFrame c raw v).2 ≠ .ok () → (cacheAddFrame c raw v).1 = c) := by
  intro c
  have h : Represents c (acceptedFrames [] es (cacheMachine.outs {} es)) :=
    (Represents.empty {}).run es
  refine ⟨h.view, ?_⟩
  intro raw v
  by_cases hf : Fits (acceptedFrames [] es (cacheMachine.outs {} es)) raw
  · have hok := (h.cursors (v := v) hf).1
    exact ⟨iff_of_true hok (h.fits_iff.mp hf), fun hne => absurd hok hne⟩
  · rw [h.rejects hf]
    exact ⟨iff_of_false (by simp) (fun hlim => hf (h.fits_iff.mpr hlim)), fun _ => rfl⟩

def filledRun : List CacheEvent :=
  [.begin, .add [0x52, 0] (.other 10), .begin, .add [0x22, 1, 7] .nodeInfo, .add [0x5A, 0] .queueStatus]

theorem cache_refines_list_oversized :
    let c := cacheMachine.exec {} filledRun
    let raw : List UInt8 := List.replicate 4097 0
    ListView c [⟨[0x22, 1, 7], .nodeInfo⟩, ⟨[0x5A, 0], .queueStatus⟩] ∧
      (cacheAddFrame c raw .nodeInfo).2 ≠ .ok () ∧ (cacheAddFrame c raw .nodeInfo).1 = c := by
  intro c raw
  obtain ⟨hview, hadd⟩ := cache_refines_list filledRun
  have hframes : acceptedFrames [] filledRun (cacheMachine.outs {} filledRun) =
      [⟨[0x22, 1, 7], .nodeInfo⟩, ⟨[0x5A, 0], .queueStatus⟩] := by decide
  have hne : (cacheAddFrame c raw .nodeInfo).2 ≠ .ok () := by
    intro hok
    have hroom := ((hadd raw .nodeInfo).1.mp hok).2
    rw [List.length_replicate] at hroom
    omega
  exact ⟨hframes ▸ hview, hne, (hadd raw .nodeInfo).2 hne⟩

end MeshProxy

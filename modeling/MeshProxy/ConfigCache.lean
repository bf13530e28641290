import Mathlib.Algebra.BigOperators.Group.List.Basic
import MeshProxy.Lib.Cells
import MeshProxy.Platform

/-!
# config_cache.c

The packed store of the node's config burst: one arena, an index of
`{offset, len, variant}` and the publish flag. `frames` is the list the arena
stands for, and `store` what the greedy overflow policy does to that list;
`cacheAddFrame_frames` connects the two.
-/

namespace MeshProxy

def configCacheArenaBytes : Nat := 4096
def configCacheMaxFrames : Nat := 128

def meshNonceOnlyConfig : UInt32 := 69420
def meshNonceOnlyNodes : UInt32 := 69421

/-- A value stored in a `uint16_t`. -/
def u16 (n : Nat) : Nat := n % 2 ^ 16

theorem u16_of_lt (h : n < 2 ^ 16) : u16 n = n := Nat.mod_eq_of_lt h

structure CacheFrameRef where
  offset : Nat := 0
  len : Nat := 0
  variant : FromRadioVariant := .other 0
  deriving DecidableEq, Repr, Inhabited

structure ConfigCache where
  arena : Cells configCacheArenaBytes UInt8 := Cells.zero
  index : Cells configCacheMaxFrames CacheFrameRef := Cells.zero
  used : Nat := 0
  count : Nat := 0
  ready : Bool := false
  queuestatusIdx : Int := -1
  ownNodeinfoIdx : Int := -1

def cacheBegin (c : ConfigCache) : ConfigCache :=
  { c with ready := false, used := 0, count := 0, queuestatusIdx := -1, ownNodeinfoIdx := -1 }

def cacheAddFrame (c : ConfigCache) (raw : List UInt8) (variant : FromRadioVariant) :
    ConfigCache × Except Errno Unit :=
  if configCacheMaxFrames ≤ c.count then (c, .error .enomem)
  else if configCacheArenaBytes < c.used + raw.length then (c, .error .enomem)
  else
    ({ c with
        arena := c.arena.memcpy c.used raw
        index := c.index.write c.count { offset := c.used, len := raw.length, variant }
        queuestatusIdx := if variant = .queueStatus then c.count else c.queuestatusIdx
        ownNodeinfoIdx :=
          if variant = .nodeInfo ∧ c.ownNodeinfoIdx < 0 then c.count else c.ownNodeinfoIdx
        used := u16 (c.used + raw.length)
        count := u16 (c.count + 1) }, .ok ())

def cacheMarkReady (c : ConfigCache) : ConfigCache := { c with ready := true }

def cacheIsReady (c : ConfigCache) : Bool := c.ready

def cacheFrameAt (c : ConfigCache) (idx : Nat) : Option CacheFrameRef :=
  if c.count ≤ idx then none else some (c.index.read idx)

def cacheFrameBytes (c : ConfigCache) (ref : CacheFrameRef) : List UInt8 :=
  c.arena.slice ref.offset ref.len

def cacheFrameCount (c : ConfigCache) : Nat := c.count

def cacheGetQueuestatus (c : ConfigCache) : Option (List UInt8) :=
  if c.queuestatusIdx < 0 then none
  else
    let ref := c.index.read c.queuestatusIdx.toNat
    some (c.arena.slice ref.offset ref.len)

def cacheFrameInSegment (c : ConfigCache) (idx : Nat) (nonce : UInt32) : Bool :=
  if c.count ≤ idx then false
  else
    let variant := (c.index.read idx).variant
    if variant = .configCompleteId then false
    else if nonce = meshNonceOnlyNodes then variant = .nodeInfo
    else if nonce = meshNonceOnlyConfig then
      if variant = .nodeInfo ∧ (idx : Int) ≠ c.ownNodeinfoIdx then false else true
    else true

theorem inSegment_variant (h : cacheFrameInSegment c idx nonce = true) :
    (c.index.read idx).variant ≠ .configCompleteId := by
  intro hv
  unfold cacheFrameInSegment at h
  split at h
  · cases h
  · simp [hv] at h

-- ---------------------------------------------------------------------------
-- The list of frames the arena stands for
-- ---------------------------------------------------------------------------

structure Frame where
  bytes : List UInt8
  variant : FromRadioVariant
  deriving DecidableEq, Repr

namespace ConfigCache

def frame (c : ConfigCache) (i : Nat) : Frame :=
  ⟨cacheFrameBytes c (c.index.read i), (c.index.read i).variant⟩

def frames (c : ConfigCache) : List Frame := (List.range c.count).map c.frame

/-- The two limits hold, every entry lies in the used part of the arena, and
the used part is what the frames take. -/
structure Wf (c : ConfigCache) : Prop where
  count_le : c.count ≤ configCacheMaxFrames
  used_le : c.used ≤ configCacheArenaBytes
  entry_le : ∀ i < c.count, (c.index.read i).offset + (c.index.read i).len ≤ c.used
  used_eq : (c.frames.map fun f => f.bytes.length).sum = c.used

/-- Every stored frame is a UART payload: 1 to 512 bytes. -/
def Sized (c : ConfigCache) : Prop :=
  ∀ i < c.count, 1 ≤ (c.index.read i).len ∧ (c.index.read i).len ≤ 512

end ConfigCache

def Fits (fs : List Frame) (raw : List UInt8) : Prop :=
  fs.length < configCacheMaxFrames ∧
    (fs.map fun f => f.bytes.length).sum + raw.length ≤ configCacheArenaBytes

instance : Decidable (Fits fs raw) := inferInstanceAs (Decidable (_ ∧ _))

/-- The greedy overflow policy: a frame that does not fit is skipped, and a
later, smaller one may still be stored. -/
def store (fs : List Frame) (f : Frame) : List Frame := if Fits fs f.bytes then fs ++ [f] else fs

-- ---------------------------------------------------------------------------
-- What one call does
-- ---------------------------------------------------------------------------

variable {c c' : ConfigCache} {raw : List UInt8} {v : FromRadioVariant}

@[simp] theorem length_frames (c : ConfigCache) : c.frames.length = c.count := by
  simp [ConfigCache.frames]

theorem cacheBegin_wf (c : ConfigCache) : (cacheBegin c).Wf :=
  ⟨Nat.zero_le _, Nat.zero_le _, fun i hi => absurd hi (Nat.not_lt_zero i), rfl⟩

theorem cacheBegin_sized (c : ConfigCache) : (cacheBegin c).Sized :=
  fun i hi => absurd hi (Nat.not_lt_zero i)

theorem fits_iff (hw : c.Wf) :
    Fits c.frames raw ↔
      c.count < configCacheMaxFrames ∧ c.used + raw.length ≤ configCacheArenaBytes := by
  simp [Fits, hw.used_eq]

structure Appended (c c' : ConfigCache) (raw : List UInt8) (variant : FromRadioVariant) : Prop where
  arena : c'.arena = c.arena.memcpy c.used raw
  index : c'.index = c.index.write c.count { offset := c.used, len := raw.length, variant }
  used : c'.used = c.used + raw.length
  count : c'.count = c.count + 1
  ready : c'.ready = c.ready

theorem cacheAddFrame_fits (hw : c.Wf) (hf : Fits c.frames raw) :
    Appended c (cacheAddFrame c raw v).1 raw v := by
  obtain ⟨hc, hu⟩ := (fits_iff hw).mp hf
  have hsmall : c.used + raw.length < 2 ^ 16 := Nat.lt_of_le_of_lt hu (by decide)
  have hcount : c.count + 1 < 2 ^ 16 := by
    simp only [configCacheMaxFrames] at hc
    omega
  unfold cacheAddFrame
  rw [if_neg (by omega), if_neg (by omega)]
  exact ⟨rfl, rfl, u16_of_lt hsmall, u16_of_lt hcount, rfl⟩

theorem cacheAddFrame_rejects (hw : c.Wf) (hf : ¬ Fits c.frames raw) :
    cacheAddFrame c raw v = (c, .error .enomem) := by
  rw [fits_iff hw] at hf
  unfold cacheAddFrame
  split
  · rfl
  · rw [if_pos (by omega)]

theorem Appended.index_old (h : Appended c c' raw v) (hi : i < c.count) :
    c'.index.read i = c.index.read i := by
  rw [h.index]
  exact Cells.read_write_ne _ _ (by omega)

theorem Appended.index_new (h : Appended c c' raw v) (hc : c.count < configCacheMaxFrames) :
    c'.index.read c.count = { offset := c.used, len := raw.length, variant := v } := by
  rw [h.index]
  exact Cells.read_write_self _ _ hc

theorem Appended.frames (h : Appended c c' raw v) (hw : c.Wf) (hf : Fits c.frames raw) :
    c'.frames = c.frames ++ [⟨raw, v⟩] := by
  obtain ⟨hc, hu⟩ := (fits_iff hw).mp hf
  simp only [ConfigCache.frames, h.count, List.range_succ, List.map_append, List.map_cons,
    List.map_nil]
  congr 1
  · apply List.map_congr_left
    intro i hi
    rw [List.mem_range] at hi
    simp only [ConfigCache.frame, cacheFrameBytes, h.index_old hi, h.arena]
    rw [Cells.slice_memcpy_disjoint _ _ (.inl (hw.entry_le i hi))]
  · simp only [ConfigCache.frame, cacheFrameBytes, h.index_new hc, h.arena]
    rw [Cells.slice_memcpy _ _ hu]

theorem Appended.wf (h : Appended c c' raw v) (hw : c.Wf) (hf : Fits c.frames raw) : c'.Wf := by
  obtain ⟨hc, hu⟩ := (fits_iff hw).mp hf
  refine ⟨by rw [h.count]; exact hc, by rw [h.used]; exact hu, ?_, ?_⟩
  · intro i hi
    rw [h.count] at hi
    rw [h.used]
    rcases Nat.lt_succ_iff_lt_or_eq.mp hi with hi | rfl
    · rw [h.index_old hi]
      exact Nat.le_trans (hw.entry_le i hi) (Nat.le_add_right _ _)
    · rw [h.index_new hc]
  · rw [h.frames hw hf, h.used]
    simp [hw.used_eq]

theorem Appended.sized (h : Appended c c' raw v) (hc : c.count < configCacheMaxFrames)
    (hs : c.Sized) (hl : 1 ≤ raw.length) (hm : raw.length ≤ 512) : c'.Sized := by
  intro i hi
  rw [h.count] at hi
  rcases Nat.lt_succ_iff_lt_or_eq.mp hi with hi | rfl
  · rw [h.index_old hi]
    exact hs i hi
  · rw [h.index_new hc]
    exact ⟨hl, hm⟩

theorem cacheAddFrame_frames (hw : c.Wf) :
    (cacheAddFrame c raw v).1.frames = store c.frames ⟨raw, v⟩ := by
  unfold store
  split
  · rename_i hf
    exact (cacheAddFrame_fits hw hf).frames hw hf
  · rename_i hf
    rw [cacheAddFrame_rejects hw hf]

theorem cacheAddFrame_wf (hw : c.Wf) : (cacheAddFrame c raw v).1.Wf := by
  by_cases hf : Fits c.frames raw
  · exact (cacheAddFrame_fits hw hf).wf hw hf
  · rw [cacheAddFrame_rejects hw hf]
    exact hw

theorem cacheAddFrame_sized (hw : c.Wf) (hs : c.Sized) (hl : 1 ≤ raw.length)
    (hm : raw.length ≤ 512) : (cacheAddFrame c raw v).1.Sized := by
  by_cases hf : Fits c.frames raw
  · exact (cacheAddFrame_fits hw hf).sized ((fits_iff hw).mp hf).1 hs hl hm
  · rw [cacheAddFrame_rejects hw hf]
    exact hs

theorem cacheAddFrame_ready (c : ConfigCache) : (cacheAddFrame c raw v).1.ready = c.ready := by
  unfold cacheAddFrame
  split
  · rfl
  · split <;> rfl

theorem cacheMarkReady_wf (hw : c.Wf) : (cacheMarkReady c).Wf :=
  ⟨hw.count_le, hw.used_le, hw.entry_le, hw.used_eq⟩

end MeshProxy

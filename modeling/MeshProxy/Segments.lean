import Mathlib.Data.Multiset.Filter
import MeshProxy.Arena
import MeshProxy.SlotOps

/-!
# The two rounds of a phone

A phone may fetch the node in two rounds, with the nonces 69420 and 69421.
`two_rounds_cover` compares the segments they are served with the full one:
the split rests on the remembered position being that of the first stored
node_info, which `Represents` keeps.
-/

namespace MeshProxy

variable {c : ConfigCache} {fs : List Frame}

-- ---------------------------------------------------------------------------
-- Segments of the list
-- ---------------------------------------------------------------------------

structure Served (fs : List Frame) (nonce : UInt32) (i : Nat) (f : Frame) : Prop where
  stored : fs[i]? = some f
  variant : f.variant ≠ .configCompleteId
  nodes : nonce = meshNonceOnlyNodes → f.isNodeInfo = true
  config : nonce = meshNonceOnlyConfig → f.isNodeInfo = true → firstNodeInfo fs = some i

theorem idxOf_eq {i : Nat} : idxOf o = (i : Int) ↔ o = some i := by
  cases o with
  | none => simp [idxOf]
  | some j => simp [idxOf]

theorem Represents.inSegment (h : Represents c fs) :
    cacheFrameInSegment c i nonce = true ↔ ∃ f, Served fs nonce i f := by
  unfold cacheFrameInSegment
  rcases Nat.lt_or_ge i fs.length with hlt | hge
  · have hf : fs[i]? = some fs[i] := List.getElem?_eq_getElem hlt
    have hown : (i : Int) ≠ c.ownNodeinfoIdx ↔ ¬ firstNodeInfo fs = some i := by
      rw [h.own, ne_comm, ne_eq, idxOf_eq]
    have hserved : (∃ f, Served fs nonce i f) ↔ Served fs nonce i fs[i] := by
      refine ⟨?_, fun hs => ⟨_, hs⟩⟩
      rintro ⟨f, hs⟩
      rwa [Option.some.inj (hf.symm.trans hs.stored)]
    rw [if_neg (by rw [h.count]; omega), h.entry i _ hf, hserved]
    simp only [hown]
    constructor
    · intro hs
      refine ⟨hf, ?_, ?_, ?_⟩
      · intro hv
        simp [hv] at hs
      · intro hn
        split at hs
        · cases hs
        · simpa [hn, Frame.isNodeInfo] using hs
      · intro hc hinfo
        have hv : fs[i].variant = .nodeInfo := by simpa [Frame.isNodeInfo] using hinfo
        simpa [hc, hv, meshNonceOnlyConfig, meshNonceOnlyNodes] using hs
    · rintro ⟨-, hv, hn, hc⟩
      rw [if_neg hv]
      split
      · rename_i hnonce
        simpa [Frame.isNodeInfo] using hn hnonce
      · split
        · rename_i hnonce
          simp only [Frame.isNodeInfo, decide_eq_true_eq] at hc
          rw [if_neg (fun hbad => hbad.2 (hc hnonce hbad.1))]
        · rfl
  · rw [if_pos (by rw [h.count]; exact hge)]
    refine iff_of_false (by simp) ?_
    rintro ⟨f, hs⟩
    have hlt := (List.getElem?_eq_some_iff.mp hs.stored).1
    omega

theorem Represents.mem_segment (h : Represents c fs) :
    i ∈ segment c nonce 0 ↔ ∃ f, Served fs nonce i f := by
  rw [← h.inSegment, segment, List.mem_filter, List.mem_range']
  refine ⟨fun hs => hs.2, fun hs => ⟨?_, hs⟩⟩
  obtain ⟨f, hserved⟩ := h.inSegment.mp hs
  have hlt := (List.getElem?_eq_some_iff.mp hserved.stored).1
  exact ⟨i, by rw [h.count]; omega, by omega⟩

theorem firstNodeInfo_some (h : firstNodeInfo fs = some i) :
    ∃ f, fs[i]? = some f ∧ f.isNodeInfo = true := by
  obtain ⟨hlt, hinfo, -⟩ := List.findIdx?_eq_some_iff_getElem.mp h
  exact ⟨fs[i], List.getElem?_eq_getElem hlt, hinfo⟩

theorem both_served :
    (∃ f, Served fs meshNonceOnlyConfig i f) ∧ (∃ f, Served fs meshNonceOnlyNodes i f) ↔
      firstNodeInfo fs = some i := by
  constructor
  · rintro ⟨⟨f, hc⟩, ⟨g, hn⟩⟩
    obtain rfl : f = g := Option.some.inj (hc.stored.symm.trans hn.stored)
    exact hc.config rfl (hn.nodes rfl)
  · intro hfirst
    obtain ⟨f, hf, hinfo⟩ := firstNodeInfo_some hfirst
    have hv : f.variant ≠ .configCompleteId := by
      intro hv
      simp [Frame.isNodeInfo, hv] at hinfo
    exact ⟨⟨f, hf, hv, fun _ => hinfo, fun _ _ => hfirst⟩, ⟨f, hf, hv, fun _ => hinfo, fun _ _ => hfirst⟩⟩

theorem either_served (hc : nonce ≠ meshNonceOnlyConfig) (hn : nonce ≠ meshNonceOnlyNodes) :
    (∃ f, Served fs meshNonceOnlyConfig i f) ∨ (∃ f, Served fs meshNonceOnlyNodes i f) ↔
      ∃ f, Served fs nonce i f := by
  constructor
  · rintro (⟨f, hs⟩ | ⟨f, hs⟩)
    · exact ⟨f, hs.stored, hs.variant, fun h => absurd h hn, fun h => absurd h hc⟩
    · exact ⟨f, hs.stored, hs.variant, fun h => absurd h hn, fun h => absurd h hc⟩
  · rintro ⟨f, hs⟩
    by_cases hinfo : f.isNodeInfo = true
    · exact .inr ⟨f, hs.stored, hs.variant, fun _ => hinfo, fun h => absurd h (by decide)⟩
    · exact .inl ⟨f, hs.stored, hs.variant, fun h => absurd h (by decide), fun _ h => absurd h hinfo⟩

theorem filter_rounds (l : List Nat) (p q : Nat → Bool) :
    (l.filter p ++ l.filter q).Perm (l.filter (fun i => p i || q i) ++ l.filter fun i => p i && q i) := by
  have h := Multiset.filter_add_filter (fun i => p i = true) (fun i => q i = true) (l : Multiset Nat)
  simpa [← Multiset.coe_eq_coe] using h

theorem Represents.overlap (h : Represents c fs) :
    ((List.range' 0 c.count).filter fun i => cacheFrameInSegment c i meshNonceOnlyConfig &&
      cacheFrameInSegment c i meshNonceOnlyNodes) = (firstNodeInfo fs).toList := by
  have hboth : ∀ i, (cacheFrameInSegment c i meshNonceOnlyConfig &&
      cacheFrameInSegment c i meshNonceOnlyNodes) = decide (firstNodeInfo fs = some i) := by
    intro i
    rw [Bool.eq_iff_iff, Bool.and_eq_true, h.inSegment, h.inSegment, both_served, decide_eq_true_eq]
  rw [List.filter_congr fun i _ => hboth i]
  cases hfirst : firstNodeInfo fs with
  | none => simp
  | some k =>
    obtain ⟨f, hf, -⟩ := firstNodeInfo_some hfirst
    have hlt : k < c.count := by
      rw [h.count]
      exact (List.getElem?_eq_some_iff.mp hf).1
    have hmem : k ∈ List.range' 0 c.count := by simpa [List.mem_range'] using hlt
    have hone : List.count k (List.range' 0 c.count) = 1 :=
      List.count_eq_one_of_mem List.nodup_range' hmem
    simp only [Option.some.injEq, @eq_comm _ k]
    rw [List.filter_eq, hone]
    rfl

theorem Represents.mem_full (h : Represents c fs) (hc : nonce ≠ meshNonceOnlyConfig)
    (hn : nonce ≠ meshNonceOnlyNodes) :
    i ∈ segment c nonce 0 ↔ i < c.count ∧ (c.frame i).variant ≠ .configCompleteId := by
  rw [h.mem_segment, h.count]
  constructor
  · rintro ⟨f, hs⟩
    rw [h.frame_eq hs.stored]
    exact ⟨(List.getElem?_eq_some_iff.mp hs.stored).1, hs.variant⟩
  · rintro ⟨hlt, hv⟩
    have hf : fs[i]? = some fs[i] := List.getElem?_eq_getElem hlt
    rw [h.frame_eq hf] at hv
    exact ⟨fs[i], hf, hv, fun hnonce => absurd hnonce hn, fun hnonce => absurd hnonce hc⟩

theorem Represents.rounds_perm (h : Represents c fs) (hc : nonce ≠ meshNonceOnlyConfig)
    (hn : nonce ≠ meshNonceOnlyNodes) :
    (segment c meshNonceOnlyConfig 0 ++ segment c meshNonceOnlyNodes 0).Perm
      (segment c nonce 0 ++ (firstNodeInfo fs).toList) := by
  have hall : ∀ i, (cacheFrameInSegment c i meshNonceOnlyConfig ||
      cacheFrameInSegment c i meshNonceOnlyNodes) = cacheFrameInSegment c i nonce := by
    intro i
    rw [Bool.eq_iff_iff, Bool.or_eq_true, h.inSegment, h.inSegment, h.inSegment]
    exact either_served hc hn
  have hperm := filter_rounds (List.range' 0 c.count) (cacheFrameInSegment c · meshNonceOnlyConfig)
    (cacheFrameInSegment c · meshNonceOnlyNodes)
  rw [h.overlap, List.filter_congr fun i _ => hall i] at hperm
  exact hperm

/-- A full fetch is two rounds: every index is served in one of them, the first
stored node_info in both, and the phone gets nothing else twice. -/
theorem two_rounds_cover (es : List CacheEvent) (nonce : UInt32)
    (hc : nonce ≠ meshNonceOnlyConfig) (hn : nonce ≠ meshNonceOnlyNodes) :
    let c := cacheMachine.exec {} es
    (∀ i, i ∈ segment c nonce 0 ↔ i < c.count ∧ (c.frame i).variant ≠ .configCompleteId) ∧
    (∀ i, i ∈ segment c meshNonceOnlyConfig 0 ∨ i ∈ segment c meshNonceOnlyNodes 0 ↔
      i ∈ segment c nonce 0) ∧
    (∀ i, i ∈ segment c meshNonceOnlyConfig 0 ∧ i ∈ segment c meshNonceOnlyNodes 0 ↔
      firstNodeInfo c.frames = some i) ∧
    (segment c meshNonceOnlyConfig 0 ++ segment c meshNonceOnlyNodes 0).Perm
      (segment c nonce 0 ++ (firstNodeInfo c.frames).toList) := by
  intro c
  obtain ⟨fs, h⟩ : ∃ fs, Represents c fs := ⟨_, (Represents.empty {}).run es⟩
  rw [h.frames]
  refine ⟨fun i => h.mem_full hc hn, ?_, ?_, h.rounds_perm hc hn⟩
  · intro i
    rw [h.mem_segment, h.mem_segment, h.mem_segment]
    exact either_served hc hn
  · intro i
    rw [h.mem_segment, h.mem_segment]
    exact both_served

def twoNodes : List CacheEvent :=
  [.add [0x5A, 0] .queueStatus, .begin, .add [0x22, 0] .nodeInfo, .add [0x38, 7] .configCompleteId,
    .add [0x22, 1, 0] .nodeInfo]

theorem two_rounds_cover_twoNodes :
    (segment (cacheMachine.exec {} twoNodes) meshNonceOnlyConfig 0 ++
        segment (cacheMachine.exec {} twoNodes) meshNonceOnlyNodes 0).Perm
      (segment (cacheMachine.exec {} twoNodes) 7 0 ++
        (firstNodeInfo (cacheMachine.exec {} twoNodes).frames).toList) ∧
      segment (cacheMachine.exec {} twoNodes) 7 0 = [0, 2] :=
  ⟨(two_rounds_cover twoNodes 7 (by decide) (by decide)).2.2.2, by decide⟩

end MeshProxy

import MeshProxy.Lib.Cells
import Mathlib.Data.UInt

/-!
# proxy_protocol.c

The addressing header carried in the payload of portnum 256: one version
byte, two 4-byte identifiers and the content. `ProxyHeader.wire` is that
layout as a list; the parser and the builder are each compared with it.
-/

namespace MeshProxy

def proxyPortnum : UInt32 := 256
def proxyPracticalMax : Nat := 200
def proxyVersion : UInt8 := 0x01
def proxyIdSize : Nat := 4
def proxyHeaderSize : Nat := 1 + proxyIdSize + proxyIdSize
def proxyContentMax : Nat := proxyPracticalMax - proxyHeaderSize
def proxyOffVersion : Nat := 0
def proxyOffSrc : Nat := 1
def proxyOffDst : Nat := proxyOffSrc + proxyIdSize
def proxyOffContent : Nat := proxyHeaderSize

abbrev ProxyId := Cells proxyIdSize UInt8

def ProxyId.ofBytes (bytes : List UInt8) (off : Nat) : ProxyId :=
  Cells.zero.memcpy 0 ((bytes.drop off).take proxyIdSize)

structure ProxyHeader where
  src : ProxyId
  dst : ProxyId
  content : List UInt8

def proxyHeaderParse (payload : List UInt8) : Option ProxyHeader :=
  if payload.length < proxyHeaderSize then none
  else if payload.headD 0 ≠ proxyVersion then none
  else some
    { src := ProxyId.ofBytes payload proxyOffSrc
      dst := ProxyId.ofBytes payload proxyOffDst
      content := payload.drop proxyOffContent }

/-- Build into a buffer of `n` bytes. The content pointer may be null, and then
nothing is copied for it. -/
def proxyHeaderBuild (src dst : ProxyId) (content : Option (List UInt8)) (contentLen : Nat)
    (dstBuf : Cells n UInt8) : Cells n UInt8 × Nat :=
  if proxyContentMax < contentLen then (dstBuf, 0)
  else
    let total := (proxyHeaderSize + contentLen) % 2 ^ 16
    if n < total then (dstBuf, 0)
    else
      let buf := dstBuf.write proxyOffVersion proxyVersion
      let buf := buf.memcpy proxyOffSrc (src.slice 0 proxyIdSize)
      let buf := buf.memcpy proxyOffDst (dst.slice 0 proxyIdSize)
      match content with
      | some bytes =>
        if 0 < contentLen then (buf.memcpy proxyOffContent (bytes.take contentLen), total)
        else (buf, total)
      | none => (buf, total)

def proxyIdEqual (a b : ProxyId) : Bool := (List.finRange proxyIdSize).all fun i => a i == b i

def proxyIdIsZero (id : ProxyId) : Bool := (List.finRange proxyIdSize).all fun i => id i == 0

-- ---------------------------------------------------------------------------
-- The layout both sides agree on
-- ---------------------------------------------------------------------------

/-- `[version][src][dst][content]`. -/
def ProxyHeader.wire (h : ProxyHeader) : List UInt8 :=
  [proxyVersion] ++ h.src.slice 0 proxyIdSize ++ h.dst.slice 0 proxyIdSize ++ h.content

theorem ProxyHeader.length_wire (h : ProxyHeader) :
    h.wire.length = proxyHeaderSize + h.content.length := by
  simp only [wire, List.length_append, List.length_singleton, Cells.length_slice, proxyHeaderSize]

theorem proxyId_ofBytes {id : ProxyId} (h : (bytes.drop off).take proxyIdSize = id.slice 0 proxyIdSize) :
    ProxyId.ofBytes bytes off = id := by
  rw [ProxyId.ofBytes, h, Cells.memcpy_slice_all]

theorem slice_ofBytes (bytes : List UInt8) (off : Nat) (h : off + proxyIdSize ≤ bytes.length) :
    (ProxyId.ofBytes bytes off).slice 0 proxyIdSize = (bytes.drop off).take proxyIdSize := by
  have hlen : ((bytes.drop off).take proxyIdSize).length = proxyIdSize := by
    rw [List.length_take, List.length_drop]
    omega
  have hcopy : (ProxyId.ofBytes bytes off).slice 0 ((bytes.drop off).take proxyIdSize).length =
      (bytes.drop off).take proxyIdSize :=
    Cells.slice_memcpy _ _ (by omega)
  rwa [hlen] at hcopy

theorem proxyHeaderParse_eq_some {payload : List UInt8} {h : ProxyHeader} :
    proxyHeaderParse payload = some h ↔
      proxyHeaderSize ≤ payload.length ∧ payload.head? = some proxyVersion ∧
        h = ⟨ProxyId.ofBytes payload proxyOffSrc, ProxyId.ofBytes payload proxyOffDst,
          payload.drop proxyOffContent⟩ := by
  unfold proxyHeaderParse
  split
  · rename_i hshort
    simp [Nat.not_le.mpr hshort]
  · rename_i hlong
    have hlong' := Nat.le_of_not_lt hlong
    cases payload with
    | nil => exact absurd hlong' (by decide)
    | cons b rest =>
      by_cases hb : b = proxyVersion
      · simp only [List.headD_cons, hb, ne_eq, not_true_eq_false, if_false, Option.some.injEq,
          List.head?_cons, true_and]
        rw [and_iff_right (hb ▸ hlong')]
        exact eq_comm
      · simp [hb]

theorem proxyHeaderParse_isSome (payload : List UInt8) :
    (proxyHeaderParse payload).isSome = true ↔
      proxyHeaderSize ≤ payload.length ∧ payload.head? = some proxyVersion := by
  rw [Option.isSome_iff_exists]
  constructor
  · rintro ⟨h, hp⟩
    obtain ⟨hlen, hhead, -⟩ := proxyHeaderParse_eq_some.mp hp
    exact ⟨hlen, hhead⟩
  · rintro ⟨hlen, hhead⟩
    exact ⟨_, proxyHeaderParse_eq_some.mpr ⟨hlen, hhead, rfl⟩⟩

theorem parse_wire (h : ProxyHeader) : proxyHeaderParse h.wire = some h := by
  have hlen := h.length_wire
  obtain ⟨src, dst, content⟩ := h
  rw [proxyHeaderParse_eq_some]
  refine ⟨by omega, rfl, ?_⟩
  have hs : (src.slice 0 proxyIdSize).length = proxyIdSize := Cells.length_slice src
  have hd : (dst.slice 0 proxyIdSize).length = proxyIdSize := Cells.length_slice dst
  have hsrc : ((ProxyHeader.wire ⟨src, dst, content⟩).drop proxyOffSrc).take proxyIdSize =
      src.slice 0 proxyIdSize := by
    simp [ProxyHeader.wire, proxyOffSrc]
  have hdst : (ProxyHeader.wire ⟨src, dst, content⟩).drop proxyOffDst =
      dst.slice 0 proxyIdSize ++ content := by
    rw [ProxyHeader.wire, List.append_assoc]
    exact List.drop_left' (by simp [hs, proxyOffDst, proxyOffSrc, Nat.add_comm])
  have hcontent : (ProxyHeader.wire ⟨src, dst, content⟩).drop proxyOffContent = content := by
    rw [ProxyHeader.wire]
    exact List.drop_left' (by simp [hs, hd, proxyOffContent, proxyHeaderSize]; omega)
  rw [proxyId_ofBytes hsrc, proxyId_ofBytes (by rw [hdst, List.take_left' hd]), hcontent]

theorem wire_of_parse {h : ProxyHeader} (hp : proxyHeaderParse payload = some h) :
    h.wire = payload := by
  obtain ⟨hlen, hhead, rfl⟩ := proxyHeaderParse_eq_some.mp hp
  have hversion : payload.take proxyOffSrc = [proxyVersion] := by
    cases payload with
    | nil => cases hhead
    | cons b rest => simpa [proxyOffSrc] using hhead
  have hsrc := slice_ofBytes payload proxyOffSrc (Nat.le_of_add_right_le hlen)
  have hdst := slice_ofBytes payload proxyOffDst hlen
  calc ProxyHeader.wire ⟨ProxyId.ofBytes payload proxyOffSrc, ProxyId.ofBytes payload proxyOffDst,
          payload.drop proxyOffContent⟩
      = payload.take proxyOffSrc ++ (payload.drop proxyOffSrc).take proxyIdSize ++
          (payload.drop proxyOffDst).take proxyIdSize ++ payload.drop proxyOffContent := by
        rw [ProxyHeader.wire, hsrc, hdst, hversion]
    _ = payload.take proxyOffDst ++ (payload.drop proxyOffDst).take proxyIdSize ++
          payload.drop proxyOffContent := by
        rw [← List.take_add]
        rfl
    _ = payload.take proxyOffContent ++ payload.drop proxyOffContent := by
        rw [← List.take_add]
        rfl
    _ = payload := List.take_append_drop _ _

-- ---------------------------------------------------------------------------
-- The builder writes the layout
-- ---------------------------------------------------------------------------

section Build

variable {src dst : ProxyId} {content : Option (List UInt8)} {buf : Cells n UInt8}

def writeFields (src dst : ProxyId) (buf : Cells n UInt8) : Cells n UInt8 :=
  ((buf.write proxyOffVersion proxyVersion).memcpy proxyOffSrc (src.slice 0 proxyIdSize)).memcpy
    proxyOffDst (dst.slice 0 proxyIdSize)

theorem slice_writeFields (hn : proxyHeaderSize ≤ n) :
    (writeFields src dst buf).slice 0 proxyHeaderSize =
      [proxyVersion] ++ src.slice 0 proxyIdSize ++ dst.slice 0 proxyIdSize := by
  have hversion : (buf.write proxyOffVersion proxyVersion).slice 0 proxyOffSrc = [proxyVersion] :=
    Cells.slice_write_self buf proxyVersion (Nat.lt_of_lt_of_le (by decide) hn)
  have hsrc : ((buf.write proxyOffVersion proxyVersion).memcpy proxyOffSrc
      (src.slice 0 proxyIdSize)).slice 0 proxyOffDst =
      (buf.write proxyOffVersion proxyVersion).slice 0 proxyOffSrc ++ src.slice 0 proxyIdSize :=
    Cells.slice_memcpy_append _ _ (Cells.length_slice src) (Nat.le_of_add_right_le hn)
  have hdst : (writeFields src dst buf).slice 0 proxyHeaderSize =
      ((buf.write proxyOffVersion proxyVersion).memcpy proxyOffSrc
        (src.slice 0 proxyIdSize)).slice 0 proxyOffDst ++ dst.slice 0 proxyIdSize :=
    Cells.slice_memcpy_append _ _ (Cells.length_slice dst) hn
  rw [hdst, hsrc, hversion]

theorem read_writeFields (hi : proxyHeaderSize ≤ i) :
    (writeFields src dst buf).read i = buf.read i := by
  have hs : (src.slice 0 proxyIdSize).length = proxyIdSize := Cells.length_slice src
  have hd : (dst.slice 0 proxyIdSize).length = proxyIdSize := Cells.length_slice dst
  simp only [proxyHeaderSize] at hi
  rw [writeFields, Cells.read_memcpy_outside, Cells.read_memcpy_outside, Cells.read_write_ne]
  · simp only [proxyOffVersion]
    omega
  · simp only [hs, proxyOffSrc]
    omega
  · simp only [hd, proxyOffDst, proxyOffSrc]
    omega

def copied (content : Option (List UInt8)) (contentLen : Nat) : List UInt8 :=
  (content.getD []).take contentLen

def BuildFits (contentLen n : Nat) : Prop :=
  contentLen ≤ proxyContentMax ∧ proxyHeaderSize + contentLen ≤ n

instance : Decidable (BuildFits contentLen n) := inferInstanceAs (Decidable (_ ∧ _))

theorem total_small (h : contentLen ≤ proxyContentMax) :
    (proxyHeaderSize + contentLen) % 2 ^ 16 = proxyHeaderSize + contentLen := by
  apply Nat.mod_eq_of_lt
  simp only [proxyContentMax, proxyPracticalMax, proxyHeaderSize, proxyIdSize] at h ⊢
  omega

theorem proxyHeaderBuild_fits (hf : BuildFits contentLen n) :
    proxyHeaderBuild src dst content contentLen buf =
      ((writeFields src dst buf).memcpy proxyOffContent (copied content contentLen),
        proxyHeaderSize + contentLen) := by
  obtain ⟨hmax, hn⟩ := hf
  have hnil : (writeFields src dst buf).memcpy proxyOffContent [] = writeFields src dst buf :=
    Cells.memcpy_nil _ _
  unfold proxyHeaderBuild
  rw [if_neg (by omega), total_small hmax, if_neg (by omega)]
  cases content with
  | none =>
    rw [show copied none contentLen = [] from List.take_nil, hnil]
    rfl
  | some bytes =>
    rcases Nat.eq_zero_or_pos contentLen with rfl | hpos
    · rw [show copied (some bytes) 0 = [] from rfl, hnil]
      rfl
    · simp only [if_pos hpos]
      rfl

theorem proxyHeaderBuild_refuses (hf : ¬ BuildFits contentLen n) :
    proxyHeaderBuild src dst content contentLen buf = (buf, 0) := by
  unfold proxyHeaderBuild
  split
  · rfl
  · rename_i hmax
    have hn : n < proxyHeaderSize + contentLen := by
      apply Nat.lt_of_not_le
      intro hle
      exact hf ⟨Nat.le_of_not_lt hmax, hle⟩
    simp only [total_small (Nat.le_of_not_lt hmax), if_pos hn]

theorem slice_proxyHeaderBuild (hf : BuildFits (content.getD []).length n) :
    (proxyHeaderBuild src dst content (content.getD []).length buf).1.slice 0
        (proxyHeaderSize + (content.getD []).length) =
      ProxyHeader.wire ⟨src, dst, content.getD []⟩ := by
  have hcopied : copied content (content.getD []).length = content.getD [] := List.take_length
  rw [proxyHeaderBuild_fits hf, hcopied]
  have hcontent := Cells.slice_memcpy_append (writeFields src dst buf) (content.getD []) rfl hf.2
  rw [slice_writeFields (Nat.le_of_add_right_le hf.2)] at hcontent
  exact hcontent

theorem read_proxyHeaderBuild
    (hi : (proxyHeaderBuild src dst content contentLen buf).2 ≤ i) :
    (proxyHeaderBuild src dst content contentLen buf).1.read i = buf.read i := by
  by_cases hf : BuildFits contentLen n
  · rw [proxyHeaderBuild_fits hf] at hi ⊢
    have hlen : (copied content contentLen).length ≤ contentLen := List.length_take_le _ _
    have hout : proxyOffContent + (copied content contentLen).length ≤ i := by
      simp only [proxyOffContent]
      omega
    rw [Cells.read_memcpy_outside _ _ (.inr hout), read_writeFields (Nat.le_of_add_right_le hi)]
  · rw [proxyHeaderBuild_refuses hf]

end Build

/-- The two sides of the header agree: what is built within the limits parses
back to its fields, what is accepted is rebuilt byte for byte, and a build that
does not fit changes nothing. -/
theorem proxyHeader_round_trip :
    (∀ (src dst : ProxyId) (content : Option (List UInt8)) (n : Nat) (buf : Cells n UInt8),
      let len := (content.getD []).length
      let out := proxyHeaderBuild src dst content len buf
      if len ≤ 191 ∧ 9 + len ≤ n then
        out.2 = 9 + len ∧ proxyHeaderParse (out.1.slice 0 out.2) = some ⟨src, dst, content.getD []⟩
      else out = (buf, 0)) ∧
    (∀ payload : List UInt8,
      (proxyHeaderParse payload).isSome = true ↔ 9 ≤ payload.length ∧ payload.head? = some 0x01) ∧
    (∀ (payload : List UInt8) (h : ProxyHeader) (n : Nat) (buf : Cells n UInt8),
      proxyHeaderParse payload = some h → payload.length ≤ 200 → payload.length ≤ n →
        let out := proxyHeaderBuild h.src h.dst (some h.content) h.content.length buf
        out.2 = payload.length ∧ out.1.slice 0 out.2 = payload) ∧
    ∀ (src dst : ProxyId) (content : Option (List UInt8)) (contentLen n : Nat)
      (buf : Cells n UInt8) (i : Nat),
      let out := proxyHeaderBuild src dst content contentLen buf
      out.2 ≤ i → out.1.read i = buf.read i := by
  refine ⟨?_, proxyHeaderParse_isSome, ?_, fun _ _ _ _ _ _ _ => read_proxyHeaderBuild⟩
  · intro src dst content n buf len out
    split
    · rename_i hf
      have htotal : out.2 = 9 + len := congrArg Prod.snd (proxyHeaderBuild_fits hf)
      refine ⟨htotal, ?_⟩
      rw [htotal]
      exact (congrArg proxyHeaderParse (slice_proxyHeaderBuild hf)).trans (parse_wire _)
    · rename_i hf
      exact proxyHeaderBuild_refuses hf
  · intro payload h n buf hp hmax hn out
    have hwire := wire_of_parse hp
    have hlen : payload.length = 9 + h.content.length := by
      rw [← hwire, h.length_wire]
      rfl
    have hf : BuildFits ((some h.content).getD []).length n :=
      ⟨show h.content.length ≤ 191 by omega, show 9 + h.content.length ≤ n by omega⟩
    have htotal : out.2 = 9 + h.content.length := congrArg Prod.snd (proxyHeaderBuild_fits hf)
    refine ⟨by rw [htotal, hlen], ?_⟩
    rw [htotal]
    exact (slice_proxyHeaderBuild hf).trans hwire

theorem proxyHeader_round_trip_letter :
    let h : ProxyHeader := ⟨ProxyId.ofBytes [1, 2, 3, 4] 0, ProxyId.ofBytes [5, 6, 7, 8] 0, [0x41]⟩
    let payload : List UInt8 := [0x01, 1, 2, 3, 4, 5, 6, 7, 8, 0x41]
    let out := proxyHeaderBuild h.src h.dst (some h.content) 1 (Cells.zero : Cells 16 UInt8)
    proxyHeaderParse payload = some h ∧ out.2 = payload.length ∧ out.1.slice 0 out.2 = payload :=
  ⟨rfl, proxyHeader_round_trip.2.2.1 _ _ 16 Cells.zero rfl (by decide) (by decide)⟩

end MeshProxy

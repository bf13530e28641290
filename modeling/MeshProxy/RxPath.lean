import MeshProxy.TxPath
import Mathlib.Data.List.Infix

/-!
# The receive path, interrupt and work item together

`UART_RX_RDY` puts what fits of a chunk into the ring buffer and the work
item takes bytes out one at a time, so a chunk may arrive between any two of
them. While every chunk fits, the receiver sees the stream the UART reported
and delivers exactly what was framed. A chunk that does not fit leaves a gap,
and `rx_process_byte` reads on across it.
-/

namespace MeshProxy

def ringBufSize : Nat := 1024
def uartDmaBufSize : Nat := 256

/-- `ring_buf_put`: as many bytes as there is room for. -/
def ringBufPut (ring chunk : List UInt8) : List UInt8 :=
  ring ++ chunk.take (ringBufSize - ring.length)

structure RxPath where
  /-- `rx_ring_buf`, oldest byte first. -/
  ring : List UInt8 := []
  sm : RxSm := {}
  /-- Every byte the UART reported. -/
  reported : List UInt8 := []
  /-- Every byte that was put into the ring buffer. -/
  stored : List UInt8 := []
  /-- Every payload passed to `fromradio_cb`. -/
  delivered : List (List UInt8) := []

inductive RxEvent
  /-- `UART_RX_RDY`. -/
  | rdy (chunk : List UInt8)
  /-- One turn of the loop in `rx_work_handler`. -/
  | byte
  deriving DecidableEq, Repr

def RxEvent.chunk : RxEvent → List UInt8
  | .rdy chunk => chunk
  | .byte => []

namespace RxPath

def step (s : RxPath) : RxEvent → RxPath
  | .rdy chunk =>
    { s with
      ring := ringBufPut s.ring chunk
      reported := s.reported ++ chunk
      stored := s.stored ++ chunk.take (ringBufSize - s.ring.length) }
  | .byte =>
    match s.ring with
    | [] => s
    | byte :: rest =>
      let (sm, payload) := rxProcessByte s.sm byte
      { s with ring := rest, sm, delivered := s.delivered ++ payload.toList }

/-- A chunk is what one DMA buffer holds. -/
def Enabled : RxEvent → Prop
  | .rdy chunk => 1 ≤ chunk.length ∧ chunk.length ≤ uartDmaBufSize
  | .byte => True

instance : (e : RxEvent) → Decidable (Enabled e)
  | .rdy chunk => inferInstanceAs (Decidable (1 ≤ chunk.length ∧ chunk.length ≤ uartDmaBufSize))
  | .byte => inferInstanceAs (Decidable True)

def Fits (s : RxPath) (e : RxEvent) : Prop := e.chunk.length ≤ ringBufSize - s.ring.length

instance (s : RxPath) (e : RxEvent) : Decidable (s.Fits e) :=
  inferInstanceAs (Decidable (e.chunk.length ≤ ringBufSize - s.ring.length))

end RxPath

def rxPath : Machine RxPath RxEvent Unit where
  enabled _ e := RxPath.Enabled e
  step s e := (s.step e, ())

instance (s : RxPath) (e : RxEvent) : Decidable (rxPath.enabled s e) :=
  inferInstanceAs (Decidable (RxPath.Enabled e))

/-- A run of `rx_work_handler`: turns of the loop until the buffer is empty. -/
def rxWorkHandler (s : RxPath) : RxPath := rxPath.exec s (List.replicate s.ring.length .byte)

-- ---------------------------------------------------------------------------
-- The receiver has read the stored bytes up to what the buffer still holds
-- ---------------------------------------------------------------------------

theorem rxDeliveries_append (sm : RxSm) (bs cs : List UInt8) :
    rxDeliveries sm (bs ++ cs) = rxDeliveries sm bs ++ rxDeliveries (rxMachine.exec sm bs) cs := by
  induction bs generalizing sm with
  | nil => rfl
  | cons b bs ih =>
    have hb := ih (rxMachine.next sm b)
    simp only [rxDeliveries] at hb ⊢
    simp [hb]

theorem rxDeliveries_singleton (sm : RxSm) (b : UInt8) :
    rxDeliveries sm [b] = (rxProcessByte sm b).2.toList := by
  simp [rxDeliveries, rxMachine]

namespace RxPath

variable {s : RxPath} {sm₀ : RxSm}

/-- The state is what `sm₀` makes of the stored bytes that left the buffer. -/
def Read (sm₀ : RxSm) (s : RxPath) : Prop :=
  ∃ gone, s.stored = gone ++ s.ring ∧ s.sm = rxMachine.exec sm₀ gone ∧
    s.delivered = rxDeliveries sm₀ gone

theorem Read.step (hr : Read sm₀ s) (e : RxEvent) : Read sm₀ (s.step e) := by
  obtain ⟨gone, hst, hsm, hd⟩ := hr
  cases e with
  | rdy chunk => exact ⟨gone, by simp [RxPath.step, ringBufPut, hst], hsm, hd⟩
  | byte =>
    unfold RxPath.step
    dsimp only
    split
    · rename_i hring
      exact ⟨gone, hst, hsm, hd⟩
    · rename_i b rest hring
      refine ⟨gone ++ [b], by simp [hst, hring], ?_, ?_⟩
      · rw [rxMachine.exec_append, ← hsm]
        rfl
      · rw [rxDeliveries_append, ← hsm, rxDeliveries_singleton, ← hd]

theorem Read.exec (hr : Read sm₀ s) (es : List RxEvent) : Read sm₀ (rxPath.exec s es) :=
  Machine.invariant (P := fun _ _ => True) (fun _ e _ h => h.step e)
    (rxPath.along_of_forall fun _ _ => trivial) hr

theorem read_start (sm₀ : RxSm) : Read sm₀ { sm := sm₀ } := ⟨[], rfl, rfl, rfl⟩

theorem drain (s : RxPath) :
    (rxWorkHandler s).ring = [] ∧ (rxWorkHandler s).stored = s.stored := by
  unfold rxWorkHandler
  generalize hn : s.ring.length = n
  induction n generalizing s with
  | zero => exact ⟨List.length_eq_zero_iff.mp hn, rfl⟩
  | succ n ih =>
    obtain ⟨b, rest, hring⟩ := List.exists_cons_of_length_eq_add_one hn
    have hs : (rxPath.next s .byte).ring = rest ∧ (rxPath.next s .byte).stored = s.stored := by
      simp [rxPath, Machine.next, RxPath.step, hring]
    obtain ⟨hr, hst⟩ := ih (rxPath.next s .byte) (by simpa [hs.1, hring] using hn)
    exact ⟨hr, hst.trans hs.2⟩

theorem stored_fits (hf : rxPath.Along Fits s es) :
    (rxPath.exec s es).stored = s.stored ++ es.flatMap RxEvent.chunk := by
  induction es generalizing s with
  | nil => simp
  | cons e es ih =>
    obtain ⟨he, hes⟩ := hf
    rw [Machine.exec_cons, ih hes]
    cases e with
    | rdy chunk =>
      have ht : chunk.take (ringBufSize - s.ring.length) = chunk := List.take_of_length_le he
      simp [rxPath, Machine.next, RxPath.step, RxEvent.chunk, ht]
    | byte =>
      have hst : (rxPath.next s .byte).stored = s.stored := by
        simp only [rxPath, Machine.next, RxPath.step]
        split <;> rfl
      simp [hst, RxEvent.chunk]

end RxPath

-- ---------------------------------------------------------------------------
-- Frames
-- ---------------------------------------------------------------------------

variable {sm : RxSm}

theorem toNat_header {len : Nat} (h : len ≤ meshtasticMaxPayload) :
    (UInt8.ofNat (len >>> 8)).toNat * 256 + (UInt8.ofNat (len &&& 0xFF)).toNat = len := by
  simp only [meshtasticMaxPayload] at h
  have hlo : len &&& 0xFF = len % 2 ^ 8 := Nat.and_two_pow_sub_one_eq_mod len 8
  have hhi : len >>> 8 < 2 ^ 8 := by
    rw [Nat.shiftRight_eq_div_pow]
    omega
  have hmod : len % 2 ^ 8 < 2 ^ 8 := Nat.mod_lt _ (by simp)
  rw [hlo, UInt8.toNat_ofNat_of_lt' (n := len >>> 8) hhi,
    UInt8.toNat_ofNat_of_lt' (n := len % 2 ^ 8) hmod, Nat.shiftRight_eq_div_pow]
  omega

theorem exec_frameHeader (hs : sm.state = .waitMagic1) (hlen : len ≤ meshtasticMaxPayload) :
    rxDeliveries sm (frameHeader len) = [] ∧
      (len = 0 → (rxMachine.exec sm (frameHeader len)).state = .waitMagic1) ∧
      (len ≠ 0 → (rxMachine.exec sm (frameHeader len)).state = .waitPayload ∧
        (rxMachine.exec sm (frameHeader len)).expectedLen = len ∧
        (rxMachine.exec sm (frameHeader len)).receivedLen = 0) := by
  have hor := u16_shift_or (UInt8.ofNat (len >>> 8)) (UInt8.ofNat (len &&& 0xFF))
  rw [toNat_header hlen] at hor
  unfold frameHeader
  generalize UInt8.ofNat (len >>> 8) = hi at hor ⊢
  generalize UInt8.ofNat (len &&& 0xFF) = lo at hor ⊢
  have hlast : rxProcessByte { sm with state := .waitLenLo, expectedLen := u16 (hi.toNat <<< 8) } lo =
      if len = 0 ∨ meshtasticMaxPayload < len then
        ({ sm with state := .waitMagic1, expectedLen := len }, none)
      else ({ sm with state := .waitPayload, expectedLen := len, receivedLen := 0 }, none) := by
    simp only [rxProcessByte, hor]
  have hexec : rxMachine.exec sm [meshtasticMagic1, meshtasticMagic2, hi, lo] = (rxProcessByte
      { sm with state := .waitLenLo, expectedLen := u16 (hi.toNat <<< 8) } lo).1 := by
    simp [rxMachine, Machine.next, rxProcessByte, hs]
  have houts : rxDeliveries sm [meshtasticMagic1, meshtasticMagic2, hi, lo] = (rxProcessByte
      { sm with state := .waitLenLo, expectedLen := u16 (hi.toNat <<< 8) } lo).2.toList := by
    simp [rxDeliveries, rxMachine, Machine.next, rxProcessByte, hs]
  rw [hexec, houts, hlast]
  by_cases h0 : len = 0
  · simp [h0]
  · simp [h0, Nat.not_lt.mpr hlen]

theorem exec_payload (hw : sm.Wf) (hs : sm.state = .waitPayload) (bytes : List UInt8)
    (hlen : bytes.length = sm.expectedLen - sm.receivedLen) :
    (rxMachine.exec sm bytes).state = .waitMagic1 := by
  induction bytes generalizing sm with
  | nil =>
    have := (hw hs).1
    simp only [List.length_nil] at hlen
    omega
  | cons b bytes ih =>
    have hw' : (rxMachine.next sm b).Wf := rxProcessByte_wf hw
    obtain ⟨hr, -, hm⟩ := hw hs
    simp only [meshtasticMaxPayload] at hm
    have hu : u16 (sm.receivedLen + 1) = sm.receivedLen + 1 := u16_of_lt (by omega)
    simp only [List.length_cons] at hlen
    rw [Machine.exec_cons]
    by_cases he : sm.receivedLen + 1 = sm.expectedLen
    · obtain rfl : bytes = [] := List.length_eq_zero_iff.mp (by omega)
      have hu' : u16 sm.expectedLen = sm.expectedLen := he ▸ hu
      simp [rxMachine, Machine.next, rxProcessByte, hs, he, hu']
    · have hn : (rxMachine.next sm b).state = .waitPayload ∧
          (rxMachine.next sm b).expectedLen = sm.expectedLen ∧
          (rxMachine.next sm b).receivedLen = sm.receivedLen + 1 := by
        simp [rxMachine, Machine.next, rxProcessByte, hs, hu, he]
      exact ih hw' hn.1 (by omega)

theorem exec_wireFrame (hs : sm.state = .waitMagic1) (hlen : payload.length ≤ meshtasticMaxPayload) :
    rxDeliveries sm (wireFrame payload) = [payload].filter (· ≠ []) ∧
      (rxMachine.exec sm (wireFrame payload)).state = .waitMagic1 := by
  have hw : sm.Wf := fun h => by simp [hs] at h
  obtain ⟨hd, hempty, hbody⟩ := exec_frameHeader hs hlen
  have hw' := rxSm_wf_exec (frameHeader payload.length) hw
  rw [wireFrame, rxDeliveries_append, hd, rxMachine.exec_append, rxDeliveries_eq_resume hw']
  cases payload with
  | nil => exact ⟨resume_nil hw', hempty rfl⟩
  | cons b rest =>
    obtain ⟨hs', he, hr⟩ := hbody (by simp)
    refine ⟨?_, exec_payload hw' hs' _ (by rw [he, hr, Nat.sub_zero])⟩
    simp only [RxSm.resume, hs', he, hr]
    simp [scan_eq, afterMagic]

theorem exec_frames (hs : sm.state = .waitMagic1) (payloads : List (List UInt8))
    (hlen : ∀ payload ∈ payloads, payload.length ≤ meshtasticMaxPayload) :
    rxDeliveries sm (payloads.flatMap wireFrame) = payloads.filter (· ≠ []) ∧
      (rxMachine.exec sm (payloads.flatMap wireFrame)).state = .waitMagic1 := by
  induction payloads generalizing sm with
  | nil => exact ⟨rfl, hs⟩
  | cons payload payloads ih =>
    obtain ⟨hd, hs'⟩ := exec_wireFrame hs (hlen payload (by simp))
    obtain ⟨hds, hss⟩ := ih hs' fun p hp => hlen p (by simp [hp])
    rw [List.flatMap_cons, rxDeliveries_append, hd, hds, rxMachine.exec_append]
    refine ⟨?_, hss⟩
    rw [← List.filter_append]
    rfl

/-- However the stream is cut into chunks and however the work item takes
turns with the interrupt: while no chunk overflows the ring buffer, what is
delivered is what was framed, less the empty payloads. -/
theorem framing_round_trip (payloads : List (List UInt8))
    (hlen : ∀ payload ∈ payloads, payload.length ≤ 512) (sm : RxSm) (hs : sm.state = .waitMagic1)
    (es : List RxEvent) (hwire : es.flatMap RxEvent.chunk = payloads.flatMap wireFrame)
    (hfit : rxPath.Along RxPath.Fits { sm := sm } es) :
    (rxWorkHandler (rxPath.exec { sm := sm } es)).delivered = payloads.filter (· ≠ []) ∧
      (rxWorkHandler (rxPath.exec { sm := sm } es)).sm.state = .waitMagic1 := by
  have hst := RxPath.stored_fits hfit
  obtain ⟨hring, hstored⟩ := RxPath.drain (rxPath.exec { sm := sm } es)
  have hread : RxPath.Read sm (rxWorkHandler (rxPath.exec { sm := sm } es)) :=
    ((RxPath.read_start sm).exec es).exec _
  obtain ⟨gone, hg, hsm, hd⟩ := hread
  obtain ⟨hds, hss⟩ := exec_frames hs payloads hlen
  have hgone : gone = payloads.flatMap wireFrame := by
    rw [← hwire]
    simpa [hring, hstored, hst] using hg.symm
  rw [hgone] at hsm hd
  exact ⟨hd.trans hds, hsm ▸ hss⟩

theorem framing_round_trip_cut :
    (rxWorkHandler (rxPath.exec {} [.rdy [0x94, 0xC3, 0], .byte, .rdy [1, 7, 0x94, 0xC3, 0, 0, 0x94],
      .byte, .byte, .rdy [0xC3, 0, 2, 0x94], .rdy [0xC3]])).delivered = [[7], [0x94, 0xC3]] :=
  (framing_round_trip [[7], [], [0x94, 0xC3]] (by decide) {} rfl
    [.rdy [0x94, 0xC3, 0], .byte, .rdy [1, 7, 0x94, 0xC3, 0, 0, 0x94], .byte, .byte,
      .rdy [0xC3, 0, 2, 0x94], .rdy [0xC3]] (by decide) (by decide)).1

theorem delivered_chunks (sm : RxSm) (hfit : rxPath.Along RxPath.Fits { sm := sm } es) :
    (rxWorkHandler (rxPath.exec { sm := sm } es)).delivered =
      rxDeliveries sm (es.flatMap RxEvent.chunk) := by
  have hst := RxPath.stored_fits hfit
  obtain ⟨hring, hstored⟩ := RxPath.drain (rxPath.exec { sm := sm } es)
  have hread : RxPath.Read sm (rxWorkHandler (rxPath.exec { sm := sm } es)) :=
    ((RxPath.read_start sm).exec es).exec _
  obtain ⟨gone, hg, -, hd⟩ := hread
  rw [hd, ← List.nil_append (es.flatMap RxEvent.chunk), ← hst, ← hstored, hg, hring, List.append_nil]

-- ---------------------------------------------------------------------------
-- Overflow
-- ---------------------------------------------------------------------------

def RxSm.raw (sm : RxSm) : List UInt8 :=
  match sm.state with
  | .waitMagic1 => []
  | .waitMagic2 => [meshtasticMagic1]
  | .waitLenHi => [meshtasticMagic1, meshtasticMagic2]
  | .waitLenLo => [meshtasticMagic1, meshtasticMagic2, UInt8.ofNat (sm.expectedLen >>> 8)]
  | .waitPayload => frameHeader sm.expectedLen ++ sm.payload.slice 0 sm.receivedLen

/-- Between the length bytes the high one stands alone. -/
def RxSm.HighOnly (sm : RxSm) : Prop :=
  sm.state = .waitLenLo → ∃ hi : UInt8, sm.expectedLen = u16 (hi.toNat <<< 8)

theorem frameHeader_or (hi lo : UInt8) : frameHeader (u16 (hi.toNat <<< 8) ||| lo.toNat) =
    [meshtasticMagic1, meshtasticMagic2, hi, lo] := by
  have hlt := lo.toNat_lt
  have h1 : (hi.toNat * 256 + lo.toNat) >>> 8 = hi.toNat := by
    rw [Nat.shiftRight_eq_div_pow]
    omega
  have h2 : (hi.toNat * 256 + lo.toNat) &&& 0xFF = lo.toNat := by
    rw [Nat.and_two_pow_sub_one_eq_mod _ 8]
    omega
  simp only [frameHeader, u16_shift_or, h1, h2, UInt8.ofNat_toNat]

theorem u16_shift_high (hi : UInt8) : UInt8.ofNat (u16 (hi.toNat <<< 8) >>> 8) = hi := by
  have h := congrArg (·[2]?) (frameHeader_or hi 0)
  simpa [frameHeader] using h

theorem rxProcessByte_highOnly : (rxProcessByte sm b).1.HighOnly := by
  intro hs
  unfold rxProcessByte at hs ⊢
  cases hstate : sm.state with
  | waitLenHi => exact ⟨b, by simp⟩
  | _ =>
    simp only [hstate] at hs
    repeat' split at hs
    all_goals simp [hstate] at hs

/-- What one byte does to the frame under way: it extends it, or the receiver
forgets a front part of it, and a payload is delivered with all its bytes. -/
theorem rxProcessByte_raw (hw : sm.Wf) (hh : sm.HighOnly) (b : UInt8) :
    (rxProcessByte sm b).1.raw <:+ sm.raw ++ [b] ∧
      ∀ payload, (rxProcessByte sm b).2 = some payload → sm.raw ++ [b] = wireFrame payload := by
  unfold rxProcessByte
  cases hstate : sm.state with
  | waitMagic1 =>
    have hraw : sm.raw = [] := by simp [RxSm.raw, hstate]
    rw [hraw]
    dsimp only
    split
    · rename_i hb
      exact ⟨by simp [RxSm.raw, hb], by simp⟩
    · exact ⟨by simp [hraw], by simp⟩
  | waitMagic2 =>
    have hraw : sm.raw = [meshtasticMagic1] := by simp [RxSm.raw, hstate]
    rw [hraw]
    dsimp only
    split
    · rename_i hb
      exact ⟨by simp [RxSm.raw, hb], by simp⟩
    · split
      · rename_i hb
        exact ⟨⟨[meshtasticMagic1], by simp [RxSm.raw, hb]⟩, by simp⟩
      · exact ⟨by simp [RxSm.raw], by simp⟩
  | waitLenHi =>
    have hraw : sm.raw = [meshtasticMagic1, meshtasticMagic2] := by simp [RxSm.raw, hstate]
    rw [hraw]
    exact ⟨by simp [RxSm.raw, u16_shift_high], by simp⟩
  | waitLenLo =>
    obtain ⟨hi, he⟩ := hh hstate
    have hraw : sm.raw = [meshtasticMagic1, meshtasticMagic2, hi] := by
      simp [RxSm.raw, hstate, he, u16_shift_high]
    rw [hraw]
    dsimp only
    split
    · exact ⟨by simp [RxSm.raw], by simp⟩
    · exact ⟨by simp [RxSm.raw, he, frameHeader_or], by simp⟩
  | waitPayload =>
    obtain ⟨hr, -, hm⟩ := hw hstate
    have hm' := hm
    simp only [meshtasticMaxPayload] at hm'
    have hu : u16 (sm.receivedLen + 1) = sm.receivedLen + 1 := u16_of_lt (by omega)
    have hslice := Cells.slice_write_self sm.payload b (Nat.lt_of_lt_of_le hr hm)
    have hraw : sm.raw = frameHeader sm.expectedLen ++ sm.payload.slice 0 sm.receivedLen := by
      simp [RxSm.raw, hstate]
    rw [hraw]
    dsimp only
    rw [hu]
    split
    · rename_i hc
      refine ⟨by simp [RxSm.raw], ?_⟩
      intro payload hp
      obtain rfl : (sm.payload.write sm.receivedLen b).slice 0 (sm.receivedLen + 1) = payload :=
        Option.some.inj hp
      rw [wireFrame, Cells.length_slice, hslice, hc, List.append_assoc]
    · exact ⟨by simp [RxSm.raw, hslice], by simp⟩

/-- Read on from `sm`, each byte of `ring` follows the frame under way
directly in the stream, and what is under way at the end is where the stream
ends. -/
def RxSm.Follows (sm : RxSm) : List UInt8 → List UInt8 → Prop
  | [], stream => sm.raw <:+ stream
  | b :: ring, stream => sm.raw ++ [b] <:+: stream ∧ RxSm.Follows (rxProcessByte sm b).1 ring stream

theorem follows_of_suffix (hw : sm.Wf) (hh : sm.HighOnly) (hs : sm.raw <:+ stream)
    (bytes : List UInt8) : sm.Follows bytes (stream ++ bytes) := by
  induction bytes generalizing sm stream with
  | nil => simpa [RxSm.Follows] using hs
  | cons b bytes ih =>
    have hb : sm.raw ++ [b] <:+ stream ++ [b] := List.suffix_append_self_iff.mpr hs
    have hnext := ih (rxProcessByte_wf hw) rxProcessByte_highOnly
      ((rxProcessByte_raw hw hh b).1.trans hb)
    rw [List.append_cons]
    exact ⟨hb.isInfix.trans (List.prefix_append _ _).isInfix, hnext⟩

theorem RxSm.Follows.put (hw : sm.Wf) (hh : sm.HighOnly) (hf : sm.Follows ring stream)
    (bytes : List UInt8) : sm.Follows (ring ++ bytes) (stream ++ bytes) := by
  induction ring generalizing sm with
  | nil => exact follows_of_suffix hw hh hf bytes
  | cons b ring ih =>
    exact ⟨hf.1.trans (List.prefix_append _ _).isInfix,
      ih (rxProcessByte_wf hw) rxProcessByte_highOnly hf.2⟩

theorem RxSm.Follows.gap (hf : sm.Follows ring stream)
    (hs : (rxMachine.exec sm ring).state = .waitMagic1) (lost : List UInt8) :
    sm.Follows ring (stream ++ lost) := by
  induction ring generalizing sm with
  | nil =>
    have hraw : sm.raw = [] := by simp only [RxSm.raw, show sm.state = .waitMagic1 from hs]
    simp [RxSm.Follows, hraw]
  | cons b ring ih =>
    exact ⟨hf.1.trans (List.prefix_append _ _).isInfix, ih hf.2 hs⟩

namespace RxPath

/-- A chunk that does not fit is cut where no frame is under way: the receiver,
reading what is buffered by then, comes back to the start. -/
def CutBetween (s : RxPath) (e : RxEvent) : Prop :=
  s.Fits e ∨ (rxMachine.exec s.sm (ringBufPut s.ring e.chunk)).state = .waitMagic1

instance (s : RxPath) (e : RxEvent) : Decidable (s.CutBetween e) :=
  inferInstanceAs (Decidable (s.Fits e ∨
    (rxMachine.exec s.sm (ringBufPut s.ring e.chunk)).state = .waitMagic1))

structure Whole (s : RxPath) : Prop where
  wf : s.sm.Wf
  high : s.sm.HighOnly
  follows : s.sm.Follows s.ring s.reported
  framed : ∀ payload ∈ s.delivered, wireFrame payload <:+: s.reported

theorem whole_boot : ({} : RxPath).Whole where
  wf := rxSm_init_wf
  high h := by cases h
  follows := List.suffix_refl _
  framed := by simp

variable {s : RxPath}

theorem Whole.rdy (hs : s.Whole) (hc : s.CutBetween (.rdy chunk)) :
    (s.step (.rdy chunk)).Whole where
  wf := hs.wf
  high := hs.high
  follows := by
    have hput := hs.follows.put hs.wf hs.high (chunk.take (ringBufSize - s.ring.length))
    obtain hfit | hcut := hc
    · have ht : chunk.take (ringBufSize - s.ring.length) = chunk := List.take_of_length_le hfit
      simpa [RxPath.step, ringBufPut, ht] using hput
    · have hgap := hput.gap hcut (chunk.drop (ringBufSize - s.ring.length))
      simpa [RxPath.step, ringBufPut] using hgap
  framed payload hp := (hs.framed payload hp).trans (List.prefix_append _ _).isInfix

theorem Whole.byte (hs : s.Whole) : (s.step .byte).Whole := by
  obtain ⟨hw, hh, hf, hd⟩ := hs
  unfold RxPath.step
  dsimp only
  split
  · exact ⟨hw, hh, hf, hd⟩
  · rename_i b rest hring
    rw [hring] at hf
    refine ⟨rxProcessByte_wf hw, rxProcessByte_highOnly, hf.2, ?_⟩
    intro payload hp
    obtain hp | hp := List.mem_append.mp hp
    · exact hd payload hp
    · have hraw := (rxProcessByte_raw hw hh b).2 payload (by simpa using hp)
      exact hraw ▸ hf.1

theorem Whole.step (hs : s.Whole) (hc : s.CutBetween e) : (s.step e).Whole := by
  cases e with
  | rdy chunk => exact hs.rdy hc
  | byte => exact hs.byte

end RxPath

/-- As long as no chunk is cut inside a frame, every payload delivered stood
in the stream with its header right before it. -/
theorem overflow_between_frames (es : List RxEvent) (hc : rxPath.Along RxPath.CutBetween {} es) :
    ∀ payload ∈ (rxPath.exec {} es).delivered,
      wireFrame payload <:+: (rxPath.exec {} es).reported :=
  (Machine.invariant (fun _ _ he hs => hs.step he) hc RxPath.whole_boot).framed

def cutFrame : List RxEvent :=
  List.replicate 3 (.rdy (List.replicate 256 0)) ++
    [.rdy (List.replicate 251 0 ++ [0x94, 0xC3, 0, 2, 0xAA])]

def lostBetween : List RxEvent :=
  List.replicate 4 (.rdy (List.replicate 256 0)) ++ [.rdy [0x94]] ++ List.replicate 1024 .byte ++
    [.rdy [0x94, 0xC3, 0, 1, 5]] ++ List.replicate 5 .byte

theorem overflow_lost_between : (rxPath.exec {} lostBetween).delivered = [[5]] ∧
    wireFrame [5] <:+: (rxPath.exec {} lostBetween).reported := by
  have hd : (rxPath.exec {} lostBetween).delivered = [[5]] := by decide +kernel
  refine ⟨hd, overflow_between_frames lostBetween (by decide +kernel) [5] ?_⟩
  rw [hd]
  exact List.mem_singleton_self [5]

/-- The byte after the overflow is lost, and the one after the drain takes
its place. -/
def splicedRun : List RxEvent :=
  cutFrame ++ [.rdy [0xBB]] ++ List.replicate 1024 .byte ++ [.rdy [0xCC], .byte]

theorem overflow_splices : rxPath.Admits {} splicedRun ∧
    [0xAA, 0xCC] ∈ (rxPath.exec {} splicedRun).delivered ∧
    ¬ [0xAA, 0xCC] <:+: (rxPath.exec {} splicedRun).reported := by
  decide +kernel

end MeshProxy

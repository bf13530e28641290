import MeshProxy.ConfigCache
import MeshProxy.Lib.Machine

/-!
# uart_meshtastic.c, receive side

`rxProcessByte` is the framing state machine; a byte that completes a frame
gives the payload that is passed to `fromradio_cb`. `scan` reads a whole
buffer at once and says what should be delivered: `rx_deliveries_eq_scan`
shows that feeding the bytes one by one delivers the same payloads. Every
delivered payload has 1 to 512 bytes.
-/

namespace MeshProxy

def meshtasticMagic1 : UInt8 := 0x94
def meshtasticMagic2 : UInt8 := 0xC3
def meshtasticMaxPayload : Nat := 512

inductive RxState
  | waitMagic1
  | waitMagic2
  | waitLenHi
  | waitLenLo
  | waitPayload
  deriving DecidableEq, Repr

structure RxSm where
  state : RxState := .waitMagic1
  expectedLen : Nat := 0
  receivedLen : Nat := 0
  payload : Cells meshtasticMaxPayload UInt8 := Cells.zero

def rxProcessByte (sm : RxSm) (byte : UInt8) : RxSm × Option (List UInt8) :=
  match sm.state with
  | .waitMagic1 =>
    if byte = meshtasticMagic1 then ({ sm with state := .waitMagic2 }, none) else (sm, none)
  | .waitMagic2 =>
    if byte = meshtasticMagic2 then ({ sm with state := .waitLenHi }, none)
    else if byte = meshtasticMagic1 then ({ sm with state := .waitMagic2 }, none)
    else ({ sm with state := .waitMagic1 }, none)
  | .waitLenHi =>
    ({ sm with expectedLen := u16 (byte.toNat <<< 8), state := .waitLenLo }, none)
  | .waitLenLo =>
    let expectedLen := sm.expectedLen ||| byte.toNat
    if expectedLen = 0 ∨ meshtasticMaxPayload < expectedLen then
      ({ sm with expectedLen, state := .waitMagic1 }, none)
    else ({ sm with expectedLen, receivedLen := 0, state := .waitPayload }, none)
  | .waitPayload =>
    let payload := sm.payload.write sm.receivedLen byte
    let receivedLen := u16 (sm.receivedLen + 1)
    if receivedLen = sm.expectedLen then
      ({ sm with payload, receivedLen, state := .waitMagic1 }, some (payload.slice 0 receivedLen))
    else ({ sm with payload, receivedLen }, none)

def rxMachine : Machine RxSm UInt8 (Option (List UInt8)) where
  enabled _ _ := True
  step := rxProcessByte

/-- The payloads handed to `fromradio_cb` while `bytes` are processed. -/
def rxDeliveries (sm : RxSm) (bytes : List UInt8) : List (List UInt8) :=
  (rxMachine.outs sm bytes).flatMap Option.toList

-- ---------------------------------------------------------------------------
-- The whole-buffer scanner
-- ---------------------------------------------------------------------------

def afterMagic : List UInt8 → Option (List UInt8)
  | a :: b :: rest =>
    if a = meshtasticMagic1 ∧ b = meshtasticMagic2 then some rest else afterMagic (b :: rest)
  | _ => none

theorem afterMagic_length (h : afterMagic input = some rest) : rest.length < input.length := by
  induction input with
  | nil => simp [afterMagic] at h
  | cons a tail ih =>
    cases tail with
    | nil => simp [afterMagic] at h
    | cons b tail =>
      rw [afterMagic] at h
      split at h
      · cases h
        simp only [List.length_cons]
        omega
      · have := ih h
        simp only [List.length_cons] at this ⊢
        omega

/-- Find the next pair of magic bytes, read a big-endian length and deliver
that many bytes; a bad length resumes after the four header bytes, and the
scan ends where the input runs out. -/
def scan (input : List UInt8) : List (List UInt8) :=
  match h : afterMagic input with
  | some (hi :: lo :: rest) =>
    have := afterMagic_length h
    let n := hi.toNat * 256 + lo.toNat
    if n = 0 ∨ meshtasticMaxPayload < n then scan rest
    else if rest.length < n then []
    else rest.take n :: scan (rest.drop n)
  | _ => []
termination_by input.length
decreasing_by
  · simp only [List.length_cons] at this; omega
  · simp only [List.length_cons] at this; simp only [List.length_drop]; omega

def scanPayload (n : Nat) (rest : List UInt8) : List (List UInt8) :=
  if n = 0 ∨ meshtasticMaxPayload < n then scan rest
  else if rest.length < n then []
  else rest.take n :: scan (rest.drop n)

def scanLength : List UInt8 → List (List UInt8)
  | hi :: lo :: rest => scanPayload (hi.toNat * 256 + lo.toNat) rest
  | _ => []

theorem scan_eq (input : List UInt8) :
    scan input = match afterMagic input with
      | some rest => scanLength rest
      | none => [] := by
  rw [scan]
  split
  · rename_i h
    simp only [h, scanLength, scanPayload]
  · rename_i hne
    split
    · rename_i rest h
      match rest, hne, h with
      | [], _, _ => rfl
      | [_], _, _ => rfl
      | hi :: lo :: rest, hne, h => exact absurd h (hne hi lo rest)
    · rfl

theorem scan_skip (h : b ≠ meshtasticMagic1) : scan (b :: bs) = scan bs := by
  have hm : afterMagic (b :: bs) = afterMagic bs := by
    cases bs with
    | nil => rfl
    | cons c cs => simp [afterMagic, h]
  rw [scan_eq, hm, ← scan_eq]

theorem scan_magic : scan (meshtasticMagic1 :: meshtasticMagic2 :: bs) = scanLength bs := by
  simp [scan_eq, afterMagic]

theorem scan_miss (h : b ≠ meshtasticMagic2) : scan (meshtasticMagic1 :: b :: bs) = scan (b :: bs) := by
  have hm : afterMagic (meshtasticMagic1 :: b :: bs) = afterMagic (b :: bs) := by
    simp [afterMagic, h]
  rw [scan_eq, hm, ← scan_eq]

theorem scan_short : scan [b] = [] := by
  simp [scan_eq, afterMagic]

-- ---------------------------------------------------------------------------
-- The receiver agrees with the scanner in every state
-- ---------------------------------------------------------------------------

def RxSm.Wf (sm : RxSm) : Prop :=
  sm.state = .waitPayload →
    sm.receivedLen < sm.expectedLen ∧ 1 ≤ sm.expectedLen ∧ sm.expectedLen ≤ meshtasticMaxPayload

/-- What the scanner delivers from `bytes`, given what the receiver already
took in. -/
def RxSm.resume (sm : RxSm) (bytes : List UInt8) : List (List UInt8) :=
  match sm.state with
  | .waitMagic1 => scan bytes
  | .waitMagic2 => scan (meshtasticMagic1 :: bytes)
  | .waitLenHi => scanLength bytes
  | .waitLenLo =>
    match bytes with
    | [] => []
    | lo :: rest => scanPayload (sm.expectedLen ||| lo.toNat) rest
  | .waitPayload =>
    let missing := sm.expectedLen - sm.receivedLen
    if bytes.length < missing then []
    else (sm.payload.slice 0 sm.receivedLen ++ bytes.take missing) :: scan (bytes.drop missing)

variable {sm : RxSm}

theorem u16_shift_or (hi lo : UInt8) : u16 (hi.toNat <<< 8) ||| lo.toNat = hi.toNat * 256 + lo.toNat := by
  have hhi := hi.toNat_lt
  have hlo := lo.toNat_lt
  rw [u16_of_lt (by rw [Nat.shiftLeft_eq]; omega), ← Nat.shiftLeft_add_eq_or_of_lt hlo,
    Nat.shiftLeft_eq]

theorem rxProcessByte_wf (hw : sm.Wf) : (rxProcessByte sm b).1.Wf := by
  intro hs
  unfold rxProcessByte at hs ⊢
  cases hstate : sm.state with
  | waitMagic1 =>
    simp only [hstate] at hs
    split at hs <;> simp [hstate] at hs
  | waitMagic2 =>
    simp only [hstate] at hs
    split at hs
    · simp at hs
    · split at hs <;> simp at hs
  | waitLenHi => simp [hstate] at hs
  | waitLenLo =>
    simp only [hstate] at hs ⊢
    split at hs
    · simp at hs
    · rename_i hn
      rw [if_neg hn]
      simp only
      omega
  | waitPayload =>
    obtain ⟨hr, h1, hm⟩ := hw hstate
    simp only [meshtasticMaxPayload] at hm
    have hu : u16 (sm.receivedLen + 1) = sm.receivedLen + 1 := u16_of_lt (by omega)
    simp only [hstate, hu] at hs ⊢
    split at hs
    · simp at hs
    · rename_i hn
      rw [if_neg hn]
      simp only [meshtasticMaxPayload]
      omega

theorem rxSm_wf_exec (bytes : List UInt8) (hw : sm.Wf) : (rxMachine.exec sm bytes).Wf :=
  Machine.invariant (P := fun _ _ => True) (fun _ _ _ h => rxProcessByte_wf h)
    (rxMachine.along_of_forall fun _ _ => trivial) hw

theorem rxProcessByte_payload (hw : sm.Wf) (h : (rxProcessByte sm b).2 = some payload) :
    1 ≤ payload.length ∧ payload.length ≤ meshtasticMaxPayload := by
  unfold rxProcessByte at h
  cases hstate : sm.state with
  | waitPayload =>
    obtain ⟨-, h1, hm⟩ := hw hstate
    simp only [hstate] at h
    split at h
    · rename_i he
      cases h
      rw [Cells.length_slice, he]
      exact ⟨h1, hm⟩
    · cases h
  | _ =>
    simp only [hstate] at h
    repeat' split at h
    all_goals cases h

theorem rxSm_init_wf : ({} : RxSm).Wf := fun h => by cases h

theorem resume_nil (hw : sm.Wf) : sm.resume [] = [] := by
  unfold RxSm.resume
  cases hstate : sm.state with
  | waitMagic1 => simp [scan_eq, afterMagic]
  | waitMagic2 => exact scan_short
  | waitLenHi => rfl
  | waitLenLo => rfl
  | waitPayload =>
    obtain ⟨hr, -, -⟩ := hw hstate
    simp only [List.length_nil]
    rw [if_pos (by omega)]

/-- One byte: what is due splits into what this byte delivers and what the
next state still owes. -/
theorem resume_cons (hw : sm.Wf) (b : UInt8) (bs : List UInt8) :
    sm.resume (b :: bs) = (rxProcessByte sm b).2.toList ++ (rxProcessByte sm b).1.resume bs := by
  unfold rxProcessByte
  cases hstate : sm.state with
  | waitMagic1 =>
    simp only [RxSm.resume, hstate]
    split
    · rename_i hb
      simp [hb]
    · rename_i hb
      simp [hstate, scan_skip hb]
  | waitMagic2 =>
    simp only [RxSm.resume, hstate]
    split
    · rename_i hb
      simp [hb, scan_magic]
    · rename_i hb
      rw [scan_miss hb]
      split
      · rename_i h1
        simp [h1]
      · rename_i h1
        simp [scan_skip h1]
  | waitLenHi =>
    simp only [RxSm.resume, hstate]
    cases bs with
    | nil => rfl
    | cons lo rest => simp [scanLength, u16_shift_or]
  | waitLenLo =>
    simp only [RxSm.resume, hstate, scanPayload]
    split
    · simp
    · simp
  | waitPayload =>
    obtain ⟨hr, -, hm⟩ := hw hstate
    simp only [meshtasticMaxPayload] at hm
    have hu : u16 (sm.receivedLen + 1) = sm.receivedLen + 1 := u16_of_lt (by omega)
    have hslice := Cells.slice_write_self sm.payload b
      (show sm.receivedLen < meshtasticMaxPayload by simp only [meshtasticMaxPayload]; omega)
    simp only [RxSm.resume, hstate, hu, hslice]
    obtain ⟨k, hk⟩ : ∃ k, sm.expectedLen = sm.receivedLen + 1 + k :=
      ⟨sm.expectedLen - sm.receivedLen - 1, by omega⟩
    have h1 : sm.expectedLen - sm.receivedLen = k + 1 := by omega
    have h2 : sm.expectedLen - (sm.receivedLen + 1) = k := by omega
    by_cases he : sm.receivedLen + 1 = sm.expectedLen
    · -- this byte completes the frame
      have hk0 : k = 0 := by omega
      subst hk0
      simp [he, h1]
    · simp only [he, ↓reduceIte, h1, h2, hslice, List.length_cons, Nat.add_lt_add_iff_right,
        List.take_succ_cons, List.drop_succ_cons, Option.toList_none, List.nil_append,
        List.append_assoc, List.singleton_append]

theorem rxDeliveries_eq_resume (hw : sm.Wf) (bytes : List UInt8) :
    rxDeliveries sm bytes = sm.resume bytes := by
  induction bytes generalizing sm with
  | nil => exact (resume_nil hw).symm
  | cons b bs ih =>
    rw [resume_cons hw, ← ih (rxProcessByte_wf hw)]
    rfl

theorem rxDeliveries_start (bytes : List UInt8) : rxDeliveries {} bytes = scan bytes :=
  rxDeliveries_eq_resume rxSm_init_wf bytes

/-- From the start the receiver delivers what the scanner finds, and a frame
under way always fits the payload buffer. -/
theorem rx_deliveries_eq_scan (bytes : List UInt8) :
    rxDeliveries {} bytes = scan bytes ∧
      ((rxMachine.exec {} bytes).state = .waitPayload →
        (rxMachine.exec {} bytes).receivedLen < (rxMachine.exec {} bytes).expectedLen ∧
          1 ≤ (rxMachine.exec {} bytes).expectedLen ∧
          (rxMachine.exec {} bytes).expectedLen ≤ 512) :=
  ⟨rxDeliveries_start bytes, rxSm_wf_exec bytes rxSm_init_wf⟩

end MeshProxy

import MeshProxy.RxPath

/-!
# The receive buffers

The driver fills one of two buffers and asks for the other one while it does;
`uart_cb` answers with the buffer that `active_buf` has not named last, and
starts over with the first one when reception was disabled. The driver never
gets a buffer that it still fills, and the chunks that `UART_RX_RDY` reports
are the bytes of the line, so `rxPath` sees what the node sent
(`dma_reports_line`).
-/

namespace MeshProxy

/-- A buffer in the hands of the driver. -/
structure Filling where
  buf : Fin 2
  /-- Reported with `UART_RX_RDY` up to here. -/
  offset : Nat := 0
  filled : Nat := 0

def Filling.part (f : Filling) (dmaBuf : Fin 2 → Cells uartDmaBufSize UInt8) : List UInt8 :=
  (dmaBuf f.buf).slice f.offset (f.filled - f.offset)

structure RxDma where
  dmaBuf : Fin 2 → Cells uartDmaBufSize UInt8 := fun _ => Cells.zero
  activeBuf : Fin 2 := 0
  /-- The buffer that is filled; none while reception is disabled. -/
  current : Option Filling := none
  /-- The buffer to go on with. The hardware may do so before the driver has
  reported the rest of the current one. -/
  next : Option Filling := none
  path : RxPath := {}

inductive DmaEvent
  /-- A byte comes in on the line. -/
  | line (byte : UInt8)
  | rxRdy
  | rxBufRequest
  | rxBufReleased
  | rxStopped
  /-- `err` is what `uart_rx_enable` returns. -/
  | rxDisabled (err : Bool)
  /-- One turn of the loop in `rx_work_handler`. -/
  | rxWork
  deriving DecidableEq, Repr

namespace RxDma

def unreported (s : RxDma) : List UInt8 :=
  (s.current.map (·.part s.dmaBuf)).getD [] ++ (s.next.map (·.part s.dmaBuf)).getD []

def store (s : RxDma) (f : Filling) (byte : UInt8) : Fin 2 → Cells uartDmaBufSize UInt8 :=
  Function.update s.dmaBuf f.buf ((s.dmaBuf f.buf).write f.filled byte)

def more (f : Filling) : Filling := { f with filled := f.filled + 1 }

def line (s : RxDma) (byte : UInt8) : RxDma :=
  match s.current with
  | none => s
  | some c =>
    if c.filled < uartDmaBufSize then { s with dmaBuf := s.store c byte, current := some (more c) }
    else
      match s.next with
      | none => s
      | some n => { s with dmaBuf := s.store n byte, next := some (more n) }

/-- `uart_rx_enable` on the first buffer, and whether it fails. -/
def rxEnable (s : RxDma) (err : Bool) : RxDma :=
  { s with activeBuf := 0, current := if err then none else some { buf := 0 } }

/-- The receive cases of `uart_cb`, with what the driver does around them. -/
def step (s : RxDma) : DmaEvent → RxDma
  | .line byte => s.line byte
  | .rxRdy =>
    match s.current with
    | none => s
    | some c =>
      { s with
        path := s.path.step (.rdy (c.part s.dmaBuf)), current := some { c with offset := c.filled } }
  | .rxBufRequest =>
    let activeBuf := s.activeBuf ^^^ 1
    { s with activeBuf, next := some { buf := activeBuf } }
  | .rxBufReleased => { s with current := s.next, next := none }
  | .rxStopped => { s with current := none, next := none }
  | .rxDisabled err => s.rxEnable err
  | .rxWork => { s with path := s.path.step .byte }

/-- The order in which the asynchronous UART interface sends its events: a
buffer is asked for when there is none to go on with, released when it is full
and reported, and nothing is unreported when reception stops. -/
def Enabled (s : RxDma) : DmaEvent → Prop
  | .line _ => ∃ c, s.current = some c ∧
      (c.filled < uartDmaBufSize ∨ ∃ n, s.next = some n ∧ n.filled < uartDmaBufSize)
  | .rxRdy => ∃ c, s.current = some c ∧ c.offset < c.filled
  | .rxBufRequest => s.current.isSome ∧ s.next = none
  | .rxBufReleased => s.next.isSome ∧
      ∃ c, s.current = some c ∧ c.filled = uartDmaBufSize ∧ c.offset = uartDmaBufSize
  | .rxStopped => s.current.isSome ∧ s.unreported = []
  | .rxDisabled _ => s.current = none
  | .rxWork => True

instance (s : RxDma) : (e : DmaEvent) → Decidable (s.Enabled e)
  | .line _ =>
    decidable_of_iff (∃ c ∈ s.current,
      c.filled < uartDmaBufSize ∨ ∃ n ∈ s.next, n.filled < uartDmaBufSize) Iff.rfl
  | .rxRdy => decidable_of_iff (∃ c ∈ s.current, c.offset < c.filled) Iff.rfl
  | .rxBufRequest =>
    decidable_of_iff (s.current.isSome ∧ s.next.isNone) (by simp [Enabled])
  | .rxBufReleased =>
    decidable_of_iff (s.next.isSome ∧
      ∃ c ∈ s.current, c.filled = uartDmaBufSize ∧ c.offset = uartDmaBufSize) Iff.rfl
  | .rxStopped => inferInstanceAs (Decidable (s.current.isSome ∧ s.unreported = []))
  | .rxDisabled _ => decidable_of_iff (s.current.isNone) Option.isNone_iff_eq_none
  | .rxWork => inferInstanceAs (Decidable True)

end RxDma

def rxDma : Machine RxDma DmaEvent Unit where
  enabled := RxDma.Enabled
  step s e := (s.step e, ())

instance (s : RxDma) (e : DmaEvent) : Decidable (rxDma.enabled s e) :=
  inferInstanceAs (Decidable (s.Enabled e))

def RxDma.init : RxDma := { current := some { buf := 0 } }

-- ---------------------------------------------------------------------------
-- Who owns which buffer
-- ---------------------------------------------------------------------------

namespace RxDma

/-- `active_buf` names the buffer handed over last, and the driver's two
buffers are different ones. -/
structure Owned (s : RxDma) : Prop where
  idle : s.current = none → s.next = none
  alone : ∀ c, s.current = some c → s.next = none → c.buf = s.activeBuf
  apart : ∀ c n, s.current = some c → s.next = some n → n.buf = s.activeBuf ∧ c.buf ≠ n.buf
  /-- The second buffer is used when the first one is full. -/
  ahead : ∀ c n, s.current = some c → s.next = some n → n.offset = 0 ∧
    (c.filled < uartDmaBufSize → n.filled = 0)
  bounds : ∀ c, s.current = some c → c.offset ≤ c.filled ∧ c.filled ≤ uartDmaBufSize
  room : ∀ n, s.next = some n → n.filled ≤ uartDmaBufSize

theorem owned_init : init.Owned where
  idle h := by cases h
  alone c h _ := by cases h; rfl
  apart c n _ h := by cases h
  ahead c n _ h := by cases h
  bounds c h := by cases h; exact ⟨Nat.le_refl _, Nat.zero_le _⟩
  room n h := by cases h

variable {s : RxDma} {e : DmaEvent}

theorem flip_ne (a : Fin 2) : a ^^^ 1 ≠ a := by
  revert a
  decide

inductive LineStep (s : RxDma) (byte : UInt8) : RxDma → Prop
  | current (c : Filling) (hc : s.current = some c) (hroom : c.filled < uartDmaBufSize) :
      LineStep s byte { s with dmaBuf := s.store c byte, current := some (more c) }
  | next (c n : Filling) (hc : s.current = some c) (hfull : ¬ c.filled < uartDmaBufSize)
      (hn : s.next = some n) (hroom : n.filled < uartDmaBufSize) :
      LineStep s byte { s with dmaBuf := s.store n byte, next := some (more n) }

theorem line_step (he : s.Enabled (.line byte)) : LineStep s byte (s.line byte) := by
  obtain ⟨c, hc, hroom⟩ := he
  by_cases hfull : c.filled < uartDmaBufSize
  · have heq : s.line byte = { s with dmaBuf := s.store c byte, current := some (more c) } := by
      simp [RxDma.line, hc, hfull]
    rw [heq]
    exact .current c hc hfull
  · obtain ⟨n, hn, hroom⟩ := hroom.resolve_left hfull
    have heq : s.line byte = { s with dmaBuf := s.store n byte, next := some (more n) } := by
      simp [RxDma.line, hc, hfull, hn]
    rw [heq]
    exact .next c n hc hfull hn hroom

theorem Owned.line (h : s.Owned) (he : s.Enabled (.line byte)) : (s.line byte).Owned := by
  have hstep := line_step he
  generalize s.line byte = s' at hstep ⊢
  cases hstep with
  | current c hc hroom =>
    have hb := h.bounds c hc
    refine ⟨?_, ?_, ?_, ?_, ?_, h.room⟩
    · rintro ⟨⟩
    · rintro _ ⟨⟩ hn
      exact h.alone c hc hn
    · rintro _ n ⟨⟩ hn
      exact h.apart c n hc hn
    · rintro _ n ⟨⟩ hn
      obtain ⟨ho, hz⟩ := h.ahead c n hc hn
      exact ⟨ho, fun _ => hz hroom⟩
    · rintro _ ⟨⟩
      simp only [more]
      omega
  | next c n hc hfull hn hroom =>
    refine ⟨?_, ?_, ?_, ?_, h.bounds, ?_⟩
    · intro hnone
      simp [hc] at hnone
    · rintro _ _ ⟨⟩
    · rintro c' _ hc' ⟨⟩
      exact h.apart c' n hc' hn
    · rintro c' _ hc' ⟨⟩
      obtain rfl : c = c' := Option.some.inj (hc.symm.trans hc')
      exact ⟨(h.ahead c n hc hn).1, fun hlt => absurd hlt hfull⟩
    · rintro _ ⟨⟩
      exact hroom

theorem Owned.step (h : s.Owned) (he : s.Enabled e) : (s.step e).Owned := by
  cases e with
  | line byte => exact h.line he
  | rxRdy =>
    obtain ⟨c, hc, hlt⟩ := he
    simp only [RxDma.step, hc]
    refine ⟨?_, ?_, ?_, ?_, ?_, h.room⟩
    · rintro ⟨⟩
    · rintro _ ⟨⟩ hn
      exact h.alone c hc hn
    · rintro _ n ⟨⟩ hn
      exact h.apart c n hc hn
    · rintro _ n ⟨⟩ hn
      exact h.ahead c n hc hn
    · rintro _ ⟨⟩
      exact ⟨Nat.le_refl _, (h.bounds c hc).2⟩
  | rxBufRequest =>
    obtain ⟨hsome, hnone⟩ := he
    obtain ⟨c, hc⟩ := Option.isSome_iff_exists.mp hsome
    refine ⟨?_, ?_, ?_, ?_, h.bounds, ?_⟩
    · intro hn
      simp [RxDma.step, hc] at hn
    · rintro _ _ ⟨⟩
    · rintro c' _ hc' ⟨⟩
      have hb := h.alone c' hc' hnone
      exact ⟨rfl, by rw [hb]; exact (flip_ne s.activeBuf).symm⟩
    · rintro c' _ hc' ⟨⟩
      exact ⟨rfl, fun _ => rfl⟩
    · rintro _ ⟨⟩
      exact Nat.zero_le _
  | rxBufReleased =>
    obtain ⟨hsome, c, hc, -, -⟩ := he
    obtain ⟨n, hn⟩ := Option.isSome_iff_exists.mp hsome
    refine ⟨fun _ => rfl, ?_, ?_, ?_, ?_, ?_⟩
    · rintro n' hn' -
      exact (h.apart c n' hc hn').1
    · rintro _ _ _ ⟨⟩
    · rintro _ _ _ ⟨⟩
    · intro n' hn'
      exact ⟨by rw [(h.ahead c n' hc hn').1]; exact Nat.zero_le _, h.room n' hn'⟩
    · rintro _ ⟨⟩
  | rxStopped =>
    refine ⟨fun _ => rfl, ?_, ?_, ?_, ?_, ?_⟩
    · rintro _ ⟨⟩
    · rintro _ _ ⟨⟩
    · rintro _ _ ⟨⟩
    · rintro _ ⟨⟩
    · rintro _ ⟨⟩
  | rxDisabled err =>
    have hnone := h.idle he
    cases err with
    | true =>
      refine ⟨fun _ => hnone, ?_, ?_, ?_, ?_, h.room⟩
      · rintro _ ⟨⟩
      · rintro _ _ ⟨⟩
      · rintro _ _ ⟨⟩
      · rintro _ ⟨⟩
    | false =>
      refine ⟨fun _ => hnone, ?_, ?_, ?_, ?_, h.room⟩
      · rintro _ ⟨⟩ _
        rfl
      · intro _ n _ hn
        simp [RxDma.step, rxEnable, hnone] at hn
      · intro _ n _ hn
        simp [RxDma.step, rxEnable, hnone] at hn
      · rintro _ ⟨⟩
        exact ⟨Nat.le_refl _, Nat.zero_le _⟩
  | rxWork => exact ⟨h.idle, h.alone, h.apart, h.ahead, h.bounds, h.room⟩

-- ---------------------------------------------------------------------------
-- The bytes of the line
-- ---------------------------------------------------------------------------

def lineAt : DmaEvent → List UInt8
  | .line byte => [byte]
  | _ => []

def pathAt (s : RxDma) : DmaEvent → List RxEvent
  | .rxRdy => (s.current.map fun c => .rdy (c.part s.dmaBuf)).toList
  | .rxWork => [.byte]
  | _ => []

theorem part_store (s : RxDma) {f g : Filling} (hne : g.buf ≠ f.buf) (byte : UInt8) :
    g.part (s.store f byte) = g.part s.dmaBuf := by
  rw [Filling.part, store, Function.update_of_ne hne]
  rfl

theorem part_more (s : RxDma) {f : Filling} (hle : f.offset ≤ f.filled)
    (hroom : f.filled < uartDmaBufSize) (byte : UInt8) :
    (more f).part (s.store f byte) = f.part s.dmaBuf ++ [byte] := by
  obtain ⟨len, hlen⟩ := Nat.exists_eq_add_of_le hle
  have hnext := Cells.slice_write_next (s.dmaBuf f.buf) byte (hlen ▸ hroom : f.offset + len < _)
  have hone : f.offset + len + 1 - f.offset = len + 1 := by omega
  rw [Filling.part, Filling.part, store]
  simp only [more, Function.update_self, hlen, hone, Nat.add_sub_cancel_left, hnext]

theorem part_empty {f : Filling} (h : f.filled = f.offset) (dmaBuf : Fin 2 → Cells uartDmaBufSize UInt8) :
    f.part dmaBuf = [] := by
  rw [Filling.part, h, Nat.sub_self, Cells.slice_zero]

theorem step_unreported (h : s.Owned) (he : s.Enabled e) :
    (s.pathAt e).flatMap RxEvent.chunk ++ (s.step e).unreported = s.unreported ++ lineAt e := by
  cases e with
  | line byte =>
    have hstep := line_step he
    simp only [pathAt, RxDma.step, lineAt, List.flatMap_nil, List.nil_append]
    generalize s.line byte = s' at hstep ⊢
    cases hstep with
    | current c hc hroom =>
      simp only [unreported, hc, Option.map_some, Option.getD_some,
        part_more s (h.bounds c hc).1 hroom byte]
      cases hn : s.next with
      | none => simp
      | some n =>
        obtain ⟨ho, hz⟩ := h.ahead c n hc hn
        have hempty : n.filled = n.offset := by rw [ho, hz hroom]
        simp [part_empty hempty]
    | next c n hc hfull hn hroom =>
      have hle : n.offset ≤ n.filled := by
        rw [(h.ahead c n hc hn).1]
        exact Nat.zero_le _
      simp only [unreported, hc, hn, Option.map_some, Option.getD_some, part_more s hle hroom byte,
        part_store s (h.apart c n hc hn).2 byte, List.append_assoc]
  | rxRdy =>
    obtain ⟨c, hc, hlt⟩ := he
    have hdone : Filling.part { c with offset := c.filled } s.dmaBuf = [] := part_empty rfl _
    simp [pathAt, RxDma.step, unreported, hc, lineAt, RxEvent.chunk, hdone]
  | rxBufRequest =>
    obtain ⟨-, hnone⟩ := he
    have hfresh : Filling.part { buf := s.activeBuf ^^^ 1 } s.dmaBuf = [] := part_empty rfl _
    simp [pathAt, RxDma.step, unreported, lineAt, hnone, hfresh]
  | rxBufReleased =>
    obtain ⟨-, c, hc, hfull, hrep⟩ := he
    have hdone := part_empty (hfull.trans hrep.symm) s.dmaBuf
    simp [pathAt, RxDma.step, unreported, lineAt, hc, hdone]
  | rxStopped =>
    obtain ⟨-, hnone⟩ := he
    rw [hnone]
    rfl
  | rxDisabled err =>
    have hcurrent : s.current = none := he
    have hnone := h.idle hcurrent
    have hfresh : Filling.part { buf := 0 } s.dmaBuf = [] := part_empty rfl _
    cases err <;> simp [pathAt, RxDma.step, rxEnable, lineAt, unreported, hcurrent, hnone, hfresh]
  | rxWork => simp [pathAt, RxDma.step, lineAt, RxEvent.chunk, unreported]

theorem step_path (h : s.Owned) (he : s.Enabled e) :
    (s.step e).path = rxPath.exec s.path (s.pathAt e) ∧ rxPath.Admits s.path (s.pathAt e) := by
  cases e with
  | line byte =>
    have hstep := line_step he
    refine ⟨?_, trivial⟩
    simp only [RxDma.step]
    generalize s.line byte = s' at hstep ⊢
    cases hstep <;> rfl
  | rxRdy =>
    obtain ⟨c, hc, hlt⟩ := he
    obtain ⟨hle, hsize⟩ := h.bounds c hc
    have hchunk : RxPath.Enabled (.rdy (c.part s.dmaBuf)) := by
      simp only [RxPath.Enabled, Filling.part, Cells.length_slice]
      omega
    simp only [RxDma.step, pathAt, hc]
    exact ⟨rfl, hchunk, trivial⟩
  | rxWork => exact ⟨rfl, trivial, trivial⟩
  | rxBufRequest | rxBufReleased | rxStopped | rxDisabled => exact ⟨rfl, trivial⟩

/-- A buffer that `uart_cb` hands over is not the one being filled. -/
def HandsOther (s : RxDma) : DmaEvent → Prop
  | .rxBufRequest => ∀ c, s.current = some c → s.activeBuf ^^^ 1 ≠ c.buf
  | .rxDisabled _ => s.current = none
  | _ => True

theorem Owned.handsOther (h : s.Owned) (he : s.Enabled e) : s.HandsOther e := by
  cases e with
  | rxBufRequest =>
    intro c hc
    rw [h.alone c hc he.2]
    exact flip_ne s.activeBuf
  | rxDisabled err => exact he
  | _ => trivial

end RxDma

theorem rxDma_translates : rxDma.Translates rxPath RxDma.Owned RxDma.path RxDma.pathAt := by
  intro s e he h
  obtain ⟨hpath, hadm⟩ := RxDma.step_path h he
  exact ⟨h.step he, hadm, hpath.symm⟩

/-- In any run of the driver, `uart_cb` hands it only a buffer that it does not
fill, and the receive path gets, in chunks of 1 to 256 bytes, the bytes of the
line up to those not reported yet; where every chunk fits into the ring buffer,
a drained receiver delivers what a scan of those bytes finds. -/
theorem dma_reports_line (es : List DmaEvent) (ha : rxDma.Admits .init es) :
    let s := rxDma.exec .init es
    let chunks := rxDma.collect RxDma.pathAt .init es
    rxDma.Along RxDma.HandsOther .init es ∧ rxPath.Admits {} chunks ∧ s.path = rxPath.exec {} chunks ∧
      chunks.flatMap RxEvent.chunk ++ s.unreported = es.flatMap RxDma.lineAt ∧
      (rxPath.Along RxPath.Fits {} chunks →
        (rxWorkHandler s.path).delivered = scan (chunks.flatMap RxEvent.chunk)) := by
  intro s chunks
  obtain ⟨-, hen, hpath⟩ := rxDma_translates.exec ha RxDma.owned_init
  have hflow := Machine.exec_flow (m := rxDma) (I := RxDma.Owned) (v := RxDma.unreported)
    (fun s e he h => ⟨h.step he, RxDma.step_unreported h he⟩) ha RxDma.owned_init
  rw [← Machine.collect_flatMap, Machine.collect_event] at hflow
  refine ⟨?_, hen, hpath.symm, hflow, ?_⟩
  · exact Machine.along_of_invariant (m := rxDma) (fun s e he h => ⟨h.step he, h.handsOther he⟩) ha
      RxDma.owned_init
  · intro hfit
    have hpath : s.path = rxPath.exec {} chunks := hpath.symm
    rw [hpath, ← rxDeliveries_start]
    exact delivered_chunks {} hfit

def stoppedLine : List DmaEvent :=
  [.rxBufRequest, .line 0x94, .line 0xC3, .line 0, .rxRdy, .rxWork, .line 1, .line 7, .rxRdy,
    .rxStopped, .rxDisabled false, .rxBufRequest, .line 0x94]

theorem dma_reports_line_stoppedLine :
    (rxWorkHandler (rxDma.exec .init stoppedLine).path).delivered = [[7]] ∧
      (rxDma.exec .init stoppedLine).unreported = [0x94] := by
  obtain ⟨-, -, -, hline, hdelivered⟩ := dma_reports_line stoppedLine (by decide)
  refine ⟨(hdelivered (by decide)).trans ?_, ?_⟩
  · exact (rxDeliveries_start _).symm.trans (by decide)
  · exact List.append_cancel_left (hline.trans (by decide))

end MeshProxy

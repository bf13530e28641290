import MeshProxy.RxPath

/-!
# Resynchronisation of the receiver

After noise or a cut frame the receiver may be in the middle of a frame that
was never sent. `owed` bounds how many bytes it can still take for it; each
byte that does not complete a pair of magic bytes pays one off. Once nothing is
owed the receiver is looking for a frame, and the next one is delivered.
-/

namespace MeshProxy

variable {sm : RxSm} {f : List UInt8}

/-- The receiver is looking for a pair of magic bytes. -/
def RxSm.Hunting (sm : RxSm) : Prop := sm.state = .waitMagic1 ∨ sm.state = .waitMagic2

/-- The bytes that a phantom frame can still take before the receiver hunts
again, when `bytes` come next. -/
def RxSm.owed (sm : RxSm) (bytes : List UInt8) : Nat :=
  match sm.state with
  | .waitMagic1 => 0
  | .waitMagic2 => if bytes.head? = some meshtasticMagic2 then 3 + meshtasticMaxPayload else 0
  | .waitLenHi => 2 + meshtasticMaxPayload
  | .waitLenLo => 1 + meshtasticMaxPayload
  | .waitPayload => sm.expectedLen - sm.receivedLen

/-- No adjacent pair of magic bytes. -/
def Plain (f : List UInt8) : Prop := ¬ [meshtasticMagic1, meshtasticMagic2] <:+: f

theorem Plain.tail (h : Plain (b :: f)) : Plain f := fun hin => h (List.infix_cons hin)

theorem Plain.next (h : Plain (meshtasticMagic1 :: f)) : f.head? ≠ some meshtasticMagic2 := by
  intro hhead
  obtain ⟨rest, rfl⟩ := List.head?_eq_some_iff.mp hhead
  exact h ⟨[], rest, rfl⟩

theorem owed_le (hw : sm.Wf) (bytes : List UInt8) : sm.owed bytes ≤ 3 + meshtasticMaxPayload := by
  unfold RxSm.owed
  cases hs : sm.state with
  | waitPayload =>
    obtain ⟨-, -, hm⟩ := hw hs
    simp only
    omega
  | waitMagic2 =>
    simp only
    split <;> omega
  | _ => simp only; omega

theorem hunting_of_owed (hw : sm.Wf) (h : sm.owed bytes = 0) : sm.Hunting := by
  unfold RxSm.owed at h
  cases hs : sm.state with
  | waitMagic1 => exact .inl hs
  | waitMagic2 => exact .inr hs
  | waitPayload =>
    obtain ⟨hr, -, -⟩ := hw hs
    simp only [hs] at h
    omega
  | _ =>
    simp only [hs] at h
    omega

theorem owed_step (hw : sm.Wf) (hp : Plain (b :: f)) :
    (rxProcessByte sm b).1.owed f ≤ sm.owed (b :: f) - 1 := by
  unfold rxProcessByte
  cases hs : sm.state with
  | waitMagic1 =>
    simp only
    split
    · rename_i hb
      subst hb
      simp [RxSm.owed, hp.next]
    · simp [RxSm.owed, hs]
  | waitMagic2 =>
    simp only
    split
    · rename_i hb
      simp [RxSm.owed, hs, hb]
    · split
      · rename_i hb
        subst hb
        simp [RxSm.owed, hp.next]
      · simp [RxSm.owed]
  | waitLenHi =>
    simp only [RxSm.owed, hs]
    omega
  | waitLenLo =>
    simp only
    split
    · simp [RxSm.owed]
    · rename_i hn
      simp only [RxSm.owed, hs]
      omega
  | waitPayload =>
    obtain ⟨hr, -, hm⟩ := hw hs
    simp only [meshtasticMaxPayload] at hm
    have hu : u16 (sm.receivedLen + 1) = sm.receivedLen + 1 := u16_of_lt (by omega)
    simp only [hu]
    split
    · simp [RxSm.owed]
    · simp only [RxSm.owed, hs]
      omega

theorem owed_run (hw : sm.Wf) (hp : Plain f) :
    (rxMachine.exec sm f).owed [] ≤ sm.owed f - f.length := by
  induction f generalizing sm with
  | nil => exact Nat.le_refl _
  | cons b f ih =>
    have hstep := owed_step hw hp
    have hrest := ih (rxProcessByte_wf (b := b) hw) hp.tail
    rw [Machine.exec_cons, List.length_cons]
    exact Nat.le_trans hrest (by omega)

theorem hunting_run (hw : sm.Wf) (hp : Plain f) (h : sm.owed f ≤ f.length) :
    (rxMachine.exec sm f).Hunting := by
  have hrun := owed_run hw hp
  exact hunting_of_owed (rxSm_wf_exec f hw) (by omega : (rxMachine.exec sm f).owed [] = 0)

theorem exec_wireFrame_hunting (hh : sm.Hunting) (hne : payload ≠ [])
    (hlen : payload.length ≤ meshtasticMaxPayload) :
    rxDeliveries sm (wireFrame payload) = [payload] ∧
      (rxMachine.exec sm (wireFrame payload)).state = .waitMagic1 := by
  have hstart : rxProcessByte sm meshtasticMagic1 =
      rxProcessByte { sm with state := .waitMagic1 } meshtasticMagic1 := by
    rcases hh with hs | hs
    · rw [← hs]
    · simp [rxProcessByte, hs, meshtasticMagic1, meshtasticMagic2]
  have hwait : RxSm.state { sm with state := .waitMagic1 } = .waitMagic1 := rfl
  have hframe := exec_wireFrame hwait hlen
  have hsplit : wireFrame payload = meshtasticMagic1 :: (wireFrame payload).tail := rfl
  rw [hsplit] at hframe ⊢
  simp only [rxDeliveries, Machine.outs_cons, Machine.exec_cons, Machine.next, rxMachine] at hframe ⊢
  rw [hstart, hframe.1]
  exact ⟨by simp [hne], hframe.2⟩

/-- Whatever the receiver has read, it delivers the next frame after a filler
without a pair of magic bytes, when the filler is long enough or the receiver
is not held by a phantom frame. -/
theorem rx_resync (bytes f payload : List UInt8)
    (hf : ¬ [meshtasticMagic1, meshtasticMagic2] <:+: f)
    (hpos : 1 ≤ payload.length) (hmax : payload.length ≤ 512)
    (hfree : 515 ≤ f.length ∨ (rxMachine.exec {} bytes).state = .waitMagic1 ∨
      (rxMachine.exec {} bytes).state = .waitMagic2 ∧
        (f ++ wireFrame payload).head? ≠ some meshtasticMagic2) :
    rxDeliveries (rxMachine.exec {} (bytes ++ f)) (wireFrame payload) = [payload] ∧
      (rxMachine.exec {} (bytes ++ f ++ wireFrame payload)).state = .waitMagic1 := by
  have hw : (rxMachine.exec {} bytes).Wf := rxSm_wf_exec bytes rxSm_init_wf
  have howed : (rxMachine.exec {} bytes).owed f ≤ f.length := by
    rcases hfree with hlong | hs | ⟨hs, hhead⟩
    · exact Nat.le_trans (owed_le hw f) hlong
    · simp [RxSm.owed, hs]
    · have hfirst : f.head? ≠ some meshtasticMagic2 := by
        intro hc
        obtain ⟨rest, rfl⟩ := List.head?_eq_some_iff.mp hc
        exact hhead rfl
      simp [RxSm.owed, hs, hfirst]
  have hh := hunting_run hw hf howed
  have hne : payload ≠ [] := by
    rintro rfl
    cases hpos
  simp only [rxMachine.exec_append]
  exact exec_wireFrame_hunting hh hne hmax

theorem rx_resync_cut :
    rxDeliveries (rxMachine.exec {} ([0x94, 0xC3, 2, 0] ++ List.replicate 515 0)) (wireFrame [7]) =
        [[7]] ∧
      (rxMachine.exec {} ([0x94, 0xC3, 2, 0] ++ List.replicate 515 0 ++ wireFrame [7])).state =
        .waitMagic1 := by
  refine rx_resync [0x94, 0xC3, 2, 0] (List.replicate 515 0) [7] ?_ (by decide) (by decide)
    (.inl (by rw [List.length_replicate]))
  intro hin
  have hmem : meshtasticMagic1 ∈ List.replicate 515 (0 : UInt8) := hin.subset (by simp)
  exact absurd (List.eq_of_mem_replicate hmem) (by decide)

end MeshProxy

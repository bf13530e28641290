import MeshProxy.Invariant
import MeshProxy.UartRx
import MeshProxy.Wire

/-!
# The device

The proxy with the UART receiver in front of it: bytes come in, and a byte
that completes a frame runs `on_fromradio_uart` on its payload. The receiver
delivers nothing but payloads of 1 to 512 bytes, so a run of the device is a
run of the proxy (`device_refines`), and what the cache publishes holds from
the bytes on the wire up (`cache_publication`).
-/

namespace MeshProxy

structure Device (κ : Type) where
  rxSm : RxSm := {}
  proxy : Proxy κ := {}

inductive DeviceEvent (κ : Type)
  /-- `rx_work_handler` processes a byte. -/
  | rx (byte : UInt8)
  | proxy (e : Event κ)

variable {κ : Type} (p : Platform) {d : Device κ} {s : Proxy κ} {e : Event κ}

/-- `uart_meshtastic_init` restarts the receiver. -/
def Device.restartRx (d : Device κ) : Event κ → RxSm
  | .mainStep => if d.proxy.main = .uartInit then { d.rxSm with state := .waitMagic1 } else d.rxSm
  | _ => d.rxSm

theorem restartRx_wf (hw : d.rxSm.Wf) (e : Event κ) : (d.restartRx e).Wf := by
  cases e with
  | mainStep =>
    simp only [Device.restartRx]
    split
    · exact fun h => (nomatch h)
    · exact hw
  | _ => exact hw

-- ---------------------------------------------------------------------------
-- The machine
-- ---------------------------------------------------------------------------

variable [DecidableEq κ]

def Device.step (d : Device κ) : DeviceEvent κ → Device κ × Reply
  | .rx byte =>
    match rxProcessByte d.rxSm byte with
    | (rxSm, some payload) => (⟨rxSm, (d.proxy.step p (.uartFrame payload)).1⟩, .none)
    | (rxSm, none) => ({ d with rxSm }, .none)
  | .proxy e => (⟨d.restartRx e, (d.proxy.step p e).1⟩, (d.proxy.step p e).2)

/-- Frames reach the proxy through the receiver only. -/
def Device.Enabled (d : Device κ) : DeviceEvent κ → Prop
  | .rx _ => True
  | .proxy (.uartFrame _) => False
  | .proxy e => d.proxy.Enabled e

def deviceMachine (κ : Type) [DecidableEq κ] : Machine (Device κ) (DeviceEvent κ) Reply where
  enabled := Device.Enabled
  step := Device.step p

instance (d : Device κ) : (e : DeviceEvent κ) → Decidable ((deviceMachine p κ).enabled d e)
  | .rx _ => inferInstanceAs (Decidable True)
  | .proxy (.uartFrame _) => inferInstanceAs (Decidable False)
  | .proxy (.connected conn err) =>
    inferInstanceAs (Decidable (err = 0 → findSlot d.proxy.gatt conn = none))
  | .proxy (.disconnected _) | .proxy (.fromnumRead ..) | .proxy (.fromradioRead ..)
  | .proxy (.toradioWrite ..) | .proxy (.nodeRegWrite ..) | .proxy .keepalive | .proxy .mainStep
  | .proxy (.txWork _) | .proxy .uartTxDone | .proxy .uartTxAborted =>
    inferInstanceAs (Decidable True)

def Device.Reachable (d : Device κ) : Prop := (deviceMachine p κ).Reachable {} d

-- ---------------------------------------------------------------------------
-- A run of the device is a run of the proxy
-- ---------------------------------------------------------------------------

theorem Device.Enabled.proxy (he : d.Enabled (.proxy e)) : d.proxy.Enabled e := by
  cases e with
  | uartFrame => exact he.elim
  | _ => exact he

theorem device_refines :
    (deviceMachine p κ).Refines (proxyMachine p κ) (fun d => d.rxSm.Wf) Device.proxy := by
  intro d e he hw
  cases e with
  | rx byte =>
    have hw' := rxProcessByte_wf (b := byte) hw
    simp only [Machine.next, deviceMachine, Device.step]
    split
    · rename_i rxSm payload hrx
      rw [hrx] at hw'
      have hl := rxProcessByte_payload hw (congrArg Prod.snd hrx)
      exact ⟨hw', (Machine.Reachable.refl _).next hl⟩
    · rename_i rxSm hrx
      rw [hrx] at hw'
      exact ⟨hw', .refl _⟩
  | proxy e =>
    exact ⟨restartRx_wf hw e, (Machine.Reachable.refl _).next (Device.Enabled.proxy he)⟩

theorem Device.Reachable.proxy (hr : d.Reachable p) : d.rxSm.Wf ∧ d.proxy.Reachable p := by
  obtain ⟨es, ha, rfl⟩ := hr
  exact (device_refines p).exec ha rxSm_init_wf

-- ---------------------------------------------------------------------------
-- Publication
-- ---------------------------------------------------------------------------

theorem exec_cache (h : Inv s) (hready : s.cache.ready = true)
    (ha : (proxyMachine p κ).Admits s es) : ((proxyMachine p κ).exec s es).cache = s.cache := by
  refine exec_invariant p (J := fun s' => s'.cache = s.cache) ?_ ha h rfl
  intro s' e he hinv hcache
  have hkeep := step_cache_ready p hinv.phase (by rw [hcache]; exact hready) e
  exact hkeep.trans hcache

/-- What the readers of the cache rely on. -/
structure Publication (d : Device κ) : Prop where
  ready : ∀ i, (d.proxy.gatt.conns i).state = .replaying → cacheIsReady d.proxy.cache = true
  cursor : ∀ i, (d.proxy.gatt.conns i).state = .replaying →
    (d.proxy.gatt.conns i).replayCursor ≤ cacheFrameCount d.proxy.cache + 1
  entry : ∀ idx ref, cacheFrameAt d.proxy.cache idx = some ref →
    1 ≤ ref.len ∧ ref.len ≤ fromradioMaxPktSize
  /-- Arena, index and counts alike. -/
  fixed : cacheIsReady d.proxy.cache = true → ∀ es, (deviceMachine p κ).Admits d es →
    ((deviceMachine p κ).exec d es).proxy.cache = d.proxy.cache

theorem cache_publication (hr : d.Reachable p) : Publication p d := by
  obtain ⟨hw, hproxy⟩ := hr.proxy
  have hinv := inv_reachable p hproxy
  have hidle := idle_reachable p hproxy
  refine ⟨fun i hs => (inv_conns hinv hidle i hs).ready hs,
    fun i hs => (inv_conns hinv hidle i hs).cursor hs, ?_, ?_⟩
  · intro idx ref href
    unfold cacheFrameAt at href
    split at href
    · cases href
    · rename_i hlt
      cases href
      exact hinv.sized idx (by omega)
  · intro hready es ha
    obtain ⟨fs, hfs, heq⟩ := ((device_refines p).exec ha hw).2
    rw [← heq]
    exact exec_cache p hinv hready hfs

def wiredRun : List (DeviceEvent Nat) :=
  mainSteps.map .proxy ++
    [0x94, 0xC3, 0, 2, 0x22, 0, 0x94, 0xC3, 0, 2, 0x38, 9].map .rx ++
    [.proxy (.connected 1 0), .proxy (.toradioWrite 1 [0x18, 5] 0)]

theorem cache_publication_wiredRun :
    (((deviceMachine (wirePlatform 9) Nat).exec {} wiredRun).proxy.gatt.conns 0).state = .replaying ∧
      Publication (wirePlatform 9) ((deviceMachine (wirePlatform 9) Nat).exec {} wiredRun) :=
  ⟨by decide, cache_publication (wirePlatform 9) ⟨wiredRun, by decide, rfl⟩⟩

end MeshProxy

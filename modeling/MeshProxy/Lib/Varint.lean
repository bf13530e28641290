import Mathlib.Data.UInt
import Mathlib.Tactic.Linarith

/-!
# Base-128 varints

Little-endian groups of seven bits, with the top bit set on every byte but
the last. `fuel` bounds the number of bytes; five are enough for 32 bits.
-/

namespace MeshProxy

def encodeVarint : (fuel n : Nat) → List UInt8
  | 0, _ => []
  | fuel + 1, n =>
    if n < 128 then [UInt8.ofNat n] else UInt8.ofNat (n % 128 + 128) :: encodeVarint fuel (n / 128)

/-- The value of a list that is one varint and nothing else. -/
def decodeVarint : List UInt8 → Option Nat
  | [] => none
  | b :: rest =>
    if b.toNat < 128 then (if rest = [] then some b.toNat else none)
    else (decodeVarint rest).map fun n => n * 128 + (b.toNat - 128)

theorem encodeVarint_length (fuel n : Nat) : (encodeVarint fuel n).length ≤ fuel := by
  induction fuel generalizing n with
  | zero => rfl
  | succ fuel ih =>
    rw [encodeVarint]
    split
    · simp
    · simpa using ih (n / 128)

theorem decode_encodeVarint (h : n < 128 ^ fuel) (hf : 0 < fuel) :
    decodeVarint (encodeVarint fuel n) = some n := by
  induction fuel generalizing n with
  | zero => omega
  | succ fuel ih =>
    rw [encodeVarint]
    split
    · rename_i hn
      have hb : (UInt8.ofNat n).toNat = n := by
        rw [UInt8.toNat_ofNat']
        exact Nat.mod_eq_of_lt (by omega)
      simp [decodeVarint, hb, hn]
    · rename_i hn
      have hb : (UInt8.ofNat (n % 128 + 128)).toNat = n % 128 + 128 := by
        rw [UInt8.toNat_ofNat']
        exact Nat.mod_eq_of_lt (by omega)
      have hfuel : 0 < fuel := by
        rcases Nat.eq_zero_or_pos fuel with rfl | hp
        · simp at h
          omega
        · exact hp
      have hdiv : n / 128 < 128 ^ fuel := by
        rw [Nat.div_lt_iff_lt_mul (by decide)]
        rwa [Nat.pow_succ] at h
      simp only [decodeVarint, hb, ih hdiv hfuel, Option.map_some]
      rw [if_neg (by omega), Option.some.injEq]
      omega

end MeshProxy

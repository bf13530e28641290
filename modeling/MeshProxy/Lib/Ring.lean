import Mathlib.Algebra.Group.Fin.Basic
import Mathlib.Algebra.GroupWithZero.Nat
import Mathlib.Data.List.Basic
import Mathlib.Logic.Function.Basic

/-!
# Circular queues

A circular queue keeps its cells, the two ends and the number of entries.
`Wf` ties the ends to the count; under it the queue is a bounded FIFO:
`toList` grows at the back with `put` and shrinks at the front with `pop`.
-/

namespace MeshProxy

structure Ring (n : Nat) (α : Type) where
  cells : Fin n → α
  head : Fin n
  tail : Fin n
  count : Nat

namespace Ring

variable {n : Nat} [NeZero n] {α : Type} {r : Ring n α} {x : α}

/-- Store at the tail. The caller checks that there is room. -/
def put (r : Ring n α) (x : α) : Ring n α :=
  { r with cells := Function.update r.cells r.tail x, tail := r.tail + 1, count := r.count + 1 }

def front (r : Ring n α) : α := r.cells r.head

def pop (r : Ring n α) : Ring n α := { r with head := r.head + 1, count := r.count - 1 }

/-- Forget every entry; the cells keep their values. -/
def reset (r : Ring n α) : Ring n α := { r with head := 0, tail := 0, count := 0 }

def toList (r : Ring n α) : List α := (List.range r.count).map fun i => r.cells (r.head + Fin.ofNat n i)

structure Wf (r : Ring n α) : Prop where
  count_le : r.count ≤ n
  tail_eq : r.tail = r.head + Fin.ofNat n r.count

@[simp] theorem length_toList (r : Ring n α) : r.toList.length = r.count := by simp [toList]

theorem Wf.reset (r : Ring n α) : r.reset.Wf :=
  ⟨Nat.zero_le n, by simp [Ring.reset]⟩

theorem Wf.tail_val (hw : Wf r) : r.tail.val = (r.head.val + r.count) % n := by
  rw [hw.tail_eq, Fin.val_add]
  simp [Fin.ofNat]

theorem ofNat_succ (i : Nat) : Fin.ofNat n (i + 1) = Fin.ofNat n i + 1 := by
  apply Fin.ext
  simp [Fin.ofNat, Fin.val_add]

theorem ofNat_ne (hi : i < k) (hk : k < n) : Fin.ofNat n i ≠ Fin.ofNat n k := by
  intro h
  have hv := congrArg Fin.val h
  simp only [Fin.ofNat, Nat.mod_eq_of_lt hk, Nat.mod_eq_of_lt (Nat.lt_trans hi hk)] at hv
  omega

theorem Wf.put (hw : Wf r) (hc : r.count < n) : (r.put x).Wf := by
  refine ⟨hc, ?_⟩
  simp only [Ring.put, ofNat_succ]
  rw [hw.tail_eq, add_assoc]

theorem toList_put (hw : Wf r) (hc : r.count < n) : (r.put x).toList = r.toList ++ [x] := by
  simp only [toList, Ring.put, List.range_succ, List.map_append, List.map_cons, List.map_nil]
  congr 1
  · apply List.map_congr_left
    intro i hi
    rw [List.mem_range] at hi
    apply Function.update_of_ne
    rw [hw.tail_eq]
    exact fun h => ofNat_ne hi hc (add_left_cancel h)
  · rw [hw.tail_eq, Function.update_self]

theorem Wf.pop (hw : Wf r) (hc : 0 < r.count) : r.pop.Wf := by
  obtain ⟨k, hk⟩ : ∃ k, r.count = k + 1 := ⟨r.count - 1, by omega⟩
  refine ⟨Nat.le_trans (Nat.sub_le _ _) hw.count_le, ?_⟩
  simp only [Ring.pop, hw.tail_eq, hk, ofNat_succ, Nat.add_sub_cancel]
  rw [add_assoc, add_comm (Fin.ofNat n k)]

theorem toList_pop (r : Ring n α) (hc : 0 < r.count) : r.toList = r.front :: r.pop.toList := by
  obtain ⟨k, hk⟩ : ∃ k, r.count = k + 1 := ⟨r.count - 1, by omega⟩
  simp only [toList, Ring.pop, front, hk, List.range_succ_eq_map, List.map_cons, List.map_map,
    Nat.add_sub_cancel]
  congr 1
  · simp
  · apply List.map_congr_left
    intro i _
    simp only [Function.comp, Nat.succ_eq_add_one, ofNat_succ]
    rw [add_assoc, add_comm (Fin.ofNat n i)]

end Ring

end MeshProxy

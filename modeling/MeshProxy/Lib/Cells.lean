import Mathlib.Data.List.Basic

/-!
# Fixed-size arrays

An array of `n` cells. Reads past the end give the default value and writes
past the end are lost, so a fact about what was stored always needs the
bound that the program owes.
-/

namespace MeshProxy

abbrev Cells (n : Nat) (α : Type) := Fin n → α

namespace Cells

variable {n : Nat} {α : Type} [Inhabited α]

def zero : Cells n α := fun _ => default

def read (a : Cells n α) (i : Nat) : α := if h : i < n then a ⟨i, h⟩ else default

def write (a : Cells n α) (i : Nat) (x : α) : Cells n α := fun j => if j.val = i then x else a j

/-- Copy all of `src` to the cells from `off` on. -/
def memcpy (a : Cells n α) (off : Nat) (src : List α) : Cells n α := fun j =>
  if off ≤ j.val ∧ j.val < off + src.length then src.getD (j.val - off) default else a j

/-- The `len` values stored from `off` on. -/
def slice (a : Cells n α) (off len : Nat) : List α := (List.range len).map fun i => a.read (off + i)

theorem read_write_self (a : Cells n α) (x : α) (h : i < n) : (a.write i x).read i = x := by
  simp [read, write, h]

theorem read_write_ne (a : Cells n α) (x : α) (h : j ≠ i) : (a.write i x).read j = a.read j := by
  by_cases hj : j < n
  · simp [read, write, hj, h]
  · simp [read, hj]

@[simp] theorem length_slice (a : Cells n α) : (a.slice off len).length = len := by
  simp [slice]

@[simp] theorem slice_zero (a : Cells n α) : a.slice off 0 = [] := rfl

theorem read_memcpy_inside (a : Cells n α) (src : List α) (hi : i < src.length)
    (hn : off + i < n) : (a.memcpy off src).read (off + i) = src[i] := by
  simp [read, memcpy, hn, hi]

theorem read_memcpy_outside (a : Cells n α) (src : List α) (h : i < off ∨ off + src.length ≤ i) :
    (a.memcpy off src).read i = a.read i := by
  unfold read memcpy
  split
  · rw [if_neg]
    intro hc
    simp only at hc
    omega
  · rfl

theorem slice_memcpy (a : Cells n α) (src : List α) (h : off + src.length ≤ n) :
    (a.memcpy off src).slice off src.length = src := by
  apply List.ext_getElem
  · simp
  · intro i _ hi
    simp only [slice, List.getElem_map, List.getElem_range]
    exact read_memcpy_inside a src hi (by omega)

theorem memcpy_nil (a : Cells n α) (off : Nat) : a.memcpy off [] = a := by
  funext j
  simp only [memcpy, List.length_nil]
  rw [if_neg (by omega)]

theorem memcpy_slice_all (a b : Cells n α) : a.memcpy 0 (b.slice 0 n) = b := by
  funext j
  simp [memcpy, slice, read]

theorem slice_memcpy_disjoint (a : Cells n α) (src : List α)
    (h : o + len ≤ off ∨ off + src.length ≤ o) :
    (a.memcpy off src).slice o len = a.slice o len := by
  apply List.map_congr_left
  intro i hi
  rw [List.mem_range] at hi
  exact read_memcpy_outside a src (by omega)

theorem slice_succ (a : Cells n α) (off len : Nat) :
    a.slice off (len + 1) = a.slice off len ++ [a.read (off + len)] := by
  simp [slice, List.range_succ]

theorem slice_add (a : Cells n α) (len more : Nat) :
    a.slice 0 (len + more) = a.slice 0 len ++ a.slice len more := by
  simp [slice, List.range_add]

theorem slice_memcpy_append (a : Cells n α) (src : List α) (hlen : src.length = len)
    (h : off + len ≤ n) : (a.memcpy off src).slice 0 (off + len) = a.slice 0 off ++ src := by
  subst hlen
  rw [slice_add, slice_memcpy a src h, slice_memcpy_disjoint a src (.inl (by omega))]

theorem slice_write_next (a : Cells n α) (x : α) (h : off + len < n) :
    (a.write (off + len) x).slice off (len + 1) = a.slice off len ++ [x] := by
  have hlen : (a.write (off + len) x).slice off len = a.slice off len := by
    apply List.map_congr_left
    intro i hi
    rw [List.mem_range] at hi
    exact read_write_ne a x (by omega)
  rw [slice_succ, hlen, read_write_self a x h]

theorem slice_write_self (a : Cells n α) (x : α) (h : len < n) :
    (a.write len x).slice 0 (len + 1) = a.slice 0 len ++ [x] := by
  have hnext := slice_write_next a x (by omega : 0 + len < n)
  rwa [Nat.zero_add] at hnext

theorem slice_eq_iff {a b : Cells n α} :
    a.slice off len = b.slice off len ↔ ∀ i < len, a.read (off + i) = b.read (off + i) := by
  simp [slice]

theorem slice_memcpy_congr (a b : Cells n α) (src : List α) :
    (a.memcpy off src).slice off src.length = (b.memcpy off src).slice off src.length := by
  rw [slice_eq_iff]
  intro i hi
  by_cases hn : off + i < n
  · rw [read_memcpy_inside a src hi hn, read_memcpy_inside b src hi hn]
  · simp [read, hn]

theorem memcpy_slice_congr {a b : Cells n α} (src : List α) (h : a.slice 0 len = b.slice 0 len) :
    (a.memcpy 0 src).slice 0 len = (b.memcpy 0 src).slice 0 len := by
  rw [slice_eq_iff] at h ⊢
  intro i hi
  have hab := h i hi
  simp only [Nat.zero_add] at hab ⊢
  rcases Nat.lt_or_ge i src.length with hs | hs
  · by_cases hn : i < n
    · have hin : 0 + i < n := by omega
      have ha := read_memcpy_inside a src hs hin
      have hb := read_memcpy_inside b src hs hin
      simp only [Nat.zero_add] at ha hb
      rw [ha, hb]
    · simp [read, hn]
  · rw [read_memcpy_outside a src (.inr (by omega)), read_memcpy_outside b src (.inr (by omega)), hab]

end Cells

end MeshProxy

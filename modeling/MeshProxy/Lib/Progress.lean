import MeshProxy.Lib.Machine

/-!
# Runs that come to rest

Some events of a machine come from outside, the others it produces itself. A
potential that every internal event lowers bounds the internal events of any
run by what the others add to it, and lets the machine come to rest: in a
state in which no internal event is possible any more.
-/

namespace MeshProxy

namespace Machine

variable {σ ε ο : Type} (m : Machine σ ε ο)

def total (f : σ → ε → Nat) : σ → List ε → Nat
  | _, [] => 0
  | s, e :: es => f s e + total f (m.next s e) es

@[simp] theorem total_nil {f : σ → ε → Nat} (s : σ) : m.total f s [] = 0 := rfl

@[simp] theorem total_cons {f : σ → ε → Nat} (s : σ) (e : ε) (es : List ε) :
    m.total f s (e :: es) = f s e + m.total f (m.next s e) es := rfl

def AtRest (internal : ε → Prop) (s : σ) : Prop := ∀ e, internal e → ¬ m.enabled s e

/-- Every internal event lowers the potential, and any other event raises it by
at most its gain. -/
structure Lowers (internal : ε → Prop) (potential : σ → Nat) (gain : σ → ε → Nat) : Prop where
  pays : ∀ s e, internal e → m.enabled s e → potential (m.next s e) < potential s
  gains : ∀ s e, ¬ internal e → m.enabled s e → potential (m.next s e) ≤ potential s + gain s e

variable {m} {internal : ε → Prop} {potential : σ → Nat} {gain : σ → ε → Nat}

/-- The internal events of a run are paid for by the other ones. -/
theorem Lowers.countP_le [DecidablePred internal] (h : m.Lowers internal potential gain)
    (ha : m.Admits s es) :
    potential (m.exec s es) + es.countP (fun e => decide (internal e)) ≤
      potential s + m.total gain s es := by
  induction es generalizing s with
  | nil => simp
  | cons e es ih =>
    have hrest := ih ha.2
    rw [exec_cons, total_cons]
    by_cases hi : internal e
    · have hpay := h.pays s e hi ha.1
      rw [List.countP_cons_of_pos (by simpa using hi)]
      omega
    · have hgain := h.gains s e hi ha.1
      rw [List.countP_cons_of_neg (by simpa using hi)]
      omega

theorem Lowers.length_le (h : m.Lowers internal potential gain) (hi : ∀ e ∈ es, internal e)
    (ha : m.Admits s es) : es.length ≤ potential s := by
  induction es generalizing s with
  | nil => exact Nat.zero_le _
  | cons e es ih =>
    have hpay := h.pays s e (hi e List.mem_cons_self) ha.1
    have hrest := ih (fun e' he => hi e' (List.mem_cons_of_mem _ he)) ha.2
    rw [List.length_cons]
    omega

theorem Lowers.exists_rest (h : m.Lowers internal potential gain) (s : σ) :
    ∃ es, (∀ e ∈ es, internal e) ∧ m.Admits s es ∧ m.AtRest internal (m.exec s es) := by
  induction hn : potential s using Nat.strongRecOn generalizing s with
  | ind n ih =>
    by_cases hr : m.AtRest internal s
    · exact ⟨[], by simp, trivial, hr⟩
    · simp only [AtRest, not_forall, not_not] at hr
      obtain ⟨e, hi, he⟩ := hr
      obtain ⟨es, hes, hadm, hrest⟩ := ih _ (hn ▸ h.pays s e hi he) (m.next s e) rfl
      refine ⟨e :: es, ?_, ⟨he, hadm⟩, hrest⟩
      intro e' hmem
      obtain rfl | hmem := List.mem_cons.mp hmem
      · exact hi
      · exact hes e' hmem

end Machine

end MeshProxy

import Mathlib.Tactic.Tauto

/-!
# Guarded deterministic machines

A machine reads events one at a time and answers each with an output. An
event the environment cannot produce in a state is not `enabled` there.
`exec` runs a list of events, `Along` asks something of every step of the
run at the state it starts from, and the invariant, refinement and two-run
rules below turn a fact about one step into a fact about every run.
-/

namespace MeshProxy

structure Machine (σ ε ο : Type) where
  enabled : σ → ε → Prop
  step : σ → ε → σ × ο

namespace Machine

variable {σ ε ο : Type} (m : Machine σ ε ο)

def next (s : σ) (e : ε) : σ := (m.step s e).1

def exec : σ → List ε → σ
  | s, [] => s
  | s, e :: es => exec (m.next s e) es

/-- What the machine answers along the run, one output an event. -/
def outs : σ → List ε → List ο
  | _, [] => []
  | s, e :: es => (m.step s e).2 :: outs (m.next s e) es

/-- `P` holds of every step of the run, at the state the step starts from. -/
def Along (P : σ → ε → Prop) : σ → List ε → Prop
  | _, [] => True
  | s, e :: es => P s e ∧ Along P (m.next s e) es

instance instDecidableAlong {P : σ → ε → Prop} [∀ s e, Decidable (P s e)] :
    (s : σ) → (es : List ε) → Decidable (m.Along P s es)
  | _, [] => inferInstanceAs (Decidable True)
  | s, e :: es =>
    letI : Decidable (m.Along P (m.next s e) es) := instDecidableAlong (m.next s e) es
    inferInstanceAs (Decidable (P s e ∧ m.Along P (m.next s e) es))

/-- Every event is one the environment can produce when it happens. -/
abbrev Admits : σ → List ε → Prop := m.Along m.enabled

def Reachable (s₀ s : σ) : Prop := ∃ es, m.Admits s₀ es ∧ m.exec s₀ es = s

@[simp] theorem exec_nil (s : σ) : m.exec s [] = s := rfl

@[simp] theorem exec_cons (s : σ) (e : ε) (es : List ε) :
    m.exec s (e :: es) = m.exec (m.next s e) es := rfl

theorem exec_append (s : σ) (es fs : List ε) :
    m.exec s (es ++ fs) = m.exec (m.exec s es) fs := by
  induction es generalizing s with
  | nil => rfl
  | cons e es ih => exact ih _

@[simp] theorem outs_nil (s : σ) : m.outs s [] = [] := rfl

@[simp] theorem outs_cons (s : σ) (e : ε) (es : List ε) :
    m.outs s (e :: es) = (m.step s e).2 :: m.outs (m.next s e) es := rfl

@[simp] theorem along_nil {P : σ → ε → Prop} {s : σ} : m.Along P s [] := trivial

@[simp] theorem along_cons {P : σ → ε → Prop} :
    m.Along P s (e :: es) ↔ P s e ∧ m.Along P (m.next s e) es := Iff.rfl

theorem along_append {P : σ → ε → Prop} :
    m.Along P s (es ++ fs) ↔ m.Along P s es ∧ m.Along P (m.exec s es) fs := by
  induction es generalizing s with
  | nil => simp
  | cons e es ih => simp [ih, and_assoc]

theorem along_of_forall {P : σ → ε → Prop} (h : ∀ s e, P s e) : m.Along P s es := by
  induction es generalizing s with
  | nil => trivial
  | cons e es ih => exact ⟨h _ _, ih⟩

theorem along_of_mem {P : ε → Prop} (h : ∀ e ∈ es, P e) : m.Along (fun _ e => P e) s es := by
  induction es generalizing s with
  | nil => trivial
  | cons e es ih =>
    exact ⟨h e List.mem_cons_self, ih fun e' he => h e' (List.mem_cons_of_mem _ he)⟩

theorem along_and {P Q : σ → ε → Prop} :
    m.Along (fun s e => P s e ∧ Q s e) s es ↔ m.Along P s es ∧ m.Along Q s es := by
  induction es generalizing s with
  | nil => simp
  | cons e es ih => simp only [along_cons, ih]; tauto

theorem Reachable.refl : m.Reachable s s := ⟨[], trivial, rfl⟩

variable {m}

theorem Reachable.exec (hr : m.Reachable s₀ s) (ha : m.Admits s es) :
    m.Reachable s₀ (m.exec s es) := by
  obtain ⟨fs, hf, rfl⟩ := hr
  exact ⟨fs ++ es, m.along_append.mpr ⟨hf, ha⟩, m.exec_append _ _ _⟩

theorem Reachable.next (hr : m.Reachable s₀ s) (he : m.enabled s e) :
    m.Reachable s₀ (m.next s e) := by
  have ha : m.Admits s [e] := ⟨he, trivial⟩
  exact hr.exec ha

/-- What every step keeps, a run keeps. -/
theorem invariant {P : σ → ε → Prop} {I : σ → Prop}
    (hstep : ∀ s e, P s e → I s → I (m.next s e)) (ha : m.Along P s es) (hs : I s) :
    I (m.exec s es) := by
  induction es generalizing s with
  | nil => exact hs
  | cons e es ih => exact ih ha.2 (hstep _ _ ha.1 hs)

theorem along_of_invariant {P Q : σ → ε → Prop} {I : σ → Prop}
    (hstep : ∀ s e, P s e → I s → I (m.next s e) ∧ Q s e) (ha : m.Along P s es) (hs : I s) :
    m.Along Q s es := by
  induction es generalizing s with
  | nil => trivial
  | cons e es ih =>
    obtain ⟨hi, hq⟩ := hstep s e ha.1 hs
    exact ⟨hq, ih ha.2 hi⟩

theorem Reachable.invariant {I : σ → Prop} (hr : m.Reachable s₀ s) (h₀ : I s₀)
    (hstep : ∀ s e, m.enabled s e → I s → I (m.next s e)) : I s := by
  obtain ⟨es, ha, rfl⟩ := hr
  exact Machine.invariant hstep ha h₀

theorem Reachable.trans (h₁ : m.Reachable s₀ s₁) (h₂ : m.Reachable s₁ s₂) : m.Reachable s₀ s₂ := by
  obtain ⟨es, ha, rfl⟩ := h₂
  exact h₁.exec ha

/-- Within `I`, each step of `m` is a run of `m'` when seen through `view`. -/
def Refines {σ' ε' ο' : Type} (m : Machine σ ε ο) (m' : Machine σ' ε' ο') (I : σ → Prop)
    (view : σ → σ') : Prop :=
  ∀ s e, m.enabled s e → I s → I (m.next s e) ∧ m'.Reachable (view s) (view (m.next s e))

theorem Refines.exec {σ' ε' ο' : Type} {m' : Machine σ' ε' ο'} {I : σ → Prop} {view : σ → σ'}
    (h : m.Refines m' I view) (ha : m.Admits s es) (hs : I s) :
    I (m.exec s es) ∧ m'.Reachable (view s) (view (m.exec s es)) := by
  induction es generalizing s with
  | nil => exact ⟨hs, .refl _⟩
  | cons e es ih =>
    obtain ⟨hi, hr⟩ := h s e ha.1 hs
    obtain ⟨hi', hr'⟩ := ih ha.2 hi
    exact ⟨hi', hr.trans hr'⟩

/-- Within `I`, each step of `m` is the step of `m'` on the same event, with the
same output, when seen through `view`. -/
def Simulates {σ' : Type} (m : Machine σ ε ο) (m' : Machine σ' ε ο) (I : σ → Prop)
    (view : σ → σ') : Prop :=
  ∀ s e, m.enabled s e → I s → I (m.next s e) ∧ m'.enabled (view s) e ∧
    m'.step (view s) e = (view (m.next s e), (m.step s e).2)

theorem Simulates.exec {σ' : Type} {m' : Machine σ' ε ο} {I : σ → Prop} {view : σ → σ'}
    (h : m.Simulates m' I view) (ha : m.Admits s es) (hs : I s) :
    m'.Admits (view s) es ∧ m'.exec (view s) es = view (m.exec s es) ∧
      m'.outs (view s) es = m.outs s es := by
  induction es generalizing s with
  | nil => exact ⟨trivial, rfl, rfl⟩
  | cons e es ih =>
    obtain ⟨hi, he, hstep⟩ := h s e ha.1 hs
    obtain ⟨hadm, hexec, houts⟩ := ih ha.2 hi
    have hnext : m'.next (view s) e = view (m.next s e) := congrArg Prod.fst hstep
    refine ⟨⟨he, ?_⟩, ?_, ?_⟩
    · rw [hnext]
      exact hadm
    · rw [exec_cons, exec_cons, hnext, hexec]
    · rw [outs_cons, outs_cons, hnext, houts, hstep]

/-- What the steps of a run contribute, in order. -/
def collect {β : Type} (m : Machine σ ε ο) (f : σ → ε → List β) : σ → List ε → List β
  | _, [] => []
  | s, e :: es => f s e ++ collect m f (m.next s e) es

@[simp] theorem collect_nil {β : Type} {f : σ → ε → List β} (s : σ) : m.collect f s [] = [] := rfl

@[simp] theorem collect_cons {β : Type} {f : σ → ε → List β} (s : σ) (e : ε) (es : List ε) :
    m.collect f s (e :: es) = f s e ++ m.collect f (m.next s e) es := rfl

theorem collect_append {β : Type} {f : σ → ε → List β} (s : σ) (es fs : List ε) :
    m.collect f s (es ++ fs) = m.collect f s es ++ m.collect f (m.exec s es) fs := by
  induction es generalizing s with
  | nil => rfl
  | cons e es ih => simp [ih]

theorem mem_collect {β : Type} {b : β} {f : σ → ε → List β} (h : b ∈ m.collect f s es) :
    ∃ s' e, e ∈ es ∧ b ∈ f s' e := by
  induction es generalizing s with
  | nil => cases h
  | cons e es ih =>
    obtain h | h := List.mem_append.mp h
    · exact ⟨s, e, List.mem_cons_self, h⟩
    · obtain ⟨s', e', he, hb⟩ := ih h
      exact ⟨s', e', List.mem_cons_of_mem _ he, hb⟩

theorem collect_filterMap {β γ : Type} {f : σ → ε → List β} (g : β → Option γ) (s : σ) (es : List ε) :
    (m.collect f s es).filterMap g = m.collect (fun s e => (f s e).filterMap g) s es := by
  induction es generalizing s with
  | nil => rfl
  | cons e es ih => simp [ih]

theorem collect_map {β γ : Type} {f : σ → ε → List β} (g : β → γ) (s : σ) (es : List ε) :
    (m.collect f s es).map g = m.collect (fun s e => (f s e).map g) s es := by
  induction es generalizing s with
  | nil => rfl
  | cons e es ih => simp [ih]

theorem collect_flatMap {β γ : Type} {f : σ → ε → List β} (g : β → List γ) (s : σ) (es : List ε) :
    (m.collect f s es).flatMap g = m.collect (fun s e => (f s e).flatMap g) s es := by
  induction es generalizing s with
  | nil => rfl
  | cons e es ih => simp [ih]

theorem collect_event {β : Type} (f : ε → List β) (s : σ) (es : List ε) :
    m.collect (fun _ e => f e) s es = es.flatMap f := by
  induction es generalizing s with
  | nil => rfl
  | cons e es ih => simp [ih]

/-- Within `I`, each step of `m` is the run of `m'` on the events that `f` makes
of it, when seen through `view`. -/
def Translates {σ' ε' ο' : Type} (m : Machine σ ε ο) (m' : Machine σ' ε' ο') (I : σ → Prop)
    (view : σ → σ') (f : σ → ε → List ε') : Prop :=
  ∀ s e, m.enabled s e → I s → I (m.next s e) ∧ m'.Admits (view s) (f s e) ∧
    m'.exec (view s) (f s e) = view (m.next s e)

theorem Translates.exec {σ' ε' ο' : Type} {m' : Machine σ' ε' ο'} {I : σ → Prop} {view : σ → σ'}
    {f : σ → ε → List ε'} (h : m.Translates m' I view f) (ha : m.Admits s es) (hs : I s) :
    I (m.exec s es) ∧ m'.Admits (view s) (m.collect f s es) ∧
      m'.exec (view s) (m.collect f s es) = view (m.exec s es) := by
  induction es generalizing s with
  | nil => exact ⟨hs, trivial, rfl⟩
  | cons e es ih =>
    obtain ⟨hi, hadm, hexec⟩ := h s e ha.1 hs
    obtain ⟨hi', hadm', hexec'⟩ := ih ha.2 hi
    rw [← hexec] at hadm' hexec'
    refine ⟨hi', m'.along_append.mpr ⟨hadm, hadm'⟩, ?_⟩
    rw [collect_cons, exec_append, hexec', exec_cons]

theorem Translates.collect {σ' ε' ο' β : Type} {m' : Machine σ' ε' ο'} {I : σ → Prop}
    {view : σ → σ'} {f : σ → ε → List ε'} (h : m.Translates m' I view f) (ha : m.Admits s es)
    (hs : I s) (g : σ' → ε' → List β) :
    m'.collect g (view s) (m.collect f s es) =
      m.collect (fun s e => m'.collect g (view s) (f s e)) s es := by
  induction es generalizing s with
  | nil => rfl
  | cons e es ih =>
    obtain ⟨hi, -, hexec⟩ := h s e ha.1 hs
    rw [collect_cons, collect_append, hexec, ih ha.2 hi, collect_cons]

/-- A log that every step extends by its contribution. -/
theorem exec_collect {β : Type} {P : σ → ε → Prop} {I : σ → Prop} {f : σ → ε → List β}
    {v : σ → List β}
    (hstep : ∀ s e, P s e → I s → I (m.next s e) ∧ v (m.next s e) = v s ++ f s e)
    (ha : m.Along P s es) (hs : I s) : v (m.exec s es) = v s ++ m.collect f s es := by
  induction es generalizing s with
  | nil => simp
  | cons e es ih =>
    obtain ⟨hi, hv⟩ := hstep s e ha.1 hs
    rw [exec_cons, ih ha.2 hi, hv, collect_cons, List.append_assoc]

/-- A store that every step feeds at one end and drains at the other: what left
it and what it holds is what it held and what came in. -/
theorem exec_flow {β : Type} {P : σ → ε → Prop} {I : σ → Prop} {out inp : σ → ε → List β}
    {v : σ → List β}
    (hstep : ∀ s e, P s e → I s → I (m.next s e) ∧ out s e ++ v (m.next s e) = v s ++ inp s e)
    (ha : m.Along P s es) (hs : I s) :
    m.collect out s es ++ v (m.exec s es) = v s ++ m.collect inp s es := by
  induction es generalizing s with
  | nil => simp
  | cons e es ih =>
    obtain ⟨hi, hflow⟩ := hstep s e ha.1 hs
    calc m.collect out s (e :: es) ++ v (m.exec s (e :: es))
        = out s e ++ (m.collect out (m.next s e) es ++ v (m.exec (m.next s e) es)) := by
          rw [collect_cons, exec_cons, List.append_assoc]
      _ = v s ++ inp s e ++ m.collect inp (m.next s e) es := by
          rw [ih ha.2 hi, ← List.append_assoc, hflow]
      _ = v s ++ m.collect inp s (e :: es) := by rw [collect_cons, List.append_assoc]

/-- `es'` is `es` without some of the events in `H`. -/
inductive Erased (H : ε → Prop) : List ε → List ε → Prop
  | nil : Erased H [] []
  | keep (e : ε) (h : Erased H es es') : Erased H (e :: es) (e :: es')
  | erase (he : H e) (h : Erased H es es') : Erased H (e :: es) es'

/-- Two runs, one of them without some hidden events: a relation that every
event keeps when both runs take it, and every hidden event when only one does,
holds at the end, and the runs contribute the same when related states do. -/
theorem unwind {β : Type} {R : σ → σ → Prop} {H : ε → Prop} {f : σ → ε → List β}
    (hkeep : ∀ s s' e, R s s' → R (m.next s e) (m.next s' e) ∧ f s' e = f s e)
    (herase : ∀ s s' e, H e → R s s' → R (m.next s e) s' ∧ f s e = [])
    (h : Erased H es es') (hs : R s s') :
    R (m.exec s es) (m.exec s' es') ∧ m.collect f s' es' = m.collect f s es := by
  induction h generalizing s s' with
  | nil => exact ⟨hs, rfl⟩
  | keep e _ ih =>
    obtain ⟨hr, hf⟩ := hkeep s s' e hs
    obtain ⟨hend, hrest⟩ := ih hr
    exact ⟨hend, by rw [collect_cons, collect_cons, hf, hrest]⟩
  | erase he _ ih =>
    obtain ⟨hr, hf⟩ := herase s s' _ he hs
    obtain ⟨hend, hrest⟩ := ih hr
    exact ⟨hend, by rw [collect_cons, hf, List.nil_append, hrest]⟩

/-- The invariant rule for an invariant that also reads the events so far. -/
theorem history_invariant {P : σ → ε → Prop} {I : List ε → σ → Prop}
    (hstep : ∀ h s e, P s e → I h s → I (h ++ [e]) (m.next s e)) (ha : m.Along P s es)
    (hs : I h s) : I (h ++ es) (m.exec s es) := by
  induction es generalizing h s with
  | nil => simpa using hs
  | cons e es ih => simpa using ih ha.2 (hstep _ _ _ ha.1 hs)

/-- A machine that another one follows: every step is answered by a run, of no
events when the follower falls behind and of several when it catches up. The
relation may speak of what both have read so far. -/
theorem follow {σ' ε' ο' β : Type} {m' : Machine σ' ε' ο'} {P : σ → ε → Prop}
    {R : List ε → List ε' → σ → σ' → Prop} {f : σ → ε → List β} {f' : σ' → ε' → List β}
    {h : List ε} {h' : List ε'} {s' : σ'}
    (hstep : ∀ h h' s s' e, P s e → R h h' s s' → ∃ es', m'.Admits s' es' ∧
      R (h ++ [e]) (h' ++ es') (m.next s e) (m'.exec s' es') ∧ m'.collect f' s' es' = f s e)
    (ha : m.Along P s es) (hs : R h h' s s') :
    ∃ es', m'.Admits s' es' ∧ R (h ++ es) (h' ++ es') (m.exec s es) (m'.exec s' es') ∧
      m'.collect f' s' es' = m.collect f s es := by
  induction es generalizing h h' s s' with
  | nil => exact ⟨[], trivial, by simpa using hs, rfl⟩
  | cons e es ih =>
    obtain ⟨first, hadm, hr, hf⟩ := hstep h h' s s' e ha.1 hs
    obtain ⟨rest, hadms, hrs, hfs⟩ := ih ha.2 hr
    refine ⟨first ++ rest, m'.along_append.mpr ⟨hadm, hadms⟩, ?_, ?_⟩
    · rw [m'.exec_append]
      simpa using hrs
    · rw [collect_append, collect_cons, hf, hfs]

end Machine

end MeshProxy

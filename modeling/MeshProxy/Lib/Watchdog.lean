import MeshProxy.Lib.Machine

/-!
# Watchdog timers

A machine whose runs take time, with one timer. Some steps re-arm the timer for
a full period; when it runs out, the timer's event is queued, and the
environment produces it at most `lag` after the deadline. A re-arming moves the
deadline and leaves an event alone that is queued already. So the timer's event
comes a full period after a re-arming, unless it was queued by then
(`fires_cases`), and from an armed state on no stretch longer than a period and
the lag passes without a re-arming or the timer's event (`exists_resets`).
-/

namespace MeshProxy

structure Watchdog {σ ε ο : Type} (m : Machine σ ε ο) where
  period : Nat
  lag : Nat
  /-- The step re-arms the timer. -/
  resets : σ → ε → Bool
  /-- The event is the timer's own. -/
  fires : ε → Bool

structure Timed (σ : Type) where
  state : σ
  now : Nat := 0
  deadline : Option Nat := none
  /-- The deadline for which the timer's event is queued. -/
  queued : Option Nat := none

inductive TimedEvent (ε : Type)
  | passes (ms : Nat)
  /-- The timer runs out and queues its event. -/
  | expires
  | act (e : ε)

def elapsed {ε : Type} : List (TimedEvent ε) → Nat
  | [] => 0
  | .passes ms :: es => ms + elapsed es
  | .expires :: es | .act _ :: es => elapsed es

def untimed {ε : Type} (es : List (TimedEvent ε)) : List ε :=
  es.filterMap fun
    | .passes _ | .expires => none
    | .act e => some e

/-- The deadlines that the timer's event is owed for. -/
def Timed.due {σ : Type} (s : Timed σ) : List Nat := s.deadline.toList ++ s.queued.toList

namespace Watchdog

variable {σ ε ο : Type} {m : Machine σ ε ο} (w : Watchdog m)

def step (s : Timed σ) : TimedEvent ε → Timed σ × Option ο
  | .passes ms => ({ s with now := s.now + ms }, none)
  | .expires => ({ s with deadline := none, queued := s.queued.or s.deadline }, none)
  | .act e =>
    ({ s with
        state := m.next s.state e
        deadline := if w.resets s.state e then some (s.now + w.period) else s.deadline
        queued := if w.fires e then none else s.queued },
      some (m.step s.state e).2)

/-- The timer runs out at its deadline, its event comes once it is queued, and
time does not pass either by. -/
def Enabled (s : Timed σ) : TimedEvent ε → Prop
  | .passes ms => ∀ d ∈ s.due, s.now + ms ≤ d + w.lag
  | .expires => ∃ d ∈ s.deadline, d ≤ s.now
  | .act e => m.enabled s.state e ∧ (w.fires e = true → s.queued.isSome)

def machine : Machine (Timed σ) (TimedEvent ε) (Option ο) where
  enabled := w.Enabled
  step := w.step

instance [∀ s e, Decidable (m.enabled s e)] (s : Timed σ) : (e : TimedEvent ε) → Decidable (w.Enabled s e)
  | .passes ms => inferInstanceAs (Decidable (∀ d ∈ s.due, s.now + ms ≤ d + w.lag))
  | .expires => inferInstanceAs (Decidable (∃ d ∈ s.deadline, d ≤ s.now))
  | .act e => inferInstanceAs (Decidable (m.enabled s.state e ∧ (w.fires e = true → s.queued.isSome)))

instance [∀ s e, Decidable (m.enabled s e)] (s : Timed σ) (e : TimedEvent ε) :
    Decidable (w.machine.enabled s e) := inferInstanceAs (Decidable (w.Enabled s e))

variable {w} {s : Timed σ}

theorem exec_now (es : List (TimedEvent ε)) : (w.machine.exec s es).now = s.now + elapsed es := by
  induction es generalizing s with
  | nil => rfl
  | cons e es ih =>
    rw [Machine.exec_cons, ih]
    cases e with
    | passes ms => exact Nat.add_assoc _ _ _
    | expires | act => rfl

theorem exec_state (es : List (TimedEvent ε)) :
    (w.machine.exec s es).state = m.exec s.state (untimed es) := by
  induction es generalizing s with
  | nil => rfl
  | cons e es ih =>
    rw [Machine.exec_cons, ih]
    cases e <;> rfl

theorem admits_untimed (ha : w.machine.Admits s es) : m.Admits s.state (untimed es) := by
  induction es generalizing s with
  | nil => trivial
  | cons e es ih =>
    have hrest := ih ha.2
    cases e with
    | passes ms => exact hrest
    | expires => exact hrest
    | act e => exact ⟨ha.1.1, hrest⟩

-- ---------------------------------------------------------------------------
-- On time
-- ---------------------------------------------------------------------------

variable (w) in
/-- A deadline is at most a period away and passed by at most the lag; the
event is queued for one that has come, before the next. -/
structure InTime (s : Timed σ) : Prop where
  near : ∀ d ∈ s.due, d ≤ s.now + w.period
  due : ∀ d ∈ s.due, s.now ≤ d + w.lag
  came : ∀ q ∈ s.queued, q ≤ s.now
  ordered : ∀ q ∈ s.queued, ∀ d ∈ s.deadline, q ≤ d

theorem inTime_start (state : σ) : w.InTime { state } :=
  ⟨by simp [Timed.due], by simp [Timed.due], by simp, by simp⟩

theorem step_due (s : Timed σ) (e : TimedEvent ε) (h : d ∈ (w.step s e).1.due) :
    d ∈ s.due ∨ d = (w.step s e).1.now + w.period := by
  obtain ⟨state, now, deadline, queued⟩ := s
  cases e with
  | passes ms => exact .inl h
  | expires => cases queued <;> cases deadline <;> simp_all [step, Timed.due]
  | act e =>
    rcases List.mem_append.mp h with h | h
    · by_cases hr : w.resets state e = true
      · simp only [step, hr, ↓reduceIte, Option.toList_some, List.mem_singleton] at h
        exact .inr h
      · simp only [step, hr] at h
        exact .inl (List.mem_append_left _ h)
    · by_cases hf : w.fires e = true
      · simp [step, hf] at h
      · simp only [step, hf] at h
        exact .inl (List.mem_append_right _ h)

theorem step_queued (he : w.Enabled s e) (h : w.InTime s) (hq : q ∈ (w.step s e).1.queued) :
    q ≤ s.now ∧ ∀ d ∈ (w.step s e).1.deadline, q ≤ d := by
  cases e with
  | passes ms => exact ⟨h.came q hq, h.ordered q hq⟩
  | expires =>
    obtain ⟨d, hd, hdue⟩ := he
    refine ⟨?_, by simp [step]⟩
    obtain hold | ⟨-, hnew⟩ := Option.or_eq_some_iff.mp hq
    · exact h.came q hold
    · exact Option.some.inj (hnew.symm.trans hd) ▸ hdue
  | act e =>
    by_cases hf : w.fires e = true
    · simp [step, hf] at hq
    · simp only [step, hf] at hq
      refine ⟨h.came q hq, fun d hd => ?_⟩
      by_cases hr : w.resets s.state e = true
      · obtain rfl : s.now + w.period = d := Option.some.inj ((if_pos hr).symm.trans hd)
        exact Nat.le_trans (h.came q hq) (Nat.le_add_right _ _)
      · exact h.ordered q hq d ((if_neg hr).symm.trans hd)

theorem step_inTime (he : w.Enabled s e) (h : w.InTime s) : w.InTime (w.step s e).1 := by
  have hnow : s.now ≤ (w.step s e).1.now := by cases e <;> simp [step]
  refine ⟨fun d hd => ?_, fun d hd => ?_, fun q hq => ?_, fun q hq => (step_queued he h hq).2⟩
  · obtain hold | rfl := step_due s e hd
    · exact Nat.le_trans (h.near d hold) (Nat.add_le_add_right hnow _)
    · exact Nat.le_refl _
  · obtain hold | rfl := step_due s e hd
    · cases e with
      | passes ms => exact he d hold
      | expires | act => exact h.due d hold
    · omega
  · exact Nat.le_trans (step_queued he h hq).1 hnow

theorem exec_inTime (ha : w.machine.Admits s es) (h : w.InTime s) :
    w.InTime (w.machine.exec s es) :=
  Machine.invariant (I := w.InTime) (fun _ _ he h => step_inTime he h) ha h

-- ---------------------------------------------------------------------------
-- Never early
-- ---------------------------------------------------------------------------

def NotBefore (t : Nat) (s : Timed σ) : Prop := ∀ d, s.deadline = some d → t ≤ d

theorem exec_queued (ht : t ≤ s.now + w.period) (h : NotBefore t s) (ha : w.machine.Admits s es)
    (hq : (w.machine.exec s es).queued.isSome) :
    t ≤ (w.machine.exec s es).now ∨
      (w.machine.exec s es).queued = s.queued ∧ ∀ e, .act e ∈ es → w.fires e = false := by
  induction es generalizing s with
  | nil => exact .inr ⟨rfl, by simp⟩
  | cons e es ih =>
    obtain ⟨he, ha⟩ := ha
    rw [Machine.exec_cons] at hq ⊢
    cases e with
    | passes ms =>
      have hlater : s.now ≤ (w.machine.next s (.passes ms)).now := Nat.le_add_right _ _
      obtain hnow | ⟨hsame, hno⟩ := ih (s := w.machine.next s (.passes ms)) (by omega) h ha hq
      · exact .inl hnow
      · exact .inr ⟨hsame, by simpa using hno⟩
    | expires =>
      obtain ⟨d, hd, hdue⟩ := he
      have hdl : NotBefore t (w.machine.next s .expires) := by
        rintro _ ⟨⟩
      obtain hnow | ⟨hsame, hno⟩ := ih (s := w.machine.next s .expires) ht hdl ha hq
      · exact .inl hnow
      · cases hold : s.queued with
        | some q =>
          refine .inr ⟨hsame.trans ?_, by simpa using hno⟩
          show s.queued.or s.deadline = _
          rw [hold, Option.some_or]
        | none =>
          -- the deadline that queued it was not before `t`
          refine .inl (Nat.le_trans (h d hd) (Nat.le_trans hdue ?_))
          rw [exec_now]
          exact Nat.le_add_right _ _
    | act e =>
      have hdl : NotBefore t (w.machine.next s (.act e)) := by
        intro d hd
        by_cases hr : w.resets s.state e = true
        · obtain rfl : s.now + w.period = d := Option.some.inj ((if_pos hr).symm.trans hd)
          exact ht
        · exact h d ((if_neg hr).symm.trans hd)
      obtain hnow | ⟨hsame, hno⟩ := ih (s := w.machine.next s (.act e)) ht hdl ha hq
      · exact .inl hnow
      · by_cases hf : w.fires e = true
        · rw [hsame] at hq
          simp [machine, Machine.next, step, hf] at hq
        · refine .inr ⟨hsame.trans (if_neg hf), ?_⟩
          simpa [hf] using hno

/-- The timer's event leaves a full period since the last re-arming, unless it
was queued by then: that one event comes within the lag. -/
theorem fires_cases (h : NotBefore (s.now + w.period) s) (hin : w.InTime s) (hf : w.fires f = true)
    (ha : w.machine.Admits s (es ++ [.act f])) :
    w.period ≤ elapsed es ∨
      s.queued.isSome ∧ (∀ e, .act e ∈ es → w.fires e = false) ∧ elapsed es ≤ w.lag := by
  obtain ⟨ha, hfire, -⟩ := w.machine.along_append.mp ha
  have hq : (w.machine.exec s es).queued.isSome := hfire.2 hf
  obtain hnow | ⟨hsame, hno⟩ := exec_queued (Nat.le_refl _) h ha hq
  · rw [exec_now] at hnow
    exact .inl (by omega)
  · rw [hsame] at hq
    obtain ⟨q, hs⟩ := Option.isSome_iff_exists.mp hq
    have hcame := hin.came q hs
    have hdue := (exec_inTime ha hin).due q (List.mem_append_right _ (by simp [hsame, hs]))
    rw [exec_now] at hdue
    exact .inr ⟨hq, hno, by omega⟩

-- ---------------------------------------------------------------------------
-- Never late
-- ---------------------------------------------------------------------------

theorem exists_resets_or_due (h : w.InTime s) (ha : w.machine.Admits s es)
    (hdue : ∃ d ∈ s.due, d ≤ t) :
    (∃ es₁ e es₂, es = es₁ ++ .act e :: es₂ ∧
        (w.resets (w.machine.exec s es₁).state e = true ∨ w.fires e = true)) ∨
      ∃ d ∈ (w.machine.exec s es).due, d ≤ t := by
  induction es generalizing s with
  | nil => exact .inr hdue
  | cons e es ih =>
    obtain ⟨he, ha⟩ := ha
    have hrest (hdue' : ∃ d ∈ (w.machine.next s e).due, d ≤ t) :
        (∃ es₁ f es₂, e :: es = es₁ ++ .act f :: es₂ ∧
          (w.resets (w.machine.exec s es₁).state f = true ∨ w.fires f = true)) ∨
          ∃ d ∈ (w.machine.exec s (e :: es)).due, d ≤ t := by
      obtain ⟨es₁, f, es₂, rfl, hf⟩ | hd := ih (step_inTime he h) ha hdue'
      · exact .inl ⟨e :: es₁, f, es₂, rfl, hf⟩
      · exact .inr hd
    obtain ⟨d, hd, hle⟩ := hdue
    cases e with
    | passes ms => exact hrest ⟨d, hd, hle⟩
    | expires =>
      obtain ⟨d', hd', -⟩ := he
      cases hq : s.queued with
      | none =>
        refine hrest ⟨d, ?_, hle⟩
        simpa [machine, Machine.next, step, Timed.due, hq] using hd
      | some q =>
        have hqd : q ≤ d' := h.ordered q hq d' hd'
        have hd' : s.deadline = some d' := hd'
        refine hrest ⟨q, by simp [machine, Machine.next, step, Timed.due, hq], ?_⟩
        simp only [Timed.due, hq, hd', Option.toList_some, List.cons_append, List.nil_append,
          List.mem_cons, List.not_mem_nil, or_false] at hd
        obtain rfl | rfl := hd
        · exact Nat.le_trans hqd hle
        · exact hle
    | act e =>
      by_cases hact : w.resets s.state e = true ∨ w.fires e = true
      · exact .inl ⟨[], e, es, rfl, hact⟩
      · obtain ⟨hr, hf⟩ := not_or.mp hact
        refine hrest ⟨d, ?_, hle⟩
        simpa [machine, Machine.next, step, Timed.due, hr, hf] using hd

theorem exists_resets (h : w.InTime s) (hdue : s.due ≠ []) (ha : w.machine.Admits s es)
    (hlong : w.period + w.lag < elapsed es) :
    ∃ es₁ e es₂, es = es₁ ++ .act e :: es₂ ∧
      (w.resets (w.machine.exec s es₁).state e = true ∨ w.fires e = true) := by
  obtain ⟨d, hd⟩ := List.exists_mem_of_ne_nil _ hdue
  refine exists_resets_or_due h ha ⟨d, hd, h.near d hd⟩ |>.resolve_right ?_
  rintro ⟨d', hd', hle⟩
  have hend := (exec_inTime ha h).due d' hd'
  rw [exec_now] at hend
  omega

end Watchdog

end MeshProxy

/-
# `Lib.Runs` — runs of a partial step function, with the log of events

`Run step s log t`: starting from `s`, the events of `log` are enabled one
after the other and lead to `t`.

    Run.invariant   what a step keeps, a run keeps
    Run.history     the same for a property of the log and the state
    Run.split       a run through `l ++ l'` passes a state between the two
-/
import Mathlib.Data.List.Induction

namespace Runs

variable {σ ε : Type} {step : σ → ε → Option σ}

inductive Run (step : σ → ε → Option σ) (s : σ) : List ε → σ → Prop
  | nil : Run step s [] s
  | snoc {log : List ε} {t u : σ} {e : ε} :
      Run step s log t → step t e = some u → Run step s (log ++ [e]) u

theorem Run.single {s t : σ} {e : ε} (h : step s e = some t) : Run step s [e] t := .snoc .nil h

theorem Run.append {s t u : σ} {log log' : List ε} (h : Run step s log t) (h' : Run step t log' u) :
    Run step s (log ++ log') u := by
  induction h' with
  | nil => rwa [List.append_nil]
  | snoc _ hstep ih =>
      rw [← List.append_assoc]
      exact .snoc ih hstep

theorem Run.cons {s t u : σ} {e : ε} {log : List ε} (he : step s e = some t)
    (h : Run step t log u) : Run step s (e :: log) u := (Run.single he).append h

theorem run_nil_iff {s t : σ} : Run step s [] t ↔ s = t := by
  constructor
  · intro h
    generalize hlog : ([] : List ε) = log at h
    cases h with
    | nil => rfl
    | snoc _ _ => simp at hlog
  · rintro rfl
    exact .nil

theorem run_snoc_iff {s u : σ} {e : ε} {log : List ε} :
    Run step s (log ++ [e]) u ↔ ∃ t, Run step s log t ∧ step t e = some u := by
  constructor
  · intro h
    generalize hlog : log ++ [e] = all at h
    cases h with
    | nil => simp at hlog
    | snoc h' hstep =>
        obtain ⟨rfl, he⟩ := List.append_inj' hlog rfl
        obtain rfl := List.singleton_inj.mp he
        exact ⟨_, h', hstep⟩
  · rintro ⟨t, h, hstep⟩
    exact .snoc h hstep

/-- A run of a joined log passes through a state between the parts. -/
theorem Run.split {s u : σ} {log log' : List ε} (h : Run step s (log ++ log') u) :
    ∃ t, Run step s log t ∧ Run step t log' u := by
  induction log' using List.reverseRecOn generalizing u with
  | nil => exact ⟨u, by rwa [List.append_nil] at h, .nil⟩
  | append_singleton log' e ih =>
      rw [← List.append_assoc, run_snoc_iff] at h
      obtain ⟨v, h, hstep⟩ := h
      obtain ⟨t, ht, ht'⟩ := ih h
      exact ⟨t, ht, .snoc ht' hstep⟩

theorem run_cons_iff {s u : σ} {e : ε} {log : List ε} :
    Run step s (e :: log) u ↔ ∃ t, step s e = some t ∧ Run step t log u := by
  constructor
  · intro h
    have h : Run step s ([e] ++ log) u := h
    obtain ⟨t, he, h⟩ := h.split
    obtain ⟨s', hs', hstep⟩ := run_snoc_iff.mp (show Run step s ([] ++ [e]) t from he)
    obtain rfl := run_nil_iff.mp hs'
    exact ⟨t, hstep, h⟩
  · rintro ⟨t, he, h⟩
    exact .cons he h

/-- Runs compute: the fold of the step function. -/
theorem run_of_foldlM {log : List ε} :
    ∀ {s t : σ}, log.foldlM step s = some t → Run step s log t := by
  induction log with
  | nil =>
      intro s t h
      obtain rfl := Option.some_inj.mp h
      exact .nil
  | cons e log ih =>
      intro s t h
      rw [List.foldlM_cons] at h
      obtain ⟨m, he, h⟩ := Option.bind_eq_some_iff.mp h
      exact .cons he (ih h)

/-- What every step keeps, every run keeps. -/
theorem Run.invariant {P : σ → Prop} (hstep : ∀ s e t, P s → step s e = some t → P t) {s t : σ}
    {log : List ε} (h : Run step s log t) (hs : P s) : P t := by
  induction h with
  | nil => exact hs
  | snoc _ he ih => exact hstep _ _ _ ih he

/-- The rule for what a state says about the events that led to it. -/
theorem Run.history {P : List ε → σ → Prop} {s : σ} (h₀ : P [] s)
    (hstep : ∀ log t e u, Run step s log t → P log t → step t e = some u → P (log ++ [e]) u)
    {log : List ε} {t : σ} (h : Run step s log t) : P log t := by
  induction h with
  | nil => exact h₀
  | snoc h he ih => exact hstep _ _ _ _ h ih he

end Runs

/-
# `Lib.Elimination` — solving linear systems column by column

The rows of a system are vectors of a space `E`, a column is a functional on it.
One step takes a row with an entry in the column and clears the column in every
other row.  Steps keep the functionals that vanish on all rows, so they keep the
solutions, and a column stays clear while later columns are treated.
-/
import Mathlib.Algebra.BigOperators.Ring.Finset
import Mathlib.Algebra.Module.LinearMap.Defs
import Mathlib.Data.Fintype.Basic
import Mathlib.Tactic.Ring

namespace Elimination

variable {F E ι κ : Type} [Field F] [AddCommGroup E] [Module F E]

/-- Row `r` clears the column `p` of the rows `R`. -/
structure Clears (p : E →ₗ[F] F) (r : ι) (R R' : ι → E) : Prop where
  pivot : p (R r) ≠ 0
  kept : R' r = R r
  cleared : ∀ i, i ≠ r → R' i = R i - (p (R i) / p (R r)) • R r

namespace Clears

variable {p : E →ₗ[F] F} {r : ι} {R R' : ι → E} (h : Clears p r R R')
include h

theorem apply_eq {i : ι} (hi : i ≠ r) (φ : E →ₗ[F] F) :
    φ (R' i) = φ (R i) - p (R i) / p (R r) * φ (R r) := by
  rw [h.cleared i hi, map_sub, map_smul, smul_eq_mul]

/-- The column is clear. -/
theorem zero {i : ι} (hi : i ≠ r) : p (R' i) = 0 := by
  rw [h.apply_eq hi, div_mul_cancel₀ _ h.pivot, sub_self]

/-- A functional without an entry in the row of the step sees no change. -/
theorem apply_of_zero {φ : E →ₗ[F] F} (hφ : φ (R r) = 0) (i : ι) : φ (R' i) = φ (R i) := by
  by_cases hi : i = r
  · rw [hi, h.kept]
  · rw [h.apply_eq hi, hφ, mul_zero, sub_zero]

/-- A step keeps the solutions. -/
theorem vanish_iff (φ : E →ₗ[F] F) : (∀ i, φ (R' i) = 0) ↔ ∀ i, φ (R i) = 0 := by
  constructor
  · intro hv i
    have hr : φ (R r) = 0 := by
      rw [← h.kept]
      exact hv r
    rw [← h.apply_of_zero hr]
    exact hv i
  · intro hv i
    rw [h.apply_of_zero (hv r)]
    exact hv i

end Clears

/-- The columns that are `done`, each with its row, are clear elsewhere. -/
structure Solved (col : κ → E →ₗ[F] F) (done : κ → Prop) (ρ : κ → ι) (R : ι → E) : Prop where
  pivot : ∀ c, done c → col c (R (ρ c)) ≠ 0
  clear : ∀ c, done c → ∀ i, i ≠ ρ c → col c (R i) = 0
  inj : ∀ c, done c → ∀ d, done d → ρ c = ρ d → c = d

namespace Solved

variable {col : κ → E →ₗ[F] F} {done : κ → Prop} {ρ : κ → ι} {R R' : ι → E}

theorem none (hd : ∀ c, ¬ done c) : Solved col done ρ R :=
  ⟨fun c hc => absurd hc (hd c), fun c hc => absurd hc (hd c), fun c hc => absurd hc (hd c)⟩

/-- One more column, by a row that no column has taken. -/
theorem step {done' : κ → Prop} {ρ' : κ → ι} {c : κ} {r : ι} (h : Solved col done ρ R)
    (hc : Clears (col c) r R R') (hfree : ∀ d, done d → ρ d ≠ r)
    (hdone : ∀ d, done' d ↔ done d ∨ d = c) (hnew : ρ' c = r)
    (hold : ∀ d, done d → ρ' d = ρ d) : Solved col done' ρ' R' := by
  -- what is clear stays so: the row of the step has no entry there
  have hzero : ∀ d, done d → ∀ i, col d (R' i) = col d (R i) := fun d hd i =>
    hc.apply_of_zero (h.clear d hd r (hfree d hd).symm) i
  have hcases : ∀ d, done' d → done d ∧ ρ' d = ρ d ∨ d = c ∧ ρ' d = r := by
    intro d hd
    rcases (hdone d).mp hd with hd | rfl
    · exact .inl ⟨hd, hold d hd⟩
    · exact .inr ⟨rfl, hnew⟩
  refine ⟨?_, ?_, ?_⟩
  · intro d hd
    rcases hcases d hd with ⟨hd, hρ⟩ | ⟨rfl, hρ⟩
    · rw [hρ, hzero d hd]
      exact h.pivot d hd
    · rw [hρ, hc.kept]
      exact hc.pivot
  · intro d hd i hi
    rcases hcases d hd with ⟨hd, hρ⟩ | ⟨rfl, hρ⟩
    · rw [hzero d hd]
      exact h.clear d hd i (hρ ▸ hi)
    · exact hc.zero (hρ ▸ hi)
  · intro d hd e he heq
    rcases hcases d hd with ⟨hd, hρ⟩ | ⟨rfl, hρ⟩ <;>
      rcases hcases e he with ⟨he, hρ'⟩ | ⟨rfl, hρ'⟩
    · exact h.inj d hd e he (by rw [← hρ, ← hρ', heq])
    · exact absurd (by rw [← hρ, ← hρ', heq]) (hfree d hd)
    · exact absurd (by rw [← hρ, ← hρ', heq]) (hfree e he)
    · rfl

/-- When every column is done, a row reads its unknown off. -/
theorem value [Fintype κ] (h : Solved col done ρ R) (hall : ∀ c, done c) {b : E →ₗ[F] F}
    {x : κ → F} (hx : ∀ i, ∑ d, x d * col d (R i) = b (R i)) (c : κ) :
    b (R (ρ c)) / col c (R (ρ c)) = x c := by
  have hsum : ∑ d, x d * col d (R (ρ c)) = x c * col c (R (ρ c)) := by
    refine Finset.sum_eq_single c ?_ (fun hc => absurd (Finset.mem_univ c) hc)
    intro d _ hd
    have hrow : ρ c ≠ ρ d := fun hcd => hd (h.inj c (hall c) d (hall d) hcd).symm
    rw [h.clear d (hall d) _ hrow, mul_zero]
  rw [← hx, hsum, mul_div_cancel_right₀ _ (h.pivot c (hall c))]

end Solved

/-! ## A column without a row

The elimination gets stuck when no free row has an entry in the next column.
Then that column depends on the columns already done, and the system has no
unique solution to find. -/

section Combination

variable [DecidableEq κ] (col : κ → E →ₗ[F] F) (done : κ → Prop) [DecidablePred done]
  (ρ : κ → ι) (R : ι → E) (c : κ)

/-- The column `c` less what its entries in the rows taken make of the columns
that own them. -/
def combination (d : κ) : F :=
  if d = c then 1
  else if done d then - (col c (R (ρ d)) / col d (R (ρ d)))
  else 0

theorem combination_self : combination col done ρ R c c = 1 := if_pos rfl

theorem combination_done {d : κ} (hd : done d) (hne : d ≠ c) :
    combination col done ρ R c d = - (col c (R (ρ d)) / col d (R (ρ d))) := by
  rw [combination, if_neg hne, if_pos hd]

theorem combination_other {d : κ} (hd : ¬ done d) (hne : d ≠ c) :
    combination col done ρ R c d = 0 := by
  rw [combination, if_neg hne, if_neg hd]

variable {col done ρ R c} [Fintype κ]

/-- When a column has entries only in rows that are taken, it is a combination
of the columns that are done. -/
theorem Solved.dependent (h : Solved col done ρ R) (hc : ¬ done c)
    (hstuck : ∀ i, (∀ d, done d → ρ d ≠ i) → col c (R i) = 0) (i : ι) :
    ∑ d, combination col done ρ R c d * col d (R i) = 0 := by
  by_cases hi : ∃ e, done e ∧ ρ e = i
  · obtain ⟨e, he, rfl⟩ := hi
    have hec : e ≠ c := fun hec => hc (hec ▸ he)
    have hrest : ∀ d ∈ Finset.univ, d ≠ c ∧ d ≠ e →
        combination col done ρ R c d * col d (R (ρ e)) = 0 := by
      intro d _ hd
      by_cases hdone : done d
      · have hrow : ρ e ≠ ρ d := fun hρ => hd.2 (h.inj e he d hdone hρ).symm
        rw [h.clear d hdone _ hrow, mul_zero]
      · rw [combination_other _ _ _ _ _ hdone hd.1, zero_mul]
    -- the column itself and the one that owns the row cancel
    rw [Finset.sum_eq_add c e hec.symm hrest (fun hn => absurd (Finset.mem_univ c) hn)
      (fun hn => absurd (Finset.mem_univ e) hn), combination_self,
      combination_done _ _ _ _ _ he hec, one_mul, neg_mul, div_mul_cancel₀ _ (h.pivot e he),
      add_neg_cancel]
  · have hfree : ∀ d, done d → ρ d ≠ i := fun d hd hρ => hi ⟨d, hd, hρ⟩
    refine Finset.sum_eq_zero fun d _ => ?_
    by_cases hdc : d = c
    · rw [hdc, hstuck i hfree, mul_zero]
    · by_cases hdone : done d
      · rw [h.clear d hdone i (hfree d hdone).symm, mul_zero]
      · rw [combination_other _ _ _ _ _ hdone hdc, zero_mul]

end Combination

end Elimination

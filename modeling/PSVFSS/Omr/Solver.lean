/-
# `Omr.Solver` — the recipient's linear system

The recipient knows for each bucket which messages were added to it and with
which weights, and the sum; `equationSolving` is a Gauss-Jordan elimination
modulo 65537.  It tells the pivot from the other rows by its entry in the column
and not by its place, so a row with the same entry is left as it is: the results
are about systems where that does not happen (`Untied`).
-/
import Mathlib.Algebra.BigOperators.Fin
import Mathlib.Data.List.GetD
import Mathlib.FieldTheory.Finite.Basic
import Mathlib.LinearAlgebra.LinearIndependent.Defs
import Mathlib.Algebra.Module.LinearMap.Prod
import Mathlib.LinearAlgebra.Pi
import Mathlib.Tactic.IntervalCases
import Mathlib.Tactic.LinearCombination
import PSVFSS.Lib.Elimination
import PSVFSS.Omr.Seal

namespace PSVFSS.Omr

/-! ## Arithmetic

The helpers take numbers of either sign and reduce them as C does, towards
zero.  Products of two reduced numbers are far below the bounds of a `long`. -/

/-- `power`; the exponent is never negative. -/
def power (x : ℤ) (y : ℕ) (m : ℤ) : ℤ :=
  if y = 0 then 1
  else
    let p := (power x (y / 2) m).tmod m
    let p := (p * p).tmod m
    if y % 2 = 0 then p else (x * p).tmod m
termination_by y

def modInverse (a m : ℤ) : ℤ := power a (m - 2).toNat m

/-- `div_mod` at its default modulus. -/
def divMod (a b : ℤ) : ℤ := (a * modInverse b 65537).tmod 65537

def multScalarVec (input : List ℤ) (k : ℤ) : List ℤ := input.map fun x => (x * k).tmod 65537

/-- An entry of `subtract_two_vec_inplace`.  The remainder is above `-65537`, so
the loop that adds the modulus runs once at most. -/
def subtractEntry (x y : ℤ) : ℤ :=
  if (x - y).tmod 65537 < 0 then (x - y).tmod 65537 + 65537 else (x - y).tmod 65537

/-- `subtract_two_vec_inplace` of the first `numToSolve` entries. -/
def subtractTwoVecInplace : ℕ → List ℤ → List ℤ → List ℤ
  | numToSolve + 1, x :: output, y :: input =>
    subtractEntry x y :: subtractTwoVecInplace numToSolve output input
  | _, output, _ => output

/-- `get_ratio_mult_and_subtract`, with the ratio that it leaves in `k`. -/
def getRatioMultAndSubtract (output input : List ℤ) (whichItem numToSolve : ℕ) (k : ℤ) :
    List ℤ × ℤ :=
  if k = -1 then
    let k := divMod (output.getD whichItem 0) (input.getD whichItem 0)
    (subtractTwoVecInplace input.length output (multScalarVec input k), k)
  else (subtractTwoVecInplace numToSolve output (multScalarVec input k), k)

/-- `singleSolve` at its default modulus. -/
def singleSolve (a : ℤ) (toSolve : List ℤ) : List ℤ :=
  toSolve.map fun x => (x * modInverse a 65537).tmod 65537

/-! ## The elimination

The recoder remembers the pivot of each column.  The passes go over all rows,
the pivot included, and leave it out by comparing entries. -/

/-- A row of the system. -/
structure Equation where
  lhs : List ℤ
  rhs : List ℤ

def rowOf (eqs : List Equation) (i : ℕ) : Equation := eqs.getD i ⟨[], []⟩

/-- The first row with an entry in the column that is no pivot yet; `recoder`
is as long as there are columns with a pivot. -/
def pivotRow (eqs : List Equation) (recoder : List ℕ) : Option ℕ :=
  (List.range eqs.length).find? fun i =>
    (rowOf eqs i).lhs.getD recoder.length 0 ≠ 0 ∧ i ∉ recoder

/-- What the pass over the rows does to one of them.  The pivot has the entry
`rcd` itself and is not changed, so all rows are seen with the same pivot. -/
def eliminateRow (numToSolve counter : ℕ) (pivot e : Equation) : Equation :=
  if e.lhs.getD counter 0 ≠ 0 ∧ e.lhs.getD counter 0 ≠ pivot.lhs.getD counter 0 then
    let lhs := getRatioMultAndSubtract e.lhs pivot.lhs counter numToSolve (-1)
    let rhs := getRatioMultAndSubtract e.rhs pivot.rhs counter numToSolve lhs.2
    ⟨lhs.1, rhs.1⟩
  else e

/-- The loop over the columns, `left` of them to go. -/
def eliminate (numToSolve : ℕ) : ℕ → List Equation → List ℕ → Option (List Equation × List ℕ)
  | 0, eqs, recoder => some (eqs, recoder)
  | left + 1, eqs, recoder =>
    match pivotRow eqs recoder with
    | none => none
    | some r => eliminate numToSolve left
        (eqs.map (eliminateRow numToSolve recoder.length (rowOf eqs r))) (recoder ++ [r])

/-- `equationSolving`, which returns no rows when there is no solution. -/
def equationSolving (lhs rhs : List (List ℤ)) (numToSolve : ℕ) : List (List ℤ) :=
  match eliminate numToSolve (lhs.headD []).length (List.zipWith Equation.mk lhs rhs) [] with
  | none => []
  | some (eqs, recoder) =>
    recoder.mapIdx fun c r => singleSolve ((rowOf eqs r).lhs.getD c 0) (rowOf eqs r).rhs

/-- No row but the pivot has the pivot's entry, in any column when it is treated. -/
def Untied (numToSolve : ℕ) : ℕ → List Equation → List ℕ → Prop
  | 0, _, _ => True
  | left + 1, eqs, recoder =>
    match pivotRow eqs recoder with
    | none => True
    | some r =>
      (∀ i < eqs.length, i ≠ r → (rowOf eqs i).lhs.getD recoder.length 0
          ≠ (rowOf eqs r).lhs.getD recoder.length 0)
        ∧ Untied numToSolve left
            (eqs.map (eliminateRow numToSolve recoder.length (rowOf eqs r))) (recoder ++ [r])

/-! ## Entries modulo 65537

What the helpers compute, as numbers of the field; `div_mod` inverts by
Fermat's theorem. -/

/-- Numbers from 0 up to 65536. -/
def Reduced (v : List ℤ) : Prop := ∀ x ∈ v, 0 ≤ x ∧ x < 65537

/-- An entry as a number modulo 65537. -/
def entry (v : List ℤ) (i : ℕ) : Slot := (v.getD i 0 : ℤ)

theorem cast_modulus : ((65537 : ℤ) : Slot) = 0 := by
  have hself : ((65537 : ℕ) : Slot) = 0 := ZMod.natCast_self 65537
  rw [← hself, Int.cast_ofNat, Nat.cast_ofNat]

theorem cast_tmod (a : ℤ) : ((a.tmod 65537 : ℤ) : Slot) = a := by
  rw [Int.tmod_def, Int.cast_sub, Int.cast_mul]
  have hzero : ((65537 : ℤ) : Slot) = 0 := cast_modulus
  rw [hzero, zero_mul, sub_zero]

theorem cast_power (x : ℤ) (y : ℕ) : ((power x y 65537 : ℤ) : Slot) = x ^ y := by
  induction y using Nat.strong_induction_on with
  | _ y ih =>
    rw [power]
    by_cases hy : y = 0
    · rw [if_pos hy, hy, pow_zero, Int.cast_one]
    · have hhalf := ih (y / 2) (by omega)
      rw [if_neg hy]
      by_cases heven : y % 2 = 0
      · have hsplit : y = y / 2 + y / 2 := by omega
        rw [if_pos heven, cast_tmod, Int.cast_mul, cast_tmod, hhalf, ← pow_add, ← hsplit]
      · have hsplit : y = y / 2 + y / 2 + 1 := by omega
        rw [if_neg heven, cast_tmod, Int.cast_mul, cast_tmod, Int.cast_mul, cast_tmod, hhalf,
          ← pow_add, ← pow_succ', ← hsplit]

theorem power_nonneg {x m : ℤ} (hx : 0 ≤ x) (y : ℕ) : 0 ≤ power x y m := by
  rw [power]
  split
  · exact Int.one_nonneg
  · have hsq : 0 ≤ ((power x (y / 2) m).tmod m * (power x (y / 2) m).tmod m).tmod m :=
      Int.tmod_nonneg _ (mul_self_nonneg _)
    split
    · exact hsq
    · exact Int.tmod_nonneg _ (mul_nonneg hx hsq)

/-- By Fermat's theorem. -/
theorem cast_modInverse (a : ℤ) : ((modInverse a 65537 : ℤ) : Slot) = (a : Slot)⁻¹ := by
  rw [modInverse, cast_power]
  by_cases ha : (a : Slot) = 0
  · rw [ha, inv_zero, zero_pow (by decide)]
  · refine eq_inv_of_mul_eq_one_left ?_
    rw [← pow_succ]
    exact ZMod.pow_card_sub_one_eq_one ha

theorem cast_divMod (a b : ℤ) : ((divMod a b : ℤ) : Slot) = a / b := by
  rw [divMod, cast_tmod, Int.cast_mul, cast_modInverse, div_eq_mul_inv]

theorem cast_subtractEntry (x y : ℤ) : ((subtractEntry x y : ℤ) : Slot) = x - y := by
  rw [subtractEntry]
  have hzero : ((65537 : ℤ) : Slot) = 0 := cast_modulus
  split
  · rw [Int.cast_add, cast_tmod, hzero, add_zero, Int.cast_sub]
  · rw [cast_tmod, Int.cast_sub]

theorem subtractEntry_range (x y : ℤ) : 0 ≤ subtractEntry x y ∧ subtractEntry x y < 65537 := by
  have hlow : -65537 < (x - y).tmod 65537 := Int.lt_tmod_of_pos _ (by decide)
  have hhigh : (x - y).tmod 65537 < 65537 := Int.tmod_lt_of_pos _ (by decide)
  rw [subtractEntry]
  split <;> omega

theorem entry_ne_zero {v : List ℤ} (hv : Reduced v) {i : ℕ} :
    entry v i ≠ 0 ↔ v.getD i 0 ≠ 0 := by
  rw [entry, ne_eq, ne_eq, not_iff_not, ZMod.intCast_zmod_eq_zero_iff_dvd]
  rw [List.getD_eq_getElem?_getD]
  cases hi : v[i]? with
  | none => simp
  | some x =>
    have hx := hv x (List.mem_of_getElem? hi)
    constructor
    · rintro ⟨k, hk⟩
      rw [Option.getD_some] at hk ⊢
      omega
    · intro hzero
      exact ⟨0, by rw [hzero, mul_zero]⟩

theorem length_subtractTwoVecInplace : ∀ (n : ℕ) (output input : List ℤ),
    (subtractTwoVecInplace n output input).length = output.length
  | 0, _, _ => rfl
  | _ + 1, [], _ => rfl
  | _ + 1, _ :: _, [] => rfl
  | n + 1, _ :: output, _ :: input =>
    congrArg Nat.succ (length_subtractTwoVecInplace n output input)

theorem reduced_subtractTwoVecInplace : ∀ (n : ℕ) {output : List ℤ} (input : List ℤ),
    Reduced output → Reduced (subtractTwoVecInplace n output input)
  | 0, _, _, h => h
  | _ + 1, [], _, h => h
  | _ + 1, _ :: _, [], h => h
  | n + 1, x :: output, y :: input, h => by
    have htail : Reduced output := fun v hv => h v (List.mem_cons_of_mem x hv)
    intro v hv
    rcases List.mem_cons.mp hv with rfl | hv
    · exact subtractEntry_range x y
    · exact reduced_subtractTwoVecInplace n input htail v hv

theorem entry_subtract : ∀ (n : ℕ) (output input : List ℤ), output.length = input.length →
    ∀ i < n, entry (subtractTwoVecInplace n output input) i = entry output i - entry input i
  | 0, _, _, _, _, hi => absurd hi (Nat.not_lt_zero _)
  | _ + 1, [], [], _, _, _ => (sub_self _).symm
  | _ + 1, [], _ :: _, hlen, _, _ => absurd hlen (Nat.succ_ne_zero _).symm
  | _ + 1, _ :: _, [], hlen, _, _ => absurd hlen (Nat.succ_ne_zero _)
  | _ + 1, x :: _, y :: _, _, 0, _ => cast_subtractEntry x y
  | n + 1, _ :: output, _ :: input, hlen, i + 1, hi =>
    entry_subtract n output input (Nat.succ.inj hlen) i (Nat.lt_of_succ_lt_succ hi)

theorem entry_multScalarVec (input : List ℤ) (k : ℤ) (i : ℕ) :
    entry (multScalarVec input k) i = k * entry input i := by
  rw [entry, entry, multScalarVec, List.getD_eq_getElem?_getD, List.getElem?_map,
    List.getD_eq_getElem?_getD]
  cases input[i]? with
  | none =>
    rw [Option.map_none, Option.getD_none, Int.cast_zero, mul_zero]
  | some x =>
    rw [Option.map_some, Option.getD_some, Option.getD_some, cast_tmod, Int.cast_mul, mul_comm]

/-- A pass that is given the ratio, or finds it. -/
theorem entry_getRatio {output input : List ℤ} (hlen : output.length = input.length)
    (whichItem numToSolve : ℕ) (k : ℤ) {i : ℕ}
    (hi : i < if k = -1 then input.length else numToSolve) :
    entry (getRatioMultAndSubtract output input whichItem numToSolve k).1 i
      = entry output i
        - (getRatioMultAndSubtract output input whichItem numToSolve k).2 * entry input i := by
  have hscaled : ∀ k, output.length = (multScalarVec input k).length := by
    intro k
    rw [multScalarVec, List.length_map, hlen]
  rw [getRatioMultAndSubtract]
  split at hi
  next hk => rw [if_pos hk, entry_subtract _ _ _ (hscaled _) i hi, entry_multScalarVec]
  next hk => rw [if_neg hk, entry_subtract _ _ _ (hscaled _) i hi, entry_multScalarVec]

theorem entry_of_le {v : List ℤ} {i : ℕ} (hi : v.length ≤ i) : entry v i = 0 := by
  rw [entry, List.getD_eq_default _ _ hi,
    Int.cast_zero]

theorem getD_range {v : List ℤ} (hv : Reduced v) (i : ℕ) :
    0 ≤ v.getD i 0 ∧ v.getD i 0 < 65537 := by
  rw [List.getD_eq_getElem?_getD]
  cases hi : v[i]? with
  | none => exact ⟨le_rfl, by decide⟩
  | some x => exact hv x (List.mem_of_getElem? hi)

/-- Numbers below 65537 are told apart by their slots. -/
theorem eq_of_cast {a b : ℤ} (ha : 0 ≤ a ∧ a < 65537) (hb : 0 ≤ b ∧ b < 65537)
    (h : (a : Slot) = b) : a = b := by
  have hmod : a % 65537 = b % 65537 := (ZMod.intCast_eq_intCast_iff' a b 65537).mp h
  rwa [Int.emod_eq_of_lt ha.1 ha.2, Int.emod_eq_of_lt hb.1 hb.2] at hmod

/-! ## A pass clears a column

A row with its coefficients and its sums is one vector, and a pass is the step
of `Lib.Elimination` on it. -/

/-- A row as a vector: its coefficients, and the sums that are solved for. -/
def row (numToSolve : ℕ) (e : Equation) : (ℕ → Slot) × (ℕ → Slot) :=
  (entry e.lhs, fun t => if t < numToSolve then entry e.rhs t else 0)

def column (c : ℕ) : ((ℕ → Slot) × (ℕ → Slot)) →ₗ[Slot] Slot :=
  (LinearMap.proj c).comp (LinearMap.fst Slot (ℕ → Slot) (ℕ → Slot))

def result (t : ℕ) : ((ℕ → Slot) × (ℕ → Slot)) →ₗ[Slot] Slot :=
  (LinearMap.proj t).comp (LinearMap.snd Slot (ℕ → Slot) (ℕ → Slot))

def rows (numToSolve : ℕ) (eqs : List Equation) (i : ℕ) : (ℕ → Slot) × (ℕ → Slot) :=
  row numToSolve (rowOf eqs i)

theorem column_row (T c : ℕ) (e : Equation) : column c (row T e) = entry e.lhs c := rfl

/-- Rows of `n` coefficients and `w` sums. -/
structure Equation.Shaped (n w : ℕ) (e : Equation) : Prop where
  lhs : e.lhs.length = n
  rhs : e.rhs.length = w
  lhs_reduced : Reduced e.lhs
  rhs_reduced : Reduced e.rhs

theorem length_getRatio (output input : List ℤ) (whichItem numToSolve : ℕ) (k : ℤ) :
    (getRatioMultAndSubtract output input whichItem numToSolve k).1.length = output.length := by
  rw [getRatioMultAndSubtract]
  split <;> exact length_subtractTwoVecInplace _ _ _

theorem reduced_getRatio {output : List ℤ} (h : Reduced output) (input : List ℤ)
    (whichItem numToSolve : ℕ) (k : ℤ) :
    Reduced (getRatioMultAndSubtract output input whichItem numToSolve k).1 := by
  rw [getRatioMultAndSubtract]
  split <;> exact reduced_subtractTwoVecInplace _ _ h

theorem Equation.Shaped.eliminateRow {n w : ℕ} {e : Equation} (h : e.Shaped n w)
    (T c : ℕ) (pivot : Equation) : (eliminateRow T c pivot e).Shaped n w := by
  rw [Omr.eliminateRow]
  split
  · exact ⟨(length_getRatio _ _ _ _ _).trans h.lhs, (length_getRatio _ _ _ _ _).trans h.rhs,
      reduced_getRatio h.lhs_reduced _ _ _ _, reduced_getRatio h.rhs_reduced _ _ _ _⟩
  · exact h

/-- What a pass does to a row whose entry is not the pivot's. -/
theorem row_eliminateRow {n w T c : ℕ} {pivot e : Equation} (hp : pivot.Shaped n w)
    (he : e.Shaped n w) (hne : e.lhs.getD c 0 ≠ pivot.lhs.getD c 0) :
    row T (eliminateRow T c pivot e)
      = row T e - (column c (row T e) / column c (row T pivot)) • row T pivot := by
  rw [eliminateRow, column_row, column_row]
  by_cases hzero : e.lhs.getD c 0 = 0
  · have hentry : entry e.lhs c = 0 := by rw [entry, hzero, Int.cast_zero]
    rw [if_neg fun hand => hand.1 hzero, hentry, zero_div, zero_smul, sub_zero]
  · have hk : (getRatioMultAndSubtract e.lhs pivot.lhs c T (-1)).2
        = divMod (e.lhs.getD c 0) (pivot.lhs.getD c 0) := by
      rw [getRatioMultAndSubtract, if_pos rfl]
    have hcast : ((divMod (e.lhs.getD c 0) (pivot.lhs.getD c 0) : ℤ) : Slot)
        = entry e.lhs c / entry pivot.lhs c := cast_divMod _ _
    -- the ratio that is found is no longer the mark for one to be found
    have hmark : divMod (e.lhs.getD c 0) (pivot.lhs.getD c 0) ≠ -1 := by
      have hnonneg : 0 ≤ divMod (e.lhs.getD c 0) (pivot.lhs.getD c 0) :=
        Int.tmod_nonneg _ (mul_nonneg (getD_range he.lhs_reduced c).1
          (power_nonneg (getD_range hp.lhs_reduced c).1 _))
      omega
    rw [if_pos ⟨hzero, hne⟩]
    refine Prod.ext (funext fun i => ?_) (funext fun t => ?_)
    · change entry (getRatioMultAndSubtract e.lhs pivot.lhs c T (-1)).1 i
        = entry e.lhs i - entry e.lhs c / entry pivot.lhs c * entry pivot.lhs i
      by_cases hi : i < pivot.lhs.length
      · rw [entry_getRatio (he.lhs.trans hp.lhs.symm) c T (-1) (by rw [if_pos rfl]; exact hi), hk,
          hcast]
      · have hout : e.lhs.length ≤ i := by
          rw [he.lhs, ← hp.lhs]
          exact Nat.le_of_not_lt hi
        rw [entry_of_le ((length_getRatio _ _ _ _ _).trans_le hout), entry_of_le hout,
          entry_of_le (Nat.le_of_not_lt hi), mul_zero, sub_zero]
    · change (if t < T then entry (getRatioMultAndSubtract e.rhs pivot.rhs c T
          (getRatioMultAndSubtract e.lhs pivot.lhs c T (-1)).2).1 t else 0)
        = (if t < T then entry e.rhs t else 0)
          - entry e.lhs c / entry pivot.lhs c * (if t < T then entry pivot.rhs t else 0)
      rw [hk]
      have hratio : (getRatioMultAndSubtract e.rhs pivot.rhs c T
          (divMod (e.lhs.getD c 0) (pivot.lhs.getD c 0))).2
            = divMod (e.lhs.getD c 0) (pivot.lhs.getD c 0) := by
        rw [getRatioMultAndSubtract, if_neg hmark]
      by_cases ht : t < T
      · rw [if_pos ht, if_pos ht, if_pos ht, entry_getRatio (he.rhs.trans hp.rhs.symm) c T _
          (by rw [if_neg hmark]; exact ht), hratio, hcast]
      · rw [if_neg ht, if_neg ht, if_neg ht, mul_zero, sub_zero]

theorem eliminateRow_self {T c : ℕ} {pivot e : Equation}
    (heq : e.lhs.getD c 0 = pivot.lhs.getD c 0) : eliminateRow T c pivot e = e := by
  rw [eliminateRow, if_neg fun hand => hand.2 heq]

theorem rowOf_map (T c : ℕ) (pivot : Equation) (eqs : List Equation) (i : ℕ) :
    rowOf (eqs.map (eliminateRow T c pivot)) i = eliminateRow T c pivot (rowOf eqs i) := by
  rw [rowOf, rowOf, List.getD_eq_getElem?_getD, List.getD_eq_getElem?_getD, List.getElem?_map]
  cases eqs[i]? with
  | none =>
    have hempty : ¬ (([] : List ℤ).getD c 0 ≠ 0 ∧ ([] : List ℤ).getD c 0 ≠ pivot.lhs.getD c 0) :=
      fun hand => hand.1 rfl
    exact (if_neg hempty).symm
  | some e => rfl

theorem rowOf_mem {eqs : List Equation} {i : ℕ} (hi : i < eqs.length) : rowOf eqs i ∈ eqs := by
  rw [rowOf, List.getD_eq_getElem _ _ hi]
  exact List.getElem_mem hi

theorem rowOf_of_le {eqs : List Equation} {i : ℕ} (hi : eqs.length ≤ i) :
    rowOf eqs i = ⟨[], []⟩ := by
  rw [rowOf, List.getD_eq_default _ _ hi]

theorem rows_of_le {T : ℕ} {eqs : List Equation} {i : ℕ} (hi : eqs.length ≤ i) :
    rows T eqs i = 0 := by
  rw [rows, rowOf_of_le hi]
  refine Prod.ext (funext fun c => entry_of_le (Nat.zero_le c)) (funext fun t => ?_)
  change (if t < T then entry [] t else 0) = 0
  rw [entry_of_le (Nat.zero_le t), ite_self]

/-- A pass with an untied pivot. -/
theorem clears_pass {n w T c r : ℕ} {eqs : List Equation} (hshape : ∀ e ∈ eqs, e.Shaped n w)
    (hr : r < eqs.length) (hne : (rowOf eqs r).lhs.getD c 0 ≠ 0)
    (huntied : ∀ i < eqs.length, i ≠ r →
      (rowOf eqs i).lhs.getD c 0 ≠ (rowOf eqs r).lhs.getD c 0) :
    Elimination.Clears (column c) r (rows T eqs)
      (rows T (eqs.map (eliminateRow T c (rowOf eqs r)))) where
  pivot := (entry_ne_zero (hshape _ (rowOf_mem hr)).lhs_reduced).mpr hne
  kept := by rw [rows, rows, rowOf_map, eliminateRow_self rfl]
  cleared i hi := by
    by_cases hlt : i < eqs.length
    · rw [rows, rows, rows, rowOf_map, row_eliminateRow (hshape _ (rowOf_mem hr))
        (hshape _ (rowOf_mem hlt)) (huntied i hlt hi)]
    · have hle := Nat.le_of_not_lt hlt
      rw [rows_of_le (by rw [List.length_map]; exact hle), rows_of_le hle, map_zero, zero_div,
        zero_smul, sub_zero]

/-! ## The run over the columns

Column by column, until all are solved or one has no row left.  The solutions
of the system are the same throughout. -/

theorem pivotRow_some {eqs : List Equation} {recoder : List ℕ} {r : ℕ}
    (h : pivotRow eqs recoder = some r) :
    r < eqs.length ∧ (rowOf eqs r).lhs.getD recoder.length 0 ≠ 0 ∧ r ∉ recoder := by
  rw [pivotRow] at h
  have hfound := List.find?_some h
  exact ⟨List.mem_range.mp (List.mem_of_find?_eq_some h), of_decide_eq_true hfound⟩

theorem pivotRow_none {eqs : List Equation} {recoder : List ℕ} (h : pivotRow eqs recoder = none)
    {i : ℕ} (hi : i < eqs.length) (hfree : i ∉ recoder) :
    (rowOf eqs i).lhs.getD recoder.length 0 = 0 := by
  by_contra hne
  exact List.find?_eq_none.mp h i (List.mem_range.mpr hi) (decide_eq_true ⟨hne, hfree⟩)

/-- The state of the run: the rows still have the solutions of the rows `R` it
began with, and the columns so far are solved. -/
structure Progress (n w T : ℕ) (R : ℕ → (ℕ → Slot) × (ℕ → Slot)) (eqs : List Equation)
    (recoder : List ℕ) : Prop where
  shaped : ∀ e ∈ eqs, e.Shaped n w
  same : ∀ φ : ((ℕ → Slot) × (ℕ → Slot)) →ₗ[Slot] Slot,
    (∀ i, φ (rows T eqs i) = 0) ↔ ∀ i, φ (R i) = 0
  solved : Elimination.Solved (fun c : Fin n => column c) (fun c => (c : ℕ) < recoder.length)
    (fun c => recoder.getD c 0) (rows T eqs)

theorem getD_mem {recoder : List ℕ} {d : ℕ} (hd : d < recoder.length) :
    recoder.getD d 0 ∈ recoder := by
  rw [List.getD_eq_getElem _ _ hd]
  exact List.getElem_mem hd

/-- A column that has a row. -/
theorem Progress.step {n w T r : ℕ} {R : ℕ → (ℕ → Slot) × (ℕ → Slot)} {eqs : List Equation}
    {recoder : List ℕ} (h : Progress n w T R eqs recoder) (hn : recoder.length < n)
    (hr : pivotRow eqs recoder = some r)
    (huntied : ∀ i < eqs.length, i ≠ r → (rowOf eqs i).lhs.getD recoder.length 0
      ≠ (rowOf eqs r).lhs.getD recoder.length 0) :
    Progress n w T R (eqs.map (eliminateRow T recoder.length (rowOf eqs r)))
      (recoder ++ [r]) := by
  obtain ⟨hlt, hne, hfree⟩ := pivotRow_some hr
  have hclears := clears_pass (T := T) h.shaped hlt hne huntied
  have hlen : (recoder ++ [r]).length = recoder.length + 1 := by
    rw [List.length_append, List.length_singleton]
  refine ⟨?_, ?_, ?_⟩
  · intro e he
    obtain ⟨old, hold, rfl⟩ := List.mem_map.mp he
    exact (h.shaped old hold).eliminateRow _ _ _
  · intro φ
    rw [hclears.vanish_iff φ, h.same φ]
  · refine h.solved.step (c := ⟨recoder.length, hn⟩) hclears ?_ ?_ ?_ ?_
    · intro d hd heq
      exact hfree (heq ▸ getD_mem hd)
    · intro d
      rw [hlen, Fin.ext_iff]
      exact Nat.lt_succ_iff_lt_or_eq
    · rw [List.getD_eq_getElem?_getD, List.getElem?_concat_length, Option.getD_some]
    · intro d hd
      exact List.getD_append _ _ _ _ hd

/-- A relation between the columns of the rows. -/
def relation {n : ℕ} (x : Fin n → Slot) : ((ℕ → Slot) × (ℕ → Slot)) →ₗ[Slot] Slot :=
  ∑ d, x d • column d

theorem relation_apply {n : ℕ} (x : Fin n → Slot) (v : (ℕ → Slot) × (ℕ → Slot)) :
    relation x v = ∑ d, x d * column d v := by
  rw [relation, LinearMap.sum_apply]
  rfl

/-- A column without a row depends on those before it. -/
theorem Progress.stuck {n w T : ℕ} {R : ℕ → (ℕ → Slot) × (ℕ → Slot)} {eqs : List Equation}
    {recoder : List ℕ} (h : Progress n w T R eqs recoder) (hn : recoder.length < n)
    (hnone : pivotRow eqs recoder = none) :
    ∃ x : Fin n → Slot, x ≠ 0 ∧ ∀ i, relation x (R i) = 0 := by
  have hstuck : ∀ i, (∀ d : Fin n, (d : ℕ) < recoder.length → recoder.getD d 0 ≠ i) →
      column recoder.length (rows T eqs i) = 0 := by
    intro i hi
    by_cases hlt : i < eqs.length
    · have hfree : i ∉ recoder := by
        intro hmem
        obtain ⟨d, hd, heq⟩ := List.getElem_of_mem hmem
        refine hi ⟨d, hd.trans hn⟩ hd ?_
        rw [List.getD_eq_getElem _ _ hd, heq]
      rw [rows, column_row, entry, pivotRow_none hnone hlt hfree, Int.cast_zero]
    · rw [rows_of_le (Nat.le_of_not_lt hlt), map_zero]
  refine ⟨Elimination.combination (fun c : Fin n => column c) (fun c => (c : ℕ) < recoder.length)
    (fun c => recoder.getD c 0) (rows T eqs) ⟨recoder.length, hn⟩, ?_, ?_⟩
  · intro hzero
    have hself := Elimination.combination_self (fun c : Fin n => column c)
      (fun c => (c : ℕ) < recoder.length) (fun c => recoder.getD c 0) (rows T eqs)
      ⟨recoder.length, hn⟩
    rw [hzero] at hself
    exact zero_ne_one hself
  · rw [← h.same]
    intro i
    rw [relation_apply]
    exact h.solved.dependent (Nat.lt_irrefl _) hstuck i

/-- A whole run solves every column, or ends at one that depends on others. -/
theorem eliminate_spec {n w T : ℕ} {R : ℕ → (ℕ → Slot) × (ℕ → Slot)} (left : ℕ) :
    ∀ {eqs : List Equation} {recoder : List ℕ}, Progress n w T R eqs recoder →
      recoder.length + left = n → Untied T left eqs recoder →
      match eliminate T left eqs recoder with
      | some (eqs', recoder') => Progress n w T R eqs' recoder' ∧ recoder'.length = n
      | none => ∃ x : Fin n → Slot, x ≠ 0 ∧ ∀ i, relation x (R i) = 0 := by
  induction left with
  | zero =>
    intro eqs recoder h hlen _
    exact ⟨h, hlen⟩
  | succ left ih =>
    intro eqs recoder h hlen hu
    have hn : recoder.length < n := by omega
    rw [eliminate]
    rw [Untied] at hu
    cases hr : pivotRow eqs recoder with
    | none => exact h.stuck hn hr
    | some r =>
      rw [hr] at hu
      refine ih (h.step hn hr hu.1) ?_ hu.2
      rw [List.length_append, List.length_singleton]
      omega

/-- The pass does to the coefficients what it does whatever the sums are. -/
theorem lhs_eliminateRow {T c : ℕ} {pivot pivot' e e' : Equation} (hp : pivot.lhs = pivot'.lhs)
    (he : e.lhs = e'.lhs) : (eliminateRow T c pivot e).lhs = (eliminateRow T c pivot' e').lhs := by
  rw [eliminateRow, eliminateRow, hp, he]
  split
  · rfl
  · exact he

theorem rowOf_lhs (eqs : List Equation) (i : ℕ) :
    (rowOf eqs i).lhs = (eqs.map Equation.lhs).getD i [] := by
  rw [rowOf, List.getD_eq_getElem?_getD, List.getD_eq_getElem?_getD, List.getElem?_map]
  cases eqs[i]? <;> rfl

/-- Ties are ties of the coefficients. -/
theorem untied_congr {T : ℕ} (left : ℕ) :
    ∀ {eqs eqs' : List Equation} {recoder : List ℕ},
      eqs.map Equation.lhs = eqs'.map Equation.lhs → Untied T left eqs recoder →
      Untied T left eqs' recoder := by
  induction left with
  | zero =>
    intro eqs eqs' recoder _ _
    exact trivial
  | succ left ih =>
    intro eqs eqs' recoder heq hu
    have hrow : ∀ i, (rowOf eqs i).lhs = (rowOf eqs' i).lhs := by
      intro i
      rw [rowOf_lhs, rowOf_lhs, heq]
    have hlen : eqs.length = eqs'.length := by
      rw [← List.length_map (f := Equation.lhs), heq, List.length_map]
    have hpivot : pivotRow eqs recoder = pivotRow eqs' recoder := by
      simp only [pivotRow, hlen, hrow]
    rw [Untied, hpivot] at hu
    rw [Untied]
    cases hr : pivotRow eqs' recoder with
    | none => exact trivial
    | some r =>
      rw [hr] at hu
      obtain ⟨hne, hlater⟩ := hu
      refine ⟨fun i hi hir => ?_, ih ?_ hlater⟩
      · rw [← hrow, ← hrow]
        exact hne i (hlen ▸ hi) hir
      · refine List.ext_getElem (by simp only [List.length_map, hlen]) fun i hi hi' => ?_
        simp only [List.length_map] at hi hi'
        simp only [List.getElem_map]
        have hget := hrow i
        rw [rowOf, rowOf, List.getD_eq_getElem _ _ hi, List.getD_eq_getElem _ _ hi'] at hget
        exact lhs_eliminateRow (hrow r) hget

/-! ## The recipient reads the payloads

The system of the buckets is solved by the payloads, so a run that ends has
found them, if the columns admit one solution only. -/

/-- Message `d` went into bucket `i` with the weight `lhs[i][d]`, and the sums of
the first `T` parts of the payloads `X` are in `rhs`. -/
structure Buckets (lhs rhs X : List (List ℤ)) (n w T : ℕ) : Prop where
  columns : (lhs.headD []).length = n
  weights : ∀ l ∈ lhs, l.length = n ∧ Reduced l
  rows : rhs.length = lhs.length
  sums : ∀ r ∈ rhs, r.length = w ∧ Reduced r
  messages : X.length = n
  payloads : ∀ x ∈ X, x.length = w ∧ Reduced x
  within : T ≤ w
  added : ∀ i < lhs.length, ∀ t < T, entry (rhs.getD i []) t
    = ∑ d : Fin n, entry (X.getD d []) t * entry (lhs.getD i []) d

/-- The columns of the system. -/
def bucketColumn (lhs : List (List ℤ)) (c : ℕ) : ℕ → Slot := fun i => entry (lhs.getD i []) c

theorem rowOf_zipWith {lhs rhs : List (List ℤ)} (hlen : rhs.length = lhs.length) (i : ℕ) :
    rowOf (List.zipWith Equation.mk lhs rhs) i = ⟨lhs.getD i [], rhs.getD i []⟩ := by
  by_cases hi : i < lhs.length
  · have hi' : i < rhs.length := by omega
    have hzip : i < (List.zipWith Equation.mk lhs rhs).length := by
      rw [List.length_zipWith]
      exact lt_min hi hi'
    rw [rowOf, List.getD_eq_getElem _ _ hzip, List.getElem_zipWith, List.getD_eq_getElem _ _ hi,
      List.getD_eq_getElem _ _ hi']
  · have hle : lhs.length ≤ i := Nat.le_of_not_lt hi
    rw [rowOf_of_le ((List.length_zipWith.trans_le (Nat.min_le_left _ _)).trans hle),
      List.getD_eq_default _ _ hle, List.getD_eq_default _ _ (hlen.trans_le hle)]

variable {lhs rhs X : List (List ℤ)} {n w T : ℕ}

theorem Buckets.progress (h : Buckets lhs rhs X n w T) :
    Progress n w T (Omr.rows T (List.zipWith Equation.mk lhs rhs))
      (List.zipWith Equation.mk lhs rhs) [] where
  shaped e he := by
    obtain ⟨i, hi, rfl⟩ := List.getElem_of_mem he
    rw [List.getElem_zipWith]
    rw [List.length_zipWith] at hi
    have hl := h.weights lhs[i] (List.getElem_mem _)
    have hr := h.sums rhs[i] (List.getElem_mem _)
    exact ⟨hl.1, hr.1, hl.2, hr.2⟩
  same _ := Iff.rfl
  solved := .none fun c => Nat.not_lt_zero c

theorem Buckets.relation_row (h : Buckets lhs rhs X n w T) (x : Fin n → Slot) (i : ℕ) :
    relation x (Omr.rows T (List.zipWith Equation.mk lhs rhs) i)
      = (∑ c : Fin n, x c • bucketColumn lhs c) i := by
  rw [relation_apply, Omr.rows, rowOf_zipWith h.rows, Finset.sum_apply]
  rfl

/-- The columns are independent when no relation holds in all rows. -/
theorem Buckets.independent_iff (h : Buckets lhs rhs X n w T) :
    LinearIndependent Slot (fun c : Fin n => bucketColumn lhs c) ↔
      ∀ x : Fin n → Slot,
        (∀ i, relation x (Omr.rows T (List.zipWith Equation.mk lhs rhs) i) = 0) → x = 0 := by
  rw [Fintype.linearIndependent_iff]
  constructor
  · intro hind x hx
    refine funext (hind x (funext fun i => ?_))
    rw [← h.relation_row, hx i, Pi.zero_apply]
  · intro hker x hx c
    rw [hker x fun i => by rw [h.relation_row, hx, Pi.zero_apply], Pi.zero_apply]

/-- Solved columns have no relation. -/
theorem Progress.independent {R : ℕ → (ℕ → Slot) × (ℕ → Slot)} {eqs : List Equation}
    {recoder : List ℕ} (h : Progress n w T R eqs recoder) (hlen : recoder.length = n)
    {x : Fin n → Slot} (hx : ∀ i, relation x (R i) = 0) : x = 0 := by
  have hrow : ∀ i, ∑ d, x d * column d (Omr.rows T eqs i) = 0 := by
    intro i
    rw [← relation_apply]
    exact (h.same (relation x)).mpr hx i
  funext c
  have hvalue := h.solved.value (fun c => c.isLt.trans_eq hlen.symm) (b := 0) hrow c
  rw [← hvalue, LinearMap.zero_apply, zero_div, Pi.zero_apply]

theorem Progress.shaped_row {R : ℕ → (ℕ → Slot) × (ℕ → Slot)} {eqs : List Equation}
    {recoder : List ℕ} (h : Progress n w T R eqs recoder) (hlen : recoder.length = n)
    (c : Fin n) : (rowOf eqs (recoder.getD c 0)).Shaped n w := by
  refine h.shaped _ (rowOf_mem (Nat.lt_of_not_le fun hle => ?_))
  refine h.solved.pivot c (c.isLt.trans_eq hlen.symm) ?_
  rw [rows_of_le hle, map_zero]

theorem Buckets.value (h : Buckets lhs rhs X n w T) {eqs : List Equation} {recoder : List ℕ}
    (hp : Progress n w T (Omr.rows T (List.zipWith Equation.mk lhs rhs)) eqs recoder)
    (hlen : recoder.length = n) (c : Fin n) {t : ℕ} (ht : t < T) :
    entry (rowOf eqs (recoder.getD c 0)).rhs t / entry (rowOf eqs (recoder.getD c 0)).lhs c
      = entry (X.getD c []) t := by
  have hsum : ∀ e : Equation, result t (row T e) = entry e.rhs t := fun e => if_pos ht
  have hstart : ∀ i, (relation (fun d : Fin n => entry (X.getD d []) t) - result t)
      (Omr.rows T (List.zipWith Equation.mk lhs rhs) i) = 0 := by
    intro i
    by_cases hi : i < lhs.length
    · rw [LinearMap.sub_apply, relation_apply, Omr.rows, hsum, rowOf_zipWith h.rows,
        h.added i hi t ht]
      exact sub_self _
    · have hle : (List.zipWith Equation.mk lhs rhs).length ≤ i :=
        (List.length_zipWith.trans_le (Nat.min_le_left _ _)).trans (Nat.le_of_not_lt hi)
      rw [rows_of_le hle, map_zero]
  have hrow : ∀ i, ∑ d : Fin n, entry (X.getD d []) t * column d (Omr.rows T eqs i)
      = result t (Omr.rows T eqs i) := by
    intro i
    have hzero := (hp.same _).mpr hstart i
    rw [LinearMap.sub_apply, relation_apply] at hzero
    exact sub_eq_zero.mp hzero
  have hvalue := hp.solved.value (fun c => c.isLt.trans_eq hlen.symm) hrow c
  rw [← hvalue, Omr.rows, hsum, column_row]

theorem entry_eq_cast {v : List ℤ} {i : ℕ} (hi : i < v.length) : entry v i = (v[i] : ℤ) := by
  rw [entry, List.getD_eq_getElem _ _ hi]

/-- Dividing a row by its pivot. -/
theorem take_singleSolve {e : Equation} (he : e.Shaped n w) {x : List ℤ} (hw : x.length = w)
    (hx : Reduced x) (c : ℕ)
    (hvalue : ∀ t < T, entry e.rhs t / entry e.lhs c = entry x t) :
    (singleSolve (e.lhs.getD c 0) e.rhs).take T = x.take T := by
  have hlen : e.rhs.length = x.length := he.rhs.trans hw.symm
  refine List.ext_getElem ?_ fun t hl hr => ?_
  · rw [List.length_take, List.length_take, singleSolve, List.length_map, hlen]
  · obtain ⟨ht, htx⟩ := lt_min_iff.mp (hr.trans_eq List.length_take)
    have hte : t < e.rhs.length := htx.trans_eq hlen.symm
    simp only [List.getElem_take, singleSolve, List.getElem_map]
    have hnum := he.rhs_reduced e.rhs[t] (List.getElem_mem hte)
    have hinv : 0 ≤ modInverse (e.lhs.getD c 0) 65537 :=
      power_nonneg (getD_range he.lhs_reduced c).1 _
    refine eq_of_cast ⟨Int.tmod_nonneg _ (mul_nonneg hnum.1 hinv),
      Int.tmod_lt_of_pos _ (by decide)⟩ (hx _ (List.getElem_mem htx)) ?_
    rw [cast_tmod, Int.cast_mul, cast_modInverse, ← div_eq_mul_inv, ← entry_eq_cast hte,
      ← entry_eq_cast htx]
    exact hvalue t ht

/-- Without ties, independent columns are solved for. -/
theorem Buckets.solve (h : Buckets lhs rhs X n w T)
    (hu : Untied T n (List.zipWith Equation.mk lhs rhs) [])
    (hind : LinearIndependent Slot (fun c : Fin n => bucketColumn lhs c)) :
    (equationSolving lhs rhs T).map (List.take T) = X.map (List.take T) := by
  have hspec := eliminate_spec n h.progress (Nat.zero_add n) hu
  rw [equationSolving, h.columns]
  cases hrun : eliminate T n (List.zipWith Equation.mk lhs rhs) [] with
  | none =>
    rw [hrun] at hspec
    obtain ⟨x, hne, hx⟩ := hspec
    exact absurd (h.independent_iff.mp hind x hx) hne
  | some out =>
    obtain ⟨eqs, recoder⟩ := out
    rw [hrun] at hspec
    obtain ⟨hp, hlen⟩ := hspec
    refine List.ext_getElem ?_ fun c hl hr => ?_
    · rw [List.length_map, List.length_map, List.length_mapIdx, hlen, h.messages]
    · rw [List.length_map] at hr
      have hc : c < n := hr.trans_eq h.messages
      have hrow : recoder[c] = recoder.getD c 0 := by
        rw [List.getD_eq_getElem _ _ (hc.trans_eq hlen.symm)]
      have hpay : X.getD c [] = X[c] := by
        rw [List.getD_eq_getElem _ _ hr]
      have hX := h.payloads X[c] (List.getElem_mem hr)
      rw [List.getElem_map, List.getElem_map, List.getElem_mapIdx, hrow]
      refine take_singleSolve (hp.shaped_row hlen ⟨c, hc⟩) hX.1 hX.2 c fun t ht => ?_
      rw [← hpay]
      exact h.value hp hlen ⟨c, hc⟩ ht

/-- And dependent ones are noticed. -/
theorem Buckets.refuse (h : Buckets lhs rhs X n w T)
    (hu : Untied T n (List.zipWith Equation.mk lhs rhs) [])
    (hdep : ¬ LinearIndependent Slot (fun c : Fin n => bucketColumn lhs c)) :
    equationSolving lhs rhs T = [] := by
  have hspec := eliminate_spec n h.progress (Nat.zero_add n) hu
  rw [equationSolving, h.columns]
  cases hrun : eliminate T n (List.zipWith Equation.mk lhs rhs) [] with
  | none => rfl
  | some out =>
    obtain ⟨eqs, recoder⟩ := out
    rw [hrun] at hspec
    obtain ⟨hp, hlen⟩ := hspec
    exact absurd (h.independent_iff.mpr fun x hx => hp.independent hlen hx) hdep

/-- Without ties, the recipient reads all payloads if the columns are
independent, and nothing if they are not. -/
theorem equationSolving_spec (h : Buckets lhs rhs X n w T)
    (hu : Untied T n (List.zipWith Equation.mk lhs rhs) []) :
    (LinearIndependent Slot (fun c : Fin n => bucketColumn lhs c) →
        (equationSolving lhs rhs T).map (List.take T) = X.map (List.take T))
      ∧ (¬ LinearIndependent Slot (fun c : Fin n => bucketColumn lhs c) →
        equationSolving lhs rhs T = []) :=
  ⟨h.solve hu, h.refuse hu⟩

/-- Three buckets of the payloads `[3, 7]` and `[4, 1]`, of which the first parts
are summed. -/
theorem buckets_sample : Buckets [[1, 2], [2, 5], [3, 9]] [[11, 7], [26, 1], [45, 2]]
    [[3, 7], [4, 1]] 2 2 1 where
  columns := rfl
  weights := by simp [Reduced]
  rows := rfl
  sums := by simp [Reduced]
  messages := rfl
  payloads := by simp [Reduced]
  within := by decide
  added i hi t ht := by
    obtain rfl : t = 0 := Nat.lt_one_iff.mp ht
    change i < 3 at hi
    rw [Fin.sum_univ_two]
    interval_cases i <;> simp [entry] <;> norm_num

theorem untied_sample : Untied 1 2
    (List.zipWith Equation.mk [[1, 2], [2, 5], [3, 9]] [[11, 7], [26, 1], [45, 2]]) [] := by
  have hinv : modInverse 1 65537 = 1 := by simp [modInverse, power]
  have hpass : List.map (eliminateRow 1 0 ⟨[1, 2], [11, 7]⟩)
      [⟨[1, 2], [11, 7]⟩, ⟨[2, 5], [26, 1]⟩, ⟨[3, 9], [45, 2]⟩]
      = [⟨[1, 2], [11, 7]⟩, ⟨[0, 1], [4, 1]⟩, ⟨[0, 3], [12, 2]⟩] := by
    simp [eliminateRow, getRatioMultAndSubtract, divMod, hinv, multScalarVec,
      subtractTwoVecInplace, subtractEntry]
  have hlater : Untied 1 1 [⟨[1, 2], [11, 7]⟩, ⟨[0, 1], [4, 1]⟩, ⟨[0, 3], [12, 2]⟩] [0] :=
    ⟨by decide, trivial⟩
  exact ⟨by decide, hpass.symm ▸ hlater⟩

theorem independent_sample :
    LinearIndependent Slot fun c : Fin 2 => bucketColumn [[1, 2], [2, 5], [3, 9]] c := by
  rw [Fintype.linearIndependent_iff]
  intro g hg
  have hrow0 : g 0 * 1 + g 1 * 2 = 0 := by
    simpa [bucketColumn, entry, Fin.sum_univ_two] using congrFun hg 0
  have hrow1 : g 0 * 2 + g 1 * 5 = 0 := by
    simpa [bucketColumn, entry, Fin.sum_univ_two] using congrFun hg 1
  have h1 : g 1 = 0 := by linear_combination hrow1 - 2 * hrow0
  have h0 : g 0 = 0 := by linear_combination hrow0 - 2 * h1
  exact Fin.forall_fin_two.mpr ⟨h0, h1⟩

theorem equationSolving_spec_sample :
    (equationSolving [[1, 2], [2, 5], [3, 9]] [[11, 7], [26, 1], [45, 2]] 1).map (List.take 1)
      = [[3], [4]] :=
  (equationSolving_spec buckets_sample untied_sample).1 independent_sample

/-- Two rows tied in the first column; the sums are those of 3 and 4. -/
theorem equationSolving_tied : equationSolving [[1, 1], [1, 2]] [[7], [11]] 1
    = [[3], [32774]] := by
  simp [equationSolving, eliminate, singleSolve, pivotRow, rowOf, List.range_succ, eliminateRow,
    getRatioMultAndSubtract, divMod, modInverse, power, multScalarVec, subtractTwoVecInplace,
    subtractEntry]

end PSVFSS.Omr

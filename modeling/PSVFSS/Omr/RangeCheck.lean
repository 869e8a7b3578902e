/-
# `Omr.RangeCheck` — which noise passes for a signal

A message is pertinent when the noise of its clue is small.  The detector decides
that by a polynomial of degree 65536, whose coefficients the source has as a
table of constants: they are the power sums of the numbers from -850 to 850, so
the polynomial vanishes on these numbers and is one on the rest.
-/
import Mathlib.Algebra.BigOperators.Intervals
import PSVFSS.Lib.PowerSums
import PSVFSS.Omr.Powers

namespace PSVFSS.Omr

open Loop

variable {Ct : Type}

/-! ## The table

The constants are sums of powers of the 1701 numbers in range.  Powers of a
number and of its negative agree or cancel. -/

/-- The numbers from -850 to 850. -/
def inRange (i : ℕ) : Slot := ((i - 850 : ℤ) : Slot)

/-- `rangeCheckIndices`, entry `k` of the 65536 constants of the table. -/
def rangeCheckIndices (k : ℕ) : ℕ := (∑ i ∈ Finset.range 1701, inRange i ^ (65535 - k)).val

/-- The numbers whose power sums are in the table. -/
def rangeSet : Finset Slot := (Finset.range 1701).image inRange

theorem mem_rangeSet {x : Slot} :
    x ∈ rangeSet ↔ ∃ s : ℤ, -850 ≤ s ∧ s ≤ 850 ∧ (s : Slot) = x := by
  simp only [rangeSet, Finset.mem_image, Finset.mem_range]
  constructor
  · rintro ⟨i, hi, rfl⟩
    exact ⟨i - 850, by omega, by omega, rfl⟩
  · rintro ⟨s, hlow, hhigh, rfl⟩
    have hback : ((s + 850).toNat - 850 : ℤ) = s := by omega
    exact ⟨(s + 850).toNat, by omega, congrArg (Int.cast : ℤ → Slot) hback⟩

theorem rangeCheckIndices_lt (k : ℕ) : rangeCheckIndices k < 65537 := ZMod.val_lt _

theorem cast_rangeCheckIndices (k : ℕ) :
    (rangeCheckIndices k : Slot) = ∑ s ∈ rangeSet, s ^ (65535 - k) := by
  have hinj : Set.InjOn inRange (Finset.range 1701) := by
    intro s hs t ht hst
    have hs := Finset.mem_range.mp (Finset.mem_coe.mp hs)
    have ht := Finset.mem_range.mp (Finset.mem_coe.mp ht)
    have hmod : (s - 850 : ℤ) % 65537 = (t - 850) % 65537 :=
      (ZMod.intCast_eq_intCast_iff' _ _ 65537).mp hst
    omega
  rw [rangeCheckIndices, ZMod.natCast_val, ZMod.cast_id, rangeSet, Finset.sum_image hinj]

/-- Numbers and their negatives have the same even powers. -/
theorem sum_even_pow {e : ℕ} (he : Even e) (hne : e ≠ 0) :
    ∑ i ∈ Finset.range 1701, inRange i ^ e
      = 2 * ∑ s ∈ Finset.range 850, ((s + 1 : ℕ) : Slot) ^ e := by
  have hneg : ∑ i ∈ Finset.range 850, inRange i ^ e
      = ∑ s ∈ Finset.range 850, ((s + 1 : ℕ) : Slot) ^ e := by
    rw [← Finset.sum_range_reflect]
    refine Finset.sum_congr rfl fun s hs => ?_
    have hs := Finset.mem_range.mp hs
    have hval : ((850 - 1 - s : ℕ) - 850 : ℤ) = -((s + 1 : ℕ) : ℤ) := by omega
    rw [inRange, hval, Int.cast_neg, he.neg_pow, Int.cast_natCast]
  have hpos : ∀ s ∈ Finset.range 850, inRange (850 + 1 + s) ^ e = ((s + 1 : ℕ) : Slot) ^ e := by
    intro s _
    have hval : ((850 + 1 + s : ℕ) - 850 : ℤ) = ((s + 1 : ℕ) : ℤ) := by omega
    rw [inRange, hval, Int.cast_natCast]
  have hmid : inRange 850 ^ e = 0 := by
    have hval : ((850 : ℕ) - 850 : ℤ) = 0 := by omega
    rw [inRange, hval, Int.cast_zero, zero_pow hne]
  have hsplit : 1701 = 850 + 1 + 850 := rfl
  rw [hsplit, Finset.sum_range_add, Finset.sum_range_succ, hmid, add_zero, hneg,
    Finset.sum_congr rfl hpos, two_mul]

/-! ## No level is empty

The scheme needs a coefficient in each of the 256 levels.  The last column of
the table is computed here, all of its sums at once. -/

/-- The squares of squares that the last column of the table is made of. -/
def columnBase (s : ℕ) : ℕ := (s + 1) ^ 256 % 65537

theorem columnBase_pos : ∀ s < 850, 0 < columnBase s := by decide +kernel

/-- Above every power sum of the column. -/
def packBase : ℕ := 2 ^ 4096

theorem column_sums_nonzero :
    PowerSums.nonzero packBase 65537 256 (PowerSums.packPowers packBase columnBase 256 850)
      = true := by
  decide +kernel

theorem column_sum_ne_zero {t : ℕ} (ht : t < 256) :
    ((∑ s ∈ Finset.range 850, columnBase s ^ t : ℕ) : Slot) ≠ 0 := by
  have hlt : ∀ t < 256, ∑ s ∈ Finset.range 850, columnBase s ^ t < packBase := by
    intro t ht
    have hterm : ∀ s ∈ Finset.range 850, columnBase s ^ t ≤ (2 ^ 16) ^ 255 := by
      intro s _
      have hbase : columnBase s ≤ 2 ^ 16 := Nat.le_of_lt_succ (Nat.mod_lt _ (by decide))
      exact (Nat.pow_le_pow_left hbase t).trans
        (Nat.pow_le_pow_right (by decide) (Nat.le_of_lt_succ ht))
    have hsum := Finset.sum_le_card_nsmul _ _ _ hterm
    rw [Finset.card_range, smul_eq_mul] at hsum
    exact hsum.trans_lt (by decide +kernel)
  have hone : 1 < packBase := by decide +kernel
  have hall := column_sums_nonzero
  rw [PowerSums.packPowers_eq hone columnBase_pos] at hall
  intro hzero
  refine PowerSums.ne_zero_of_nonzero hlt hall t ht ?_
  exact Nat.mod_eq_zero_of_dvd ((ZMod.natCast_eq_zero_iff _ _).mp hzero)

/-- The last entry of every level is there. -/
theorem rangeCheckIndices_ne_zero {i : ℕ} (hi : i < 256) :
    rangeCheckIndices (i * 256 + 255) ≠ 0 := by
  have hexp : 65535 - (i * 256 + 255) = 256 * (255 - i) := by omega
  intro hzero
  rw [rangeCheckIndices, hexp, ZMod.val_eq_zero] at hzero
  rcases (by omega : 255 - i = 0 ∨ 255 - i ≠ 0) with ht | ht
  · rw [ht] at hzero
    simp only [Nat.mul_zero, pow_zero] at hzero
    exact absurd hzero (by decide +kernel)
  · have hcolumn : ∑ s ∈ Finset.range 850, ((s + 1 : ℕ) : Slot) ^ (256 * (255 - i))
        = ((∑ s ∈ Finset.range 850, columnBase s ^ (255 - i) : ℕ) : Slot) := by
      rw [Nat.cast_sum]
      refine Finset.sum_congr rfl fun s _ => ?_
      rw [Nat.cast_pow, columnBase, ZMod.natCast_mod, pow_mul, Nat.cast_pow]
    have htwo : (2 : Slot) ≠ 0 := by decide
    rw [sum_even_pow ⟨128 * (255 - i), by omega⟩ (by omega), hcolumn] at hzero
    exact mul_ne_zero htwo (column_sum_ne_zero (by omega)) hzero

/-! ## The check

A clue passes when all of its coordinates do: the results are zeros and ones,
and they are multiplied. -/

/-- `RangeCheck_PatersonStockmeyer`. -/
def rangeCheckPatersonStockmeyer (ev : Evaluator Ct) (degree : ℕ) (input : Ct) : Option Ct :=
  patersonStockmeyer ev degree 256 rangeCheckIndices input

/-- `newRangeCheckPVW`: what is left in the first place of `output`. -/
def newRangeCheckPVW (ev : Evaluator Ct) (degree : ℕ) (output : List Ct) : Option Ct := do
  let res ← output.mapM (rangeCheckPatersonStockmeyer ev degree)
  evalMultMany ev res

section

variable {ev : Evaluator Ct} {half : ℕ} (h : ev.Lawful half)
include h

/-- One where the slot is in range, zero where it is not. -/
theorem rangeCheck_spec (input : Ct) :
    ∃ c, rangeCheckPatersonStockmeyer ev (2 * half) input = some c ∧ ∀ i < 2 * half,
      ev.slot c i = if ev.slot input i ∈ rangeSet then 1 else 0 := by
  obtain ⟨c, hc, hslot⟩ := patersonStockmeyer_spec h rangeCheckIndices_lt (m := 256)
    (fun i hi => ⟨255, by decide, rangeCheckIndices_ne_zero hi⟩) (by decide) input
  refine ⟨c, hc, fun i hi => ?_⟩
  have hzero : (0 : Slot) ∈ rangeSet := mem_rangeSet.mpr ⟨0, by decide, by decide, Int.cast_zero⟩
  have hcard : Fintype.card Slot - 1 = 256 * 256 := by rw [ZMod.card]
  have hsum := PowerSums.sum_indicator hzero (ev.slot input i)
  rw [hcard] at hsum
  rw [hslot i hi, Finset.sum_congr rfl fun k _ => by rw [cast_rangeCheckIndices], hsum]
  split
  · exact sub_zero 1
  · exact sub_self 1

/-- The check passes -850, 850 and what is between them, and nothing else: of a
ciphertext whose noise and modulus level leave room for all the products, which
the model takes for granted. -/
theorem range_check_exact (input : Ct) :
    ∃ c, rangeCheckPatersonStockmeyer ev (2 * half) input = some c ∧ ∀ i < 2 * half,
      (ev.slot c i = 1 ↔ ∃ s : ℤ, -850 ≤ s ∧ s ≤ 850 ∧ (s : Slot) = ev.slot input i)
        ∧ (ev.slot c i = 0 ↔ ∀ s : ℤ, -850 ≤ s → s ≤ 850 → (s : Slot) ≠ ev.slot input i) := by
  obtain ⟨c, hc, hslot⟩ := rangeCheck_spec h input
  refine ⟨c, hc, fun i hi => ?_⟩
  have hzero : (0 : Slot) ≠ 1 := zero_ne_one
  rw [hslot i hi, ← mem_rangeSet]
  by_cases hmem : ev.slot input i ∈ rangeSet
  · obtain ⟨s, hlow, hhigh, hs⟩ := mem_rangeSet.mp hmem
    rw [if_pos hmem]
    exact ⟨⟨fun _ => hmem, fun _ => rfl⟩,
      ⟨fun hone => absurd hone.symm hzero, fun hno => absurd hs (hno s hlow hhigh)⟩⟩
  · rw [if_neg hmem]
    exact ⟨⟨fun hone => absurd hone hzero, fun hin => absurd hin hmem⟩,
      ⟨fun _ s hlow hhigh hs => hmem (mem_rangeSet.mpr ⟨s, hlow, hhigh, hs⟩), fun _ => rfl⟩⟩

/-- A slot is one when it is in range in all the ciphertexts, and zero otherwise. -/
theorem newRangeCheckPVW_spec (output : List Ct) (hne : output ≠ []) :
    ∃ c, newRangeCheckPVW ev (2 * half) output = some c ∧ ∀ i < 2 * half,
      ev.slot c i = if ∀ d ∈ output, ev.slot d i ∈ rangeSet then 1 else 0 := by
  obtain ⟨res, hmap, hres⟩ := mapM_forall₂ fun d (_ : d ∈ output) => rangeCheck_spec h d
  have hprod : ∀ i < 2 * half, (res.map (ev.slot · i)).prod
      = if ∀ d ∈ output, ev.slot d i ∈ rangeSet then 1 else 0 := by
    intro i hi
    clear hmap hne
    induction hres with
    | nil => rw [List.map_nil, List.prod_nil, if_pos fun d hd => absurd hd List.not_mem_nil]
    | @cons d c output res hslot _ ih =>
      have hall : (∀ e ∈ d :: output, ev.slot e i ∈ rangeSet)
          ↔ ev.slot d i ∈ rangeSet ∧ ∀ e ∈ output, ev.slot e i ∈ rangeSet :=
        List.forall_mem_cons
      rw [List.map_cons, List.prod_cons, hslot i hi, ih]
      by_cases hd : ev.slot d i ∈ rangeSet
      · by_cases hrest : ∀ e ∈ output, ev.slot e i ∈ rangeSet
        · rw [if_pos hd, if_pos hrest, if_pos (hall.mpr ⟨hd, hrest⟩), one_mul]
        · rw [if_neg hrest, if_neg fun h => hrest (hall.mp h).2, mul_zero]
      · rw [if_neg hd, if_neg fun h => hd (hall.mp h).1, zero_mul]
  have hlen := hres.length_eq
  obtain ⟨c, hc, hslot⟩ := evalMultMany_spec h res.length res rfl (by
    rw [← hlen]
    exact fun hnil => hne (List.length_eq_zero_iff.mp hnil))
  refine ⟨c, ?_, fun i hi => (hslot i hi).trans (hprod i hi)⟩
  simp only [newRangeCheckPVW, hmap, Option.bind_eq_bind, Option.bind_some]
  exact hc

end

/-- A slot with 850 passes. -/
theorem range_check_exact_sample :
    ∃ c, rangeCheckPatersonStockmeyer (Evaluator.clear 1) 2 (fun _ => 850) = some c
      ∧ (Evaluator.clear 1).slot c 0 = 1 := by
  obtain ⟨c, hc, hslot⟩ := range_check_exact (Evaluator.lawful_clear Nat.one_pos) fun _ => 850
  refine ⟨c, hc, (hslot 0 (by decide)).1.mpr ⟨850, by decide, by decide, ?_⟩⟩
  rw [Evaluator.slot_clear (by decide), Int.cast_ofNat]

end PSVFSS.Omr

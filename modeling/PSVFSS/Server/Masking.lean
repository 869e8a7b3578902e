/-
# `Server.Masking` — which entries `CPRS` reports

Both servers hand the whole mask to `mult` as their share of it, so the mask
that multiplies is `ran + ran`; and each adds to the opened product the copy
its peer has just sent, so what is compared with zero is the product twice.
Together the low lane tested at index `i` is `4 * X_i * ran` in 64 bits
(`openedAt_low`).  It vanishes exactly when `2 ^ 62` divides `X_i * ran`, and a
nonzero entry of that kind is not reported (`cprs_reports_iff`).

Only the low lane of the triple is assumed to be valid, as only the low lane
is compared.
-/
import PSVFSS.Server.Cprs

namespace PSVFSS

open TwoParty

/-! ## The low lane of an opened block

Four times the entry times the mask: twice because both servers hold the whole
mask, twice because each adds the copy the other has sent. -/

/-- A triple valid in the low lane. -/
def LowValidTriple (tA tB : Triple) : Prop :=
  tA.cl.1 + tB.cl.1 = (tA.a.1 + tB.a.1) * (tA.b.1 + tB.b.1)

instance (tA tB : Triple) : Decidable (LowValidTriple tA tB) :=
  inferInstanceAs (Decidable (tA.cl.1 + tB.cl.1 = (tA.a.1 + tB.a.1) * (tA.b.1 + tB.b.1)))

theorem ValidTriple.low {tA tB : Triple} (h : ValidTriple tA tB) : LowValidTriple tA tB :=
  congrArg Prod.fst h

theorem product_low {tA tB : Triple} (h : LowValidTriple tA tB) (xA xB yA yB : Block) :
    (product xA xB yA yB tA tB).1 = (xA.1 + xB.1) * (yA.1 + yB.1) := by
  have hc : tA.cl.1 = (tA.a.1 + tB.a.1) * (tA.b.1 + tB.b.1) - tB.cl.1 := eq_sub_of_add_eq h
  simp only [product, Prod.fst_add, Prod.fst_mul, Prod.fst_sub, hc]
  ring

/-- Twice the product with the doubled mask. -/
theorem openedAt_low {vA vB : Nat → Block} {ran : Block} {tA tB : Triple}
    (h : LowValidTriple tA tB) (i : Nat) :
    (openedAt vA vB ran ran tA tB i).1 = 4 * (((vA i).1 + (vB i).1) * ran.1) := by
  rw [openedAt, Prod.fst_add, product_low h]
  ring

/-- Multiplication by four loses the two highest bits. -/
theorem four_mul_eq_zero_iff (x : Nat) (r : Uint64) :
    4 * (BitVec.ofNat 64 x * r) = 0 ↔ 2 ^ 62 ∣ x * r.toNat := by
  have hval : (4 * (BitVec.ofNat 64 x * r)).toNat = 4 * (x * r.toNat) % 2 ^ 64 := by
    simp only [BitVec.toNat_mul, BitVec.toNat_ofNat, Nat.mod_mul_mod, Nat.mul_mod_mod]
    rfl
  have hpow : (2 : Nat) ^ 64 = 4 * 2 ^ 62 := by rw [← Nat.pow_add 2 2 62]
  have hzero : (0 : Uint64).toNat = 0 := rfl
  rw [← BitVec.toNat_inj, hval, hpow, Nat.mul_mod_mul_left, hzero, Nat.dvd_iff_mod_eq_zero]
  exact Nat.mul_eq_zero.trans (or_iff_right (by decide))

/-! ## The reported indices

What can be missed is an entry whose product with the mask loses all its low
bits to the factor four. -/

/-- Both servers list exactly the nonzero entries, in order, when no nonzero
entry times the mask is a multiple of `2 ^ 62`; otherwise both lists miss one. -/
theorem cprs_reports_iff (N : Nat) (X : Nat → Nat) (vA vB : Nat → Block) (ran : Block)
    (tA tB : Triple) (hvalid : LowValidTriple tA tB)
    (hX : ∀ i < N, (vA i).1 + (vB i).1 = BitVec.ofNat 64 (X i)) :
    ∃ rA rB, Completes (cprs .alice N vA ran tA) (cprs .bob N vB ran tB) rA rB ∧
      (rA.nonzeroIndices = (List.range N).filter (fun i => X i ≠ 0) ∧
          rB.nonzeroIndices = (List.range N).filter (fun i => X i ≠ 0) ↔
        ∀ i < N, X i ≠ 0 → ¬ 2 ^ 62 ∣ X i * ran.1.toNat) := by
  refine ⟨_, _, (paired_cprs vA vB ran ran tA tB N).completes, ?_⟩
  have hzero : ∀ i < N, ((openedAt vA vB ran ran tA tB i).1 = 0 ↔ 2 ^ 62 ∣ X i * ran.1.toNat) := by
    intro i hi
    rw [openedAt_low hvalid, hX i hi]
    exact four_mul_eq_zero_iff (X i) ran.1
  simp only [cprsResult, and_self]
  constructor
  · intro h i hi hne hdvd
    have hmem : i ∈ (List.range N).filter fun i => X i ≠ 0 := by
      simpa using ⟨hi, hne⟩
    rw [← h, reported, List.mem_filter] at hmem
    exact of_decide_eq_true hmem.2 ((hzero i hi).mpr hdvd)
  · intro h
    refine List.filter_congr fun i hi => decide_eq_decide.mpr (not_congr ?_)
    have hi : i < N := List.mem_range.mp hi
    rw [hzero i hi]
    constructor
    · intro hdvd
      by_contra hne
      exact h i hi hne hdvd
    · intro h0
      rw [h0, Nat.zero_mul]
      exact Nat.dvd_zero _

/-- Two entries, one of them zero, under an odd mask. -/
theorem cprs_reports_iff_sample :
    ∃ rA rB, Completes (cprs .alice 2 (fun i => (if i = 0 then 5 else 0, 0)) (7, 0) ⟨0, 0, 0⟩)
        (cprs .bob 2 (fun i => (if i = 0 then 4 else 0, 0)) (7, 0) ⟨0, 0, 0⟩) rA rB ∧
      rA.nonzeroIndices = [0] ∧ rB.nonzeroIndices = [0] := by
  obtain ⟨rA, rB, h, hiff⟩ := cprs_reports_iff 2 (fun i => if i = 0 then 9 else 0)
    (fun i => (if i = 0 then 5 else 0, 0)) (fun i => (if i = 0 then 4 else 0, 0)) (7, 0)
    ⟨0, 0, 0⟩ ⟨0, 0, 0⟩ (by decide) (by decide)
  exact ⟨rA, rB, h, hiff.mpr (by decide)⟩

/-- The entry 1 under the mask `2 ^ 62`: neither server reports it. -/
theorem cprs_not_reports :
    ∃ rA rB, Completes (cprs .alice 1 (fun _ => (1, 0)) (0x4000000000000000, 0) ⟨0, 0, 0⟩)
        (cprs .bob 1 (fun _ => (0, 0)) (0x4000000000000000, 0) ⟨0, 0, 0⟩) rA rB ∧
      LowValidTriple ⟨0, 0, 0⟩ ⟨0, 0, 0⟩ ∧ (1 + 0 : Uint64) = 1 ∧
      rA.nonzeroIndices = [] ∧ rB.nonzeroIndices = [] :=
  ⟨_, _, (paired_cprs (fun _ => (1, 0)) (fun _ => (0, 0)) (0x4000000000000000, 0)
    (0x4000000000000000, 0) ⟨0, 0, 0⟩ ⟨0, 0, 0⟩ 1).completes, by decide, by decide, by decide,
    by decide⟩

end PSVFSS

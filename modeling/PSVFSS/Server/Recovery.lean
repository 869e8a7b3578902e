/-
# `Server.Recovery` — what the recipient recovers

Each server reduces its 64-bit share modulo `2^61 - 1` before it sends it, and
the recipient adds in the field.  A pair of shares that adds up without
leaving 64 bits comes back as the value it shares; a pair that wraps comes
back as the value plus 8, since `2^64 = 8` in the field (`opened_share_iff`).
-/
import PSVFSS.Server.Cprs

namespace PSVFSS

open TwoParty

/-- `a` and `b` reduced at the two servers, then added by the recipient. -/
def openShares (a b : Uint64) : Uint64 :=
  field61Add (a % BitVec.ofNat 64 fieldModulus) (b % BitVec.ofNat 64 fieldModulus)

theorem toNat_openShares (a b : Uint64) :
    (openShares a b).toNat = (a.toNat + b.toNat) % fieldModulus := by
  have hp : (BitVec.ofNat 64 fieldModulus).toNat = fieldModulus := by decide
  rw [openShares, toNat_field61Add, BitVec.toNat_umod, BitVec.toNat_umod, hp, ← Nat.add_mod]

/-- `2^64` is 8 modulo `2^61 - 1`, so adding it moves every residue. -/
theorem add_two_pow_mod_ne (r : Nat) :
    (r + 18446744073709551616) % 2305843009213693951 ≠ r := by
  omega

/-- Reducing a sum of two words modulo `2^61 - 1` gives its low 64 bits, when
these are a residue, exactly if the sum has no carry. -/
theorem mod_eq_mod_iff {n : Nat} (hn : n < 2 ^ 64 + 2 ^ 64)
    (hx : n % 2 ^ 64 < 2305843009213693951) :
    n % 2305843009213693951 = n % 2 ^ 64 ↔ n < 2 ^ 64 := by
  constructor
  · intro h
    by_contra hcarry
    have hcarry : 2 ^ 64 ≤ n := Nat.le_of_not_lt hcarry
    obtain ⟨r, rfl⟩ := Nat.exists_eq_add_of_le' hcarry
    rw [Nat.add_mod_right, Nat.mod_eq_of_lt (Nat.lt_of_add_lt_add_right hn)] at h
    exact add_two_pow_mod_ne r h
  · intro h
    rw [Nat.mod_eq_of_lt h] at hx ⊢
    exact Nat.mod_eq_of_lt hx

/-- Two shares of a field element open to it exactly when their sum does not
wrap. -/
theorem opened_share_iff {a b : Uint64} (hx : (a + b).toNat < fieldModulus) :
    openShares a b = a + b ↔ a.toNat + b.toNat < 2 ^ 64 := by
  rw [BitVec.toNat_add] at hx
  rw [← BitVec.toNat_inj, toNat_openShares, BitVec.toNat_add]
  exact mod_eq_mod_iff (Nat.add_lt_add a.isLt b.isLt) hx

/-- The recipient gets the list of shared values exactly when fewer than 2^32
indices are reported and the shares at none of them wrap. -/
theorem recipient_recovers_iff (N : Nat) (vA vB : Nat → Block) (ranA ranB : Block)
    (tA tB : Triple) (hX : ∀ i < N, ((vA i).1 + (vB i).1).toNat < fieldModulus) :
    ∃ rA rB, Completes (cprs .alice N vA ranA tA) (cprs .bob N vB ranB tB) rA rB ∧
      rA.nonzeroIndices = reported vA vB ranA ranB tA tB N ∧
      rB.nonzeroIndices = reported vA vB ranA ranB tA tB N ∧
      (recipientDecode (serializeFieldShares rA.compressedShares)
            (serializeFieldShares rB.compressedShares)
          = .ok ((reported vA vB ranA ranB tA tB N).map fun i => (vA i).1 + (vB i).1) ↔
        (reported vA vB ranA ranB tA tB N).length < 2 ^ 32 ∧
          ∀ i ∈ reported vA vB ranA ranB tA tB N,
            (vA i).1.toNat + (vB i).1.toNat < 2 ^ 64) := by
  refine ⟨_, _, (paired_cprs vA vB ranA ranB tA tB N).completes, rfl, rfl, ?_⟩
  simp only [cprsResult]
  rw [recipientDecode_serialize (by rw [List.length_map, List.length_map]), List.length_map,
    List.zipWith_map, List.zipWith_self]
  have hpos : ∀ i ∈ reported vA vB ranA ranB tA tB N,
      (openShares (vA i).1 (vB i).1 = (vA i).1 + (vB i).1 ↔
        (vA i).1.toNat + (vB i).1.toNat < 2 ^ 64) := fun i hi =>
    opened_share_iff (hX i (List.mem_range.mp (List.mem_filter.mp hi).1))
  by_cases hlen : (reported vA vB ranA ranB tA tB N).length < 2 ^ 32
  · rw [if_pos hlen]
    constructor
    · intro h
      refine ⟨hlen, fun i hi => (hpos i hi).mp ?_⟩
      exact List.map_inj_left.mp (Except.ok.inj h) i hi
    · rintro ⟨_, h⟩
      exact congrArg Except.ok (List.map_congr_left fun i hi => (hpos i hi).mpr (h i hi))
  · rw [if_neg hlen]
    constructor
    · intro h
      cases h
    · intro h
      exact absurd h.1 hlen

/-- One index, shares that do not wrap. -/
theorem recipient_recovers_iff_sample :
    ∃ rA rB, Completes (cprs .alice 1 (fun _ => (5, 0)) (1, 0) ⟨0, 0, 0⟩)
        (cprs .bob 1 (fun _ => (2, 0)) (0, 0) ⟨0, 0, 0⟩) rA rB ∧
      recipientDecode (serializeFieldShares rA.compressedShares)
        (serializeFieldShares rB.compressedShares) = .ok [7] := by
  obtain ⟨rA, rB, h, _, _, hiff⟩ := recipient_recovers_iff 1 (fun _ => (5, 0)) (fun _ => (2, 0))
    (1, 0) (0, 0) ⟨0, 0, 0⟩ ⟨0, 0, 0⟩ (by decide)
  exact ⟨rA, rB, h, hiff.mpr (by decide)⟩

/-- One index, `2^64 - 1` and 2 as shares of 1: the recipient gets 9. -/
theorem recipient_not_recovers :
    ∃ rA rB, Completes (cprs .alice 1 (fun _ => (0xFFFFFFFFFFFFFFFF, 0)) (1, 0) ⟨0, 0, 0⟩)
        (cprs .bob 1 (fun _ => (2, 0)) (0, 0) ⟨0, 0, 0⟩) rA rB ∧
      rA.nonzeroIndices = [0] ∧ rB.nonzeroIndices = [0] ∧
      (0xFFFFFFFFFFFFFFFF + 2 : Uint64) = 1 ∧
      recipientDecode (serializeFieldShares rA.compressedShares)
        (serializeFieldShares rB.compressedShares) = .ok [9] :=
  ⟨_, _, (paired_cprs (fun _ => (0xFFFFFFFFFFFFFFFF, 0)) (fun _ => (2, 0)) (1, 0) (0, 0)
    ⟨0, 0, 0⟩ ⟨0, 0, 0⟩ 1).completes, by decide, by decide, by decide, by decide⟩

end PSVFSS

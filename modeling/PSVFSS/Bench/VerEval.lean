/-
# `Bench.VerEval` — the evaluation benchmark's inputs and its check

`bench_vereval.c` makes up a list of registered identifiers, evaluates both
keys on it and checks the outputs.

    fillRegisteredIdentifiers_distinct   the identifiers, for all admitted options
    outputsAreCorrect_iff                what the check accepts: sums with the parity of the
                                         point function
    outputsAreCorrect_decides_iff        on which vectors that is field reconstruction
-/
import Mathlib.Data.Int.ModEq
import PSVFSS.Field61
import PSVFSS.Lib.Loop

namespace PSVFSS

open Loop

/-! ## Options

The checks are made after all options have been read, so they are conditions
on the record. -/

/-- `struct options`. -/
structure Options where
  users : Uint64
  bits : Int
  repetitions : Int
  warmups : Int
  threads : Int
  compareSerial : Bool

/-- What `parse_options` checks once the options are read: the message it
prints, if it refuses. -/
def checkOptions (options : Options) : Option String :=
  if options.users = 0 ∨ options.bits < 1 ∨ options.bits > 64 ∨ options.repetitions < 1 ∨
      options.warmups < 0 ∨ options.threads < 1 then
    some "Require users>0, 1<=bits<=64, repetitions>0, warmups>=0, threads>0\n"
  else if options.bits < 64 ∧ options.users > (1 : Uint64) <<< options.bits.toNat then
    some "users exceeds the identifier domain\n"
  else if options.users.toNat > (2 ^ 64 - 1) / 8 ∨ options.users.toNat > (2 ^ 64 - 1) / 16 then
    some "Requested allocation is too large\n"
  else none

/-- Admitted options leave room for distinct identifiers. -/
theorem checkOptions_domain {options : Options} (h : checkOptions options = none) :
    1 ≤ options.bits.toNat ∧ options.bits.toNat ≤ 64 ∧
      options.users.toNat ≤ 2 ^ options.bits.toNat := by
  simp only [checkOptions] at h
  split at h
  case isTrue => cases h
  case isFalse hrange =>
      simp only [not_or, not_lt] at hrange
      obtain ⟨_, hlow, hhigh, _⟩ := hrange
      refine ⟨by omega, by omega, ?_⟩
      split at h
      case isTrue => cases h
      case isFalse hdomain =>
          by_cases h64 : options.bits < 64
          · have hbits : options.bits.toNat < 64 := by omega
            have hle : options.users ≤ (1 : Uint64) <<< options.bits.toNat :=
              BitVec.not_lt.mp fun hgt => hdomain ⟨h64, hgt⟩
            have hshift : ((1 : Uint64) <<< options.bits.toNat).toNat = 2 ^ options.bits.toNat := by
              rw [BitVec.toNat_shiftLeft, Nat.shiftLeft_eq, Nat.mod_eq_of_lt]
              · exact Nat.one_mul _
              · exact (Nat.one_mul _).trans_lt (Nat.pow_lt_pow_right (by decide) hbits)
            exact hshift ▸ BitVec.le_def.mp hle
          · have hbits : options.bits.toNat = 64 := by omega
            rw [hbits]
            exact options.users.isLt.le

/-! ## `fill_registered_identifiers`

The multiplier is odd, so multiplying is a permutation modulo a power of two,
and adding the offset is another. -/

def identifierMask (bits : Nat) : Uint64 :=
  if bits = 64 then BitVec.allOnes 64 else ((1 : Uint64) <<< bits) - 1

/-- The values written, over whatever the array held. -/
def fillRegisteredIdentifiers (identifiers : Nat → Uint64) (users : Uint64) (bits : Nat) :
    Nat → Uint64 :=
  let multiplier : Uint64 := 0x9e3779b97f4a7c15
  let offset : Uint64 := 0x243f6a8885a308d3
  let mask := identifierMask bits
  forLoop users.toNat (fun i identifiers =>
    Function.update identifiers i ((BitVec.ofNat 64 i * multiplier + offset) &&& mask)) identifiers

/-- Both branches of the mask keep the low bits. -/
theorem toNat_and_identifierMask (x : Uint64) {bits : Nat} (h : bits ≤ 64) :
    (x &&& identifierMask bits).toNat = x.toNat % 2 ^ bits := by
  have hmask : (identifierMask bits).toNat = 2 ^ bits - 1 := by
    by_cases h64 : bits = 64
    · rw [identifierMask, if_pos h64, h64, BitVec.toNat_allOnes]
    · have hlt : 2 ^ bits < 2 ^ 64 := Nat.pow_lt_pow_right (by decide) (by omega)
      have hpos := Nat.two_pow_pos bits
      have hshift : ((1 : Uint64) <<< bits).toNat = 2 ^ bits := by
        rw [BitVec.toNat_shiftLeft, Nat.shiftLeft_eq]
        exact (congrArg (· % 2 ^ 64) (Nat.one_mul _)).trans (Nat.mod_eq_of_lt hlt)
      rw [identifierMask, if_neg h64, BitVec.toNat_sub, hshift]
      have hone : (1 : Uint64).toNat = 1 := rfl
      rw [hone]
      omega
  rw [BitVec.toNat_and, hmask, Nat.and_two_pow_sub_one_eq_mod]

/-- An odd multiplier and any offset permute the residues modulo a power of
two. -/
theorem affine_injective {n m o i j : Nat} (hm : Odd m) (hi : i < 2 ^ n) (hj : j < 2 ^ n)
    (h : (i * m + o) % 2 ^ n = (j * m + o) % 2 ^ n) : i = j := by
  have hmul : i * m ≡ j * m [MOD 2 ^ n] := Nat.ModEq.add_right_cancel' o h
  have hcoprime : (2 ^ n).gcd m = 1 := (Nat.coprime_two_left.mpr hm).pow_left n
  exact (hmul.cancel_right_of_coprime hcoprime).eq_of_lt_of_lt hi hj

/-- The `users` values written are distinct and below `2 ^ bits`. -/
theorem fillRegisteredIdentifiers_distinct (identifiers : Nat → Uint64) (users : Uint64)
    (bits : Nat) (h64 : bits ≤ 64) (husers : users.toNat ≤ 2 ^ bits) :
    (∀ i < users.toNat, ∀ j < users.toNat,
      fillRegisteredIdentifiers identifiers users bits i
        = fillRegisteredIdentifiers identifiers users bits j → i = j) ∧
    ∀ i < users.toNat, (fillRegisteredIdentifiers identifiers users bits i).toNat < 2 ^ bits := by
  have hvalue : ∀ i < users.toNat, (fillRegisteredIdentifiers identifiers users bits i).toNat
      = (i * 0x9e3779b97f4a7c15 + 0x243f6a8885a308d3) % 2 ^ bits := by
    intro i hi
    have hwrite : fillRegisteredIdentifiers identifiers users bits i
        = (BitVec.ofNat 64 i * 0x9e3779b97f4a7c15 + 0x243f6a8885a308d3) &&& identifierMask bits :=
      forLoop_scatter (f := fun i => i) (fun _ _ _ _ h => h) hi
    have hdvd : 2 ^ bits ∣ 2 ^ 64 := Nat.pow_dvd_pow 2 h64
    have hmul : i % 2 ^ 64 * 0x9e3779b97f4a7c15 % 2 ^ 64 ≡ i * 0x9e3779b97f4a7c15 [MOD 2 ^ 64] :=
      (Nat.mod_modEq _ _).trans ((Nat.mod_modEq i _).mul_right _)
    rw [hwrite, toNat_and_identifierMask _ h64, BitVec.toNat_add, BitVec.toNat_mul,
      BitVec.toNat_ofNat, Nat.mod_mod_of_dvd _ hdvd]
    exact (hmul.of_dvd hdvd).add_right _
  refine ⟨?_, ?_⟩
  · intro i hi j hj h
    have hval := congrArg BitVec.toNat h
    rw [hvalue i hi, hvalue j hj] at hval
    exact affine_injective (by decide) (hi.trans_le husers) (hj.trans_le husers) hval
  · intro i hi
    rw [hvalue i hi]
    exact Nat.mod_lt _ (Nat.two_pow_pos bits)

/-- Three identifiers in a domain of four. -/
theorem fillRegisteredIdentifiers_distinct_sample :
    fillRegisteredIdentifiers (fun _ => 0) 3 2 0 ≠ fillRegisteredIdentifiers (fun _ => 0) 3 2 2 :=
  fun h => absurd ((fillRegisteredIdentifiers_distinct (fun _ => 0) 3 2 (by decide)
    (by decide)).1 0 (by decide) 2 (by decide) h) (by decide)

/-! ## `outputs_are_correct`

The shares are added as 64-bit integers and the lowest bit is compared.
Canonical shares add up to less than twice the modulus, so a sum is the value
in the field or that and the modulus. -/

/-- The loop over the positions, up to the first that is wrong. -/
def outputsAreCorrect (outputs0 outputs1 : Nat → Uint128) (users targetPosition : Uint64) : Bool :=
  (List.range users.toNat).all fun i =>
    let combined : BitVec 8 := ((outputs0 i + outputs1 i) &&& 1).setWidth 8
    let expected : BitVec 8 := if BitVec.ofNat 64 i = targetPosition then 1 else 0
    !decide (combined ≠ expected)

/-- The value the point function has at a position. -/
def expectedAt (targetPosition : Uint64) (i : Nat) : Nat :=
  if i = targetPosition.toNat then 1 else 0

/-- Two vectors that add up to the point function in the field. -/
def FieldReconstructs (outputs0 outputs1 : Nat → Uint128) (users targetPosition : Uint64) : Prop :=
  ∀ i < users.toNat, (field61Add ((outputs0 i).setWidth 64) ((outputs1 i).setWidth 64)).toNat
    = expectedAt targetPosition i

instance (outputs0 outputs1 : Nat → Uint128) (users targetPosition : Uint64) :
    Decidable (FieldReconstructs outputs0 outputs1 users targetPosition) :=
  inferInstanceAs (Decidable (∀ i < users.toNat,
    (field61Add ((outputs0 i).setWidth 64) ((outputs1 i).setWidth 64)).toNat
      = expectedAt targetPosition i))

/-- The integer sum of the two shares at a position. -/
def shareSum (outputs0 outputs1 : Nat → Uint128) (i : Nat) : Nat :=
  (outputs0 i).toNat + (outputs1 i).toNat

/-- Sums that exceed the point function by multiples of `m`, somewhere by one
that is not 0. -/
def ExceedsBy (m : Nat) (outputs0 outputs1 : Nat → Uint128) (users targetPosition : Uint64) :
    Prop :=
  ∃ k : Nat → Nat,
    (∀ i < users.toNat, shareSum outputs0 outputs1 i = expectedAt targetPosition i + m * k i) ∧
      ∃ i < users.toNat, 0 < k i

section
variable {outputs0 outputs1 : Nat → Uint128} {users targetPosition : Uint64}

theorem expectedAt_le_one (targetPosition : Uint64) (i : Nat) :
    expectedAt targetPosition i ≤ 1 := by
  rw [expectedAt]
  split <;> decide

/-- Agreement modulo `m` is exact, or exceeds by multiples of `m`. -/
theorem agree_mod_iff {m : Nat} (hm : 1 < m) :
    (∀ i < users.toNat, shareSum outputs0 outputs1 i % m = expectedAt targetPosition i) ↔
      (∀ i < users.toNat, shareSum outputs0 outputs1 i = expectedAt targetPosition i) ∨
        ExceedsBy m outputs0 outputs1 users targetPosition := by
  have hsmall := fun i => (expectedAt_le_one targetPosition i).trans_lt hm
  constructor
  · intro h
    by_cases hk : ∃ i < users.toNat, 0 < shareSum outputs0 outputs1 i / m
    · refine .inr ⟨fun i => shareSum outputs0 outputs1 i / m, fun i hi => ?_, hk⟩
      rw [← h i hi, Nat.mod_add_div]
    · refine .inl fun i hi => ?_
      have hzero : shareSum outputs0 outputs1 i / m = 0 :=
        Nat.eq_zero_of_not_pos fun hpos => hk ⟨i, hi, hpos⟩
      have hdiv := Nat.mod_add_div (shareSum outputs0 outputs1 i) m
      rw [hzero, Nat.mul_zero, Nat.add_zero, h i hi] at hdiv
      exact hdiv.symm
  · rintro (h | ⟨k, h, _⟩) i hi
    · rw [h i hi, Nat.mod_eq_of_lt (hsmall i)]
    · rw [h i hi, Nat.add_mul_mod_self_left, Nat.mod_eq_of_lt (hsmall i)]

theorem ExceedsBy.not_exact {m : Nat} (hm : 1 < m)
    (h : ExceedsBy m outputs0 outputs1 users targetPosition) :
    ¬∀ i < users.toNat, shareSum outputs0 outputs1 i = expectedAt targetPosition i := by
  obtain ⟨k, hk, i, hi, hpos⟩ := h
  intro hexact
  have hsum := hk i hi
  rw [hexact i hi] at hsum
  have hzero : m * k i = 0 := by omega
  rcases Nat.mul_eq_zero.mp hzero with h0 | h0 <;> omega

/-- The check looks at parities. -/
theorem outputsAreCorrect_iff :
    outputsAreCorrect outputs0 outputs1 users targetPosition = true ↔
      ∀ i < users.toNat, shareSum outputs0 outputs1 i % 2 = expectedAt targetPosition i := by
  have hcombined : ∀ i, (((outputs0 i + outputs1 i) &&& 1).setWidth 8 : BitVec 8).toNat
      = shareSum outputs0 outputs1 i % 2 := by
    intro i
    have hone : (1 : Uint128).toNat = 1 := rfl
    rw [BitVec.toNat_setWidth, BitVec.toNat_and, hone, Nat.and_one_is_mod, BitVec.toNat_add,
      shareSum]
    omega
  have hexpected : ∀ i < users.toNat,
      (if BitVec.ofNat 64 i = targetPosition then (1 : BitVec 8) else 0).toNat
        = expectedAt targetPosition i := by
    intro i hi
    have hiff : BitVec.ofNat 64 i = targetPosition ↔ i = targetPosition.toNat := by
      rw [← BitVec.toNat_inj, BitVec.toNat_ofNat, Nat.mod_eq_of_lt (hi.trans users.isLt)]
    simp only [hiff, expectedAt]
    split <;> rfl
  rw [outputsAreCorrect, List.all_eq_true]
  simp only [List.mem_range, ne_eq, decide_not, Bool.not_not, decide_eq_true_eq]
  constructor
  · intro h i hi
    rw [← hcombined, ← hexpected i hi, h i hi]
  · intro h i hi
    apply BitVec.eq_of_toNat_eq
    rw [hcombined, hexpected i hi, h i hi]

/-- The field looks at residues. -/
theorem fieldReconstructs_iff (h0 : ∀ i < users.toNat, (outputs0 i).toNat < fieldModulus)
    (h1 : ∀ i < users.toNat, (outputs1 i).toNat < fieldModulus) :
    FieldReconstructs outputs0 outputs1 users targetPosition ↔
      ∀ i < users.toNat,
        shareSum outputs0 outputs1 i % fieldModulus = expectedAt targetPosition i := by
  have hlow : ∀ x : Uint128, x.toNat < fieldModulus → (x.setWidth 64).toNat = x.toNat := by
    intro x hx
    rw [BitVec.toNat_setWidth, Nat.mod_eq_of_lt (hx.trans (by decide))]
  refine forall_congr' fun i => forall_congr' fun hi => ?_
  rw [toNat_field61Add, hlow _ (h0 i hi), hlow _ (h1 i hi), shareSum]

/-- Sums of canonical shares do not exceed the point function both ways. -/
theorem ExceedsBy.not_modulus (h0 : ∀ i < users.toNat, (outputs0 i).toNat < fieldModulus)
    (h1 : ∀ i < users.toNat, (outputs1 i).toNat < fieldModulus)
    (h : ExceedsBy 2 outputs0 outputs1 users targetPosition) :
    ¬ExceedsBy fieldModulus outputs0 outputs1 users targetPosition := by
  obtain ⟨k, hk, _⟩ := h
  rintro ⟨w, hw, i, hi, hpos⟩
  have hsum : shareSum outputs0 outputs1 i < 2 * fieldModulus := by
    have := h0 i hi
    have := h1 i hi
    rw [shareSum]
    omega
  have heq : 2 * k i = fieldModulus * w i := Nat.add_left_cancel ((hk i hi).symm.trans (hw i hi))
  have hone : w i = 1 := by
    have hlt : fieldModulus * w i < fieldModulus * 2 := by
      rw [hw i hi] at hsum
      omega
    have := Nat.lt_of_mul_lt_mul_left hlt
    omega
  -- the modulus is odd
  have hodd : fieldModulus % 2 = 1 := rfl
  rw [hone, Nat.mul_one] at heq
  omega

end

/-- For all canonical shares: the check returns true exactly on the vectors
that add up to the point function, unless the integer sums exceed it by even
numbers, or by multiples of the modulus, that are not all 0. -/
theorem outputsAreCorrect_decides_iff (outputs0 outputs1 : Nat → Uint128)
    (users targetPosition : Uint64) (h0 : ∀ i < users.toNat, (outputs0 i).toNat < fieldModulus)
    (h1 : ∀ i < users.toNat, (outputs1 i).toNat < fieldModulus) :
    (outputsAreCorrect outputs0 outputs1 users targetPosition = true ↔
        FieldReconstructs outputs0 outputs1 users targetPosition) ↔
      ¬ExceedsBy 2 outputs0 outputs1 users targetPosition ∧
        ¬ExceedsBy fieldModulus outputs0 outputs1 users targetPosition := by
  have htwo : 1 < 2 := by decide
  have hp : 1 < fieldModulus := by decide
  rw [outputsAreCorrect_iff, fieldReconstructs_iff h0 h1, agree_mod_iff htwo, agree_mod_iff hp]
  constructor
  · intro h
    refine ⟨fun he => ?_, fun he => ?_⟩
    · rcases h.mp (.inr he) with hexact | hmod
      · exact he.not_exact htwo hexact
      · exact he.not_modulus h0 h1 hmod
    · rcases h.mpr (.inr he) with hexact | heven
      · exact he.not_exact hp hexact
      · exact heven.not_modulus h0 h1 he
  · rintro ⟨heven, hmod⟩
    rw [or_iff_left heven, or_iff_left hmod]

/-- Shares 0 and 1 of two positions. -/
theorem outputsAreCorrect_decides_iff_sample :
    outputsAreCorrect (fun _ => 0) (fun i => BitVec.ofNat 128 i) 2 1 = true ↔
      FieldReconstructs (fun _ => 0) (fun i => BitVec.ofNat 128 i) 2 1 := by
  have hexact : ∀ i < (2 : Uint64).toNat,
      shareSum (fun _ => 0) (fun i => BitVec.ofNat 128 i) i = expectedAt 1 i := by decide
  exact (outputsAreCorrect_decides_iff (fun _ => 0) (fun i => BitVec.ofNat 128 i) 2 1 (by decide)
    (by decide)).mpr ⟨fun h => h.not_exact (by decide) hexact,
      fun h => h.not_exact (by decide) hexact⟩

/-- Away from the target the shares 5 and `2^61 - 6` add up to 0 in the field
and to an odd number outside it. -/
theorem outputsAreCorrect_not_decides :
    ¬(outputsAreCorrect (fun i => if i = 0 then 5 else 1)
          (fun i => if i = 0 then 2305843009213693946 else 0) 2 1 = true ↔
        FieldReconstructs (fun i => if i = 0 then 5 else 1)
          (fun i => if i = 0 then 2305843009213693946 else 0) 2 1) := by
  have hfield : FieldReconstructs (fun i => if i = 0 then 5 else 1)
      (fun i => if i = 0 then 2305843009213693946 else 0) 2 1 := by decide
  have hcheck : outputsAreCorrect (fun i => if i = 0 then 5 else 1)
      (fun i => if i = 0 then 2305843009213693946 else 0) 2 1 = false := by decide
  intro h
  rw [hcheck] at h
  exact Bool.false_ne_true (h.mpr hfield)

end PSVFSS

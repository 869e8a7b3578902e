/-
# `Field61` — arithmetic modulo `2^61 - 1` on 64-bit words (`field61.h`)

A word is *canonical* when it is below the modulus.  `toField` reads any
word as a residue; on canonical words the four operations are the residue
operations, and equal residues are equal words (`Canonical.ext`).  All
sharing arguments happen in `ZMod fieldModulus`, where they are `ring`.
-/
import Mathlib.Data.ZMod.Basic
import PSVFSS.Common

namespace PSVFSS

/-- `VDPF_FIELD_MODULUS`. -/
def fieldModulus : Nat := 2305843009213693951

def field61ReduceU128 (value : Uint128) : Uint64 :=
  (value % BitVec.ofNat 128 fieldModulus).setWidth 64

def field61Add (left right : Uint64) : Uint64 :=
  field61ReduceU128 (left.setWidth 128 + right.setWidth 128)

def field61Sub (left right : Uint64) : Uint64 :=
  if left ≥ right then left - right else BitVec.ofNat 64 fieldModulus - (right - left)

def field61Neg (value : Uint64) : Uint64 :=
  if value = 0 then 0 else BitVec.ofNat 64 fieldModulus - value

def field61FromU128 (value : Uint128) : Uint64 := field61ReduceU128 value

/-- Below the modulus. -/
def Canonical (x : Uint64) : Prop := x.toNat < fieldModulus

/-- The residue of a word. -/
def toField (x : Uint64) : ZMod fieldModulus := (x.toNat : ZMod fieldModulus)

/-! ## Values

Each operation read as a number: the residue of the sum or the difference.
Subtraction and negation compute without a reduction and are right on
canonical words only. -/

theorem fieldModulus_pos : 0 < fieldModulus := by decide

theorem toNat_field61ReduceU128 (v : Uint128) :
    (field61ReduceU128 v).toNat = v.toNat % fieldModulus := by
  have hlt : v.toNat % fieldModulus < fieldModulus := Nat.mod_lt _ fieldModulus_pos
  have hm : fieldModulus < 2 ^ 64 := by decide
  simp only [field61ReduceU128, BitVec.toNat_setWidth, BitVec.toNat_umod, BitVec.toNat_ofNat]
  rw [Nat.mod_eq_of_lt (a := fieldModulus) (by decide), Nat.mod_eq_of_lt (hlt.trans hm)]

theorem toNat_field61Add (l r : Uint64) :
    (field61Add l r).toNat = (l.toNat + r.toNat) % fieldModulus := by
  have hl := l.isLt
  have hr := r.isLt
  rw [field61Add, toNat_field61ReduceU128, BitVec.toNat_add, toNat_widen, toNat_widen]
  congr 1
  omega

theorem toNat_field61Sub {l r : Uint64} (hl : Canonical l) (hr : Canonical r) :
    (field61Sub l r).toNat
      = if r.toNat ≤ l.toNat then l.toNat - r.toNat else fieldModulus - (r.toNat - l.toNat) := by
  simp only [Canonical, fieldModulus] at hl hr
  simp only [field61Sub, GE.ge, BitVec.le_def, fieldModulus]
  split
  · rw [BitVec.toNat_sub]
    omega
  · rw [BitVec.toNat_sub, BitVec.toNat_sub, BitVec.toNat_ofNat]
    omega

theorem toNat_field61Neg {v : Uint64} (hv : Canonical v) :
    (field61Neg v).toNat = if v.toNat = 0 then 0 else fieldModulus - v.toNat := by
  simp only [Canonical, fieldModulus] at hv
  have hz : v = 0 ↔ v.toNat = 0 := by
    rw [← BitVec.toNat_inj]
    rfl
  simp only [field61Neg, hz, fieldModulus]
  split
  · rfl
  · rw [BitVec.toNat_sub, BitVec.toNat_ofNat]
    omega

/-! ## Canonical words

The operations return words below the modulus, and such words are equal when
their residues are. -/

theorem canonical_reduceU128 (v : Uint128) : Canonical (field61ReduceU128 v) := by
  rw [Canonical, toNat_field61ReduceU128]
  exact Nat.mod_lt _ fieldModulus_pos

theorem canonical_fromU128 (v : Uint128) : Canonical (field61FromU128 v) :=
  canonical_reduceU128 v

theorem canonical_add (l r : Uint64) : Canonical (field61Add l r) := canonical_reduceU128 _

theorem canonical_sub {l r : Uint64} (hl : Canonical l) (hr : Canonical r) :
    Canonical (field61Sub l r) := by
  rw [Canonical, toNat_field61Sub hl hr]
  rw [Canonical] at hl hr
  split <;> omega

theorem canonical_neg {v : Uint64} (hv : Canonical v) : Canonical (field61Neg v) := by
  rw [Canonical, toNat_field61Neg hv]
  have := fieldModulus_pos
  split <;> omega

theorem Canonical.ext {x y : Uint64} (hx : Canonical x) (hy : Canonical y)
    (h : toField x = toField y) : x = y := by
  apply BitVec.eq_of_toNat_eq
  have hmod := (ZMod.natCast_eq_natCast_iff' _ _ _).mp h
  rwa [Nat.mod_eq_of_lt hx, Nat.mod_eq_of_lt hy] at hmod

/-- A canonical word is its own residue. -/
theorem Canonical.mod_eq {x : Uint64} (hx : Canonical x) : x.toNat % fieldModulus = x.toNat :=
  Nat.mod_eq_of_lt hx

/-- The value of a canonical word, from its residue. -/
theorem Canonical.toNat_eq {x : Uint64} (hx : Canonical x) {n : Nat}
    (h : toField x = (n : ZMod fieldModulus)) : x.toNat = n % fieldModulus := by
  rw [← hx.mod_eq]
  exact (ZMod.natCast_eq_natCast_iff' _ _ _).mp h

/-! ## Residues -/

theorem toField_add (l r : Uint64) : toField (field61Add l r) = toField l + toField r := by
  rw [toField, toNat_field61Add, ZMod.natCast_mod, Nat.cast_add]
  rfl

theorem toField_sub {l r : Uint64} (hl : Canonical l) (hr : Canonical r) :
    toField (field61Sub l r) = toField l - toField r := by
  rw [toField, toNat_field61Sub hl hr]
  rw [Canonical] at hl hr
  split
  case isTrue h => rw [Nat.cast_sub h]; rfl
  case isFalse h =>
      rw [Nat.cast_sub (by omega), Nat.cast_sub (by omega), ZMod.natCast_self]
      simp [toField]

theorem toField_neg {v : Uint64} (hv : Canonical v) : toField (field61Neg v) = -toField v := by
  rw [toField, toNat_field61Neg hv]
  rw [Canonical] at hv
  split
  case isTrue h => simp [toField, h]
  case isFalse h => rw [Nat.cast_sub (Nat.le_of_lt hv), ZMod.natCast_self, zero_sub]; rfl

end PSVFSS

/-
# `Fmd.Curve` — curves and scalars

Both detection schemes are given a curve.  Of it they use that the points are a
commutative group on which scalars act (`Curve.Lawful`), with a base point whose
order divides `n`.  The curves of `crypto/elliptic`, `y² = x³ - 3x + b` over the
integers modulo `p`, have these properties (`Curve.lawful_ofWeierstrass`).

A scalar is drawn from a reader until it is below `n`; the reader is the list
of the bytes that it still has.
-/
import Mathlib.AlgebraicGeometry.EllipticCurve.Affine.Point
import Mathlib.Algebra.Field.ZMod
import Mathlib.Tactic.NormNum.Prime
import PSVFSS.Lib.ByteLoop
import PSVFSS.Lib.Loop

namespace PSVFSS

open ByteBuffer Loop

/-! ## Numbers as bytes

`big.Int` as the source uses it: big-endian, with leading zeros in a buffer of
a fixed size. -/

/-- `BitLen`. -/
def bitLen (n : Nat) : Nat := if n = 0 then 0 else n.log2 + 1

theorem lt_two_pow_bitLen (n : Nat) : n < 2 ^ bitLen n := by
  rw [bitLen]
  split
  next h => rw [h]; exact Nat.one_pos
  next h => exact Nat.lt_log2_self

/-- `SetBytes`: big-endian. -/
def setBytes (buf : List Byte) : Nat := leVal buf.reverse

/-- `FillBytes` of a buffer of `n` bytes, which panics on a number that is too
long. -/
def fillBytes (n x : Nat) : Option (List Byte) :=
  if x < 256 ^ n then some (leBytes n x).reverse else none

theorem fillBytes_spec {n x : Nat} (h : x < 256 ^ n) :
    ∃ buf, fillBytes n x = some buf ∧ buf.length = n ∧ setBytes buf = x := by
  refine ⟨_, if_pos h, by rw [List.length_reverse, length_leBytes], ?_⟩
  rw [setBytes, List.reverse_reverse, leVal_leBytes, Nat.mod_eq_of_lt h]

/-- The bytes of a string. -/
def ascii (s : String) : List Byte := s.toList.map fun c => BitVec.ofNat 8 c.toNat

/-! ## Curves

A curve is the interface the source is passed.  What makes it a group is in
`Curve.Lawful`, so the schemes are proved for any such interface. -/

structure GroupElement where
  x : Int
  y : Int
  deriving DecidableEq

/-- The `elliptic.Curve` that is passed around: its methods, `Params().N`,
`Params().P.BitLen()` and `elliptic.Marshal`.  Scalars are passed as the bytes
of numbers. -/
structure Curve where
  n : Nat
  fieldBits : Nat
  scalarBaseMult : Nat → GroupElement
  scalarMult : GroupElement → Nat → GroupElement
  add : GroupElement → GroupElement → GroupElement
  marshal : GroupElement → List Byte

/-- The methods compute in a group, on coordinates of its elements. -/
structure Curve.Lawful {G : Type} [AddCommGroup G] (c : Curve) (coords : G → GroupElement)
    (base : G) : Prop where
  order : c.n • base = 0
  scalarBaseMult : ∀ k, c.scalarBaseMult k = coords (k • base)
  scalarMult : ∀ Q k, c.scalarMult (coords Q) k = coords (k • Q)
  add : ∀ Q R, c.add (coords Q) (coords R) = coords (Q + R)
  x_range : ∀ Q, 0 ≤ (coords Q).x ∧ (coords Q).x.toNat < 2 ^ c.fieldBits
  y_range : ∀ Q, 0 ≤ (coords Q).y ∧ (coords Q).y.toNat < 2 ^ c.fieldBits

namespace Curve.Lawful

variable {G : Type} [AddCommGroup G] {c : Curve} {coords : G → GroupElement} {base : G}
  (h : c.Lawful coords base)
include h

/-- Both sides of a key agreement arrive at the same element. -/
theorem agree (a b : Nat) :
    c.scalarMult (c.scalarBaseMult a) b = c.scalarMult (c.scalarBaseMult b) a := by
  rw [h.scalarBaseMult, h.scalarBaseMult, h.scalarMult, h.scalarMult, smul_smul, smul_smul,
    Nat.mul_comm]

/-- Scalars count modulo `n`. -/
theorem smul_congr {a b : Nat} (hab : a ≡ b [MOD c.n]) : a • base = b • base := by
  have hmod : ∀ k : Nat, k • base = (k % c.n) • base := by
    intro k
    calc k • base = (c.n * (k / c.n) + k % c.n) • base := by rw [Nat.div_add_mod]
      _ = (k / c.n) • (c.n • base) + (k % c.n) • base := by
          rw [add_smul, Nat.mul_comm, ← smul_smul]
      _ = (k % c.n) • base := by rw [h.order, smul_zero, zero_add]
  rw [hmod a, hmod b, hab]

theorem scalarBaseMult_congr {a b : Nat} (hab : a ≡ b [MOD c.n]) :
    c.scalarBaseMult a = c.scalarBaseMult b := by
  rw [h.scalarBaseMult, h.scalarBaseMult, h.smul_congr hab]

/-- `v * P + y * (r * P)`. -/
theorem add_scalarMult (v y r : Nat) :
    c.add (c.scalarBaseMult v) (c.scalarMult (c.scalarBaseMult r) y)
      = c.scalarBaseMult (v + y * r) := by
  rw [h.scalarBaseMult, h.scalarBaseMult, h.scalarBaseMult, h.scalarMult, h.add, smul_smul,
    ← add_smul]

end Curve.Lawful

/-! ## The curves of `crypto/elliptic`

The laws are those of the group of points of a Weierstrass curve, which
Mathlib has.  The point at infinity has the coordinates (0, 0), so these must
be off the curve. -/

section
variable (p : Nat) [Fact p.Prime] (b : ZMod p)

/-- `y² = x³ - 3x + b`. -/
abbrev shortWeierstrass : WeierstrassCurve.Affine (ZMod p) := ⟨0, 0, 0, -3, b⟩

/-- The point at infinity has the coordinates (0, 0). -/
def coords : (shortWeierstrass p b).Point → GroupElement
  | .zero => ⟨0, 0⟩
  | .some x y _ => ⟨x.val, y.val⟩

open scoped Classical in
noncomputable def point (Q : GroupElement) : (shortWeierstrass p b).Point :=
  if h : (shortWeierstrass p b).Nonsingular (Q.x : ZMod p) (Q.y : ZMod p) then .some _ _ h
  else .zero

variable {p b}

theorem nonsingular_zero (hb : b ≠ 0) : ¬ (shortWeierstrass p b).Nonsingular 0 0 := by
  intro h
  have heq := ((shortWeierstrass p b).equation_iff 0 0).mp h.1
  apply hb
  simpa using heq.symm

theorem point_coords (hb : b ≠ 0) (Q : (shortWeierstrass p b).Point) :
    point p b (coords p b Q) = Q := by
  cases Q with
  | zero =>
      have hzero := nonsingular_zero hb
      rw [point, coords, dif_neg (by simpa using hzero)]
  | some x y h =>
      have hx : (((x.val : Int)) : ZMod p) = x := by
        rw [Int.cast_natCast, ZMod.natCast_zmod_val]
      have hy : (((y.val : Int)) : ZMod p) = y := by
        rw [Int.cast_natCast, ZMod.natCast_zmod_val]
      have hQ : (shortWeierstrass p b).Nonsingular ((x.val : Int) : ZMod p)
          ((y.val : Int) : ZMod p) := by rw [hx, hy]; exact h
      rw [point, coords, dif_pos hQ]
      congr

theorem coords_range (Q : (shortWeierstrass p b).Point) :
    (0 ≤ (coords p b Q).x ∧ (coords p b Q).x.toNat < 2 ^ bitLen p) ∧
      (0 ≤ (coords p b Q).y ∧ (coords p b Q).y.toNat < 2 ^ bitLen p) := by
  have hp := lt_two_pow_bitLen p
  cases Q with
  | zero => exact ⟨⟨le_rfl, Nat.two_pow_pos _⟩, le_rfl, Nat.two_pow_pos _⟩
  | some x y _ =>
      exact ⟨⟨Int.natCast_nonneg _, (ZMod.val_lt x).trans hp⟩, Int.natCast_nonneg _,
        (ZMod.val_lt y).trans hp⟩

variable (p b)

/-- The curve with a base point and its order. -/
noncomputable def Curve.ofWeierstrass (n : Nat) (base : (shortWeierstrass p b).Point)
    (marshal : GroupElement → List Byte) : Curve where
  n := n
  fieldBits := bitLen p
  scalarBaseMult k := coords p b (k • base)
  scalarMult Q k := coords p b (k • point p b Q)
  add Q R := coords p b (point p b Q + point p b R)
  marshal := marshal

variable {p b}

theorem Curve.lawful_ofWeierstrass (hb : b ≠ 0) {n : Nat} {base : (shortWeierstrass p b).Point}
    (horder : n • base = 0) (marshal : GroupElement → List Byte) :
    (Curve.ofWeierstrass p b n base marshal).Lawful (coords p b) base where
  order := horder
  scalarBaseMult _ := rfl
  scalarMult Q k := by
    show coords p b (k • point p b (coords p b Q)) = _
    rw [point_coords hb]
  add Q R := by
    show coords p b (point p b (coords p b Q) + point p b (coords p b R)) = _
    rw [point_coords hb, point_coords hb]
  x_range Q := (coords_range Q).1
  y_range Q := (coords_range Q).2

end

/-! ## `utils.go`

Scalars are drawn until one is small enough.  The reader is finite, so the
loop either draws one or runs out of bytes. -/

def mask : List Byte := [0xff, 0x1, 0x3, 0x7, 0xf, 0x1f, 0x3f, 0x7f]

/-- The bytes that are read, masked, as a number. -/
def candidate (n : Nat) (priv : List Byte) : Nat :=
  setBytes ((priv.modify 0 (· &&& mask.getD (bitLen n % 8) 0)).modify 1 (· ^^^ 0x42))

/-- The bytes of a scalar. -/
def scalarLen (n : Nat) : Nat := (bitLen n + 7) >>> 3

/-- The loop of `sampleRandomScalar`.  `none` where the reader has too few bytes
left, and for the run-time error on a curve whose scalars have fewer than two
bytes. -/
def sampleLoop (n : Nat) : Nat → List Byte → Option (Nat × List Byte)
  | 0, _ => none
  | fuel + 1, random =>
      if random.length < scalarLen n ∨ scalarLen n < 2 then none
      else
        let x := candidate n (random.take (scalarLen n))
        if n ≤ x then sampleLoop n fuel (random.drop (scalarLen n))
        else some (x, random.drop (scalarLen n))

/-- A scalar, and what the reader has left. -/
def sampleRandomScalar (n : Nat) (random : List Byte) : Option (Nat × List Byte) :=
  sampleLoop n (random.length + 1) random

/-- Two passes more read two bytes more, so the fuel is enough. -/
theorem sampleLoop_fuel {n fuel fuel' : Nat} {random : List Byte} (hfuel : random.length < fuel)
    (hfuel' : random.length < fuel') :
    sampleLoop n fuel random = sampleLoop n fuel' random := by
  induction fuel generalizing fuel' random with
  | zero => exact absurd hfuel (Nat.not_lt_zero _)
  | succ fuel ih =>
      cases fuel' with
      | zero => exact absurd hfuel' (Nat.not_lt_zero _)
      | succ fuel' =>
          rw [sampleLoop, sampleLoop]
          split
          next => rfl
          next hread =>
            have hshort : (random.drop (scalarLen n)).length < random.length := by
              rw [List.length_drop]
              omega
            simp only [ih (Nat.lt_of_lt_of_le hshort (Nat.le_of_lt_succ hfuel))
              (Nat.lt_of_lt_of_le hshort (Nat.le_of_lt_succ hfuel'))]

/-- The loop as the source has it: read, and read again when `n` is not above. -/
theorem sampleRandomScalar_eq (n : Nat) (random : List Byte) :
    sampleRandomScalar n random =
      if random.length < scalarLen n ∨ scalarLen n < 2 then none
      else if n ≤ candidate n (random.take (scalarLen n)) then
        sampleRandomScalar n (random.drop (scalarLen n))
      else some (candidate n (random.take (scalarLen n)), random.drop (scalarLen n)) := by
  rw [sampleRandomScalar, sampleLoop]
  split
  next => rfl
  next hread =>
    have hshort : (random.drop (scalarLen n)).length < random.length := by
      rw [List.length_drop]
      omega
    simp only [sampleLoop_fuel hshort (Nat.lt_succ_self _), sampleRandomScalar]

/-- `keyGenSingle`. -/
def keyGenSingle (c : Curve) (random : List Byte) :
    Option ((Nat × GroupElement) × List Byte) := do
  let (priv, random) ← sampleRandomScalar c.n random
  return ((priv, c.scalarBaseMult priv), random)

/-! ## Keys

Both schemes make their keys in one loop, a secret and a public one a turn. -/

structure PubKey where
  numKeys : Nat
  pubKeys : List GroupElement
  deriving DecidableEq

structure SecKey where
  numKeys : Nat
  secKeys : List Nat
  prob : BitVec 32
  deriving DecidableEq

/-- The loop of both `KeyGen`s. -/
def keyGenLoop (c : Curve) : Nat → List Byte → Option (List (Nat × GroupElement) × List Byte)
  | 0, random => some ([], random)
  | k + 1, random => do
      let (pair, random) ← keyGenSingle c random
      let (pairs, random) ← keyGenLoop c k random
      return (pair :: pairs, random)

/-- Public keys that belong to secret ones. -/
structure KeysBelong (c : Curve) (priv : SecKey) (pub : PubKey) : Prop where
  numKeys : priv.numKeys = pub.numKeys
  length : priv.secKeys.length = priv.numKeys
  pubKeys : pub.pubKeys = priv.secKeys.map c.scalarBaseMult

theorem keyGenLoop_spec {c : Curve} {k : Nat} {random rest : List Byte}
    {pairs : List (Nat × GroupElement)} (h : keyGenLoop c k random = some (pairs, rest)) :
    pairs.length = k ∧ pairs.map Prod.snd = (pairs.map Prod.fst).map c.scalarBaseMult := by
  induction k generalizing random pairs with
  | zero =>
      cases h
      exact ⟨rfl, rfl⟩
  | succ k ih =>
      obtain ⟨⟨pair, random'⟩, hpair, h⟩ := Option.bind_eq_some_iff.mp h
      obtain ⟨⟨x, _⟩, -, hpair⟩ := Option.bind_eq_some_iff.mp hpair
      obtain ⟨⟨pairs', _⟩, hpairs, h⟩ := Option.bind_eq_some_iff.mp h
      cases hpair
      cases h
      obtain ⟨hlen, hpublic⟩ := ih hpairs
      exact ⟨congrArg Nat.succ hlen, congrArg (c.scalarBaseMult x :: ·) hpublic⟩

theorem KeysBelong.secret {c : Curve} {priv : SecKey} {pub : PubKey} (h : KeysBelong c priv pub)
    {i : Nat} (hi : i < pub.numKeys) :
    ∃ x, priv.secKeys[i]? = some x ∧ pub.pubKeys[i]? = some (c.scalarBaseMult x) := by
  have hlt : i < priv.secKeys.length := by rw [h.length, h.numKeys]; exact hi
  refine ⟨priv.secKeys[i], List.getElem?_eq_getElem hlt, ?_⟩
  rw [h.pubKeys, List.getElem?_map, List.getElem?_eq_getElem hlt, Option.map_some]

/-! ## A small curve

An instance of the laws on which the definitions can be run. -/

/-- Doubling of a point, with the slope of the tangent. -/
theorem smul_two {p : Nat} [Fact p.Prime] {b x y x' y' s : ZMod p}
    (h : (shortWeierstrass p b).Nonsingular x y) (h' : (shortWeierstrass p b).Nonsingular x' y')
    (hy : y ≠ -y) (hs : s * (y + y) = 3 * x ^ 2 - 3) (hx : s ^ 2 - x - x = x')
    (hy' : -(s * (x' - x) + y) = y') :
    2 • (WeierstrassCurve.Affine.Point.some x y h) = .some x' y' h' := by
  have hneg : (shortWeierstrass p b).negY x y = -y := by
    simp [WeierstrassCurve.Affine.negY]
  have hne : y ≠ (shortWeierstrass p b).negY x y := by rwa [hneg]
  have hyy : y + y ≠ 0 := fun h0 => hy (eq_neg_of_add_eq_zero_left h0)
  have hslope : (shortWeierstrass p b).slope x x y y = s := by
    rw [WeierstrassCurve.Affine.slope_of_Y_ne rfl hne, hneg, sub_neg_eq_add,
      div_eq_iff hyy, hs]
    ring
  have hX : (shortWeierstrass p b).addX x x s = x' := by
    rw [← hx, WeierstrassCurve.Affine.addX]
    ring
  have hY : (shortWeierstrass p b).addY x x y s = y' := by
    rw [WeierstrassCurve.Affine.addY, WeierstrassCurve.Affine.negAddY, hX, ← hy',
      WeierstrassCurve.Affine.negY]
    ring
  rw [two_nsmul, WeierstrassCurve.Affine.Point.add_self_of_Y_ne hne]
  simp only [hslope, hX, hY]

instance fact_prime_263 : Fact (Nat.Prime 263) := ⟨by norm_num⟩

/-- The curve `y² = x³ - 3x + 1` over the integers modulo 263 is smooth. -/
theorem sampleNonsingular {x y : ZMod 263} (h : y ^ 2 = x ^ 3 - 3 * x + 1) :
    (shortWeierstrass 263 1).Nonsingular x y := by
  refine ((shortWeierstrass 263 1).equation_iff_nonsingular_of_Δ_ne_zero (by decide)).mp ?_
  rw [WeierstrassCurve.Affine.equation_iff, h]
  ring

def samplePoint (x y : ZMod 263) (h : y ^ 2 = x ^ 3 - 3 * x + 1) :
    (shortWeierstrass 263 1).Point := .some x y (sampleNonsingular h)

def sampleBase : (shortWeierstrass 263 1).Point := samplePoint 0 1 (by decide)

/-- Doubled eight times, the base point is its own negative. -/
theorem sampleBase_order : 257 • sampleBase = 0 := by
  have h2 : 2 • sampleBase = samplePoint 68 101 (by decide) :=
    smul_two (s := 130) _ _ (by decide) (by decide) (by decide) (by decide)
  have h4 : 2 • samplePoint 68 101 (by decide) = samplePoint 138 17 (by decide) :=
    smul_two (s := 96) _ _ (by decide) (by decide) (by decide) (by decide)
  have h8 : 2 • samplePoint 138 17 (by decide) = samplePoint 252 67 (by decide) :=
    smul_two (s := 110) _ _ (by decide) (by decide) (by decide) (by decide)
  have h16 : 2 • samplePoint 252 67 (by decide) = samplePoint 244 33 (by decide) :=
    smul_two (s := 144) _ _ (by decide) (by decide) (by decide) (by decide)
  have h32 : 2 • samplePoint 244 33 (by decide) = samplePoint 221 176 (by decide) :=
    smul_two (s := 112) _ _ (by decide) (by decide) (by decide) (by decide)
  have h64 : 2 • samplePoint 221 176 (by decide) = samplePoint 179 80 (by decide) :=
    smul_two (s := 219) _ _ (by decide) (by decide) (by decide) (by decide)
  have h128 : 2 • samplePoint 179 80 (by decide) = samplePoint 249 79 (by decide) :=
    smul_two (s := 9) _ _ (by decide) (by decide) (by decide) (by decide)
  have h256 : 2 • samplePoint 249 79 (by decide) = samplePoint 0 262 (by decide) :=
    smul_two (s := 32) _ _ (by decide) (by decide) (by decide) (by decide)
  have hneg : samplePoint 0 262 (by decide) = -sampleBase := by
    rw [sampleBase, samplePoint, samplePoint, WeierstrassCurve.Affine.Point.neg_some]
    congr 1
  have hchain : 256 • sampleBase = -sampleBase := by
    rw [show 256 = 2 * (2 * (2 * (2 * (2 * (2 * (2 * 2)))))) from rfl]
    simp only [mul_smul, h2, h4, h8, h16, h32, h64, h128, h256, hneg]
  rw [show 257 = 256 + 1 from rfl, add_smul, hchain, one_smul, neg_add_cancel]

/-- Points are serialised as two bytes for each coordinate. -/
def sampleMarshal (Q : GroupElement) : List Byte :=
  4 :: ((leBytes 2 Q.x.toNat).reverse ++ (leBytes 2 Q.y.toNat).reverse)

noncomputable def sampleCurve : Curve :=
  Curve.ofWeierstrass 263 1 257 sampleBase sampleMarshal

theorem sampleCurve_lawful : sampleCurve.Lawful (coords 263 1) sampleBase :=
  Curve.lawful_ofWeierstrass one_ne_zero sampleBase_order sampleMarshal

end PSVFSS

/-
# `Lib.CipherMode` — a block cipher used as ECB, as a counter stream, as a hash

`E k` is an arbitrary function on blocks, never assumed to be a permutation.

    Ecb.update   E k applied to each block; no state
    Ctr.update   XOR with the next blocks of the keystream; the counter moves on
    mmo          the Matyas–Meyer–Oseas compression  m ↦ E k m ⊕ m

The last two do not mix: feeding the *input* of a counter-mode update
forward cancels it, and what is left is the keystream
(`Ctr.update_feedForward`), whatever the input was.
-/
import Mathlib.Logic.Function.Basic

namespace CipherMode

variable {κ : Type} {w : Nat}

/-! ## Masking -/

theorem xor_cancel_left (a b : BitVec w) : a ^^^ (a ^^^ b) = b := by
  rw [← BitVec.xor_assoc, BitVec.xor_self, BitVec.zero_xor]

theorem xor_cancel_right (a b : BitVec w) : b ^^^ (a ^^^ b) = a := by
  rw [BitVec.xor_comm a b, xor_cancel_left]

/-- Two masked words are equal exactly when the words differ by the masks'
difference. -/
theorem xor_eq_xor_iff (a b c d : BitVec w) : a ^^^ b = c ^^^ d ↔ a ^^^ c = b ^^^ d := by
  constructor
  · intro h
    have ha : a = c ^^^ d ^^^ b := by rw [← h, BitVec.xor_assoc, BitVec.xor_self, BitVec.xor_zero]
    rw [ha, BitVec.xor_comm _ c, BitVec.xor_assoc c d b, xor_cancel_left, BitVec.xor_comm]
  · intro h
    have ha : a = b ^^^ d ^^^ c := by rw [← h, BitVec.xor_assoc, BitVec.xor_self, BitVec.xor_zero]
    rw [ha, BitVec.xor_comm _ b, BitVec.xor_assoc b d c, xor_cancel_left, BitVec.xor_comm]

/-! ## Electronic codebook -/

structure Ecb (κ : Type) where
  key : κ
  deriving DecidableEq

def Ecb.update (E : κ → BitVec w → BitVec w) (c : Ecb κ) {n : Nat}
    (x : Fin n → BitVec w) : Fin n → BitVec w := fun i => E c.key (x i)

/-! ## Counter mode

The counter lives in the context, so two updates of one context use different
parts of the keystream.  `ctr` is a parameter: which integer encoding the
counter block has plays no part. -/

/-- A counter-mode context: the key and the number of blocks already used. -/
structure Ctr (κ : Type) where
  key : κ
  counter : Nat
  deriving DecidableEq

/-- Block `i` of the keystream still to come; `ctr` encodes a block number. -/
def Ctr.keystream (E : κ → BitVec w → BitVec w) (ctr : Nat → BitVec w) (c : Ctr κ) (i : Nat) :
    BitVec w := E c.key (ctr (c.counter + i))

def Ctr.update (E : κ → BitVec w → BitVec w) (ctr : Nat → BitVec w) (c : Ctr κ) {n : Nat}
    (x : Fin n → BitVec w) : Ctr κ × (Fin n → BitVec w) :=
  ({ c with counter := c.counter + n }, fun i => x i ^^^ c.keystream E ctr i)

section
variable {E : κ → BitVec w → BitVec w} {ctr : Nat → BitVec w} {c : Ctr κ} {n : Nat}

@[simp] theorem Ctr.update_key (x : Fin n → BitVec w) :
    (c.update E ctr x).1.key = c.key := rfl

@[simp] theorem Ctr.update_counter (x : Fin n → BitVec w) :
    (c.update E ctr x).1.counter = c.counter + n := rfl

theorem Ctr.keystream_update (x : Fin n → BitVec w) (i : Nat) :
    (c.update E ctr x).1.keystream E ctr i = c.keystream E ctr (n + i) := by
  simp only [keystream, update_key, update_counter, Nat.add_assoc]

/-- Feeding the input forward cancels it. -/
theorem Ctr.update_feedForward (x : Fin n → BitVec w) (i : Fin n) :
    (c.update E ctr x).2 i ^^^ x i = c.keystream E ctr i := by
  rw [update, BitVec.xor_comm, xor_cancel_left]

end

/-! ## Matyas–Meyer–Oseas -/

/-- The one-block compression function. -/
def mmo (E : κ → BitVec w → BitVec w) (k : κ) (m : BitVec w) : BitVec w := E k m ^^^ m

end CipherMode

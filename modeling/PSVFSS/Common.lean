/-
# `Common` — machine words, the primitives outside the repository, `common.c`

C integers are bit vectors: `uint8_t`, `uint64_t`, `uint128_t` and `int`
wrap exactly as the C types do.  Loop counters and array sizes are `Nat`.

AES and SHA-256 are parameters (`Crypto`): nothing is assumed of either
except where a theorem says so.
-/
import Mathlib.Data.Fin.VecNotation
import PSVFSS.Lib.Bytes
import PSVFSS.Lib.CipherMode

namespace PSVFSS

open ByteBuffer CipherMode

abbrev Uint64 := BitVec 64
abbrev Uint128 := BitVec 128
abbrev CInt := BitVec 32

/-- The primitives OpenSSL and `sha256.c` supply.  `δ` is the type of digests. -/
structure Crypto (δ : Type) where
  /-- AES-128: key, plaintext block, ciphertext block. -/
  aes : Uint128 → Uint128 → Uint128
  sha256 : List Byte → δ

/-- Primitives to run the definitions with: a multiplication and a rotation in
place of AES, the identity in place of SHA-256. -/
def sampleCrypto : Crypto (List Byte) where
  aes k m := ((m ^^^ k) * 0x9E3779B97F4A7C15F39CC0605CEDC835).rotateLeft 64
  sha256 := id

variable {δ : Type}

/-- A buffer of four blocks, written two at a time. -/
abbrev fourBlocks (low high : Fin 2 → Uint128) : Fin 4 → Uint128 := ![low 0, low 1, high 0, high 1]

/-- A `uint64_t` keeps its value as a `uint128_t`. -/
theorem toNat_widen (x : Uint64) : (x.setWidth 128).toNat = x.toNat := by
  rw [BitVec.toNat_setWidth, Nat.mod_eq_of_lt (x.isLt.trans (by decide))]

/-! ## `common.h`

The inline functions, in the order of the header.  Those that look at a
control bit take it as the C `int` they are given. -/

def reverseLsb (input : Uint128) : Uint128 := input ^^^ 1

def lsb (input : Uint128) : Uint128 := input &&& 1

/-- `seed_lsb`: bit 1 of a seed, since bit 0 of every expanded seed is cleared. -/
def seedLsb (input : Uint128) : Byte := ((input &&& 2) >>> 1).setWidth 8

def setLsbZero (input : Uint128) : Uint128 :=
  if lsb input = 1 then reverseLsb input else input

/-- `getbit`: bit `b` of the `size`-bit number `x`, bit 1 being the highest. -/
def getbit (x : Uint128) (size b : Nat) : CInt := ((x >>> (size - b)) &&& 1).setWidth 32

def correct (raw0 raw1 : Uint128) (t : CInt) : Uint128 := if t = 0 then raw0 else raw0 ^^^ raw1

def convert (raw : Uint128) : Uint128 := raw

/-! ## `common.c` -/

/-- `getDPFContext`. -/
def getDPFContext (key : Uint128) : Ecb Uint128 := ⟨key⟩

/-- The two children `dpfPRG` derives from a seed. -/
structure PrgOutput where
  output1 : Uint128
  output2 : Uint128
  bit1 : CInt
  bit2 : CInt
  deriving DecidableEq

def dpfPRG (C : Crypto δ) (ctx : Ecb Uint128) (input : Uint128) : PrgOutput :=
  let input := setLsbZero input
  let stash := ctx.update C.aes ![input, reverseLsb input]
  let stash0 := stash 0 ^^^ input
  let stash1 := reverseLsb (stash 1 ^^^ input)
  { output1 := setLsbZero stash0
    output2 := setLsbZero stash1
    bit1 := (lsb stash0).setWidth 32
    bit2 := (lsb stash1).setWidth 32 }

/-! ## Bits

Control bits are `int`s that hold 0 or 1.  That they do is a fact of every
function that computes one, proved here once for each. -/

/-- A C `int` that holds a truth value. -/
def IsBit (t : CInt) : Prop := t = 0 ∨ t = 1

instance (t : CInt) : Decidable (IsBit t) := inferInstanceAs (Decidable (t = 0 ∨ t = 1))

/-- Masking with 1 leaves bit 0. -/
theorem and_one_eq (x : Uint128) : x &&& 1 = if x.getLsbD 0 then 1 else 0 := by
  have h : x &&& 1#128 = BitVec.setWidth 128 (BitVec.ofBool (x.getLsbD 0)) :=
    BitVec.and_one_eq_setWidth_ofBool_getLsbD
  refine h.trans ?_
  cases x.getLsbD 0 <;> decide

theorem isBit_lsb (x : Uint128) : IsBit ((lsb x).setWidth 32) := by
  rw [lsb, and_one_eq]
  cases x.getLsbD 0 <;> decide

theorem isBit_xor {s t : CInt} (hs : IsBit s) (ht : IsBit t) : IsBit (s ^^^ t) := by
  rcases hs with rfl | rfl <;> rcases ht with rfl | rfl <;> decide

theorem dpfPRG_bit1 (C : Crypto δ) (ctx : Ecb Uint128) (s : Uint128) :
    IsBit (dpfPRG C ctx s).bit1 := isBit_lsb _

theorem dpfPRG_bit2 (C : Crypto δ) (ctx : Ecb Uint128) (s : Uint128) :
    IsBit (dpfPRG C ctx s).bit2 := isBit_lsb _

/-- `getbit` is a bit of its argument. -/
theorem getbit_eq (x : Uint128) (size b : Nat) :
    getbit x size b = if x.toNat.testBit (size - b) then 1 else 0 := by
  have h : (x >>> (size - b)) &&& 1
      = if x.toNat.testBit (size - b) then 1 else 0 := by
    rw [and_one_eq, BitVec.getLsbD_ushiftRight, Nat.add_zero, BitVec.testBit_toNat]
  rw [getbit, h]
  split <;> rfl

end PSVFSS

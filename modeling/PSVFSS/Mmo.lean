/-
# `Mmo` — the hash contexts of `mmo.c`

`initMMOHash` opens an AES-128-CTR context, and the two hash functions run
it over their input and XOR the input back in.  In counter mode that cancels
the input: what either function returns is the next four blocks of the
keystream (`mmoHash2to4_eq`, `mmoHash4to4_eq`), and all that a call changes
is the counter.
-/
import Mathlib.Data.Fintype.Basic
import Mathlib.Tactic.FinCases
import PSVFSS.Common

namespace PSVFSS

open ByteBuffer CipherMode

variable {δ : Type}

/-- `struct Hash`. -/
structure Hash where
  mmoCtx : Ctr Uint128
  outblocks : Nat
  deriving DecidableEq

/-- Counter block `i`: a 16-byte big-endian number, read as a block in memory. -/
def counterBlock (i : Nat) : Uint128 := loadLE 128 (storeLE (BitVec.ofNat 128 i)).reverse

/-- `initMMOHash`: no IV is given, so the counter starts at zero. -/
def initMMOHash (seed : Uint128) (outblocks : Nat) : Hash := ⟨⟨seed, 0⟩, outblocks⟩

def mmoHash2to4 (C : Crypto δ) (hash : Hash) (input : Fin 2 → Uint128) :
    Hash × (Fin 4 → Uint128) :=
  let first := hash.mmoCtx.update C.aes counterBlock input
  let low : Fin 2 → Uint128 := fun i => first.2 i ^^^ input i
  let second := first.1.update C.aes counterBlock low
  let high : Fin 2 → Uint128 := fun i => second.2 i ^^^ low i
  ({ hash with mmoCtx := second.1 }, fourBlocks low high)

def mmoHash4to4 (C : Crypto δ) (hash : Hash) (input : Fin 4 → Uint128) :
    Hash × (Fin 4 → Uint128) :=
  let r := hash.mmoCtx.update C.aes counterBlock input
  ({ hash with mmoCtx := r.1 }, fun i => r.2 i ^^^ input i)

/-! ## Both return the keystream

The block a call adds to its input is the block it adds it to again.  What is
left depends on the key and on how many blocks the context has handed out. -/

/-- Block `i` of what the context will produce next. -/
def Hash.keystream (C : Crypto δ) (hash : Hash) (i : Nat) : Uint128 :=
  hash.mmoCtx.keystream C.aes counterBlock i

/-- The context `n` blocks further on. -/
def Hash.advance (hash : Hash) (n : Nat) : Hash :=
  { hash with mmoCtx := { hash.mmoCtx with counter := hash.mmoCtx.counter + n } }

@[simp] theorem Hash.advance_zero (hash : Hash) : hash.advance 0 = hash := rfl

theorem Hash.advance_advance (hash : Hash) (m n : Nat) :
    (hash.advance m).advance n = hash.advance (m + n) := by
  simp only [advance, Nat.add_assoc]

theorem Hash.keystream_advance (C : Crypto δ) (hash : Hash) (n i : Nat) :
    (hash.advance n).keystream C i = hash.keystream C (n + i) := by
  simp only [keystream, advance, Ctr.keystream, Nat.add_assoc]

theorem mmoHash2to4_eq (C : Crypto δ) (hash : Hash) (input : Fin 2 → Uint128) :
    mmoHash2to4 C hash input = (hash.advance 4, fun i : Fin 4 => hash.keystream C i) := by
  apply Prod.ext
  · rfl
  · funext i
    -- blocks 0 and 1 come from the first update, blocks 2 and 3 from the second
    fin_cases i
    · exact Ctr.update_feedForward input 0
    · exact Ctr.update_feedForward input 1
    · exact (Ctr.update_feedForward _ 0).trans (Ctr.keystream_update input 0)
    · exact (Ctr.update_feedForward _ 1).trans (Ctr.keystream_update input 1)

theorem mmoHash4to4_eq (C : Crypto δ) (hash : Hash) (input : Fin 4 → Uint128) :
    mmoHash4to4 C hash input = (hash.advance 4, fun i : Fin 4 => hash.keystream C i) := by
  apply Prod.ext
  · rfl
  · funext i
    exact Ctr.update_feedForward input i

end PSVFSS

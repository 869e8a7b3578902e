/-
# `Server.Bn` — big numbers, and the blocks made of them

A `bn_t` that is not negative is a `Nat`; where the source may hold a negative
one it is an `Int`.  `bnMod` is the non-negative remainder.

`bn_2_block_128` and `bn_2_block_256` write a number out big-endian, in as few
bytes as it has, and read 64-bit limbs back from the end of that buffer until
it runs out (`readLimb`).  The limb loop is the same four times, so one lemma
(`readLimb_bnWriteBin`) says what a limb holds: 64 bits of the number, zeros
once the bytes are used up.  `block_2_bn_128` writes a block's limbs out and reads
the bytes as a number: `block2Bn128_bn2Block`.
-/
import PSVFSS.Lib.ByteLoop
import PSVFSS.Server.Cprs

namespace PSVFSS

open ByteBuffer Loop

/-! ## Arithmetic

`bn_mod` returns a non-negative remainder, also of the negative number a
subtraction before it can leave. -/

def bnMod (a : Int) (m : Nat) : Nat := (a % (m : Int)).toNat

def bnMxp (c e m : Nat) : Nat := c ^ e % m

theorem bnMod_natCast (a m : Nat) : bnMod a m = a % m := by
  rw [bnMod, ← Int.natCast_mod, Int.toNat_natCast]

/-- A negative number above `-m` comes out as its complement. -/
theorem bnMod_sub {a b m : Nat} (h : a < b) (hb : b ≤ m) :
    bnMod ((a : Int) - b) m = m + a - b := by
  have hcast : (a : Int) - b = ((m + a - b : Nat) : Int) - m := by omega
  have hlt : m + a - b < m := by omega
  rw [bnMod, hcast, Int.sub_emod_right, ← Int.natCast_mod, Int.toNat_natCast, Nat.mod_eq_of_lt hlt]

/-! ## The binary image

A number has as many bytes as it needs, none for zero.  A buffer of that size
ends on the lowest byte, which is where the limb loops start. -/

/-- `bn_size_bin`: how many bytes `a` has. -/
def bnSizeBin (a : Nat) : Nat := if a = 0 then 0 else a.log2 / 8 + 1

/-- `bn_write_bin`: the `len` low bytes of `a`, most significant first. -/
def bnWriteBin (len a : Nat) : List Byte := (leBytes len a).reverse

theorem lt_bnSizeBin (a : Nat) : a < 256 ^ bnSizeBin a := by
  by_cases h : a = 0
  · rw [h]
    exact Nat.pow_pos (by decide)
  · have hpow : (256 : Nat) ^ bnSizeBin a = 2 ^ (8 * bnSizeBin a) := by rw [Nat.pow_mul]
    rw [hpow, bnSizeBin, if_neg h, ← Nat.log2_lt h]
    omega

/-- Byte `k` from the end. -/
theorem byteAt_bnWriteBin {len k : Nat} (a : Nat) (hk : k < len) :
    byteAt (bnWriteBin len a) (len - 1 - k) = BitVec.ofNat 8 (a / 256 ^ k) := by
  have hlt : len - 1 - k < (leBytes len a).length := by
    rw [length_leBytes]
    omega
  have hback : len - 1 - (len - 1 - k) = k := by omega
  rw [byteAt, bnWriteBin, List.getD_eq_getElem?_getD, List.getElem?_reverse hlt, length_leBytes,
    hback, getElem?_leBytes, if_pos hk, Option.getD_some]

/-! ## `bn_2_block_128`, `bn_2_block_256`

An index runs down from the end of the buffer through all limbs and stops at
zero in the middle of one.  The invariant of the loop says how much of the
number lies above the index. -/

/-- One turn of a limb loop: byte `i` of the limb, if the buffer has one left. -/
def limbStep (buffer : List Byte) (i : Nat) (s : Uint64 × Int) : Uint64 × Int :=
  if 0 ≤ s.2 then (s.1 ||| (byteAt buffer s.2.toNat).setWidth 64 <<< (i * 8), s.2 - 1) else s

/-- The limb that ends at `bufferIndex`, and the index after it. -/
def readLimb (buffer : List Byte) (bufferIndex : Int) : Uint64 × Int :=
  forLoop 8 (limbStep buffer) (0, bufferIndex)

def bn2Block128 (a : Nat) : Block :=
  let len := bnSizeBin a
  let buffer := bnWriteBin len a
  let r2 := readLimb buffer (len - 1)
  let r1 := readLimb buffer r2.2
  (r2.1, r1.1)

/-- The high block, then the low one. -/
def bn2Block256 (a : Nat) : Block × Block :=
  let len := bnSizeBin a
  let buffer := bnWriteBin len a
  let r2 := readLimb buffer (len - 1)
  let r1 := readLimb buffer r2.2
  let r4 := readLimb buffer r1.2
  let r3 := readLimb buffer r4.2
  ((r4.1, r3.1), (r2.1, r1.1))

/-- What a limb loop has after `i` turns: `i` bytes of the number that starts
at byte `8 j`, and `8 j + i` bytes fewer to read. -/
theorem readLimb_bnWriteBin {len a : Nat} (h : a < 256 ^ len) (j : Nat) :
    readLimb (bnWriteBin len a) (((len - 8 * j : Nat) : Int) - 1)
      = (BitVec.ofNat 64 (a / 256 ^ (8 * j)), ((len - 8 * (j + 1) : Nat) : Int) - 1) := by
  have hloop := forLoop_induction (n := 8) (f := limbStep (bnWriteBin len a))
    (s := (0, ((len - 8 * j : Nat) : Int) - 1))
    (P := fun i s => s = (BitVec.ofNat 64 (a / 256 ^ (8 * j) % 256 ^ i),
      ((len - (8 * j + i) : Nat) : Int) - 1))
    (by rw [Nat.pow_zero, Nat.mod_one]; rfl)
    (by
      rintro i hi s rfl
      have hdiv : a / 256 ^ (8 * j) / 256 ^ i = a / 256 ^ (8 * j + i) := by
        rw [Nat.div_div_eq_div_mul, ← Nat.pow_add]
      by_cases hleft : 8 * j + i < len
      · have hindex : (((len - (8 * j + i) : Nat) : Int) - 1).toNat = len - 1 - (8 * j + i) := by
          omega
        have hnext : ((len - (8 * j + i) : Nat) : Int) - 1 - 1
            = ((len - (8 * j + (i + 1)) : Nat) : Int) - 1 := by
          omega
        rw [limbStep, if_pos (by simp only; omega), hindex, byteAt_bnWriteBin a hleft, ← hdiv,
          Nat.mul_comm i, or_byte _ (by omega), hnext]
      · -- no byte left: the number has no higher digit either
        have hzero : a / 256 ^ (8 * j) / 256 ^ i = 0 := by
          rw [hdiv]
          have hle : 256 ^ len ≤ 256 ^ (8 * j + i) :=
            Nat.pow_le_pow_right (by decide) (Nat.le_of_not_lt hleft)
          exact Nat.div_eq_of_lt (h.trans_le hle)
        have hkeep : a / 256 ^ (8 * j) % 256 ^ i = a / 256 ^ (8 * j) % 256 ^ (i + 1) := by
          rw [Nat.pow_succ, Nat.mod_mul, hzero, Nat.zero_mod, Nat.mul_zero, Nat.add_zero]
        have hindex : ((len - (8 * j + i) : Nat) : Int) - 1
            = ((len - (8 * j + (i + 1)) : Nat) : Int) - 1 := by
          omega
        rw [limbStep, if_neg (by simp only; omega), hkeep, hindex])
  rw [readLimb, hloop, Nat.mul_succ]
  refine congrArg (·, _) (BitVec.eq_of_toNat_eq ?_)
  rw [BitVec.toNat_ofNat, BitVec.toNat_ofNat]
  exact Nat.mod_mod _ _

/-- The limbs of a number, from the lowest. -/
theorem readLimb_eq (a j : Nat) :
    readLimb (bnWriteBin (bnSizeBin a) a) (((bnSizeBin a - 8 * j : Nat) : Int) - 1)
      = (BitVec.ofNat 64 (a / 2 ^ (64 * j)), ((bnSizeBin a - 8 * (j + 1) : Nat) : Int) - 1) := by
  have hpow : (256 : Nat) ^ (8 * j) = 2 ^ (64 * j) := by
    rw [Nat.pow_mul, Nat.pow_mul]
  rw [readLimb_bnWriteBin (lt_bnSizeBin a), hpow]

theorem bn2Block128_eq (a : Nat) :
    bn2Block128 a = (BitVec.ofNat 64 a, BitVec.ofNat 64 (a / 2 ^ 64)) := by
  have h0 := readLimb_eq a 0
  have h1 := readLimb_eq a 1
  rw [Nat.mul_zero, Nat.sub_zero, Nat.pow_zero, Nat.div_one] at h0
  rw [bn2Block128, h0, h1]

theorem bn2Block256_eq (a : Nat) :
    bn2Block256 a = ((BitVec.ofNat 64 (a / 2 ^ 128), BitVec.ofNat 64 (a / 2 ^ 192)),
      (BitVec.ofNat 64 a, BitVec.ofNat 64 (a / 2 ^ 64))) := by
  have h0 := readLimb_eq a 0
  have h1 := readLimb_eq a 1
  have h2 := readLimb_eq a 2
  have h3 := readLimb_eq a 3
  rw [Nat.mul_zero, Nat.sub_zero, Nat.pow_zero, Nat.div_one] at h0
  rw [bn2Block256, h0, h1, h2, h3]

/-! ## `block_2_bn_128`

The two lanes are written from the end of a zeroed buffer.  A byte that is
zero is skipped, and the other index of the source is counted down without
being read. -/

/-- `bn_read_bin`: most significant byte first. -/
def bnReadBin (buffer : List Byte) : Nat := leVal buffer.reverse

/-- One turn of a byte loop of `block_2_bn_128`: byte `k` of a lane goes to
`top - k`, where a zero already stands if it is zero. -/
def limbBytesStep (r : Uint64) (top k : Nat) (buffer : List Byte) : List Byte :=
  let value : Byte := ((r >>> (k * 8)) &&& 0xFF).setWidth 8
  if value ≠ 0 then buffer.set (top - k) value else buffer

/-- `block_2_bn_128`.  The source also counts a `buffer_index` down, which it
never reads. -/
def block2Bn128 (b : Block) : Nat :=
  let buffer := List.replicate 16 (0 : Byte)
  let r1 := b.2
  let r2 := b.1
  let buffer := forLoop 8 (fun k buffer => limbBytesStep r2 15 k buffer) buffer
  let buffer := forLoop 8 (fun k buffer => limbBytesStep r1 7 k buffer) buffer
  bnReadBin buffer

theorem limbByte_eq (r : Uint64) (k : Nat) :
    (((r >>> (k * 8)) &&& 0xFF).setWidth 8 : Byte) = BitVec.ofNat 8 (r.toNat / 256 ^ k) := by
  have hpow : 2 ^ (k * 8) = 256 ^ k := by rw [Nat.mul_comm, Nat.pow_mul]
  apply BitVec.eq_of_toNat_eq
  rw [BitVec.toNat_setWidth, BitVec.toNat_and, BitVec.toNat_ushiftRight,
    Nat.shiftRight_eq_div_pow, hpow, BitVec.toNat_ofNat]
  have hmask := Nat.and_two_pow_sub_one_eq_mod (r.toNat / 256 ^ k) 8
  have hff : (0xFF : Uint64).toNat = 2 ^ 8 - 1 := rfl
  rw [hff, hmask, Nat.mod_mod]

/-- Leaving out a zero changes nothing where a zero stands. -/
theorem limbBytesStep_eq {r : Uint64} {top k : Nat} {buffer : List Byte}
    (h : buffer[top - k]? = some 0) :
    limbBytesStep r top k buffer = buffer.set (top - k) (BitVec.ofNat 8 (r.toNat / 256 ^ k)) := by
  simp only [limbBytesStep, limbByte_eq]
  split
  case isTrue => rfl
  case isFalse hv =>
      obtain ⟨hlt, hget⟩ := List.getElem?_eq_some_iff.mp h
      rw [not_not.mp hv, ← hget, List.set_getElem_self hlt]

/-- A lane ends at `top`, most significant byte first; the rest stays. -/
theorem getElem?_limbBytes {r : Uint64} {top n : Nat} {buffer : List Byte} (hn : n ≤ top + 1)
    (h : ∀ k < n, buffer[top - k]? = some 0) (m : Nat) :
    (forLoop n (fun k buffer => limbBytesStep r top k buffer) buffer)[m]?
      = if m ≤ top ∧ top - m < n then some (BitVec.ofNat 8 (r.toNat / 256 ^ (top - m)))
        else buffer[m]? := by
  induction n generalizing m with
  | zero => simp
  | succ n ih =>
      have ih := ih (Nat.le_of_succ_le hn) fun k hk => h k (Nat.lt_succ_of_lt hk)
      have hzero := h n (Nat.lt_succ_self n)
      have hnew : (forLoop n (fun k buffer => limbBytesStep r top k buffer) buffer)[top - n]?
          = some 0 := by
        rw [ih, if_neg (by omega), hzero]
      rw [forLoop_succ, limbBytesStep_eq hnew, List.getElem?_set]
      by_cases hm : top - n = m
      · have hback : top - m = n := by omega
        rw [if_pos hm, if_pos (List.getElem?_eq_some_iff.mp hnew).1, if_pos (by omega), hback]
      · rw [if_neg hm, ih]
        have hiff : m ≤ top ∧ top - m < n + 1 ↔ m ≤ top ∧ top - m < n := by omega
        simp only [hiff]

/-- Both loops leave the sixteen bytes of the block, most significant first. -/
theorem limbBytes_both (b : Block) :
    forLoop 8 (fun k buffer => limbBytesStep b.2 7 k buffer)
        (forLoop 8 (fun k buffer => limbBytesStep b.1 15 k buffer) (List.replicate 16 0))
      = (leBytes 8 b.1.toNat ++ leBytes 8 b.2.toNat).reverse := by
  have hlow : ∀ m, (forLoop 8 (fun k buffer => limbBytesStep b.1 15 k buffer)
      (List.replicate 16 0))[m]? = if m ≤ 15 ∧ 15 - m < 8
        then some (BitVec.ofNat 8 (b.1.toNat / 256 ^ (15 - m))) else (List.replicate 16 0)[m]? :=
    getElem?_limbBytes (by decide) fun k hk => by
      rw [List.getElem?_replicate, if_pos (by omega)]
  have hzero : ∀ k < 8, (forLoop 8 (fun k buffer => limbBytesStep b.1 15 k buffer)
      (List.replicate 16 0))[7 - k]? = some 0 := by
    intro k hk
    rw [hlow, if_neg (by omega), List.getElem?_replicate, if_pos (by omega)]
  have hboth := fun m => getElem?_limbBytes (r := b.2) (n := 8) (by decide) hzero m
  simp only [hlow] at hboth
  apply List.ext_getElem?
  intro m
  rw [hboth]
  by_cases hm : m < 16
  · rw [List.getElem?_reverse (by simpa using hm), List.length_append, length_leBytes,
      length_leBytes]
    by_cases hhigh : m < 8
    · have hback : 16 - 1 - m - 8 = 7 - m := by omega
      rw [if_pos (by omega), List.getElem?_append_right (by rw [length_leBytes]; omega),
        length_leBytes, getElem?_leBytes, if_pos (by omega), hback]
    · have hback : 16 - 1 - m = 15 - m := by omega
      rw [if_neg (by omega), if_pos (by omega),
        List.getElem?_append_left (by rw [length_leBytes]; omega), getElem?_leBytes,
        if_pos (by omega), hback]
  · rw [if_neg (by omega), if_neg (by omega), List.getElem?_replicate, if_neg (by omega),
      List.getElem?_eq_none (by simp; omega)]

/-- The block is read as the number its two lanes spell. -/
theorem block2Bn128_eq (b : Block) : block2Bn128 b = b.1.toNat + 2 ^ 64 * b.2.toNat := by
  have hlane : ∀ x : Uint64, leVal (leBytes 8 x.toNat) = x.toNat := fun x => by
    rw [leVal_leBytes]
    exact Nat.mod_eq_of_lt x.isLt
  have hpow : (256 : Nat) ^ 8 = 2 ^ 64 := rfl
  rw [block2Bn128, limbBytes_both, bnReadBin, List.reverse_reverse, leVal_append, length_leBytes,
    hlane, hlane, hpow]

/-- There and back the low bits stay: 128 of them through one block, 256
through two. -/
theorem block2Bn128_bn2Block (a : Nat) :
    block2Bn128 (bn2Block128 a) = a % 2 ^ 128 ∧
    block2Bn128 (bn2Block256 a).1 * 2 ^ 128 + block2Bn128 (bn2Block256 a).2 = a % 2 ^ 256 := by
  rw [block2Bn128_eq, block2Bn128_eq, block2Bn128_eq, bn2Block128_eq, bn2Block256_eq]
  simp only [BitVec.toNat_ofNat]
  constructor
  · exact Nat.mod_mul.symm
  · have hlow : a % 2 ^ 64 + 2 ^ 64 * (a / 2 ^ 64 % 2 ^ 64) = a % 2 ^ 128 := Nat.mod_mul.symm
    have hhigh : a / 2 ^ 128 % 2 ^ 64 + 2 ^ 64 * (a / 2 ^ 192 % 2 ^ 64)
        = a / 2 ^ 128 % 2 ^ 128 := by
      have hpow : (2 : Nat) ^ 192 = 2 ^ 128 * 2 ^ 64 := rfl
      rw [hpow, ← Nat.div_div_eq_div_mul]
      exact Nat.mod_mul.symm
    have hall : a % 2 ^ 128 + 2 ^ 128 * (a / 2 ^ 128 % 2 ^ 128) = a % 2 ^ 256 := Nat.mod_mul.symm
    rw [hlow, hhigh, Nat.mul_comm, Nat.add_comm, hall]

end PSVFSS

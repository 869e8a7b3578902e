/-
# `Lib.Bytes` — byte buffers and the little-endian codec

A buffer is a list of bytes of a fixed length.  `memcpy` overwrites a range
of a buffer and never changes its length, `slice` reads a range; the two
read-after-write laws (`slice_memcpy_within`, `slice_memcpy_disjoint`) are all
a layout argument needs.

`leBytes n v` is the `n`-byte little-endian image of `v`, `leVal` its
inverse; `storeLE`/`loadLE` are the same pair at a fixed-width word.
-/
import Mathlib.Algebra.Ring.Nat
import Mathlib.Data.List.GetD

namespace ByteBuffer

abbrev Byte := BitVec 8

/-! ## The little-endian codec

Numbers and words, with as many bytes as are asked for.  The high part of a
number that does not fit is dropped, as a C store drops it. -/

/-- The `n` low bytes of `v`, least significant first. -/
def leBytes : Nat → Nat → List Byte
  | 0, _ => []
  | n + 1, v => BitVec.ofNat 8 v :: leBytes n (v / 256)

/-- The number a little-endian byte string denotes. -/
def leVal : List Byte → Nat
  | [] => 0
  | b :: bs => b.toNat + 256 * leVal bs

@[simp] theorem length_leBytes (n v : Nat) : (leBytes n v).length = n := by
  induction n generalizing v with
  | zero => rfl
  | succ n ih => rw [leBytes, List.length_cons, ih]

theorem leVal_leBytes (n v : Nat) : leVal (leBytes n v) = v % 256 ^ n := by
  induction n generalizing v with
  | zero => rw [leBytes, leVal, Nat.pow_zero, Nat.mod_one]
  | succ n ih =>
      have hpow : 256 ^ (n + 1) = 256 * 256 ^ n := by rw [Nat.pow_succ, Nat.mul_comm]
      rw [leBytes, leVal, ih, BitVec.toNat_ofNat, hpow, Nat.mod_mul]

/-- The bytes of a word, least significant first. -/
def storeLE {w : Nat} (x : BitVec w) : List Byte := leBytes (w / 8) x.toNat

/-- The word a byte string denotes. -/
def loadLE (w : Nat) (bs : List Byte) : BitVec w := BitVec.ofNat w (leVal bs)

@[simp] theorem length_storeLE {w : Nat} (x : BitVec w) : (storeLE x).length = w / 8 := by
  simp [storeLE]

theorem loadLE_storeLE {w : Nat} (hw : 8 ∣ w) (x : BitVec w) : loadLE w (storeLE x) = x := by
  obtain ⟨n, rfl⟩ := hw
  have hpow : 256 ^ n = 2 ^ (8 * n) := by rw [Nat.pow_mul]
  apply BitVec.eq_of_toNat_eq
  rw [loadLE, storeLE, leVal_leBytes, Nat.mul_div_cancel_left n (by decide), hpow,
    BitVec.toNat_ofNat, Nat.mod_mod, Nat.mod_eq_of_lt x.isLt]

theorem storeLE_injective {w : Nat} (hw : 8 ∣ w) :
    Function.Injective (storeLE : BitVec w → List Byte) := by
  intro x y h
  rw [← loadLE_storeLE hw x, h, loadLE_storeLE hw y]

/-! ## Reading and writing ranges of a buffer

A buffer keeps its length, so a write is described by what later reads of it
give: the source inside the range, the old contents outside. -/

/-- Overwrite `dst` from offset `off` on with `src`. -/
def memcpy (dst : List Byte) (off : Nat) (src : List Byte) : List Byte :=
  dst.mapIdx fun j x => if off ≤ j then src.getD (j - off) x else x

/-- Set the `n` bytes of `dst` from `off` on to `v`. -/
def memset (dst : List Byte) (off : Nat) (v : Byte) (n : Nat) : List Byte :=
  memcpy dst off (List.replicate n v)

/-- The `n` bytes of `k` from offset `off` on. -/
def slice (k : List Byte) (off n : Nat) : List Byte := (k.drop off).take n

/-- Byte `j` of `k`. -/
def byteAt (k : List Byte) (j : Nat) : Byte := k.getD j 0

@[simp] theorem length_memcpy (dst : List Byte) (off : Nat) (src : List Byte) :
    (memcpy dst off src).length = dst.length := by
  simp [memcpy]

@[simp] theorem length_memset (dst : List Byte) (off : Nat) (v : Byte) (n : Nat) :
    (memset dst off v n).length = dst.length := by
  simp [memset]

theorem length_slice {k : List Byte} {off n : Nat} (h : off + n ≤ k.length) :
    (slice k off n).length = n := by
  simp only [slice, List.length_take, List.length_drop]
  omega

theorem getElem?_slice (k : List Byte) (off n i : Nat) :
    (slice k off n)[i]? = if i < n then k[off + i]? else none := by
  simp only [slice, List.getElem?_take, List.getElem?_drop]

theorem getElem?_memcpy (dst : List Byte) (off : Nat) (src : List Byte) (j : Nat) :
    (memcpy dst off src)[j]?
      = dst[j]?.map fun x => if off ≤ j then src.getD (j - off) x else x := by
  simp [memcpy, List.getElem?_mapIdx]

/-- Reading inside the range just written reads the source. -/
theorem slice_memcpy_within {dst src : List Byte} {off off' n : Nat}
    (hdst : off + src.length ≤ dst.length) (hlo : off ≤ off')
    (hhi : off' + n ≤ off + src.length) :
    slice (memcpy dst off src) off' n = slice src (off' - off) n := by
  apply List.ext_getElem?
  intro i
  rw [getElem?_slice, getElem?_slice]
  by_cases hi : i < n
  · rw [if_pos hi, if_pos hi, getElem?_memcpy]
    have hd : off' + i < dst.length := by omega
    have hs : off' - off + i < src.length := by omega
    have hj : off' + i - off = off' - off + i := by omega
    rw [List.getElem?_eq_getElem hd, List.getElem?_eq_getElem hs, Option.map_some,
      if_pos (by omega), hj, List.getD_eq_getElem _ _ hs]
  · rw [if_neg hi, if_neg hi]

/-- Reading exactly the range just written reads the source back. -/
theorem slice_memcpy_self {dst src : List Byte} {off : Nat}
    (hdst : off + src.length ≤ dst.length) :
    slice (memcpy dst off src) off src.length = src := by
  rw [slice_memcpy_within hdst (Nat.le_refl off) (Nat.le_refl _), Nat.sub_self]
  simp [slice]

/-- A write does not touch a range it is disjoint from. -/
theorem slice_memcpy_disjoint {dst src : List Byte} {off off' n : Nat}
    (h : off' + n ≤ off ∨ off + src.length ≤ off') :
    slice (memcpy dst off src) off' n = slice dst off' n := by
  apply List.ext_getElem?
  intro i
  rw [getElem?_slice, getElem?_slice]
  by_cases hi : i < n
  · rw [if_pos hi, if_pos hi, getElem?_memcpy]
    cases hd : dst[off' + i]? with
    | none => rfl
    | some x =>
        rw [Option.map_some]
        by_cases hlo : off ≤ off' + i
        · rw [if_pos hlo, List.getD_eq_default _ _ (by omega)]
        · rw [if_neg hlo]
  · rw [if_neg hi, if_neg hi]

theorem slice_memset_disjoint {dst : List Byte} {off off' n m : Nat} {v : Byte}
    (h : off' + n ≤ off ∨ off + m ≤ off') :
    slice (memset dst off v m) off' n = slice dst off' n :=
  slice_memcpy_disjoint (by simpa using h)

theorem slice_slice {k : List Byte} {off n off' m : Nat} (h : off' + m ≤ n) :
    slice (slice k off n) off' m = slice k (off + off') m := by
  apply List.ext_getElem?
  intro i
  rw [getElem?_slice, getElem?_slice, getElem?_slice]
  by_cases hi : i < m
  · rw [if_pos hi, if_pos hi, if_pos (by omega), Nat.add_assoc]
  · rw [if_neg hi, if_neg hi]

/-- A byte is a slice of length one. -/
theorem byteAt_eq_slice (k : List Byte) (j : Nat) : byteAt k j = (slice k j 1).getD 0 0 := by
  rw [byteAt, List.getD_eq_getElem?_getD, List.getD_eq_getElem?_getD, getElem?_slice]
  simp

end ByteBuffer

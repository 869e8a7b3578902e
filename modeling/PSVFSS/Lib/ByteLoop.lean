/-
# `Lib.ByteLoop` — words taken apart and put together in byte loops

    putBytes    for (i = 0; i < k; i++) buffer[off + i] = (uint8_t)(x >> (8 * i));
    getBytes    for (i = 0; i < k; i++) x |= (uintW_t)buffer[off + i] << (8 * i);

The first is a `memcpy` of the little-endian bytes (`putBytes_eq`), the second
a little-endian load (`getBytes_eq`).  Big-endian images are the same bytes in
reverse.
-/
import Mathlib.Tactic.Ring
import PSVFSS.Lib.Bytes
import PSVFSS.Lib.Loop

namespace ByteBuffer

open Loop

/-! ## More of the codec

What the loops need beyond the inverse pair: how an image splits at a byte,
what a write of one byte does, and that slots of equal width are one range. -/

theorem leVal_append (bs cs : List Byte) :
    leVal (bs ++ cs) = leVal bs + 256 ^ bs.length * leVal cs := by
  induction bs with
  | nil => simp [leVal]
  | cons b bs ih =>
      rw [List.cons_append, leVal, ih, leVal, List.length_cons, Nat.pow_succ]
      ring

theorem leVal_lt (bs : List Byte) : leVal bs < 256 ^ bs.length := by
  induction bs with
  | nil => exact Nat.one_pos
  | cons b bs ih =>
      have hb := b.isLt
      rw [leVal, List.length_cons, Nat.pow_succ]
      omega

/-- The other half of the inverse pair. -/
theorem leBytes_leVal (bs : List Byte) : leBytes bs.length (leVal bs) = bs := by
  induction bs with
  | nil => rfl
  | cons b bs ih =>
      have hb := b.isLt
      have hdiv : (b.toNat + 256 * leVal bs) / 256 = leVal bs := by omega
      have hhead : BitVec.ofNat 8 (b.toNat + 256 * leVal bs) = b := by
        apply BitVec.eq_of_toNat_eq
        rw [BitVec.toNat_ofNat]
        omega
      rw [List.length_cons, leVal, leBytes, hdiv, hhead, ih]

/-- A write at the end of what is already there. -/
theorem memcpy_append (l r src : List Byte) (h : src.length ≤ r.length) :
    memcpy (l ++ r) l.length src = l ++ src ++ r.drop src.length := by
  apply List.ext_getElem?
  intro i
  rw [getElem?_memcpy, List.append_assoc]
  by_cases hl : i < l.length
  · rw [List.getElem?_append_left hl, List.getElem?_append_left hl, List.getElem?_eq_getElem hl,
      Option.map_some, if_neg (Nat.not_le_of_lt hl)]
  · have hle := Nat.le_of_not_lt hl
    rw [List.getElem?_append_right hle, List.getElem?_append_right hle]
    by_cases hs : i - l.length < src.length
    · have hr : i - l.length < r.length := hs.trans_le h
      rw [List.getElem?_append_left hs, List.getElem?_eq_getElem hr, List.getElem?_eq_getElem hs,
        Option.map_some, if_pos hle, List.getD_eq_getElem _ _ hs]
    · have hsub : src.length + (i - l.length - src.length) = i - l.length := by omega
      rw [List.getElem?_append_right (Nat.le_of_not_lt hs), List.getElem?_drop, hsub]
      cases r[i - l.length]? with
      | none => rfl
      | some x =>
          rw [Option.map_some, if_pos hle, List.getD_eq_default _ _ (Nat.le_of_not_lt hs)]

/-- A write inside the buffer, by what is before and after it. -/
theorem memcpy_eq {buffer src : List Byte} {off : Nat} (h : off + src.length ≤ buffer.length) :
    memcpy buffer off src = buffer.take off ++ src ++ buffer.drop (off + src.length) := by
  have hoff : (buffer.take off).length = off := List.length_take_of_le (by omega)
  have hwrite := memcpy_append (buffer.take off) (buffer.drop off) src (by
    rw [List.length_drop]
    omega)
  rw [List.take_append_drop, hoff, List.drop_drop] at hwrite
  exact hwrite

theorem memcpy_single (l r : List Byte) {k : Nat} (hk : k < r.length) (b : Byte) :
    memcpy (l ++ r) (l.length + k) [b] = l ++ r.set k b := by
  have htake : (l ++ r).take (l.length + k) = l ++ r.take k := List.take_length_add_append k
  have hdrop : (l ++ r).drop (l.length + k + 1) = r.drop (k + 1) := by
    rw [Nat.add_assoc, List.drop_length_add_append]
  rw [memcpy_eq (by rw [List.length_append, List.length_singleton]; omega), htake,
    List.length_singleton, hdrop, List.set_eq_take_append_cons_drop, if_pos hk, List.append_assoc,
    List.append_assoc]
  rfl

/-- Encodings of one length side by side determine what they encode. -/
theorem flatMap_injective {α : Type} {f : α → List Byte} (hf : Function.Injective f)
    (hlen : ∀ x y, (f x).length = (f y).length) {l l' : List α} (hl : l.length = l'.length)
    (h : l.flatMap f = l'.flatMap f) : l = l' := by
  induction l generalizing l' with
  | nil => exact (List.eq_nil_of_length_eq_zero hl.symm).symm
  | cons x l ih =>
      cases l' with
      | nil => cases hl
      | cons y l' =>
          rw [List.flatMap_cons, List.flatMap_cons] at h
          obtain ⟨hhead, htail⟩ := List.append_inj h (hlen x y)
          rw [hf hhead, ih (Nat.succ.inj hl) htail]

theorem slice_add (k : List Byte) (off a b : Nat) :
    slice k off (a + b) = slice k off a ++ slice k (off + a) b := by
  rw [slice, List.take_add, List.drop_drop]
  rfl

/-- Slots of `w` bytes, side by side, are one slice. -/
theorem flatMap_slots (k : List Byte) (off w n : Nat) :
    (List.range n).flatMap (fun j => slice k (off + j * w) w) = slice k off (n * w) := by
  induction n with
  | zero => simp [slice]
  | succ n ih =>
      rw [List.range_succ, List.flatMap_append, ih, List.flatMap_singleton, Nat.succ_mul, slice_add]

theorem getElem?_leBytes (n v k : Nat) :
    (leBytes n v)[k]? = if k < n then some (BitVec.ofNat 8 (v / 256 ^ k)) else none := by
  induction n generalizing v k with
  | zero => rfl
  | succ n ih =>
      cases k with
      | zero => simp [leBytes]
      | succ k =>
          have hdiv : v / 256 / 256 ^ k = v / 256 ^ (k + 1) := by
            rw [Nat.div_div_eq_div_mul, Nat.pow_succ, Nat.mul_comm]
          rw [leBytes, List.getElem?_cons_succ, ih, hdiv]
          simp only [Nat.succ_lt_succ_iff]

theorem storeLE_loadLE {w : Nat} {bs : List Byte} (h : w = 8 * bs.length) :
    storeLE (loadLE w bs) = bs := by
  have hpow : 2 ^ (8 * bs.length) = 256 ^ bs.length := by rw [Nat.pow_mul]
  have hlt : leVal bs < 2 ^ w := h ▸ hpow ▸ leVal_lt bs
  have hlen : w / 8 = bs.length := by omega
  rw [storeLE, loadLE, BitVec.toNat_ofNat, Nat.mod_eq_of_lt hlt, hlen, leBytes_leVal]

/-- The byte of a word at a shift. -/
theorem byte_shiftRight {w : Nat} (x : BitVec w) (i : Nat) :
    (x >>> (8 * i)).setWidth 8 = BitVec.ofNat 8 (x.toNat / 256 ^ i) := by
  have hpow : 2 ^ (8 * i) = 256 ^ i := by rw [Nat.pow_mul]
  apply BitVec.eq_of_toNat_eq
  rw [BitVec.toNat_setWidth, BitVec.toNat_ushiftRight, Nat.shiftRight_eq_div_pow, hpow,
    BitVec.toNat_ofNat]

theorem storeLE_eq_map {w : Nat} (x : BitVec w) :
    storeLE x = (List.range (w / 8)).map fun i => (x >>> (8 * i)).setWidth 8 := by
  apply List.ext_getElem?
  intro i
  rw [storeLE, getElem?_leBytes, List.getElem?_map]
  by_cases hi : i < w / 8
  · rw [if_pos hi, List.getElem?_range hi, Option.map_some, byte_shiftRight]
  · rw [if_neg hi, List.getElem?_eq_none (by rw [List.length_range]; exact Nat.le_of_not_lt hi),
      Option.map_none]

/-- A byte on top of the `i` bytes a word already has. -/
theorem or_byte {w : Nat} (x : Nat) {i : Nat} (hi : 8 * (i + 1) ≤ w) :
    BitVec.ofNat w (x % 256 ^ i) ||| (BitVec.ofNat 8 (x / 256 ^ i)).setWidth w <<< (8 * i)
      = BitVec.ofNat w (x % 256 ^ (i + 1)) := by
  have hpow : ∀ k, (256 : Nat) ^ k = 2 ^ (8 * k) := fun k => by rw [Nat.pow_mul]
  have hword : ∀ k ≤ i + 1, (256 : Nat) ^ k ≤ 2 ^ w := fun k hk =>
    hpow k ▸ Nat.pow_le_pow_right (by decide) (by omega)
  have hfit : ∀ k ≤ i + 1, ∀ y, y % 256 ^ k < 2 ^ w := fun k hk y =>
    (Nat.mod_lt y (Nat.pow_pos (by decide))).trans_le (hword k hk)
  have hbyte : ((BitVec.ofNat 8 (x / 256 ^ i)).setWidth w <<< (8 * i)).toNat
      = 256 ^ i * (x / 256 ^ i % 256) := by
    have hlt : 256 ^ i * (x / 256 ^ i % 256) < 2 ^ w :=
      (Nat.mul_lt_mul_of_pos_left (Nat.mod_lt _ (by decide))
        (Nat.pow_pos (by decide))).trans_le (hword (i + 1) (Nat.le_refl _))
    have hsmall : x / 256 ^ i % 256 < 2 ^ w :=
      (Nat.mod_lt _ (by decide)).trans_le ((Nat.pow_one 256).symm.le.trans (hword 1 (by omega)))
    rw [BitVec.toNat_shiftLeft, BitVec.toNat_setWidth, BitVec.toNat_ofNat, Nat.shiftLeft_eq,
      ← hpow, Nat.mul_comm _ (256 ^ i), Nat.mod_eq_of_lt hsmall, Nat.mod_eq_of_lt hlt]
  apply BitVec.eq_of_toNat_eq
  rw [BitVec.toNat_or, hbyte, BitVec.toNat_ofNat, BitVec.toNat_ofNat,
    Nat.mod_eq_of_lt (hfit i (Nat.le_succ i) x), Nat.mod_eq_of_lt (hfit (i + 1) (Nat.le_refl _) x),
    Nat.or_comm, hpow, ← Nat.two_pow_add_eq_or_of_lt (Nat.mod_lt _ (Nat.two_pow_pos _)), ← hpow,
    Nat.add_comm, Nat.pow_succ, ← Nat.mod_mul]

/-! ## The loops

Both inductions are over the number of bytes: the last pass writes, or reads,
the byte above the others. -/

/-- `k` bytes of `x`, written one at a time from `off` on. -/
def putBytes {w : Nat} (k off : Nat) (x : BitVec w) (buffer : List Byte) : List Byte :=
  forLoop k (fun i buffer => buffer.set (off + i) ((x >>> (8 * i)).setWidth 8)) buffer

/-- A word of `k` bytes, read one at a time from `off` on. -/
def getBytes (w k off : Nat) (buffer : List Byte) : BitVec w :=
  forLoop k (fun i x => x ||| (byteAt buffer (off + i)).setWidth w <<< (8 * i)) 0

@[simp] theorem length_putBytes {w : Nat} (k off : Nat) (x : BitVec w) (buffer : List Byte) :
    (putBytes k off x buffer).length = buffer.length := by
  induction k with
  | zero => rfl
  | succ k ih => rw [putBytes, forLoop_succ, List.length_set, ← putBytes, ih]

theorem putBytes_eq {w : Nat} (k off : Nat) (x : BitVec w) (buffer : List Byte) :
    putBytes k off x buffer = memcpy buffer off (leBytes k x.toNat) := by
  apply List.ext_getElem?
  intro m
  rw [getElem?_memcpy]
  induction k with
  | zero => simp [putBytes, leBytes]
  | succ k ih =>
      rw [putBytes, forLoop_succ, List.getElem?_set, ← putBytes, ih, length_putBytes,
        byte_shiftRight]
      by_cases hm : off + k = m
      · subst hm
        rw [if_pos rfl]
        by_cases hlen : off + k < buffer.length
        · rw [if_pos hlen, List.getElem?_eq_getElem hlen, Option.map_some,
            if_pos (Nat.le_add_right _ _), Nat.add_sub_cancel_left, List.getD_eq_getElem?_getD,
            getElem?_leBytes, if_pos (Nat.lt_succ_self k), Option.getD_some]
        · rw [if_neg hlen, List.getElem?_eq_none (Nat.le_of_not_lt hlen), Option.map_none]
      · -- the last byte goes elsewhere
        rw [if_neg hm]
        refine congrArg (Option.map · buffer[m]?) (funext fun b => ?_)
        by_cases hoff : off ≤ m
        · have hiff : m - off < k + 1 ↔ m - off < k := by omega
          rw [if_pos hoff, if_pos hoff, List.getD_eq_getElem?_getD, List.getD_eq_getElem?_getD,
            getElem?_leBytes, getElem?_leBytes]
          simp only [hiff]
        · rw [if_neg hoff, if_neg hoff]

theorem slice_succ {k : List Byte} {off n : Nat} (h : off + n < k.length) :
    slice k off (n + 1) = slice k off n ++ [byteAt k (off + n)] := by
  have hlt : n < (k.drop off).length := by
    rw [List.length_drop]
    omega
  rw [slice, slice, List.take_succ_eq_append_getElem hlt, List.getElem_drop, byteAt,
    List.getD_eq_getElem _ _ h]

theorem getBytes_eq {w k off : Nat} {buffer : List Byte} (hw : 8 * k ≤ w)
    (hlen : off + k ≤ buffer.length) :
    getBytes w k off buffer = loadLE w (slice buffer off k) := by
  induction k with
  | zero => simp [getBytes, slice, loadLE, leVal]
  | succ k ih =>
      have hk : (slice buffer off k).length = k := length_slice (by omega)
      have hx : leVal (slice buffer off (k + 1))
          = leVal (slice buffer off k) + 256 ^ k * (byteAt buffer (off + k)).toNat := by
        rw [slice_succ (by omega), leVal_append, hk, leVal, leVal, Nat.mul_zero, Nat.add_zero]
      have hlt : leVal (slice buffer off k) < 256 ^ k :=
        (leVal_lt (slice buffer off k)).trans_eq (congrArg (256 ^ ·) hk)
      have hmod : leVal (slice buffer off (k + 1)) % 256 ^ k = leVal (slice buffer off k) := by
        rw [hx, Nat.add_mul_mod_self_left, Nat.mod_eq_of_lt hlt]
      have hdiv : leVal (slice buffer off (k + 1)) / 256 ^ k
          = (byteAt buffer (off + k)).toNat := by
        rw [hx, Nat.add_mul_div_left _ _ (Nat.pow_pos (by decide)), Nat.div_eq_of_lt hlt,
          Nat.zero_add]
      have htop : leVal (slice buffer off (k + 1)) % 256 ^ (k + 1)
          = leVal (slice buffer off (k + 1)) := by
        have h := leVal_lt (slice buffer off (k + 1))
        rw [length_slice hlen] at h
        exact Nat.mod_eq_of_lt h
      have hbyte := or_byte (w := w) (leVal (slice buffer off (k + 1))) hw
      rw [hmod, hdiv, BitVec.ofNat_toNat, BitVec.setWidth_eq, htop] at hbyte
      rw [getBytes, forLoop_succ, ← getBytes, ih (by omega) (by omega)]
      exact hbyte

/-! ## A length in front -/

/-- The four-byte number a buffer begins with. -/
def announced (buffer : List Byte) : Nat := leVal (buffer.take 4)

theorem toNat_getBytes_announced {buffer : List Byte} (h : 4 ≤ buffer.length) :
    (getBytes 32 4 0 buffer).toNat = announced buffer := by
  have hlt : leVal (slice buffer 0 4) < 2 ^ 32 := by
    have h := leVal_lt (slice buffer 0 4)
    rwa [length_slice (by omega)] at h
  rw [getBytes_eq (by omega) (by omega), loadLE, BitVec.toNat_ofNat, Nat.mod_eq_of_lt hlt,
    announced, slice, List.drop_zero]

end ByteBuffer

/-
# `Vdpf.Layout` — what `parseKey` reads from the keys `genVDPF` stores

The evaluators' offsets against the generator's: each range read is the
range written for it, and no later write overlaps it.  Both keys carry the
correction words of one path, differ in the root seed, and agree in every
byte from 18 on.
-/
import PSVFSS.Vdpf.Gen

namespace PSVFSS

open ByteBuffer CipherMode PathTree Loop

variable {δ : Type}

/-! ## Control bits survive the trip through one byte -/

theorem setWidth_isBit {t : CInt} (h : IsBit t) : (t.setWidth 8).setWidth 32 = t := by
  rcases h with rfl | rfl <;> decide

theorem LevelSpec.isBit {C : Crypto δ} {ctx : Ecb Uint128} {size : Nat} {index : Uint64}
    {g : GenPath} {i : Nat} (h : LevelSpec C ctx size index g i) :
    IsBit (g.tCW0 i) ∧ IsBit (g.tCW1 i) := by
  have hturn : IsBit (if turnOf size index i then 1 else 0) := by
    split
    · exact .inr rfl
    · exact .inl rfl
  rw [h.tCW0, h.tCW1]
  exact ⟨isBit_xor (isBit_xor (isBit_xor (dpfPRG_bit1 C ctx _) (dpfPRG_bit1 C ctx _)) hturn)
      (.inr rfl),
    isBit_xor (isBit_xor (dpfPRG_bit2 C ctx _) (dpfPRG_bit2 C ctx _)) hturn⟩

/-! ## One level

A level is 18 bytes: a seed and the two control bits, a byte each. -/

@[simp] theorem length_storeLevel (g : GenPath) (i : Nat) (k : List Byte) :
    (storeLevel g i k).length = k.length := by
  simp [storeLevel]

/-- A level's bytes are `18 i .. 18 i + 17`; the rest stays. -/
theorem slice_storeLevel_disjoint (g : GenPath) {i off n : Nat} (k : List Byte)
    (h : off + n ≤ 18 * i ∨ 18 * i + 18 ≤ off) :
    slice (storeLevel g i k) off n = slice k off n := by
  simp only [storeLevel, cwSize]
  rw [slice_memcpy_disjoint, slice_memcpy_disjoint, slice_memcpy_disjoint] <;>
    simp only [length_storeLE, List.length_cons, List.length_nil] <;> omega

/-- The bytes of a level, as they are read back. -/
theorem slice_storeLevel_self (g : GenPath) (i : Nat) {k : List Byte}
    (hk : 18 * i + 18 ≤ k.length) :
    slice (storeLevel g i k) (18 * i) 16 = storeLE (g.sCW (i - 1)) ∧
    slice (storeLevel g i k) (18 * i + 16) 1 = [(g.tCW0 (i - 1)).setWidth 8] ∧
    slice (storeLevel g i k) (18 * i + 17) 1 = [(g.tCW1 (i - 1)).setWidth 8] := by
  have h16 : cwSize * i + cwSize - 2 = 18 * i + 16 := by
    simp only [cwSize]
    omega
  have h17 : cwSize * i + cwSize - 1 = 18 * i + 17 := by
    simp only [cwSize]
    omega
  simp only [storeLevel, h16, h17]
  refine ⟨?_, ?_, ?_⟩
  · rw [slice_memcpy_disjoint (by omega), slice_memcpy_disjoint (by omega)]
    exact slice_memcpy_self (by rw [length_storeLE]; omega)
  · rw [slice_memcpy_disjoint (by omega)]
    exact slice_memcpy_self (by
      simp only [length_memcpy, List.length_cons, List.length_nil]
      omega)
  · exact slice_memcpy_self (by
      simp only [length_memcpy, List.length_cons, List.length_nil]
      omega)

/-! ## All levels -/

/-- The loop over the levels writes only the bytes `18 .. 18 n + 17`. -/
theorem slice_storeLevels_disjoint (g : GenPath) {off m : Nat} (k : List Byte) (n : Nat)
    (h : off + m ≤ 18 ∨ 18 * n + 18 ≤ off) :
    slice (forLoop n (fun j k => storeLevel g (j + 1) k) k) off m = slice k off m := by
  induction n with
  | zero => rfl
  | succ n ih =>
      rw [forLoop_succ, slice_storeLevel_disjoint g _ (by omega)]
      exact ih (by omega)

theorem length_storeLevels (g : GenPath) (k : List Byte) (n : Nat) :
    (forLoop n (fun j k => storeLevel g (j + 1) k) k).length = k.length := by
  induction n with
  | zero => rfl
  | succ n ih => rw [forLoop_succ, length_storeLevel, ih]

theorem slice_storeLevels (g : GenPath) {k : List Byte} (n : Nat) (hk : 18 * n + 18 ≤ k.length) :
    ∀ i < n,
      slice (forLoop n (fun j k => storeLevel g (j + 1) k) k) (18 * (i + 1)) 16
          = storeLE (g.sCW i) ∧
        slice (forLoop n (fun j k => storeLevel g (j + 1) k) k) (18 * (i + 1) + 16) 1
          = [(g.tCW0 i).setWidth 8] ∧
        slice (forLoop n (fun j k => storeLevel g (j + 1) k) k) (18 * (i + 1) + 17) 1
          = [(g.tCW1 i).setWidth 8] := by
  induction n with
  | zero =>
      intro i hi
      exact absurd hi (Nat.not_lt_zero i)
  | succ n ih =>
      intro i hi
      rw [forLoop_succ]
      rcases Nat.lt_succ_iff_lt_or_eq.mp hi with hi | rfl
      · obtain ⟨hs, h0, h1⟩ := ih (by omega) i hi
        rw [slice_storeLevel_disjoint g _ (by omega), slice_storeLevel_disjoint g _ (by omega),
          slice_storeLevel_disjoint g _ (by omega)]
        exact ⟨hs, h0, h1⟩
      · exact slice_storeLevel_self g (i + 1) (by rw [length_storeLevels]; omega)

/-! ## The first key

Its ranges are written in increasing order and overlap nowhere, so each is
read back as it was written. -/

section
variable (g : GenPath) (size outblocks : Nat) (lastCW : Uint64) (cs : Fin 4 → Uint128)
  (k0 k1 : List Byte)

@[simp] theorem length_storeKey0 :
    (storeKey0 g size outblocks lastCW cs k0).length = k0.length := by
  simp [storeKey0, length_storeLevels]

variable {k0 k1 size outblocks}

/-- Every range the evaluators read from the first key, above its root bit. -/
theorem slice_storeKey0 (hk : k0.length = keySize size outblocks) :
    slice (storeKey0 g size outblocks lastCW cs k0) 1 16 = storeLE (g.path0 0).seed ∧
    slice (storeKey0 g size outblocks lastCW cs k0) (indexLastCW size) 8 = storeLE lastCW ∧
    ∀ i < size,
      slice (storeKey0 g size outblocks lastCW cs k0) (18 * (i + 1)) 16 = storeLE (g.sCW i) ∧
      slice (storeKey0 g size outblocks lastCW cs k0) (18 * (i + 1) + 16) 1
        = [(g.tCW0 i).setWidth 8] ∧
      slice (storeKey0 g size outblocks lastCW cs k0) (18 * (i + 1) + 17) 1
        = [(g.tCW1 i).setWidth 8] := by
  simp only [keySize, indexLastCW] at hk
  simp only [storeKey0, indexLastCW]
  refine ⟨?_, ?_, ?_⟩
  · rw [slice_memcpy_disjoint (by omega), slice_memcpy_disjoint (by omega),
      slice_memset_disjoint (by omega), slice_storeLevels_disjoint g _ size (by omega),
      slice_memcpy_disjoint (by omega)]
    exact slice_memcpy_self (by rw [length_storeLE, length_memcpy]; omega)
  · rw [slice_memcpy_disjoint (by omega)]
    exact slice_memcpy_self (by
      simp only [length_storeLE, length_memset, length_storeLevels, length_memcpy]
      omega)
  · intro i hi
    -- the words written after the levels start at `18 size + 18`
    have hafter : ∀ off n : Nat, off + n ≤ 18 * size + 18 → ∀ k : List Byte,
        slice (memcpy (memcpy (memset k (18 * size + 18) 0 16) (18 * size + 18) (storeLE lastCW))
          (18 * size + 18 + 16) ((piBytes cs).take (16 * outblocks))) off n = slice k off n := by
      intro off n h k
      rw [slice_memcpy_disjoint (by omega), slice_memcpy_disjoint (by omega),
        slice_memset_disjoint (by omega)]
    rw [hafter _ _ (by omega), hafter _ _ (by omega), hafter _ _ (by omega)]
    exact slice_storeLevels g size (by simp only [length_memcpy]; omega) i hi

/-- A key whose level ranges hold the words of a path carries that path. -/
theorem carries_of_slices {g : GenPath} {size : Nat} {k : List Byte} (outblocks' : Nat)
    (hlev : ∀ i < size, slice k (18 * (i + 1)) 16 = storeLE (g.sCW i) ∧
      slice k (18 * (i + 1) + 16) 1 = [(g.tCW0 i).setWidth 8] ∧
      slice k (18 * (i + 1) + 17) 1 = [(g.tCW1 i).setWidth 8])
    (hbits : ∀ i < size, IsBit (g.tCW0 i) ∧ IsBit (g.tCW1 i)) :
    Carries (parseKey size outblocks' k) g size := by
  have h16 : ∀ i, cwSize * (i + 1) + cwSize - 2 = 18 * (i + 1) + 16 := fun _ => rfl
  have h17 : ∀ i, cwSize * (i + 1) + cwSize - 1 = 18 * (i + 1) + 17 := fun _ => rfl
  refine ⟨fun i hi => ?_, fun i hi => ?_, fun i hi => ?_⟩ <;> simp only [parseKey]
  · rw [(hlev i hi).1, loadLE_storeLE (by decide)]
  · rw [h16, byteAt_eq_slice, (hlev i hi).2.1]
    exact setWidth_isBit (hbits i hi).1
  · rw [h17, byteAt_eq_slice, (hlev i hi).2.2]
    exact setWidth_isBit (hbits i hi).2

/-- What `parseKey` makes of the first key. -/
theorem parseKey_storeKey0 (hk : k0.length = keySize size outblocks) (outblocks' : Nat)
    (hbits : ∀ i < size, IsBit (g.tCW0 i) ∧ IsBit (g.tCW1 i)) :
    (parseKey size outblocks' (storeKey0 g size outblocks lastCW cs k0)).seed = (g.path0 0).seed ∧
    (parseKey size outblocks' (storeKey0 g size outblocks lastCW cs k0)).lastCW = lastCW ∧
    Carries (parseKey size outblocks' (storeKey0 g size outblocks lastCW cs k0)) g size := by
  obtain ⟨hseed, hlast, hlev⟩ := slice_storeKey0 g lastCW cs hk
  refine ⟨?_, ?_, carries_of_slices outblocks' hlev hbits⟩ <;> simp only [parseKey]
  · rw [hseed, loadLE_storeLE (by decide)]
  · rw [hlast, loadLE_storeLE (by decide)]

/-! ## The second key

The copy keeps everything from byte 18 on, which is all but the party, the
root seed and the root bit. -/

/-- From byte 18 on the second key is a copy of the first. -/
theorem slice_storeKey1 (hk0 : k0.length = keySize size outblocks)
    (hk1 : k1.length = keySize size outblocks) {off n : Nat} (hoff : 18 ≤ off)
    (hn : off + n ≤ keySize size outblocks) :
    slice (storeKey1 g size outblocks k0 k1) off n = slice k0 off n := by
  have hlen : (slice k0 0 (keySize size outblocks)).length = keySize size outblocks :=
    length_slice (by omega)
  simp only [storeKey1]
  rw [slice_memcpy_disjoint (by simp only [List.length_cons, List.length_nil]; omega),
    slice_memcpy_disjoint (by simp only [List.length_cons, List.length_nil]; omega),
    slice_memcpy_disjoint (by rw [length_storeLE]; omega),
    slice_memcpy_within (by omega) (Nat.zero_le off) (by omega), slice_slice (by omega)]
  simp

theorem slice_storeKey1_seed (hk1 : k1.length = keySize size outblocks) :
    slice (storeKey1 g size outblocks k0 k1) 1 16 = storeLE (g.path1 0).seed := by
  simp only [keySize, indexLastCW] at hk1
  simp only [storeKey1]
  rw [slice_memcpy_disjoint (by omega),
    slice_memcpy_disjoint (by simp only [List.length_cons, List.length_nil]; omega)]
  exact slice_memcpy_self (by rw [length_storeLE, length_memcpy]; omega)

/-- The proof correction words are shared. -/
theorem parseKey_storeKey1_cs (hk0 : k0.length = keySize size outblocks)
    (hk1 : k1.length = keySize size outblocks) :
    (parseKey size outblocks (storeKey1 g size outblocks k0 k1)).cs
      = (parseKey size outblocks k0).cs := by
  funext j
  simp only [parseKey]
  split
  case isTrue hj =>
      rw [slice_storeKey1 g hk0 hk1 (by simp only [indexLastCW]; omega)
        (by simp only [keySize]; omega)]
  case isFalse => rfl

/-- The last correction word and the levels are shared, whatever block count
the evaluator assumes. -/
theorem parseKey_storeKey1 (hk0 : k0.length = keySize size outblocks)
    (hk1 : k1.length = keySize size outblocks) (outblocks' : Nat) {g' : GenPath}
    (h : Carries (parseKey size outblocks' k0) g' size) :
    (parseKey size outblocks' (storeKey1 g size outblocks k0 k1)).seed = (g.path1 0).seed ∧
    (parseKey size outblocks' (storeKey1 g size outblocks k0 k1)).lastCW
      = (parseKey size outblocks' k0).lastCW ∧
    Carries (parseKey size outblocks' (storeKey1 g size outblocks k0 k1)) g' size := by
  have hks : keySize size outblocks = 18 * size + 34 + 16 * outblocks := by
    simp only [keySize, indexLastCW]
  refine ⟨?_, ?_, ?_, ?_, ?_⟩
  · simp only [parseKey]
    rw [slice_storeKey1_seed g hk1, loadLE_storeLE (by decide)]
  · simp only [parseKey, indexLastCW]
    rw [slice_storeKey1 g hk0 hk1 (by omega) (by omega)]
  · intro i hi
    rw [← h.sCW i hi]
    simp only [parseKey]
    rw [slice_storeKey1 g hk0 hk1 (by omega) (by omega)]
  · intro i hi
    rw [← h.tCW0 i hi]
    simp only [parseKey, byteAt_eq_slice, cwSize]
    rw [slice_storeKey1 g hk0 hk1 (by omega) (by omega)]
  · intro i hi
    rw [← h.tCW1 i hi]
    simp only [parseKey, byteAt_eq_slice, cwSize]
    rw [slice_storeKey1 g hk0 hk1 (by omega) (by omega)]

end

end PSVFSS

/-
# `Vdpf.Plain` — the plain DPF: `genDPF`, `batchEvalDPF`, `fullDomainDPF`

The same tree without the proof: key generation runs the path of `genVDPF`
once, the shares are 128-bit blocks added by exclusive or, and the last
correction word is a block.  The level loop, the key layout up to that word
and the fill of the whole tree are those of the verifiable functions, so their
lemmas are used as they are.

    batchEvalDPF_out          each output is `plainLeaf` at the leaf of its input
    fullDomainDPF_out         so is each output of the whole-domain walk
    fullDomainDPF_correct     the outputs are shares of the point function
-/
import PSVFSS.Vdpf.FullDomain

namespace PSVFSS

open ByteBuffer CipherMode PathTree Loop

variable {δ : Type}

/-! ## `genDPF` -/

def storePlainKey0 (g : GenPath) (size : Nat) (lastCW : Uint128) (k0 : List Byte) : List Byte :=
  let k0 := memcpy k0 0 [0]
  let k0 := memcpy k0 1 (storeLE (g.path0 0).seed)
  let k0 := memcpy k0 (cwSize - 1) [(g.path0 0).bit.setWidth 8]
  let k0 := forLoop size (fun j k => storeLevel g (j + 1) k) k0
  memcpy k0 (indexLastCW size) (storeLE lastCW)

/-- Both keys, from the two seeds the call draws. -/
def genDPF (C : Crypto δ) (ctx : Ecb Uint128) (size : Nat) (index : Uint64) (k0 k1 : List Byte)
    (seed0 seed1 : Uint128) : List Byte × List Byte :=
  let g := genPath C ctx size index seed0 seed1
  let sFinal0 := convert (g.path0 size).seed
  let sFinal1 := convert (g.path1 size).seed
  let lastCW := 1 ^^^ sFinal0 ^^^ sFinal1
  let k0 := storePlainKey0 g size lastCW k0
  -- the copy, the root seed, the party and the root bit, as for `genVDPF`
  (k0, storeKey1 g size 0 k0 k1)

/-! ## `batchEvalDPF` -/

/-- The block `k[INDEX_LASTCW]` points to. -/
def plainLastCW (size : Nat) (k : List Byte) : Uint128 := loadLE 128 (slice k (indexLastCW size) 16)

/-- The output block at a leaf. -/
def plainLeaf (lastCW : Uint128) (leaf : Node) : Uint128 :=
  let res := convert leaf.seed
  if leaf.bit = 1 then res ^^^ convert lastCW else res

/-- The selection of `batchEvalVDPF`, with `xbit` a `uint128_t`. -/
def PrgOutput.selectWide (p : PrgOutput) (xbit : Uint128) : Node where
  seed := (1 - xbit) * p.output1 + xbit * p.output2
  bit := ((1 - xbit) * p.bit1.signExtend 128 + xbit * p.bit2.signExtend 128).setWidth 32

def plainLevel (C : Crypto δ) (ctx : Ecb Uint128) (key : ParsedKey) (size : Nat) (x : Uint64)
    (i : Nat) (path : Nat → Node) : Nat → Node :=
  let p := expandNode C ctx key (i - 1) (path (i - 1))
  let xbit := (getbit (x.setWidth 128) size i).signExtend 128
  Function.update path i (p.selectWide xbit)

def plainPath (C : Crypto δ) (ctx : Ecb Uint128) (key : ParsedKey) (size : Nat) (x : Uint64)
    (path : Nat → Node) : Nat → Node :=
  forLoop size (fun j path => plainLevel C ctx key size x (j + 1) path) path

/-- The body of the outer loop, which parses the key again for every input:
the node arrays and the blocks written so far. -/
def plainInput (C : Crypto δ) (ctx : Ecb Uint128) (size : Nat) (b : Bool) (k : List Byte)
    (s : (Nat → Node) × List Uint128) (x : Uint64) : (Nat → Node) × List Uint128 :=
  let key := parseKey size 0 k
  let path := Function.update s.1 0 (rootNode key b)
  let path := plainPath C ctx key size x path
  (path, s.2 ++ [plainLeaf (plainLastCW size k) (path size)])

def batchEvalDPF (C : Crypto δ) (ctx : Ecb Uint128) (size : Nat) (b : Bool) (k : List Byte)
    (inputs : List Uint64) : List Uint128 :=
  (inputs.foldl (plainInput C ctx size b k) (fun _ => ⟨0, 0⟩, [])).2

/-! ## `fullDomainDPF` -/

def fullDomainDPF (C : Crypto δ) (ctx : Ecb Uint128) (size : Nat) (b : Bool) (k : List Byte) :
    List Uint128 :=
  let key := parseKey size 0 k
  let numLeaves := 1 <<< size
  let treeSize := 2 * numLeaves - 1
  let filled := fillTree C ctx key treeSize (rootNode key b)
  forLoop numLeaves (fun i out =>
    let index := treeSize - numLeaves + i
    out ++ [plainLeaf (plainLastCW size k) (filled.tree index)]) []

/-! ## Outputs are leaves

Both evaluators of the plain function reach the leaf of an input, one by the
path and one by the whole tree. -/

/-- An `int` survives the trip through a `uint128_t`. -/
theorem setWidth_signExtend (t : CInt) : (t.signExtend 128).setWidth 32 = t := by
  ext i hi
  rw [BitVec.getElem_setWidth, BitVec.getLsbD_signExtend]
  simp [hi, show i < 128 by omega]

theorem PrgOutput.selectWide_getbit (p : PrgOutput) (x : Uint128) (n i : Nat) :
    p.selectWide ((getbit x n i).signExtend 128) = p.side (x.toNat.testBit (n - i)) := by
  rw [getbit_eq]
  cases x.toNat.testBit (n - i) with
  | false => simp [selectWide, side, setWidth_signExtend]
  | true => simp [selectWide, side, setWidth_signExtend]

section
variable (C : Crypto δ) (ctx : Ecb Uint128) (size : Nat) (b : Bool) (k : List Byte)

theorem plainLevel_eq (key : ParsedKey) (x : Uint64) (j : Nat) (path : Nat → Node) :
    plainLevel C ctx key size x (j + 1) path
      = Function.update path (j + 1) (childNode C ctx key j (path j) (turnOf size x j)) := by
  simp only [plainLevel, Nat.add_sub_cancel, PrgOutput.selectWide_getbit, toNat_widen]
  rfl

/-- The arrays hold the walk of the input, from the root put back in place. -/
theorem plainPath_leaf (key : ParsedKey) (x : Uint64) (path : Nat → Node) :
    plainPath C ctx key size x (Function.update path 0 (rootNode key b)) size
      = leafNode C ctx key size b x := by
  have hroot : walk (childNode C ctx key) (rootNode key b) (turnOf size x) 0
      = Function.update path 0 (rootNode key b) 0 := by
    rw [Function.update_self]
    rfl
  simp only [plainPath, plainLevel_eq]
  exact forLoop_chain (g := fun j n => childNode C ctx key j n (turnOf size x j))
    (v := Function.update path 0 (rootNode key b))
    (w := walk (childNode C ctx key) (rootNode key b) (turnOf size x))
    hroot (fun _ => rfl) size size (Nat.le_refl size)

/-- The output at an input: its leaf's block. -/
def plainOutput (x : Uint64) : Uint128 :=
  plainLeaf (plainLastCW size k) (leafNode C ctx (parseKey size 0 k) size b x)

theorem batchEvalDPF_out (inputs : List Uint64) :
    batchEvalDPF C ctx size b k inputs = inputs.map (plainOutput C ctx size b k) := by
  have hloop : ∀ (inputs : List Uint64) (s : (Nat → Node) × List Uint128),
      (inputs.foldl (plainInput C ctx size b k) s).2
        = s.2 ++ inputs.map (plainOutput C ctx size b k) := by
    intro inputs
    induction inputs with
    | nil => exact fun s => (List.append_nil _).symm
    | cons x inputs ih =>
        intro s
        rw [List.foldl_cons, ih, List.map_cons]
        simp only [plainInput, plainPath_leaf, plainOutput, List.append_assoc,
          List.singleton_append]
  exact hloop inputs _

/-- The whole-domain walk writes, in order, the outputs of `0, 1, …`. -/
theorem fullDomainDPF_out (hint : 2 ^ (size + 1) ≤ 2147483647) :
    fullDomainDPF C ctx size b k
      = (List.range (2 ^ size)).map fun i => plainOutput C ctx size b k (BitVec.ofNat 64 i) := by
  have hpos := Nat.two_pow_pos size
  have hleaves : 1 <<< size = 2 ^ size := Nat.one_shiftLeft size
  simp only [fullDomainDPF, hleaves, forLoop_append]
  refine List.map_congr_left fun i hi => ?_
  have hi : i < 2 ^ size := List.mem_range.mp hi
  have hindex : 2 * 2 ^ size - 1 - 2 ^ size + i = heapIndex size i := by
    simp only [heapIndex]
    omega
  rw [hindex, fillTree_leaf C ctx _ size _ hi, plainOutput,
    leafNode_ofNat C ctx _ b (by rw [Nat.pow_succ] at hint; omega)]

end

/-! ## The keys

The same layout as the verifiable keys up to the last correction word, which
fills its 16 bytes here; no proof words stand behind it. -/

section
variable (g : GenPath) {size : Nat} (lastCW : Uint128) {k0 k1 : List Byte}

@[simp] theorem length_storePlainKey0 :
    (storePlainKey0 g size lastCW k0).length = k0.length := by
  simp [storePlainKey0, length_storeLevels]

/-- Every range the evaluators read from the first key, above its root bit. -/
theorem slice_storePlainKey0 (hk : k0.length = keySize size 0) :
    slice (storePlainKey0 g size lastCW k0) 1 16 = storeLE (g.path0 0).seed ∧
    slice (storePlainKey0 g size lastCW k0) (indexLastCW size) 16 = storeLE lastCW ∧
    ∀ i < size,
      slice (storePlainKey0 g size lastCW k0) (18 * (i + 1)) 16 = storeLE (g.sCW i) ∧
      slice (storePlainKey0 g size lastCW k0) (18 * (i + 1) + 16) 1
        = [(g.tCW0 i).setWidth 8] ∧
      slice (storePlainKey0 g size lastCW k0) (18 * (i + 1) + 17) 1
        = [(g.tCW1 i).setWidth 8] := by
  simp only [keySize, indexLastCW] at hk
  simp only [storePlainKey0, indexLastCW]
  refine ⟨?_, ?_, ?_⟩
  · rw [slice_memcpy_disjoint (by omega), slice_storeLevels_disjoint g _ size (by omega),
      slice_memcpy_disjoint (by simp only [cwSize]; omega)]
    exact slice_memcpy_self (by rw [length_storeLE, length_memcpy]; omega)
  · exact slice_memcpy_self (by
      simp only [length_storeLE, length_storeLevels, length_memcpy]
      omega)
  · intro i hi
    rw [slice_memcpy_disjoint (by omega), slice_memcpy_disjoint (by omega),
      slice_memcpy_disjoint (by omega)]
    exact slice_storeLevels g size (by simp only [length_memcpy]; omega) i hi

/-- The second key has the first one's last correction word. -/
theorem plainLastCW_storeKey1 (hk0 : k0.length = keySize size 0)
    (hk1 : k1.length = keySize size 0) :
    plainLastCW size (storeKey1 g size 0 k0 k1) = plainLastCW size k0 := by
  have hend : indexLastCW size + 16 ≤ keySize size 0 := Nat.le_refl _
  rw [plainLastCW, slice_storeKey1 g hk0 hk1 (by simp only [indexLastCW]; omega) hend, plainLastCW]

end

/-- What the evaluators read from the keys of one call. -/
structure PlainPair (C : Crypto δ) (ctx : Ecb Uint128) (size : Nat) (g : GenPath)
    (keys : List Byte × List Byte) : Prop where
  seed0 : (parseKey size 0 keys.1).seed = (g.path0 0).seed
  seed1 : (parseKey size 0 keys.2).seed = (g.path1 0).seed
  last0 : plainLastCW size keys.1 = 1 ^^^ (g.path0 size).seed ^^^ (g.path1 size).seed
  last1 : plainLastCW size keys.2 = 1 ^^^ (g.path0 size).seed ^^^ (g.path1 size).seed
  carries0 : Carries (parseKey size 0 keys.1) g size
  carries1 : Carries (parseKey size 0 keys.2) g size

theorem genDPF_pair (C : Crypto δ) (ctx : Ecb Uint128) (size : Nat) (index : Uint64)
    {k0 k1 : List Byte} (hk0 : k0.length = keySize size 0) (hk1 : k1.length = keySize size 0)
    (seed0 seed1 : Uint128) :
    PlainPair C ctx size (genPath C ctx size index seed0 seed1)
      (genDPF C ctx size index k0 k1 seed0 seed1) := by
  have hbits := fun i hi => ((genPath_spec C ctx size index seed0 seed1).2.2 i hi).isBit
  obtain ⟨hseed, hlast, hlev⟩ := slice_storePlainKey0 (genPath C ctx size index seed0 seed1)
    (1 ^^^ ((genPath C ctx size index seed0 seed1).path0 size).seed ^^^
      ((genPath C ctx size index seed0 seed1).path1 size).seed) hk0
  have hlen : (storePlainKey0 (genPath C ctx size index seed0 seed1) size
      (1 ^^^ ((genPath C ctx size index seed0 seed1).path0 size).seed ^^^
        ((genPath C ctx size index seed0 seed1).path1 size).seed) k0).length = keySize size 0 := by
    rw [length_storePlainKey0, hk0]
  have hc0 := carries_of_slices 0 hlev hbits
  obtain ⟨hs1, _, hc1⟩ := parseKey_storeKey1 (genPath C ctx size index seed0 seed1) hlen hk1 0 hc0
  have hl0 : plainLastCW size (genDPF C ctx size index k0 k1 seed0 seed1).1 = _ :=
    (congrArg (loadLE 128) hlast).trans (loadLE_storeLE (by decide) _)
  refine ⟨?_, hs1, hl0, ?_, hc0, hc1⟩
  · exact (congrArg (loadLE 128) hseed).trans (loadLE_storeLE (by decide) _)
  · exact (plainLastCW_storeKey1 _ hlen hk1).trans hl0

/-! ## Correctness

The two leaves of the index have different control bits, so the correction
word is added once; the words are added by exclusive or and need no sign. -/

/-- The two leaves of the index differ by 1. -/
theorem plainLeaf_point {leaf0 leaf1 : Node} {lastCW : Uint128}
    (hlast : lastCW = 1 ^^^ leaf0.seed ^^^ leaf1.seed) (hbits : BitsDiffer leaf0.bit leaf1.bit) :
    plainLeaf lastCW leaf0 ^^^ plainLeaf lastCW leaf1 = 1 := by
  have h01 : (0 : CInt) ≠ 1 := by decide
  rcases hbits with ⟨h0, h1⟩ | ⟨h0, h1⟩
  · simp only [plainLeaf, convert, h0, h1, if_true, if_neg h01, hlast]
    rw [BitVec.xor_comm _ leaf1.seed, xor_cancel_left, BitVec.xor_comm 1, xor_cancel_left]
  · simp only [plainLeaf, convert, h0, h1, if_true, if_neg h01, hlast]
    rw [BitVec.xor_assoc leaf0.seed, BitVec.xor_assoc _ leaf1.seed, BitVec.xor_self,
      BitVec.xor_zero, xor_cancel_right]

/-- Input by input, the two outputs are shares of the point function. -/
theorem PlainPair.point {C : Crypto δ} {ctx : Ecb Uint128} {size : Nat} {index : Uint64}
    {seed0 seed1 : Uint128} {keys : List Byte × List Byte}
    (h : PlainPair C ctx size (genPath C ctx size index seed0 seed1) keys) (x : Uint64) :
    plainOutput C ctx size false keys.1 x ^^^ plainOutput C ctx size true keys.2 x
      = if ∀ j < size, turnOf size x j = turnOf size index j then 1 else 0 := by
  rw [plainOutput, plainOutput, h.last0, h.last1]
  rcases carries_leaves h.seed0 h.seed1 h.carries0 h.carries1 x with
    ⟨hon, h0, h1⟩ | ⟨⟨j, hj, hne⟩, heq⟩
  · rw [if_pos hon, h0, h1]
    exact plainLeaf_point rfl (genPath_bits C ctx size index seed0 seed1 size (Nat.le_refl size))
  · rw [if_neg fun hon => hne (hon j hj), heq]
    exact BitVec.xor_self

/-! ## The words the callers read

The theorem is about slots of the two output buffers: slot `i` of the
whole-domain walk, and the slot of each input of a list. -/

theorem getD_fullDomainDPF (C : Crypto δ) (ctx : Ecb Uint128) {size i : Nat} (b : Bool)
    (k : List Byte) (hint : 2 ^ (size + 1) ≤ 2147483647) (hi : i < 2 ^ size) :
    (fullDomainDPF C ctx size b k).getD i 0
      = plainOutput C ctx size b k (BitVec.ofNat 64 i) := by
  rw [fullDomainDPF_out C ctx size b k hint,
    List.getD_eq_getElem _ _ (by rwa [List.length_map, List.length_range]), List.getElem_map,
    List.getElem_range]

theorem getD_batchEvalDPF (C : Crypto δ) (ctx : Ecb Uint128) (size : Nat) (b : Bool)
    (k : List Byte) (inputs : List Uint64) {l : Nat} (hl : l < inputs.length) :
    (batchEvalDPF C ctx size b k inputs).getD l 0 = plainOutput C ctx size b k inputs[l] := by
  rw [batchEvalDPF_out, List.getD_eq_getElem _ _ (by rwa [List.length_map]), List.getElem_map]

/-- Only slot `index` of the domain takes the turns of the index. -/
theorem turnOf_ofNat_iff {size i : Nat} {index : Uint64} (hi : i < 2 ^ size) (hi64 : i < 2 ^ 64)
    (hindex : index.toNat < 2 ^ size) :
    (∀ j < size, turnOf size (BitVec.ofNat 64 i) j = turnOf size index j)
      ↔ i = index.toNat := by
  have hnat : (BitVec.ofNat 64 i).toNat = i := by
    rw [BitVec.toNat_ofNat, Nat.mod_eq_of_lt hi64]
  rw [turnOf_eq_iff (by rwa [hnat]) hindex, ← BitVec.toNat_inj, hnat]

/-- The blocks `fullDomainDPF` writes under the two keys are shares of the
point function over the whole domain, and `batchEvalDPF` writes the same block
wherever a list has that input. -/
theorem fullDomainDPF_correct (C : Crypto δ) (ctx : Ecb Uint128) (size : Nat)
    (hint : 2 ^ (size + 1) ≤ 2147483647) (index : Uint64) (hindex : index.toNat < 2 ^ size)
    (k0 k1 : List Byte) (hk0 : k0.length = keySize size 0) (hk1 : k1.length = keySize size 0)
    (seed0 seed1 : Uint128) :
    let keys := genDPF C ctx size index k0 k1 seed0 seed1
    let out0 := fullDomainDPF C ctx size false keys.1
    let out1 := fullDomainDPF C ctx size true keys.2
    out0.length = 2 ^ size ∧ out1.length = 2 ^ size ∧
    ∀ i < 2 ^ size,
      out0.getD i 0 ^^^ out1.getD i 0 = (if i = index.toNat then 1 else 0) ∧
      ∀ (inputs : List Uint64) (l : Nat) (hl : l < inputs.length), inputs[l].toNat = i →
        (batchEvalDPF C ctx size false keys.1 inputs).getD l 0 = out0.getD i 0 ∧
        (batchEvalDPF C ctx size true keys.2 inputs).getD l 0 = out1.getD i 0 := by
  intro keys out0 out1
  refine ⟨?_, ?_, fun i hi => ⟨?_, ?_⟩⟩
  · simp only [out0, fullDomainDPF_out C ctx size _ _ hint, List.length_map, List.length_range]
  · simp only [out1, fullDomainDPF_out C ctx size _ _ hint, List.length_map, List.length_range]
  · have hi64 : i < 2 ^ 64 := by
      rw [Nat.pow_succ] at hint
      omega
    rw [getD_fullDomainDPF C ctx _ _ hint hi, getD_fullDomainDPF C ctx _ _ hint hi,
      (genDPF_pair C ctx size index hk0 hk1 seed0 seed1).point (BitVec.ofNat 64 i)]
    simp only [turnOf_ofNat_iff hi hi64 hindex]
  · intro inputs l hl hli
    have hx : BitVec.ofNat 64 i = inputs[l] := by
      rw [← hli, BitVec.ofNat_toNat, BitVec.setWidth_eq]
    rw [getD_batchEvalDPF C ctx size _ _ _ hl, getD_batchEvalDPF C ctx size _ _ _ hl,
      getD_fullDomainDPF C ctx _ _ hint hi, getD_fullDomainDPF C ctx _ _ hint hi, hx]
    exact ⟨rfl, rfl⟩

/-- A pair for index 1 of a domain of two. -/
theorem fullDomainDPF_correct_sample :
    let keys := genDPF sampleCrypto ⟨1⟩ 1 1 (List.replicate 52 0) (List.replicate 52 0) 3 5
    (fullDomainDPF sampleCrypto ⟨1⟩ 1 false keys.1).getD 1 0 ^^^
      (fullDomainDPF sampleCrypto ⟨1⟩ 1 true keys.2).getD 1 0 = 1 :=
  ((fullDomainDPF_correct sampleCrypto ⟨1⟩ 1 (by decide) 1 (by decide) (List.replicate 52 0)
    (List.replicate 52 0) (by decide) (by decide) 3 5).2.2 1 (by decide)).1

end PSVFSS

/-
# `Vdpf.Correct` — the two evaluations reconstruct the point function

Off the secret index the two leaves are the same node, and `v + (-v) = 0`.
On it the control bits differ, so exactly one server adds the last
correction word, and its sign was chosen for that server.
-/
import Mathlib.Tactic.Ring
import PSVFSS.Vdpf.Layout

namespace PSVFSS

open ByteBuffer CipherMode PathTree Loop

variable {δ : Type}

/-! ## Leaf shares as residues

A leaf's output block is taken apart as `leafValue` puts it together: a sign
for the server, the seed's residue, and the last correction word where the
control bit is set. -/

/-- The residue of a leaf's seed. -/
def leafField (leaf : Node) : ZMod fieldModulus := toField (field61FromU128 (convert leaf.seed))

theorem toField_leafValue (key : ParsedKey) (b : Bool) (leaf : Node) :
    toField (leafValue key b leaf)
      = (if b then -1 else 1) *
          (leafField leaf + if leaf.bit = 1 then toField key.lastCW else 0) := by
  have h : toField (if leaf.bit = 1 then field61Add (field61FromU128 (convert leaf.seed)) key.lastCW
      else field61FromU128 (convert leaf.seed))
      = leafField leaf + if leaf.bit = 1 then toField key.lastCW else 0 := by
    split
    · exact toField_add _ _
    · exact (add_zero _).symm
  have hc : Canonical (if leaf.bit = 1 then field61Add (field61FromU128 (convert leaf.seed))
      key.lastCW else field61FromU128 (convert leaf.seed)) := by
    split
    · exact canonical_add _ _
    · exact canonical_fromU128 _
  cases b with
  | false =>
      simp only [leafValue, Bool.false_eq_true, if_false, one_mul]
      exact h
  | true =>
      simp only [leafValue, if_true, neg_one_mul]
      rw [toField_neg hc, h]

theorem toField_lastCorrection (beta : Uint64) (leaf0 leaf1 : Node) :
    toField (lastCorrection beta leaf0 leaf1)
      = (if leaf1.bit = 0 then 1 else -1)
          * (toField beta + (leafField leaf1 - leafField leaf0)) := by
  have hsub := toField_sub (canonical_fromU128 (convert leaf1.seed))
    (canonical_fromU128 (convert leaf0.seed))
  simp only [lastCorrection]
  split
  · rw [toField_add, hsub, one_mul]
    rfl
  · rw [toField_neg (canonical_add _ _), toField_add, hsub, neg_one_mul]
    rfl

/-- The same leaf at both servers cancels. -/
theorem leafValue_same {key0 key1 : ParsedKey} (hlast : key0.lastCW = key1.lastCW) (leaf : Node) :
    toField (leafValue key0 false leaf) + toField (leafValue key1 true leaf) = 0 := by
  rw [toField_leafValue, toField_leafValue, hlast]
  simp

/-- The two leaves of the secret index add up to `beta`. -/
theorem leafValue_point {key0 key1 : ParsedKey} {beta : Uint64} {leaf0 leaf1 : Node}
    (h0 : key0.lastCW = lastCorrection beta leaf0 leaf1)
    (h1 : key1.lastCW = lastCorrection beta leaf0 leaf1) (hbits : BitsDiffer leaf0.bit leaf1.bit) :
    toField (leafValue key0 false leaf0) + toField (leafValue key1 true leaf1) = toField beta := by
  rw [toField_leafValue, toField_leafValue, h0, h1, toField_lastCorrection]
  rcases hbits with ⟨hb0, hb1⟩ | ⟨hb0, hb1⟩
  · have h10 : (1 : CInt) ≠ 0 := by decide
    have h01 : (0 : CInt) ≠ 1 := by decide
    simp only [hb0, hb1, Bool.false_eq_true, if_true, if_false, h10, h01]
    ring
  · have h01 : (0 : CInt) ≠ 1 := by decide
    simp only [hb0, hb1, Bool.false_eq_true, if_true, if_false, h01]
    ring

/-! ## Agreement with the index

An input takes the turns of the index exactly when it is the index, since both
are below `2 ^ size`.  The two walks then end in the two leaves of the path or
in one common node. -/

/-- Numbers below `2 ^ size` are equal when they take the same turns. -/
theorem eq_of_turnOf {size : Nat} {x y : Uint64} (hx : x.toNat < 2 ^ size) (hy : y.toNat < 2 ^ size)
    (h : ∀ j < size, turnOf size x j = turnOf size y j) : x = y := by
  apply BitVec.eq_of_toNat_eq
  apply Nat.eq_of_testBit_eq
  intro i
  by_cases hi : i < size
  · have hj := h (size - (i + 1)) (by omega)
    have hsub : size - (size - (i + 1) + 1) = i := by omega
    simpa only [turnOf, hsub] using hj
  · have hle : 2 ^ size ≤ 2 ^ i := Nat.pow_le_pow_right Nat.two_pos (Nat.le_of_not_lt hi)
    rw [Nat.testBit_lt_two_pow (hx.trans_le hle), Nat.testBit_lt_two_pow (hy.trans_le hle)]

theorem turnOf_eq_iff {size : Nat} {x y : Uint64} (hx : x.toNat < 2 ^ size)
    (hy : y.toNat < 2 ^ size) :
    (∀ j < size, turnOf size x j = turnOf size y j) ↔ x = y := by
  constructor
  · exact eq_of_turnOf hx hy
  · rintro rfl
    exact fun _ _ => rfl

/-- Word `l` of an output buffer, as the callers read it: the low half of its
16-byte slot. -/
def EvalResult.share (r : EvalResult δ) (l : Nat) : Uint64 := (r.out.getD l 0).setWidth 64

theorem share_batchEvalVDPF (C : Crypto δ) (ctx : Ecb Uint128) (h₁ h₂ : Hash) (size : Nat)
    (b : Bool) (k : List Byte) (inputs : List Uint64) {l : Nat} (hl : l < inputs.length) :
    (batchEvalVDPF C ctx h₁ h₂ size b k inputs).share l
      = leafValue (parseKey size h₁.outblocks k) b
          (leafNode C ctx (parseKey size h₁.outblocks k) size b inputs[l]) := by
  rw [EvalResult.share, batchEvalVDPF_out, List.getD_eq_getElem _ _ (by simpa using hl),
    List.getElem_map, BitVec.setWidth_setWidth_of_le _ (by decide), BitVec.setWidth_eq]

/-- Every output block is below the modulus, its upper half included. -/
theorem out_batchEvalVDPF_lt (C : Crypto δ) (ctx : Ecb Uint128) (h₁ h₂ : Hash) (size : Nat)
    (b : Bool) (k : List Byte) (inputs : List Uint64) {l : Nat} (hl : l < inputs.length) :
    ((batchEvalVDPF C ctx h₁ h₂ size b k inputs).out.getD l 0).toNat < fieldModulus := by
  rw [batchEvalVDPF_out, List.getD_eq_getElem _ _ (by simpa using hl), List.getElem_map,
    toNat_widen]
  exact canonical_leafValue _ _ _

/-- The two parsed keys of one key pair. -/
structure KeyPair (key0 key1 : ParsedKey) (g : GenPath) (size : Nat) (beta : Uint64) : Prop where
  seed0 : key0.seed = (g.path0 0).seed
  seed1 : key1.seed = (g.path1 0).seed
  last0 : key0.lastCW = lastCorrection beta (g.path0 size) (g.path1 size)
  last1 : key1.lastCW = lastCorrection beta (g.path0 size) (g.path1 size)
  carries0 : Carries key0 g size
  carries1 : Carries key1 g size

/-- Whatever attempt succeeds, the evaluators parse its keys to a key pair. -/
theorem genVDPF_keyPair {C : Crypto δ} {ctx : Ecb Uint128} {hash : Hash} {size : Nat}
    {index beta : Uint64} {k0 k1 : List Byte} {rand : List (Uint128 × Uint128)} {r : GenResult}
    (hk0 : k0.length = keySize size hash.outblocks) (hk1 : k1.length = keySize size hash.outblocks)
    (hgen : genVDPF C ctx hash size index beta k0 k1 rand = some r) (outblocks0 outblocks1 : Nat) :
    ∃ seed0 seed1, KeyPair (parseKey size outblocks0 r.k0) (parseKey size outblocks1 r.k1)
      (genPath C ctx size index seed0 seed1) size beta := by
  obtain ⟨seed0, seed1, cs, hr0, hr1⟩ := genVDPF_attempt hgen
  have hbits := fun i hi => ((genPath_spec C ctx size index seed0 seed1).2.2 i hi).isBit
  have hlen : r.k0.length = keySize size hash.outblocks := by
    rw [hr0, length_storeKey0, hk0]
  obtain ⟨hs0, hl0, hc0⟩ := parseKey_storeKey0 (genPath C ctx size index seed0 seed1)
    (lastCorrection beta ((genPath C ctx size index seed0 seed1).path0 size)
      ((genPath C ctx size index seed0 seed1).path1 size)) cs hk0 outblocks0 hbits
  obtain ⟨_, hl0', hc0'⟩ := parseKey_storeKey0 (genPath C ctx size index seed0 seed1)
    (lastCorrection beta ((genPath C ctx size index seed0 seed1).path0 size)
      ((genPath C ctx size index seed0 seed1).path1 size)) cs hk0 outblocks1 hbits
  rw [← hr0] at hs0 hl0 hc0 hl0' hc0'
  obtain ⟨hs1, hl1, hc1⟩ := parseKey_storeKey1 (genPath C ctx size index seed0 seed1) hlen hk1
    outblocks1 hc0'
  rw [← hr1] at hs1 hl1 hc1
  exact ⟨seed0, seed1, ⟨hs0, hs1, hl0, hl1.trans hl0', hc0, hc1⟩⟩

/-- The two leaves of an input under two keys that carry one path: the path's
ends at the index, one node elsewhere. -/
theorem carries_leaves {C : Crypto δ} {ctx : Ecb Uint128} {size : Nat} {index : Uint64}
    {seed0 seed1 : Uint128} {key0 key1 : ParsedKey}
    (hs0 : key0.seed = ((genPath C ctx size index seed0 seed1).path0 0).seed)
    (hs1 : key1.seed = ((genPath C ctx size index seed0 seed1).path1 0).seed)
    (hc0 : Carries key0 (genPath C ctx size index seed0 seed1) size)
    (hc1 : Carries key1 (genPath C ctx size index seed0 seed1) size) (x : Uint64) :
    ((∀ j < size, turnOf size x j = turnOf size index j) ∧
      leafNode C ctx key0 size false x = (genPath C ctx size index seed0 seed1).path0 size ∧
      leafNode C ctx key1 size true x = (genPath C ctx size index seed0 seed1).path1 size) ∨
    ((∃ j < size, turnOf size x j ≠ turnOf size index j) ∧
      leafNode C ctx key0 size false x = leafNode C ctx key1 size true x) := by
  obtain ⟨hp0, hp1, _⟩ := genPath_spec C ctx size index seed0 seed1
  have hroot0 : rootNode key0 false = (genPath C ctx size index seed0 seed1).path0 0 := by
    rw [rootNode, hs0, hp0]
    rfl
  have hroot1 : rootNode key1 true = (genPath C ctx size index seed0 seed1).path1 0 := by
    rw [rootNode, hs1, hp1]
    rfl
  rw [leafNode, leafNode, hroot0, hroot1]
  exact (agreeOff_genPath C ctx size index seed0 seed1 hc0 hc1).walk_pair
    (turnOf size x) size (Nat.le_refl size)

/-- Leaf by leaf, the two shares of an input add up to `beta` when the input
takes the turns of the index, to 0 otherwise. -/
theorem KeyPair.point {C : Crypto δ} {ctx : Ecb Uint128} {size : Nat} {index beta : Uint64}
    {seed0 seed1 : Uint128} {key0 key1 : ParsedKey}
    (h : KeyPair key0 key1 (genPath C ctx size index seed0 seed1) size beta) (x : Uint64) :
    toField (leafValue key0 false (leafNode C ctx key0 size false x))
        + toField (leafValue key1 true (leafNode C ctx key1 size true x))
      = if ∀ j < size, turnOf size x j = turnOf size index j then toField beta else 0 := by
  rcases carries_leaves h.seed0 h.seed1 h.carries0 h.carries1 x with
    ⟨hon, h0, h1⟩ | ⟨⟨j, hj, hne⟩, heq⟩
  · rw [if_pos hon, h0, h1]
    exact leafValue_point h.last0 h.last1
      (genPath_bits C ctx size index seed0 seed1 size (Nat.le_refl size))
  · rw [if_neg fun hon => hne (hon j hj), heq]
    exact leafValue_same (h.last0.trans h.last1.symm) _

/-! ## Correctness through the serialized keys

From the bytes `genVDPF` stored to the blocks both servers write: nothing in
between is assumed of the keys but that one call returned them. -/

/-- The keys `genVDPF` writes, evaluated at server 0 and server 1 on any list
of inputs of the domain, reconstruct to `beta` at the index and to 0
elsewhere.  The hash contexts of the three calls may be any. -/
theorem batchEvalVDPF_reconstructs (C : Crypto δ) (ctx : Ecb Uint128) (hash h₁ h₂ h₁' h₂' : Hash)
    (size : Nat) (index beta : Uint64) (hindex : index.toNat < 2 ^ size) (k0 k1 : List Byte)
    (hk0 : k0.length = keySize size hash.outblocks) (hk1 : k1.length = keySize size hash.outblocks)
    (rand : List (Uint128 × Uint128)) (r : GenResult)
    (hgen : genVDPF C ctx hash size index beta k0 k1 rand = some r) (inputs : List Uint64)
    (hin : ∀ x ∈ inputs, x.toNat < 2 ^ size) :
    let out0 := batchEvalVDPF C ctx h₁ h₂ size false r.k0 inputs
    let out1 := batchEvalVDPF C ctx h₁' h₂' size true r.k1 inputs
    out0.out.length = inputs.length ∧ out1.out.length = inputs.length ∧
    ∀ l (hl : l < inputs.length),
      (field61Add (out0.share l) (out1.share l)).toNat
          = (if inputs[l] = index then beta.toNat % fieldModulus else 0) ∧
      (out0.out.getD l 0).toNat < fieldModulus ∧ (out1.out.getD l 0).toNat < fieldModulus := by
  intro out0 out1
  refine ⟨by simp [out0, batchEvalVDPF_out], by simp [out1, batchEvalVDPF_out], ?_⟩
  intro l hl
  refine ⟨?_, out_batchEvalVDPF_lt C ctx _ _ _ _ _ _ hl, out_batchEvalVDPF_lt C ctx _ _ _ _ _ _ hl⟩
  obtain ⟨seed0, seed1, hpair⟩ := genVDPF_keyPair hk0 hk1 hgen h₁.outblocks h₁'.outblocks
  have hturns : (∀ j < size, turnOf size inputs[l] j = turnOf size index j) ↔ inputs[l] = index :=
    turnOf_eq_iff (hin _ (List.getElem_mem hl)) hindex
  have hsum := hpair.point inputs[l]
  rw [← share_batchEvalVDPF C ctx h₁ h₂ size false r.k0 inputs hl,
    ← share_batchEvalVDPF C ctx h₁' h₂' size true r.k1 inputs hl, ← toField_add] at hsum
  have hcanon : Canonical (field61Add (out0.share l) (out1.share l)) := canonical_add _ _
  by_cases hx : inputs[l] = index
  · rw [if_pos hx]
    rw [if_pos (hturns.mpr hx)] at hsum
    exact hcanon.toNat_eq hsum
  · rw [if_neg hx]
    rw [if_neg fun h => hx (hturns.mp h)] at hsum
    exact hcanon.toNat_eq (hsum.trans Nat.cast_zero.symm)

set_option maxRecDepth 10000 in
/-- A pair generated on the second attempt, evaluated on and off its index. -/
theorem batchEvalVDPF_reconstructs_sample :
    ∃ r, genVDPF sampleCrypto ⟨1⟩ (initMMOHash 2 4) 1 1 7 (List.replicate 116 0)
        (List.replicate 116 0) [(0, 1), (0, 2)] = some r ∧
      (field61Add
        ((batchEvalVDPF sampleCrypto ⟨1⟩ (initMMOHash 2 4) (initMMOHash 3 2) 1 false r.k0
          [0, 1, 0]).share 1)
        ((batchEvalVDPF sampleCrypto ⟨1⟩ (initMMOHash 2 4) (initMMOHash 3 2) 1 true r.k1
          [0, 1, 0]).share 1)).toNat = 7 := by
  have hsome : (genVDPF sampleCrypto ⟨1⟩ (initMMOHash 2 4) 1 1 7 (List.replicate 116 0)
      (List.replicate 116 0) [(0, 1), (0, 2)]).isSome = true := by decide
  obtain ⟨r, hr⟩ := Option.isSome_iff_exists.mp hsome
  obtain ⟨_, _, h⟩ := batchEvalVDPF_reconstructs sampleCrypto ⟨1⟩ (initMMOHash 2 4)
    (initMMOHash 2 4) (initMMOHash 3 2) (initMMOHash 2 4) (initMMOHash 3 2) 1 1 7 (by decide)
    (List.replicate 116 0) (List.replicate 116 0) (by decide) (by decide) [(0, 1), (0, 2)] r hr
    [0, 1, 0] (by simp)
  have hvalue : (if ([0, 1, 0] : List Uint64)[1] = 1 then (7 : Uint64).toNat % fieldModulus else 0)
      = 7 := by decide
  exact ⟨r, hr, (h 1 (by decide)).1.trans hvalue⟩

end PSVFSS

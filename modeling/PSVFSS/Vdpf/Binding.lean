/-
# `Vdpf.Binding` — what equal proofs say about the two evaluations

`mmo.c` describes its hash functions as Matyas–Meyer–Oseas: an output block is
`E_k(m) ⊕ m`.  `documentedDigest` is the value the evaluation loop would
accumulate over those functions.

Over the functions as they are, proofs are equal exactly when the correction
words `cs` of the two keys differ by the keystream that the lengths of the two
lists select (`proof_eq_iff`).  Where a word separates them (`CsSeparate`) the
proof binds; where none does, any list under one key has a list under the
other with the same proof and another documented digest
(`documentedDigest_unbound`).
-/
import PSVFSS.Vdpf.Eval

namespace PSVFSS

open ByteBuffer CipherMode

variable {δ : Type}

/-! ## The documented construction

The two hash functions as the comments of `mmo.c` give them, and the loop of
`batchEvalVDPF` over them.  Only the hash functions differ from the
evaluator's own. -/

/-- `mmoHash2to4` over the compression function; the context is its key. -/
def documented2to4 (C : Crypto δ) (key : Uint128) (input : Fin 2 → Uint128) :
    Uint128 × (Fin 4 → Uint128) :=
  let low : Fin 2 → Uint128 := fun i => mmo C.aes key (input i)
  let high : Fin 2 → Uint128 := fun i => mmo C.aes key (low i)
  (key, fourBlocks low high)

/-- `mmoHash4to4` over the compression function. -/
def documented4to4 (C : Crypto δ) (key : Uint128) (input : Fin 4 → Uint128) :
    Uint128 × (Fin 4 → Uint128) := (key, fun i => mmo C.aes key (input i))

/-- The 64 bytes of `pi` after the loop of `batchEvalVDPF` over the documented
functions. -/
def documentedDigest (C : Crypto δ) (ctx : Ecb Uint128) (hashKey1 hashKey2 : Uint128) (size : Nat)
    (b : Bool) (k : List Byte) (inputs : List Uint64) : List Byte :=
  let key := parseKey size 4 k
  piBytes (verifyInputs (documented2to4 C) (documented4to4 C) C ctx key size b inputs
    ⟨hashKey1, hashKey2, key.cs⟩).pi

/-- The proof computed on freshly initialised hash contexts. -/
def freshProof (C : Crypto δ) (ctx : Ecb Uint128) (hashKey1 hashKey2 : Uint128) (size : Nat)
    (b : Bool) (k : List Byte) (inputs : List Uint64) : δ :=
  (batchEvalVDPF C ctx (initMMOHash hashKey1 4) (initMMOHash hashKey2 2) size b k inputs).proof

/-! ## Equal proofs

Each proof is the digest of correction words masked with keystream.  The
keystream depends on nothing but the shared hash keys and the number of
inputs. -/

theorem length_piBytes (pi : Fin 4 → Uint128) : (piBytes pi).length = 64 := by
  simp only [piBytes, List.length_append, length_storeLE]

theorem piBytes_injective : Function.Injective piBytes := by
  intro pi pi' h
  have hinj := storeLE_injective (w := 128) (by decide)
  have hlen : ∀ x y : Uint128, (storeLE x).length = (storeLE y).length := fun x y => by
    rw [length_storeLE, length_storeLE]
  obtain ⟨h012, h3⟩ := List.append_inj' h (hlen _ _)
  obtain ⟨h01, h2⟩ := List.append_inj' h012 (hlen _ _)
  obtain ⟨h0, h1⟩ := List.append_inj' h01 (hlen _ _)
  funext i
  fin_cases i
  · exact hinj h0
  · exact hinj h1
  · exact hinj h2
  · exact hinj h3

/-- With SHA-256 injective on 64-byte strings, two proofs agree exactly when
the correction words of the keys differ by the keystream of the two lengths.
Seeds, corrections of the tree and the inputs themselves do not enter. -/
theorem proof_eq_iff {C : Crypto δ} (hsha : Set.InjOn C.sha256 {l | l.length = 64})
    (ctx : Ecb Uint128) (hashKey1 hashKey2 : Uint128) (size : Nat) (b b' : Bool)
    (k k' : List Byte) (inputs inputs' : List Uint64) :
    freshProof C ctx hashKey1 hashKey2 size b k inputs
        = freshProof C ctx hashKey1 hashKey2 size b' k' inputs' ↔
      ∀ j, (parseKey size 4 k).cs j ^^^ (parseKey size 4 k').cs j
        = keystreamFold C (initMMOHash hashKey2 2) j inputs.length
          ^^^ keystreamFold C (initMMOHash hashKey2 2) j inputs'.length := by
  rw [freshProof, freshProof, batchEvalVDPF_proof, batchEvalVDPF_proof,
    hsha.eq_iff (length_piBytes _) (length_piBytes _), piBytes_injective.eq_iff, funext_iff]
  exact forall_congr' fun j => xor_eq_xor_iff _ _ _ _

/-! ## The documented digest tells inputs apart

With a fixed leaf bit, a pass of the documented loop loses nothing about its
input as long as the two compression functions lose nothing.  Of three inputs
two have leaves with the same bit, so three runs that differ in their last
input cannot all end in one digest.
-/

/-- The bit of a leaf that `correct` looks at. -/
def leafBit (C : Crypto δ) (ctx : Ecb Uint128) (key : ParsedKey) (size : Nat) (b : Bool)
    (x : Uint64) : Bool :=
  decide ((seedLsb (leafNode C ctx key size b x).seed).setWidth 32 = (0 : CInt))

theorem correct_injective {cs raw raw' : Uint128} {t t' : CInt} (ht : t = 0 ↔ t' = 0)
    (h : correct raw cs t = correct raw' cs t') : raw = raw' := by
  unfold correct at h
  by_cases ht0 : t = 0
  · rwa [if_pos ht0, if_pos (ht.mp ht0)] at h
  · rw [if_neg ht0, if_neg (mt ht.mpr ht0)] at h
    exact (BitVec.xor_left_inj cs).mp h

/-- The hash keys stay what they were through any list of inputs. -/
theorem verifyInputs_documented (C : Crypto δ) (ctx : Ecb Uint128) (key : ParsedKey)
    (size : Nat) (b : Bool) :
    ∀ (inputs : List Uint64) (v : Verify Uint128 Uint128),
      (verifyInputs (documented2to4 C) (documented4to4 C) C ctx key size b inputs v).hash1
          = v.hash1 ∧
        (verifyInputs (documented2to4 C) (documented4to4 C) C ctx key size b inputs v).hash2
          = v.hash2
  | [], _ => ⟨rfl, rfl⟩
  | x :: inputs, v =>
      verifyInputs_documented C ctx key size b inputs
        (verifyStep (documented2to4 C) (documented4to4 C) key.cs (x.setWidth 128)
          (leafNode C ctx key size b x).seed v)

section
variable {C : Crypto δ} {ctx : Ecb Uint128} {key : ParsedKey} {size : Nat} {b : Bool}
  {hashKey1 hashKey2 : Uint128}
  (hmmo1 : Function.Injective (mmo C.aes hashKey1))
  (hmmo2 : Function.Injective (mmo C.aes hashKey2))
include hmmo1 hmmo2

/-- One pass: the first block of `pi` gives the input back. -/
theorem verifyStep_documented_injective {v : Verify Uint128 Uint128} (h1 : v.hash1 = hashKey1)
    (h2 : v.hash2 = hashKey2) {x x' seed seed' : Uint128}
    (hbit : (seedLsb seed).setWidth 32 = (0 : CInt) ↔ (seedLsb seed').setWidth 32 = (0 : CInt))
    (h : (verifyStep (documented2to4 C) (documented4to4 C) key.cs x seed v).pi 0
      = (verifyStep (documented2to4 C) (documented4to4 C) key.cs x' seed' v).pi 0) : x = x' := by
  simp only [verifyStep, documented2to4, documented4to4, h1, h2] at h
  have hhash := hmmo2 ((BitVec.xor_right_inj (v.pi 0)).mp h)
  have hcorrect := (BitVec.xor_right_inj (v.pi 0)).mp hhash
  exact hmmo1 (correct_injective hbit hcorrect)

/-- A list is continued by two inputs with one leaf bit: two digests. -/
theorem verifyInputs_last_injective (inputs : List Uint64) {x x' : Uint64}
    (hbit : leafBit C ctx key size b x = leafBit C ctx key size b x')
    (h : (verifyInputs (documented2to4 C) (documented4to4 C) C ctx key size b (inputs ++ [x])
        ⟨hashKey1, hashKey2, key.cs⟩).pi
      = (verifyInputs (documented2to4 C) (documented4to4 C) C ctx key size b (inputs ++ [x'])
        ⟨hashKey1, hashKey2, key.cs⟩).pi) : x = x' := by
  obtain ⟨hk1, hk2⟩ := verifyInputs_documented C ctx key size b inputs
    ⟨hashKey1, hashKey2, key.cs⟩
  simp only [verifyInputs, List.foldl_append, List.foldl_cons, List.foldl_nil] at h hk1 hk2
  have hwide := verifyStep_documented_injective hmmo1 hmmo2 hk1 hk2
    (decide_eq_decide.mp hbit) (congrFun h 0)
  have hnat := congrArg BitVec.toNat hwide
  rw [toNat_widen, toNat_widen] at hnat
  exact BitVec.eq_of_toNat_eq hnat

/-- Whatever value the digest is to miss, one of three last inputs misses it. -/
theorem exists_last_ne (inputs : List Uint64) (pi : Fin 4 → Uint128) :
    ∃ x : Uint64, (verifyInputs (documented2to4 C) (documented4to4 C) C ctx key size b
      (inputs ++ [x]) ⟨hashKey1, hashKey2, key.cs⟩).pi ≠ pi := by
  by_contra hall
  push Not at hall
  have hne : ∀ x x' : Uint64, x ≠ x' →
      leafBit C ctx key size b x ≠ leafBit C ctx key size b x' := fun x x' hx hbit =>
    hx (verifyInputs_last_injective hmmo1 hmmo2 inputs hbit ((hall x).trans (hall x').symm))
  -- three inputs, two values of the bit
  have h01 := hne 0 1 (by decide)
  have h02 := hne 0 2 (by decide)
  have h12 := hne 1 2 (by decide)
  have hpigeon : ∀ p q r : Bool, p ≠ q → p ≠ r → q ≠ r → False := by decide
  exact hpigeon _ _ _ h01 h02 h12

end

/-! ## Where the proof binds

Equal proofs need the correction words to differ by exactly the keystream of
the two lengths.  Where some word does not, equal proofs do not occur; where all
do, every list of these lengths has the same proof, whatever its documented
digest is. -/

/-- Some correction word of the two keys does not differ by exactly the
keystream that lists of lengths `n` and `n'` select. -/
def CsSeparate (C : Crypto δ) (hashKey2 : Uint128) (size : Nat) (k k' : List Byte)
    (n n' : Nat) : Prop :=
  ∃ j, (parseKey size 4 k).cs j ^^^ (parseKey size 4 k').cs j
    ≠ keystreamFold C (initMMOHash hashKey2 2) j n
      ^^^ keystreamFold C (initMMOHash hashKey2 2) j n'

instance (C : Crypto δ) (hashKey2 : Uint128) (size : Nat) (k k' : List Byte) (n n' : Nat) :
    Decidable (CsSeparate C hashKey2 size k k' n n') :=
  inferInstanceAs (Decidable (∃ _, _))

/-- Where no word separates the keys, the proofs are equal, whatever the
cipher, the digest function, the parties and the inputs are. -/
theorem freshProof_eq (C : Crypto δ) (ctx : Ecb Uint128) (hashKey1 hashKey2 : Uint128)
    (size : Nat) (b b' : Bool) {k k' : List Byte} {inputs inputs' : List Uint64}
    (hcs : ¬ CsSeparate C hashKey2 size k k' inputs.length inputs'.length) :
    freshProof C ctx hashKey1 hashKey2 size b k inputs
      = freshProof C ctx hashKey1 hashKey2 size b' k' inputs' := by
  have hmask : ∀ j, (parseKey size 4 k).cs j ^^^ (parseKey size 4 k').cs j
      = keystreamFold C (initMMOHash hashKey2 2) j inputs.length
        ^^^ keystreamFold C (initMMOHash hashKey2 2) j inputs'.length :=
    fun j => not_not.mp (not_exists.mp hcs j)
  rw [freshProof, freshProof, batchEvalVDPF_proof, batchEvalVDPF_proof]
  congr 2
  funext j
  exact (xor_eq_xor_iff _ _ _ _).mpr (hmask j)

/-- And the proof then binds nothing: with compression functions that lose
nothing, every list under the second key has a list of any length under the
first with the same proof and another documented digest. -/
theorem documentedDigest_unbound (C : Crypto δ) (ctx : Ecb Uint128)
    (hashKey1 hashKey2 : Uint128) (hmmo1 : Function.Injective (mmo C.aes hashKey1))
    (hmmo2 : Function.Injective (mmo C.aes hashKey2)) (size : Nat) (b b' : Bool)
    (k k' : List Byte) (n : Nat) (inputs' : List Uint64)
    (hcs : ¬ CsSeparate C hashKey2 size k k' (n + 1) inputs'.length) :
    ∃ inputs, inputs.length = n + 1 ∧
      freshProof C ctx hashKey1 hashKey2 size b k inputs
        = freshProof C ctx hashKey1 hashKey2 size b' k' inputs' ∧
      documentedDigest C ctx hashKey1 hashKey2 size b k inputs
        ≠ documentedDigest C ctx hashKey1 hashKey2 size b' k' inputs' := by
  obtain ⟨x, hx⟩ : ∃ x : Uint64,
      (verifyInputs (documented2to4 C) (documented4to4 C) C ctx (parseKey size 4 k) size b
        (List.replicate n 0 ++ [x]) ⟨hashKey1, hashKey2, (parseKey size 4 k).cs⟩).pi
      ≠ (verifyInputs (documented2to4 C) (documented4to4 C) C ctx (parseKey size 4 k') size b'
        inputs' ⟨hashKey1, hashKey2, (parseKey size 4 k').cs⟩).pi :=
    exists_last_ne hmmo1 hmmo2 _ _
  have hlen : (List.replicate n (0 : Uint64) ++ [x]).length = n + 1 := by simp
  refine ⟨List.replicate n 0 ++ [x], hlen, ?_, fun hdigest => hx (piBytes_injective hdigest)⟩
  apply freshProof_eq
  rwa [hlen]

/-- Under correction words that separate the keys equal proofs mean equal
documented digests, whatever the cipher is.  Under any others no list of the
second key is safe from the lists of the first. -/
theorem batchEvalVDPF_binding (C : Crypto δ)
    (hsha : Set.InjOn C.sha256 {l | l.length = 64}) (ctx : Ecb Uint128)
    (hashKey1 hashKey2 : Uint128) (size : Nat) (b b' : Bool) (k k' : List Byte) :
    (∀ inputs inputs', CsSeparate C hashKey2 size k k' inputs.length inputs'.length →
      freshProof C ctx hashKey1 hashKey2 size b k inputs
        = freshProof C ctx hashKey1 hashKey2 size b' k' inputs' →
      documentedDigest C ctx hashKey1 hashKey2 size b k inputs
        = documentedDigest C ctx hashKey1 hashKey2 size b' k' inputs') ∧
    (Function.Injective (mmo C.aes hashKey1) → Function.Injective (mmo C.aes hashKey2) →
      ∀ n inputs', ¬ CsSeparate C hashKey2 size k k' (n + 1) inputs'.length →
        ∃ inputs, inputs.length = n + 1 ∧
          freshProof C ctx hashKey1 hashKey2 size b k inputs
            = freshProof C ctx hashKey1 hashKey2 size b' k' inputs' ∧
          documentedDigest C ctx hashKey1 hashKey2 size b k inputs
            ≠ documentedDigest C ctx hashKey1 hashKey2 size b' k' inputs') := by
  refine ⟨fun inputs inputs' hcs hproof => ?_, fun hmmo1 hmmo2 n inputs' hcs =>
    documentedDigest_unbound C ctx hashKey1 hashKey2 hmmo1 hmmo2 size b b' k k' n inputs' hcs⟩
  -- the proofs differ: a word of `pi` is not the same
  obtain ⟨j, hj⟩ := hcs
  exact absurd ((proof_eq_iff hsha ctx hashKey1 hashKey2 size b b' k k' inputs inputs').mp hproof j)
    hj

/-- A block cipher to run the theorem with: its half swap stays injective when
the input is XORed in. -/
def swapCrypto : Crypto (List Byte) where
  aes _ m := m.extractLsb' 0 64 ++ (m.extractLsb' 64 64 ^^^ m.extractLsb' 0 64)
  sha256 := id

theorem mmo_swap_injective (k : Uint128) : Function.Injective (mmo swapCrypto.aes k) := by
  intro m m' h
  have hbit : ∀ i, (mmo swapCrypto.aes k m).getLsbD i = (mmo swapCrypto.aes k m').getLsbD i :=
    fun i => by rw [h]
  simp only [mmo, swapCrypto, BitVec.getLsbD_xor, BitVec.getLsbD_append,
    BitVec.getLsbD_extractLsb'] at hbit
  -- the low half of the value is the high half of the block
  have hhigh : ∀ j < 64, m.getLsbD (64 + j) = m'.getLsbD (64 + j) := by
    intro j hj
    have hj' := hbit j
    simpa [hj] using hj'
  apply BitVec.eq_of_getLsbD_eq
  intro i hi
  by_cases hlt : i < 64
  · have hi' := hbit (64 + i)
    simpa [hlt, hhigh i hlt] using hi'
  · have hi' := hhigh (i - 64) (by omega)
    rwa [Nat.add_sub_cancel' (Nat.le_of_not_lt hlt)] at hi'

/-- Correction words 0 and 9 separate two keys; one key against itself is
bound to nothing. -/
theorem batchEvalVDPF_binding_sample :
    (freshProof swapCrypto ⟨1⟩ 2 3 1 false (List.replicate 116 0) [0]
        = freshProof swapCrypto ⟨1⟩ 2 3 1 true (List.replicate 116 9) [0] →
      documentedDigest swapCrypto ⟨1⟩ 2 3 1 false (List.replicate 116 0) [0]
        = documentedDigest swapCrypto ⟨1⟩ 2 3 1 true (List.replicate 116 9) [0]) ∧
    ∃ inputs, inputs.length = 1 ∧
      freshProof swapCrypto ⟨1⟩ 2 3 1 false (List.replicate 116 0) inputs
        = freshProof swapCrypto ⟨1⟩ 2 3 1 true (List.replicate 116 0) [0] ∧
      documentedDigest swapCrypto ⟨1⟩ 2 3 1 false (List.replicate 116 0) inputs
        ≠ documentedDigest swapCrypto ⟨1⟩ 2 3 1 true (List.replicate 116 0) [0] :=
  ⟨(batchEvalVDPF_binding swapCrypto (fun _ _ _ _ h => h) ⟨1⟩ 2 3 1 false true
      (List.replicate 116 0) (List.replicate 116 9)).1 [0] [0] ⟨0, by decide⟩,
    (batchEvalVDPF_binding swapCrypto (fun _ _ _ _ h => h) ⟨1⟩ 2 3 1 false true
      (List.replicate 116 0) (List.replicate 116 0)).2 (mmo_swap_injective 2)
      (mmo_swap_injective 3) 0 [0] (by decide)⟩

set_option maxRecDepth 4000 in
/-- Two keys that differ in the root seed: one proof, two documented digests. -/
theorem batchEvalVDPF_not_binding :
    Set.InjOn sampleCrypto.sha256 {l | l.length = 64} ∧
    (List.replicate 116 (0 : Byte)).length = keySize 1 4 ∧
    ((List.replicate 116 (0 : Byte)).set 1 4).length = keySize 1 4 ∧
    freshProof sampleCrypto ⟨1⟩ 2 3 1 false (List.replicate 116 0) [0]
      = freshProof sampleCrypto ⟨1⟩ 2 3 1 true ((List.replicate 116 0).set 1 4) [0] ∧
    documentedDigest sampleCrypto ⟨1⟩ 2 3 1 false (List.replicate 116 0) [0]
      ≠ documentedDigest sampleCrypto ⟨1⟩ 2 3 1 true ((List.replicate 116 0).set 1 4) [0] :=
  ⟨fun _ _ _ _ h => h, by decide, by decide, by decide, by decide⟩

end PSVFSS

/-
# `Vdpf.Eval` — `batchEvalVDPF`

The evaluator keeps two arrays of `size + 1` nodes and reuses them for every
input; entry 0, the root, is the only one an input does not overwrite.
Along the way it folds a verification value `pi` through both hash contexts.

    batchEvalVDPF_out     each output is `leafValue` at the leaf of its input
    batchEvalVDPF_proof   the proof, with what the hash contexts really return
                          put in: it reads the correction words `cs` and the
                          number of inputs, and nothing else of key or inputs

The loops count with an `int` up to a `uint64_t`; the counters have no width here,
so the runs of more than 2^31 - 1 inputs, where the `int` overflows and C leaves
the behaviour undefined, are not told apart.
-/
import PSVFSS.Lib.Loop
import PSVFSS.Mmo
import PSVFSS.Vdpf.Key

namespace PSVFSS

open ByteBuffer CipherMode PathTree Loop

variable {δ : Type}

/-! ## The path of one input

The inner loop writes `path[1]` to `path[size]` and reads only the entry
below.  `evalLevel` is one pass of it. -/

/-- One level of the walk: `path[i]` from `path[i - 1]`. -/
def evalLevel (C : Crypto δ) (ctx : Ecb Uint128) (key : ParsedKey) (size : Nat) (x : Uint64)
    (i : Nat) (path : Nat → Node) : Nat → Node :=
  let p := expandNode C ctx key (i - 1) (path (i - 1))
  let xbit := getbit (x.setWidth 128) size i
  Function.update path i (p.select xbit)

/-- The inner loop: all levels, `i = 1 .. size`. -/
def evalPath (C : Crypto δ) (ctx : Ecb Uint128) (key : ParsedKey) (size : Nat) (x : Uint64)
    (path : Nat → Node) : Nat → Node :=
  forLoop size (fun j path => evalLevel C ctx key size x (j + 1) path) path

/-! ## The verification value

Both evaluators run the same code on it, over two hash functions that change
their contexts.  The functions are parameters, so that the documented ones can
take their place. -/

/-- The running verification state: both hash contexts and `pi`. -/
structure Verify (H₁ H₂ : Type) where
  hash1 : H₁
  hash2 : H₂
  pi : Fin 4 → Uint128

/-- One pass of the verification code over two stateful hash functions:
`pi ^= H'(pi ^ correct(H(x, seed), cs, bit))`. -/
def verifyStep {H₁ H₂ : Type} (hash2to4 : H₁ → (Fin 2 → Uint128) → H₁ × (Fin 4 → Uint128))
    (hash4to4 : H₂ → (Fin 4 → Uint128) → H₂ × (Fin 4 → Uint128)) (cs : Fin 4 → Uint128)
    (x seed : Uint128) (v : Verify H₁ H₂) : Verify H₁ H₂ :=
  let bit : CInt := (seedLsb seed).setWidth 32
  let tpi := hash2to4 v.hash1 ![x, seed]
  let hashinput := fun i => v.pi i ^^^ correct (tpi.2 i) (cs i) bit
  let cpi := hash4to4 v.hash2 hashinput
  { hash1 := tpi.1, hash2 := cpi.1, pi := fun i => v.pi i ^^^ cpi.2 i }

/-- The 64 bytes of `pi`. -/
def piBytes (pi : Fin 4 → Uint128) : List Byte :=
  storeLE (pi 0) ++ storeLE (pi 1) ++ storeLE (pi 2) ++ storeLE (pi 3)

/-! ## `batchEvalVDPF`

The outer loop carries the arrays from one input to the next, although every
entry but the root is overwritten before it is read. -/

/-- The state of the outer loop: the node arrays, the verification state and
the output blocks written so far. -/
structure EvalState (H₁ H₂ : Type) where
  path : Nat → Node
  verify : Verify H₁ H₂
  out : List Uint128

/-- The body of the outer loop, for one input. -/
def evalInput {H₁ H₂ : Type} (hash2to4 : H₁ → (Fin 2 → Uint128) → H₁ × (Fin 4 → Uint128))
    (hash4to4 : H₂ → (Fin 4 → Uint128) → H₂ × (Fin 4 → Uint128)) (C : Crypto δ)
    (ctx : Ecb Uint128) (key : ParsedKey) (size : Nat) (b : Bool) (s : EvalState H₁ H₂)
    (x : Uint64) : EvalState H₁ H₂ :=
  let path := evalPath C ctx key size x s.path
  { path := path
    verify := verifyStep hash2to4 hash4to4 key.cs (x.setWidth 128) (path size).seed s.verify
    out := s.out ++ [(leafValue key b (path size)).setWidth 128] }

/-- What an evaluator leaves behind: the advanced hash contexts, the output
blocks at their 16-byte stride, the proof. -/
structure EvalResult (δ : Type) where
  hash1 : Hash
  hash2 : Hash
  out : List Uint128
  proof : δ

def batchEvalVDPF (C : Crypto δ) (ctx : Ecb Uint128) (mmoHash1 mmoHash2 : Hash) (size : Nat)
    (b : Bool) (k : List Byte) (inputs : List Uint64) : EvalResult δ :=
  let key := parseKey size mmoHash1.outblocks k
  let s := inputs.foldl
    (evalInput (mmoHash2to4 C) (mmoHash4to4 C) C ctx key size b)
    { path := fun _ => rootNode key b
      -- `pi = cs`
      verify := { hash1 := mmoHash1, hash2 := mmoHash2, pi := key.cs }
      out := [] }
  { hash1 := s.verify.hash1
    hash2 := s.verify.hash2
    out := s.out
    proof := C.sha256 (piBytes s.verify.pi) }

/-! ## The arrays hold the walk

What an earlier input left above the root plays no part: the entry below is
always one this input wrote, or the root. -/

theorem evalLevel_eq (C : Crypto δ) (ctx : Ecb Uint128) (key : ParsedKey) (size : Nat)
    (x : Uint64) (j : Nat) (path : Nat → Node) :
    evalLevel C ctx key size x (j + 1) path
      = Function.update path (j + 1) (childNode C ctx key j (path j) (turnOf size x j)) := by
  simp only [evalLevel, Nat.add_sub_cancel, PrgOutput.select_getbit, toNat_widen]
  rfl

/-- After the inner loop the arrays hold the walk of `x`, whatever an earlier
input left in them above the root. -/
theorem evalPath_eq_walk (C : Crypto δ) (ctx : Ecb Uint128) (key : ParsedKey) (size : Nat)
    (x : Uint64) (path : Nat → Node) :
    ∀ i ≤ size, evalPath C ctx key size x path i
      = walk (childNode C ctx key) (path 0) (turnOf size x) i := by
  intro i hi
  simp only [evalPath, evalLevel_eq]
  exact forLoop_chain (g := fun j n => childNode C ctx key j n (turnOf size x j)) (v := path)
    (w := walk (childNode C ctx key) (path 0) (turnOf size x)) rfl (fun _ => rfl) size i hi

/-- The leaf an input leads to in a tree whose root is in place. -/
theorem evalPath_leaf {C : Crypto δ} {ctx : Ecb Uint128} {key : ParsedKey} {size : Nat}
    {b : Bool} {path : Nat → Node} (hroot : path 0 = rootNode key b) (x : Uint64) :
    evalPath C ctx key size x path size = leafNode C ctx key size b x := by
  rw [evalPath_eq_walk C ctx key size x path size (Nat.le_refl size), hroot]
  rfl

theorem evalPath_root {C : Crypto δ} {ctx : Ecb Uint128} {key : ParsedKey} {size : Nat}
    (x : Uint64) (path : Nat → Node) : evalPath C ctx key size x path 0 = path 0 :=
  evalPath_eq_walk C ctx key size x path 0 (Nat.zero_le size)

/-! ## The outer loop

With the arrays gone from the state, outputs are a map over the inputs and the
verification value is a fold over their leaves. -/

section
variable {H₁ H₂ : Type} (hash2to4 : H₁ → (Fin 2 → Uint128) → H₁ × (Fin 4 → Uint128))
  (hash4to4 : H₂ → (Fin 4 → Uint128) → H₂ × (Fin 4 → Uint128)) (C : Crypto δ)
  (ctx : Ecb Uint128) (key : ParsedKey) (size : Nat) (b : Bool)

/-- The verification value over a list of inputs, told by leaves. -/
def verifyInputs (inputs : List Uint64) (v : Verify H₁ H₂) : Verify H₁ H₂ :=
  inputs.foldl (fun v x => verifyStep hash2to4 hash4to4 key.cs (x.setWidth 128)
    (leafNode C ctx key size b x).seed v) v

/-- The loop, with the reused arrays gone: the invariant is that the root
entry stays the root. -/
theorem foldl_evalInput :
    ∀ (inputs : List Uint64) (s : EvalState H₁ H₂), s.path 0 = rootNode key b →
      (inputs.foldl (evalInput hash2to4 hash4to4 C ctx key size b) s).verify
          = verifyInputs hash2to4 hash4to4 C ctx key size b inputs s.verify ∧
        (inputs.foldl (evalInput hash2to4 hash4to4 C ctx key size b) s).out
          = s.out ++ inputs.map fun x =>
              (leafValue key b (leafNode C ctx key size b x)).setWidth 128
  | [], s, _ => ⟨rfl, by simp⟩
  | x :: inputs, s, hroot => by
      have hnext : (evalInput hash2to4 hash4to4 C ctx key size b s x).path 0 = rootNode key b :=
        (evalPath_root x s.path).trans hroot
      obtain ⟨hv, ho⟩ := foldl_evalInput inputs _ hnext
      constructor
      · rw [List.foldl_cons, hv]
        simp only [evalInput, evalPath_leaf hroot]
        rfl
      · rw [List.foldl_cons, ho]
        simp only [evalInput, evalPath_leaf hroot, List.append_assoc, List.singleton_append,
          List.map_cons]

end

section
variable (C : Crypto δ) (ctx : Ecb Uint128) (h₁ h₂ : Hash) (size : Nat) (b : Bool)
  (k : List Byte) (inputs : List Uint64)

theorem batchEvalVDPF_out :
    (batchEvalVDPF C ctx h₁ h₂ size b k inputs).out
      = inputs.map fun x =>
          (leafValue (parseKey size h₁.outblocks k) b
            (leafNode C ctx (parseKey size h₁.outblocks k) size b x)).setWidth 128 :=
  ((foldl_evalInput (mmoHash2to4 C) (mmoHash4to4 C) C ctx (parseKey size h₁.outblocks k) size b
    inputs ⟨_, ⟨h₁, h₂, (parseKey size h₁.outblocks k).cs⟩, []⟩ rfl).2).trans (List.nil_append _)

theorem batchEvalVDPF_verify :
    (batchEvalVDPF C ctx h₁ h₂ size b k inputs).proof
      = C.sha256 (piBytes (verifyInputs (mmoHash2to4 C) (mmoHash4to4 C) C ctx
          (parseKey size h₁.outblocks k) size b inputs
          ⟨h₁, h₂, (parseKey size h₁.outblocks k).cs⟩).pi) := by
  have h := (foldl_evalInput (mmoHash2to4 C) (mmoHash4to4 C) C ctx
    (parseKey size h₁.outblocks k) size b inputs
    ⟨fun _ => rootNode (parseKey size h₁.outblocks k) b,
      ⟨h₁, h₂, (parseKey size h₁.outblocks k).cs⟩, []⟩ rfl).1
  rw [← h]
  rfl

end

/-! ## What the proof depends on

The input of a hash call cancels, so the fold absorbs the keystream, four
blocks a pass, and `correct` has no seed left to act on.  A batch is told from
another only by its length. -/

/-- Word `i` of the four-wide XOR of the next `4 n` keystream blocks. -/
def keystreamFold (C : Crypto δ) (hash : Hash) (i : Fin 4) : Nat → Uint128
  | 0 => 0
  | n + 1 => keystreamFold C hash i n ^^^ hash.keystream C (4 * n + i)

/-- One pass, with the hash functions' values put in. -/
theorem verifyStep_mmo (C : Crypto δ) (cs : Fin 4 → Uint128) (x seed : Uint128)
    (v : Verify Hash Hash) :
    verifyStep (mmoHash2to4 C) (mmoHash4to4 C) cs x seed v
      = ⟨v.hash1.advance 4, v.hash2.advance 4, fun i => v.pi i ^^^ v.hash2.keystream C i⟩ := by
  simp only [verifyStep, mmoHash2to4_eq, mmoHash4to4_eq]

/-- Any run of passes: the contexts advance and `pi` absorbs keystream. -/
theorem foldl_verifyStep_mmo (C : Crypto δ) (cs : Fin 4 → Uint128) :
    ∀ (l : List (Uint128 × Uint128)) (h₁ h₂ : Hash) (pi : Fin 4 → Uint128),
      l.foldl (fun v xs => verifyStep (mmoHash2to4 C) (mmoHash4to4 C) cs xs.1 xs.2 v) ⟨h₁, h₂, pi⟩
        = ⟨h₁.advance (4 * l.length), h₂.advance (4 * l.length),
            fun i => pi i ^^^ keystreamFold C h₂ i l.length⟩ := by
  intro l
  induction l using List.reverseRecOn with
  | nil =>
      intro h₁ h₂ pi
      simp [keystreamFold]
  | append_singleton l xs ih =>
      intro h₁ h₂ pi
      rw [List.foldl_append, ih, List.foldl_cons, List.foldl_nil, verifyStep_mmo]
      simp only [Hash.advance_advance, Hash.keystream_advance, List.length_append,
        List.length_cons, List.length_nil, keystreamFold, BitVec.xor_assoc]
      rfl

/-- `pi` after a batch of `n` inputs under correction words `cs`. -/
def proofMask (C : Crypto δ) (h₂ : Hash) (cs : Fin 4 → Uint128) (n : Nat) : Fin 4 → Uint128 :=
  fun i => cs i ^^^ keystreamFold C h₂ i n

/-- The proof reads `cs` and the number of inputs. -/
theorem batchEvalVDPF_proof (C : Crypto δ) (ctx : Ecb Uint128) (h₁ h₂ : Hash) (size : Nat)
    (b : Bool) (k : List Byte) (inputs : List Uint64) :
    (batchEvalVDPF C ctx h₁ h₂ size b k inputs).proof
      = C.sha256 (piBytes
          (proofMask C h₂ (parseKey size h₁.outblocks k).cs inputs.length)) := by
  have h := foldl_verifyStep_mmo C (parseKey size h₁.outblocks k).cs
    (inputs.map fun x => (x.setWidth 128,
      (leafNode C ctx (parseKey size h₁.outblocks k) size b x).seed))
    h₁ h₂ (parseKey size h₁.outblocks k).cs
  rw [List.foldl_map, List.length_map] at h
  rw [batchEvalVDPF_verify, verifyInputs, h]
  rfl

end PSVFSS

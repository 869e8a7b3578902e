/-
# `Dpf` — the `DPF` object and its context state

A `DPF` owns three cipher contexts.  Every evaluation leaves the counters of
the two hash contexts where it stopped, so every entry point opens them anew
before it evaluates; the PRG context is opened once per change of keys.

    Made       the objects a program can hold: constructed, keys imported,
               entry points called in any order
    Keyed      what those calls keep: the PRG context runs under `prfKey`

Under `Keyed`, each entry point is a function of the context keys and its own
arguments (`batch_eq`), and `verEval_agrees` reads the rest off that.
-/
import PSVFSS.Lib.Runs
import PSVFSS.Vdpf.Correct

namespace PSVFSS

open ByteBuffer CipherMode Runs

variable {δ : Type}

/-! ## State

The object's own fields and its key shares.  A context is a value, counter
included, so what a call does to it is part of what the call returns. -/

def kVdpfHash1OutBlocks : Nat := 4

def kVdpfHash2OutBlocks : Nat := 2

def vdpfKeySize (bitLength : Nat) : Nat := 18 * bitLength + 18 + 16 + 16 * kVdpfHash1OutBlocks

/-- `DPF::VDPFState`. -/
structure VDPFState where
  prfKey : Uint128
  hashKey1 : Uint128
  hashKey2 : Uint128
  ctx : Ecb Uint128
  h1 : Hash
  h2 : Hash
  deriving DecidableEq

def VDPFState.resetContexts (s : VDPFState) : VDPFState :=
  { s with
    ctx := getDPFContext s.prfKey
    h1 := initMMOHash s.hashKey1 kVdpfHash1OutBlocks
    h2 := initMMOHash s.hashKey2 kVdpfHash2OutBlocks }

def VDPFState.resetHashes (s : VDPFState) : VDPFState :=
  { s with
    h1 := initMMOHash s.hashKey1 kVdpfHash1OutBlocks
    h2 := initMMOHash s.hashKey2 kVdpfHash2OutBlocks }

structure DPF where
  bitLength : Nat
  state : VDPFState
  deriving DecidableEq

/-- The constructor, with the three values `RAND_bytes` returned. -/
def DPF.make (bitLength : Nat) (prfKey hashKey1 hashKey2 : Uint128) : DPF where
  bitLength := bitLength
  state :=
    { prfKey := prfKey
      hashKey1 := hashKey1
      hashKey2 := hashKey2
      ctx := getDPFContext prfKey
      h1 := initMMOHash hashKey1 kVdpfHash1OutBlocks
      h2 := initMMOHash hashKey2 kVdpfHash2OutBlocks }

/-- A key share.  `vdpfKey` is `none` for a null pointer; a buffer has the
length the key says it has. -/
structure DPFKey where
  vdpfKey : Option (List Byte)
  vdpfKeyLen : Nat
  fcw : Uint64
  sized : ∀ k, vdpfKey = some k → k.length = vdpfKeyLen

/-- What ends a call early: the two exceptions, or an access outside a buffer,
of which nothing can be said. -/
inductive DpfError where
  | runtimeError (what : String)
  | invalidArgument (what : String)
  | outOfBounds
  deriving DecidableEq

structure VDPFEvaluation (δ : Type) where
  outputs : List Uint64
  proof : δ
  deriving DecidableEq

structure DPFEvaluation (δ : Type) where
  value : Uint64
  proof : δ
  deriving DecidableEq

/-! ## Entry points

Each follows its body in `dpf.cc`, guards first.  The exceptions of the C++
code are errors here, and so is a read outside a buffer, of which the language
says nothing. -/

def DPF.expectedKeySize (d : DPF) : Nat := vdpfKeySize d.bitLength

/-- `InitKey`, for one of the two keys. -/
def DPF.initKey (d : DPF) : DPFKey where
  vdpfKey := some (List.replicate d.expectedKeySize 0)
  vdpfKeyLen := d.expectedKeySize
  fcw := 0
  sized k hk := by
    rw [← Option.some_inj.mp hk, List.length_replicate]

/-- What `genVDPF` returns has the length of the buffers it was given. -/
theorem genVDPF_length {C : Crypto δ} {ctx : Ecb Uint128} {hash : Hash} {size : Nat}
    {index beta : Uint64} {k0 k1 : List Byte} {rand : List (Uint128 × Uint128)} {r : GenResult}
    (hgen : genVDPF C ctx hash size index beta k0 k1 rand = some r) :
    r.k0.length = k0.length ∧ r.k1.length = k1.length := by
  obtain ⟨seed0, seed1, cs, h0, h1⟩ := genVDPF_attempt hgen
  constructor
  · rw [h0, length_storeKey0]
  · rw [h1]
    simp only [storeKey1, length_memcpy]

/-- `Gen`, drawing its seeds from `rand`; `none` when it has not returned by
the end of them, or has no room for the keys. -/
def DPF.gen (C : Crypto δ) (d : DPF) (alpha beta : Uint64) (key0 key1 : DPFKey)
    (rand : List (Uint128 × Uint128)) : Option ((DPFKey × DPFKey) × DPF) :=
  let s := d.state.resetContexts
  match key0.vdpfKey, key1.vdpfKey with
  | some k0, some k1 =>
      if k0.length < d.expectedKeySize ∨ k1.length < d.expectedKeySize then none
      else
        let k0 := List.replicate key0.vdpfKeyLen 0
        let k1 := List.replicate key1.vdpfKeyLen 0
        match hgen : genVDPF C s.ctx s.h1 d.bitLength alpha beta k0 k1 rand with
        | none => none
        | some r =>
            some
              (({ vdpfKey := some r.k0
                  vdpfKeyLen := key0.vdpfKeyLen
                  fcw := beta
                  sized := fun k hk => by
                    rw [← Option.some_inj.mp hk, (genVDPF_length hgen).1]
                    exact List.length_replicate },
                { vdpfKey := some r.k1
                  vdpfKeyLen := key1.vdpfKeyLen
                  fcw := beta
                  sized := fun k hk => by
                    rw [← Option.some_inj.mp hk, (genVDPF_length hgen).2]
                    exact List.length_replicate }),
                { d with state := { s with h1 := r.hash } })
  | _, _ => none

/-- The common part of the evaluations: `reset_hashes`, then `batchEvalVDPF`. -/
def DPF.batch (C : Crypto δ) (d : DPF) (b : Bool) (k : List Byte) (inputs : List Uint64) :
    EvalResult δ × DPF :=
  let s := d.state.resetHashes
  let r := batchEvalVDPF C s.ctx s.h1 s.h2 d.bitLength b k inputs
  (r, { d with state := { s with h1 := r.hash1, h2 := r.hash2 } })

def DPF.evalWithProof (C : Crypto δ) (d : DPF) (b : Byte) (key : DPFKey) (input : Uint64) :
    Except DpfError (DPFEvaluation δ) × DPF :=
  match key.vdpfKey with
  | none => (.error .outOfBounds, d)
  | some k =>
      if k.length < d.expectedKeySize then (.error .outOfBounds, d)
      else
        let r := d.batch C (b ≠ 0) k [input]
        (.ok { value := r.1.share 0, proof := r.1.proof }, r.2)

def DPF.eval (C : Crypto δ) (d : DPF) (b : Byte) (key : DPFKey) (input : Uint64) :
    Except DpfError Uint64 × DPF :=
  let r := d.evalWithProof C b key input
  (r.1.map DPFEvaluation.value, r.2)

def DPF.batchEvalProof (C : Crypto δ) (d : DPF) (b : Byte) (key : DPFKey) (inputs : List Uint64) :
    Except DpfError δ × DPF :=
  if inputs.isEmpty then
    (.error (.runtimeError "DPF state is not initialized or input batch is empty"), d)
  else
    match key.vdpfKey with
    | none => (.error .outOfBounds, d)
    | some k =>
        if k.length < d.expectedKeySize then (.error .outOfBounds, d)
        else
          let r := d.batch C (b ≠ 0) k inputs
          (.ok r.1.proof, r.2)

def DPF.verEval (C : Crypto δ) (d : DPF) (b : Byte) (key : DPFKey) (inputs : List Uint64) :
    Except DpfError (VDPFEvaluation δ) × DPF :=
  if inputs.isEmpty then
    (.error (.runtimeError "DPF state is not initialized or input batch is empty"), d)
  else
    match key.vdpfKey with
    | none => (.error (.invalidArgument "invalid VDPF party or key share"), d)
    | some k =>
        if b.toNat > 1 ∨ key.vdpfKeyLen ≠ d.expectedKeySize then
          (.error (.invalidArgument "invalid VDPF party or key share"), d)
        else
          let r := d.batch C (b ≠ 0) k inputs
          (.ok { outputs := (List.range inputs.length).map r.1.share, proof := r.1.proof }, r.2)

/-- `VerifyProofs`. -/
def verifyProofs [DecidableEq δ] (proof0 proof1 : δ) : Bool := decide (proof0 = proof1)

/-! ## Context keys

The 48 bytes the two parties share.  The block counters are not among them, so
equal exports leave room for contexts in different states. -/

def DPF.exportContextKeys (d : DPF) : List Byte :=
  storeLE d.state.prfKey ++ storeLE d.state.hashKey1 ++ storeLE d.state.hashKey2

def DPF.importContextKeys (d : DPF) (bytes : List Byte) : DPF :=
  let s :=
    { d.state with
      prfKey := loadLE 128 (slice bytes 0 16)
      hashKey1 := loadLE 128 (slice bytes 16 16)
      hashKey2 := loadLE 128 (slice bytes 32 16) }
  { d with state := s.resetContexts }

/-- The three context keys. -/
def DPF.keys (d : DPF) : Uint128 × Uint128 × Uint128 :=
  (d.state.prfKey, d.state.hashKey1, d.state.hashKey2)

/-- The exported bytes determine the keys. -/
theorem keys_eq_of_export {d d' : DPF} (h : d.exportContextKeys = d'.exportContextKeys) :
    d.keys = d'.keys := by
  have hlen : ∀ x y : Uint128, (storeLE x).length = (storeLE y).length := fun x y => by
    rw [length_storeLE, length_storeLE]
  have hinj := storeLE_injective (w := 128) (by decide)
  obtain ⟨h01, h2⟩ := List.append_inj' h (hlen _ _)
  obtain ⟨h0, h1⟩ := List.append_inj' h01 (hlen _ _)
  simp only [DPF.keys, hinj h0, hinj h1, hinj h2]

/-! ## Calls

A history is a list of calls, those that throw included.  An object after an
access outside its buffers is none at all. -/

/-- A call of one of the five entry points. -/
inductive DPF.Call where
  | gen (alpha beta : Uint64) (key0 key1 : DPFKey) (rand : List (Uint128 × Uint128))
  | eval (b : Byte) (key : DPFKey) (input : Uint64)
  | evalWithProof (b : Byte) (key : DPFKey) (input : Uint64)
  | batchEvalProof (b : Byte) (key : DPFKey) (inputs : List Uint64)
  | verEval (b : Byte) (key : DPFKey) (inputs : List Uint64)

/-- The object after a result; no object after an access out of bounds. -/
def afterResult {α : Type} : Except DpfError α × DPF → Option DPF
  | (.error .outOfBounds, _) => none
  | (_, d) => some d

/-- The object after a call that returns or throws. -/
def DPF.call (C : Crypto δ) (d : DPF) : DPF.Call → Option DPF
  | .gen alpha beta key0 key1 rand => (d.gen C alpha beta key0 key1 rand).map Prod.snd
  | .eval b key input => afterResult (d.eval C b key input)
  | .evalWithProof b key input => afterResult (d.evalWithProof C b key input)
  | .batchEvalProof b key inputs => afterResult (d.batchEvalProof C b key inputs)
  | .verEval b key inputs => afterResult (d.verEval C b key inputs)

/-- The objects a program can hold. -/
inductive Made (C : Crypto δ) : DPF → Prop
  | make (bitLength : Nat) (prfKey hashKey1 hashKey2 : Uint128) :
      Made C (DPF.make bitLength prfKey hashKey1 hashKey2)
  | imported {d : DPF} (bytes : List Byte) : Made C d → Made C (d.importContextKeys bytes)
  | call {d d' : DPF} {c : DPF.Call} : Made C d → d.call C c = some d' → Made C d'

/-! ## What every call keeps

No entry point touches the keys, and the PRG context is only ever reopened
under the key it already had.  This is one step lemma, and the run lemma of
`Lib.Runs` makes it a fact about histories. -/

/-- The PRG context runs under the object's PRF key. -/
def DPF.Keyed (d : DPF) : Prop := d.state.ctx = getDPFContext d.state.prfKey

/-- Same domain, same context keys. -/
structure SameKeys (d d' : DPF) : Prop where
  bitLength : d.bitLength = d'.bitLength
  keys : d.keys = d'.keys

theorem SameKeys.refl (d : DPF) : SameKeys d d := ⟨rfl, rfl⟩

theorem SameKeys.symm {d d' : DPF} (h : SameKeys d d') : SameKeys d' d :=
  ⟨h.bitLength.symm, h.keys.symm⟩

theorem SameKeys.trans {d d' d'' : DPF} (h : SameKeys d d') (h' : SameKeys d' d'') :
    SameKeys d d'' := ⟨h.bitLength.trans h'.bitLength, h.keys.trans h'.keys⟩

/-- What a call may do to the object: keep the keys, keep the PRG context or
open it under them. -/
structure Keeps (d d' : DPF) : Prop where
  same : SameKeys d d'
  ctx : d'.state.ctx = d.state.ctx ∨ d'.state.ctx = getDPFContext d.state.prfKey

theorem Keeps.refl (d : DPF) : Keeps d d := ⟨SameKeys.refl d, Or.inl rfl⟩

theorem SameKeys.prfKey {d d' : DPF} (h : SameKeys d d') : d.state.prfKey = d'.state.prfKey :=
  congrArg Prod.fst h.keys

theorem SameKeys.hashKey1 {d d' : DPF} (h : SameKeys d d') :
    d.state.hashKey1 = d'.state.hashKey1 := congrArg (fun k => k.2.1) h.keys

theorem SameKeys.hashKey2 {d d' : DPF} (h : SameKeys d d') :
    d.state.hashKey2 = d'.state.hashKey2 := congrArg (fun k => k.2.2) h.keys

theorem Keeps.keyed {d d' : DPF} (h : Keeps d d') (hd : d.Keyed) : d'.Keyed := by
  rw [DPF.Keyed, ← h.same.prfKey]
  rcases h.ctx with hctx | hctx
  · exact hctx.trans hd
  · exact hctx

theorem keeps_batch (C : Crypto δ) (d : DPF) (b : Bool) (k : List Byte) (inputs : List Uint64) :
    Keeps d (d.batch C b k inputs).2 := ⟨⟨rfl, rfl⟩, Or.inl rfl⟩

theorem keeps_gen {C : Crypto δ} {d : DPF} {alpha beta : Uint64} {key0 key1 : DPFKey}
    {rand : List (Uint128 × Uint128)} {r : (DPFKey × DPFKey) × DPF}
    (h : d.gen C alpha beta key0 key1 rand = some r) : Keeps d r.2 := by
  simp only [DPF.gen] at h
  split at h
  · split at h
    · cases h
    · split at h
      · cases h
      · cases h
        exact ⟨⟨rfl, rfl⟩, Or.inr rfl⟩
  · cases h

theorem keeps_evalWithProof (C : Crypto δ) (d : DPF) (b : Byte) (key : DPFKey) (input : Uint64) :
    Keeps d (d.evalWithProof C b key input).2 := by
  simp only [DPF.evalWithProof]
  split
  · exact Keeps.refl d
  · split
    · exact Keeps.refl d
    · exact keeps_batch C d _ _ _

theorem keeps_batchEvalProof (C : Crypto δ) (d : DPF) (b : Byte) (key : DPFKey)
    (inputs : List Uint64) : Keeps d (d.batchEvalProof C b key inputs).2 := by
  simp only [DPF.batchEvalProof]
  split
  · exact Keeps.refl d
  · split
    · exact Keeps.refl d
    · split
      · exact Keeps.refl d
      · exact keeps_batch C d _ _ _

theorem keeps_verEval (C : Crypto δ) (d : DPF) (b : Byte) (key : DPFKey) (inputs : List Uint64) :
    Keeps d (d.verEval C b key inputs).2 := by
  simp only [DPF.verEval]
  split
  · exact Keeps.refl d
  · split
    · exact Keeps.refl d
    · split
      · exact Keeps.refl d
      · exact keeps_batch C d _ _ _

theorem Keeps.after {α : Type} {d d' : DPF} {r : Except DpfError α × DPF} (h : Keeps d r.2)
    (hafter : afterResult r = some d') : Keeps d d' := by
  obtain ⟨r, e⟩ := r
  cases r with
  | ok _ =>
      cases hafter
      exact h
  | error err =>
      cases err with
      | outOfBounds => cases hafter
      | runtimeError _ =>
          cases hafter
          exact h
      | invalidArgument _ =>
          cases hafter
          exact h

/-- The step lemma for calls. -/
theorem keeps_call {C : Crypto δ} {d d' : DPF} {c : DPF.Call} (h : d.call C c = some d') :
    Keeps d d' := by
  cases c with
  | gen alpha beta key0 key1 rand =>
      obtain ⟨r, hr, rfl⟩ := Option.map_eq_some_iff.mp h
      exact keeps_gen hr
  | eval b key input =>
      have heval : Keeps d (d.eval C b key input).2 := keeps_evalWithProof C d b key input
      exact heval.after h
  | evalWithProof b key input => exact (keeps_evalWithProof C d b key input).after h
  | batchEvalProof b key inputs => exact (keeps_batchEvalProof C d b key inputs).after h
  | verEval b key inputs => exact (keeps_verEval C d b key inputs).after h

theorem Made.keyed {C : Crypto δ} {d : DPF} (h : Made C d) : d.Keyed := by
  induction h with
  | make _ _ _ _ => rfl
  | imported _ _ _ => rfl
  | call _ hcall ih => exact (keeps_call hcall).keyed ih

/-- A run of calls keeps the keys and the context under them. -/
theorem run_call {C : Crypto δ} {d e : DPF} {log : List DPF.Call} (h : Run (DPF.call C) d log e)
    (hd : d.Keyed) : SameKeys d e ∧ e.Keyed :=
  h.invariant (P := fun e => SameKeys d e ∧ e.Keyed)
    (fun _ _ _ hs hstep => ⟨hs.1.trans (keeps_call hstep).same, (keeps_call hstep).keyed hs.2⟩)
    ⟨SameKeys.refl d, hd⟩

/-! ## Evaluations as functions of keys and arguments

With the hash contexts opened anew and the PRG context known from the keys,
nothing of an object's history is left to depend on. -/

/-- The evaluation on freshly opened contexts. -/
def DPF.fresh (C : Crypto δ) (d : DPF) (b : Bool) (k : List Byte) (inputs : List Uint64) :
    EvalResult δ :=
  batchEvalVDPF C (getDPFContext d.state.prfKey) (initMMOHash d.state.hashKey1 kVdpfHash1OutBlocks)
    (initMMOHash d.state.hashKey2 kVdpfHash2OutBlocks) d.bitLength b k inputs

theorem fresh_congr (C : Crypto δ) {d d' : DPF} (h : SameKeys d d') (b : Bool) (k : List Byte)
    (inputs : List Uint64) : d.fresh C b k inputs = d'.fresh C b k inputs := by
  rw [DPF.fresh, DPF.fresh, h.bitLength, h.prfKey, h.hashKey1, h.hashKey2]

theorem batch_eq (C : Crypto δ) {d : DPF} (hd : d.Keyed) (b : Bool) (k : List Byte)
    (inputs : List Uint64) : (d.batch C b k inputs).1 = d.fresh C b k inputs := by
  show batchEvalVDPF C d.state.ctx _ _ _ _ _ _ = _
  rw [hd]
  rfl

/-- An output does not depend on the other inputs of its batch. -/
theorem share_fresh (C : Crypto δ) (d : DPF) (b : Bool) (k : List Byte) {inputs : List Uint64}
    {l : Nat} (hl : l < inputs.length) :
    (d.fresh C b k inputs).share l = (d.fresh C b k [inputs[l]]).share 0 := by
  rw [DPF.fresh, DPF.fresh, share_batchEvalVDPF _ _ _ _ _ _ _ _ hl,
    share_batchEvalVDPF _ _ _ _ _ _ _ _ (show 0 < [inputs[l]].length from Nat.one_pos)]
  rfl

theorem share_fresh_lt (C : Crypto δ) (d : DPF) (b : Bool) (k : List Byte) {inputs : List Uint64}
    {l : Nat} (hl : l < inputs.length) :
    ((d.fresh C b k inputs).share l).toNat < fieldModulus := by
  rw [DPF.fresh, share_batchEvalVDPF _ _ _ _ _ _ _ _ hl]
  exact canonical_leafValue _ _ _

section
variable (C : Crypto δ) {d : DPF} {b : Byte} {key : DPFKey} {inputs : List Uint64}

/-- `VerEval` refuses a missing share and a share of the wrong length. -/
theorem verEval_refuse (hne : inputs ≠ [])
    (h : key.vdpfKey = none ∨ key.vdpfKeyLen ≠ d.expectedKeySize) :
    d.verEval C b key inputs
      = (.error (.invalidArgument "invalid VDPF party or key share"), d) := by
  have hempty : inputs.isEmpty = false := List.isEmpty_eq_false_iff.mpr hne
  cases hkey : key.vdpfKey with
  | none => simp only [DPF.verEval, hempty, hkey, Bool.false_eq_true, if_false]
  | some k =>
      have hlen : key.vdpfKeyLen ≠ d.expectedKeySize := by
        rcases h with h | h
        · exact absurd (hkey.symm.trans h) (Option.some_ne_none k)
        · exact h
      simp only [DPF.verEval, hempty, hkey, if_pos (Or.inr hlen), Bool.false_eq_true, if_false]

variable {k : List Byte} (hkey : key.vdpfKey = some k)
  (hlen : key.vdpfKeyLen = d.expectedKeySize)
include hkey hlen

/-- Otherwise it evaluates. -/
theorem verEval_accept (hb : b.toNat ≤ 1) (hne : inputs ≠ []) :
    d.verEval C b key inputs
      = (.ok ⟨(List.range inputs.length).map (d.batch C (b ≠ 0) k inputs).1.share,
          (d.batch C (b ≠ 0) k inputs).1.proof⟩, (d.batch C (b ≠ 0) k inputs).2) := by
  have hempty : inputs.isEmpty = false := List.isEmpty_eq_false_iff.mpr hne
  have hguard : ¬(b.toNat > 1 ∨ key.vdpfKeyLen ≠ d.expectedKeySize) := by
    rintro (h | h)
    · exact absurd hb (Nat.not_le_of_gt h)
    · exact h hlen
  simp only [DPF.verEval, hempty, hkey, if_neg hguard, Bool.false_eq_true, if_false]

/-- A share of the right length has room for all that is read from it. -/
theorem room_of_length : ¬k.length < d.expectedKeySize := by
  rw [key.sized k hkey, hlen]
  exact Nat.lt_irrefl _

variable (hd : d.Keyed)
include hd

theorem verEval_eq (hb : b.toNat ≤ 1) (hne : inputs ≠ []) :
    (d.verEval C b key inputs).1
      = .ok ⟨(List.range inputs.length).map (d.fresh C (b ≠ 0) k inputs).share,
          (d.fresh C (b ≠ 0) k inputs).proof⟩ := by
  rw [verEval_accept C hkey hlen hb hne, batch_eq C hd]

theorem evalWithProof_eq (x : Uint64) :
    (d.evalWithProof C b key x).1
      = .ok ⟨(d.fresh C (b ≠ 0) k [x]).share 0, (d.fresh C (b ≠ 0) k [x]).proof⟩ := by
  simp only [DPF.evalWithProof, hkey, if_neg (room_of_length hkey hlen), batch_eq C hd]

theorem eval_eq (x : Uint64) :
    (d.eval C b key x).1 = .ok ((d.fresh C (b ≠ 0) k [x]).share 0) := by
  rw [DPF.eval, evalWithProof_eq C hkey hlen hd]
  rfl

theorem batchEvalProof_eq (hne : inputs ≠ []) :
    (d.batchEvalProof C b key inputs).1 = .ok (d.fresh C (b ≠ 0) k inputs).proof := by
  have hempty : inputs.isEmpty = false := List.isEmpty_eq_false_iff.mpr hne
  simp only [DPF.batchEvalProof, hempty, hkey, if_neg (room_of_length hkey hlen),
    Bool.false_eq_true, if_false, batch_eq C hd]

end

/-- Two objects with the same context keys, after any two histories of calls:
`VerEval` gives one result at both, and the other evaluations give its parts. -/
theorem verEval_agrees (C : Crypto δ) (d d' e e' : DPF) (hd : Made C d) (hd' : Made C d')
    (hbits : d.bitLength = d'.bitLength) (hkeys : d.exportContextKeys = d'.exportContextKeys)
    {log log' : List DPF.Call} (hrun : Run (DPF.call C) d log e)
    (hrun' : Run (DPF.call C) d' log' e') (b : Byte) (hb : b.toNat ≤ 1) (key : DPFKey)
    {k : List Byte} (hkey : key.vdpfKey = some k) (hlen : key.vdpfKeyLen = d.expectedKeySize)
    (inputs : List Uint64) (hne : inputs ≠ []) :
    ∃ r, (e.verEval C b key inputs).1 = .ok r ∧ (e'.verEval C b key inputs).1 = .ok r ∧
      r.outputs.length = inputs.length ∧
      (∀ i (hi : i < inputs.length), (e'.eval C b key inputs[i]).1 = .ok (r.outputs.getD i 0) ∧
        (r.outputs.getD i 0).toNat < fieldModulus) ∧
      (e'.batchEvalProof C b key inputs).1 = .ok r.proof ∧
      ∀ x, ∃ v p, (e'.evalWithProof C b key x).1 = .ok ⟨v, p⟩ ∧
        (e.verEval C b key [x]).1 = .ok ⟨[v], p⟩ := by
  obtain ⟨hsame, he⟩ := run_call hrun hd.keyed
  obtain ⟨hsame', he'⟩ := run_call hrun' hd'.keyed
  have hee : SameKeys e e' := hsame.symm.trans (⟨hbits, keys_eq_of_export hkeys⟩ : SameKeys d d')
    |>.trans hsame'
  have hlene : key.vdpfKeyLen = e.expectedKeySize := by
    rw [hlen, DPF.expectedKeySize, hsame.bitLength]
    rfl
  have hlene' : key.vdpfKeyLen = e'.expectedKeySize := by
    rw [hlene, DPF.expectedKeySize, hee.bitLength]
    rfl
  refine ⟨_, verEval_eq C hkey hlene he hb hne, ?_, ?_, ?_, ?_, ?_⟩
  · rw [verEval_eq C hkey hlene' he' hb hne, fresh_congr C hee]
  · rw [List.length_map, List.length_range]
  · intro i hi
    have hout : ((List.range inputs.length).map (e.fresh C (b ≠ 0) k inputs).share).getD i 0
        = (e.fresh C (b ≠ 0) k inputs).share i := by
      rw [List.getD_eq_getElem _ _ (by simpa using hi), List.getElem_map, List.getElem_range]
    rw [hout]
    refine ⟨?_, share_fresh_lt C e _ k hi⟩
    rw [eval_eq C hkey hlene' he', share_fresh C e _ k hi, fresh_congr C hee]
  · rw [batchEvalProof_eq C hkey hlene' he' hne, fresh_congr C hee]
  · intro x
    refine ⟨_, _, evalWithProof_eq C hkey hlene' he' x, ?_⟩
    rw [verEval_eq C hkey hlene he hb (List.cons_ne_nil x []), fresh_congr C hee]
    rfl

/-- Two objects that met only in their context keys, the second with a batch
behind it. -/
theorem verEval_agrees_sample :
    ∃ r, ((DPF.make 1 7 8 9).verEval sampleCrypto 1 (DPF.make 1 7 8 9).initKey [0, 1, 1]).1
        = .ok r ∧
      ((((DPF.make 1 1 2 3).importContextKeys (DPF.make 1 7 8 9).exportContextKeys).batchEvalProof
        sampleCrypto 0 (DPF.make 1 7 8 9).initKey [1, 0]).2.verEval
          sampleCrypto 1 (DPF.make 1 7 8 9).initKey [0, 1, 1]).1 = .ok r := by
  obtain ⟨r, h, h', _⟩ := verEval_agrees sampleCrypto (DPF.make 1 7 8 9)
    ((DPF.make 1 1 2 3).importContextKeys (DPF.make 1 7 8 9).exportContextKeys) _ _
    (.make 1 7 8 9) (.imported _ (.make 1 1 2 3)) (by decide) (by decide) .nil
    (Run.single (e := .batchEvalProof 0 (DPF.make 1 7 8 9).initKey [1, 0]) rfl)
    1 (by decide) (DPF.make 1 7 8 9).initKey rfl rfl [0, 1, 1] (by simp)
  exact ⟨r, h, h'⟩

end PSVFSS

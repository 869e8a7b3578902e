/-
# `Admission.Outputs` — what the outputs of an admitted list add up to

Two servers whose objects carry the client's context keys prepare the two
shares of one `Gen` call over one registered list.  Position by position their
outputs add up to `beta` or to 0 (`admitted_outputs`).

Which of the two is decided by the bits the tree walk reads: the low
`bit_length` bits of the identifier.  `Prepare` compares whole identifiers and
asks nothing of their size, so an identifier outside the domain that ends like
`alpha` gets `beta` as well.
-/
import PSVFSS.Admission.Complete

namespace PSVFSS

open ByteBuffer

variable {δ : Type}

/-! ## The turns of an identifier -/

/-- An identifier takes the turns of an index of the domain when its low bits
are the index. -/
theorem turns_iff_mod {size : Nat} {x alpha : Uint64} (halpha : alpha.toNat < 2 ^ size) :
    (∀ j < size, turnOf size x j = turnOf size alpha j) ↔ x.toNat % 2 ^ size = alpha.toNat := by
  constructor
  · intro h
    apply Nat.eq_of_testBit_eq
    intro i
    rw [Nat.testBit_mod_two_pow]
    by_cases hi : i < size
    · have hj := h (size - (i + 1)) (by omega)
      have hsub : size - (size - (i + 1) + 1) = i := by omega
      rw [turnOf, turnOf, hsub] at hj
      rw [hj, decide_eq_true hi, Bool.true_and]
    · have hle : 2 ^ size ≤ 2 ^ i := Nat.pow_le_pow_right Nat.two_pos (Nat.le_of_not_lt hi)
      rw [decide_eq_false hi, Bool.false_and, Nat.testBit_lt_two_pow (halpha.trans_le hle)]
  · intro h j hj
    have hlt : size - (j + 1) < size := by omega
    rw [turnOf, turnOf, ← h, Nat.testBit_mod_two_pow, decide_eq_true hlt, Bool.true_and]

/-! ## The shares of `Gen`, parsed

The client's object has drawn the shares with contexts of its own; what the
servers parse depends on its PRF key only. -/

/-- Both servers parse what `Gen` wrote to one key pair. -/
theorem gen_keyPair {C : Crypto δ} {d d' : DPF} {alpha beta : Uint64} {key0 key1 : DPFKey}
    {share : Bool → DPFKey} {rand : List (Uint128 × Uint128)}
    (hgen : d.gen C alpha beta key0 key1 rand = some ((share false, share true), d'))
    (hlen0 : key0.vdpfKeyLen = d.expectedKeySize) (hlen1 : key1.vdpfKeyLen = d.expectedKeySize) :
    ∃ k : Bool → List Byte, (∀ b, (share b).vdpfKey = some (k b)) ∧
      (∀ b, (share b).vdpfKeyLen = d.expectedKeySize) ∧
      ∃ seed0 seed1, KeyPair (parseKey d.bitLength kVdpfHash1OutBlocks (k false))
        (parseKey d.bitLength kVdpfHash1OutBlocks (k true))
        (genPath C (getDPFContext d.state.prfKey) d.bitLength alpha seed0 seed1)
        d.bitLength beta := by
  obtain ⟨k, hkey, hlen, _⟩ := gen_shares hgen hlen0 hlen1
  simp only [DPF.gen] at hgen
  split at hgen
  case h_2 => cases hgen
  split at hgen
  case isTrue => cases hgen
  split at hgen
  case h_1 => cases hgen
  case h_2 r hr =>
    simp only [Option.some_inj, Prod.mk.injEq] at hgen
    obtain ⟨⟨h0, h1⟩, _⟩ := hgen
    have hk0 : r.k0 = k false := by
      have := hkey false
      rw [← h0] at this
      exact Option.some_inj.mp this
    have hk1 : r.k1 = k true := by
      have := hkey true
      rw [← h1] at this
      exact Option.some_inj.mp this
    have hsize : ∀ n, n = d.expectedKeySize →
        (List.replicate n (0 : Byte)).length = keySize d.bitLength kVdpfHash1OutBlocks := by
      rintro n rfl
      rw [List.length_replicate]
      rfl
    have hpair := genVDPF_keyPair (hsize _ hlen0) (hsize _ hlen1) hr kVdpfHash1OutBlocks
      kVdpfHash1OutBlocks
    rw [hk0, hk1] at hpair
    exact ⟨k, hkey, hlen, hpair⟩

/-! ## The outputs of a ready object

A ready object has been through `VerEval`, so its outputs are the words of an
evaluation on fresh hash contexts under the server's keys. -/

/-- A ready object holds the outputs of the evaluation. -/
theorem prepare_outputs [Inhabited δ] {C : Crypto δ} {addr : Nat} {s : AdmissionServer} {d : DPF}
    {signalId : Uint64} {key : DPFKey} {inputs : List Uint64} {p : PreparedAdmission δ}
    (hp : (s.prepare C addr d signalId key inputs).1 = .ok p) (hready : p.ready = true) :
    ∃ r, (d.verEval C s.party key inputs).1 = .ok r ∧ p.outputs = r.outputs := by
  have hrefused : ∀ {decision : AdmissionDecision} {h : decision ≠ .accept},
      (.ok (.refused addr signalId decision h) : Except DpfError (PreparedAdmission δ)) = .ok p →
        False := by
    intro decision h heq
    rw [← Except.ok.inj heq] at hready
    cases hready
  simp only [AdmissionServer.prepare] at hp
  split at hp
  · exact (hrefused hp).elim
  split at hp
  · exact (hrefused hp).elim
  split at hp
  case h_1 evaluation _ heq =>
    rw [heq, ← Except.ok.inj hp]
    exact ⟨evaluation, rfl, rfl⟩
  case h_2 => exact (hrefused hp).elim
  case h_3 => cases hp

theorem share_fresh_eq (C : Crypto δ) (d : DPF) (b : Bool) (k : List Byte) {inputs : List Uint64}
    {i : Nat} (hi : i < inputs.length) :
    (d.fresh C b k inputs).share i
      = leafValue (parseKey d.bitLength kVdpfHash1OutBlocks k) b
          (leafNode C (getDPFContext d.state.prfKey)
            (parseKey d.bitLength kVdpfHash1OutBlocks k) d.bitLength b inputs[i]) := by
  rw [DPF.fresh]
  exact share_batchEvalVDPF C _ _ _ d.bitLength b k inputs hi

/-- The two output lists of one registered list. -/
structure Reconstructs (size : Nat) (alpha beta : Uint64) (inputs out0 out1 : List Uint64) :
    Prop where
  length0 : out0.length = inputs.length
  length1 : out1.length = inputs.length
  sum : ∀ i (hi : i < inputs.length), (field61Add (out0.getD i 0) (out1.getD i 0)).toNat
    = if inputs[i].toNat % 2 ^ size = alpha.toNat then beta.toNat % fieldModulus else 0

section
variable (C : Crypto δ) {client client' : DPF} {alpha beta : Uint64} {key0 key1 : DPFKey}
  {rand : List (Uint128 × Uint128)} {share : Bool → DPFKey}

/-- The shares evaluated under the keys of the client. -/
theorem fresh_reconstructs (halpha : alpha.toNat < 2 ^ client.bitLength)
    (hlen0 : key0.vdpfKeyLen = client.expectedKeySize)
    (hlen1 : key1.vdpfKeyLen = client.expectedKeySize)
    (hgen : client.gen C alpha beta key0 key1 rand = some ((share false, share true), client'))
    {k : Bool → List Byte} (hkey : ∀ b, (share b).vdpfKey = some (k b)) (inputs : List Uint64) :
    Reconstructs client.bitLength alpha beta inputs
      ((List.range inputs.length).map (client.fresh C false (k false) inputs).share)
      ((List.range inputs.length).map (client.fresh C true (k true) inputs).share) := by
  obtain ⟨k', hkey', _, seed0, seed1, hpair⟩ := gen_keyPair hgen hlen0 hlen1
  obtain rfl : k' = k := funext fun b => Option.some_inj.mp ((hkey' b).symm.trans (hkey b))
  refine ⟨by simp, by simp, fun i hi => ?_⟩
  have hget : ∀ f : Nat → Uint64, ((List.range inputs.length).map f).getD i 0 = f i := fun f => by
    rw [List.getD_eq_getElem _ _ (by simpa using hi), List.getElem_map, List.getElem_range]
  have hsum := hpair.point inputs[i]
  rw [← share_fresh_eq C client false _ hi, ← share_fresh_eq C client true _ hi, ← toField_add]
    at hsum
  rw [hget, hget]
  have hcanon := canonical_add ((client.fresh C false (k' false) inputs).share i)
    ((client.fresh C true (k' true) inputs).share i)
  by_cases hmod : inputs[i].toNat % 2 ^ client.bitLength = alpha.toNat
  · rw [if_pos hmod]
    rw [if_pos ((turns_iff_mod halpha).mpr hmod)] at hsum
    exact hcanon.toNat_eq hsum
  · rw [if_neg hmod]
    rw [if_neg fun h => hmod ((turns_iff_mod halpha).mp h)] at hsum
    exact hcanon.toNat_eq (hsum.trans Nat.cast_zero.symm)

end

/-! ## Admitted lists

The two lists are added position by position.  No check on the identifiers
stands between `Prepare` and the evaluator but that they are distinct. -/

/-- The conclusion of `admitted_outputs`, where the counterexample can use it. -/
theorem ready_outputs [Inhabited δ] (C : Crypto δ) {client client' : DPF} {alpha beta : Uint64}
    (halpha : alpha.toNat < 2 ^ client.bitLength) {key0 key1 : DPFKey}
    (hlen0 : key0.vdpfKeyLen = client.expectedKeySize)
    (hlen1 : key1.vdpfKeyLen = client.expectedKeySize) {rand : List (Uint128 × Uint128)}
    {share : Bool → DPFKey}
    (hgen : client.gen C alpha beta key0 key1 rand = some ((share false, share true), client'))
    {addr : Bool → Nat} {s : Bool → AdmissionServer} {d : Bool → DPF}
    (hparty : ∀ b, (s b).party = if b then 1 else 0) (hd : ∀ b, (d b).Keyed)
    (hsame : ∀ b, SameKeys client (d b)) {signalId : Uint64} {inputs : List Uint64}
    {p : Bool → PreparedAdmission δ}
    (hp : ∀ b, ((s b).prepare C (addr b) (d b) signalId (share b) inputs).1 = .ok (p b))
    (hready : ∀ b, (p b).ready = true) :
    Reconstructs client.bitLength alpha beta inputs (p false).outputs (p true).outputs := by
  obtain ⟨k, hkey, hlen, _⟩ := gen_shares hgen hlen0 hlen1
  have hsize : ∀ b, (share b).vdpfKeyLen = (d b).expectedKeySize := fun b => by
    rw [hlen b, DPF.expectedKeySize, (hsame b).bitLength]
    rfl
  have hout : ∀ b, (p b).outputs
      = (List.range inputs.length).map (client.fresh C b (k b) inputs).share := by
    intro b
    obtain ⟨r, hr, hout⟩ := prepare_outputs (hp b) (hready b)
    obtain ⟨q, hq, _, _, hyes, _⟩ := prepare_cases C (addr b) (s b) (d b) signalId (share b) inputs
    obtain rfl : q = p b := Except.ok.inj (hq.symm.trans (hp b))
    have hside : decide ((s b).party ≠ 0) = b := by
      rw [hparty]
      cases b <;> rfl
    rw [verEval_eq C (hkey b) (hsize b) (hd b) (s b).valid (hyes (hready b)).nonempty, hside,
      ← fresh_congr C (hsame b)] at hr
    rw [hout, ← Except.ok.inj hr]
  rw [hout, hout]
  exact fresh_reconstructs C halpha hlen0 hlen1 hgen hkey inputs

/-- Both servers ready: each position adds up to `beta` when the identifier and
`alpha` agree modulo `2 ^ bit_length`, to 0 otherwise. -/
theorem admitted_outputs [Inhabited δ] (C : Crypto δ) (client client' : DPF) (alpha beta : Uint64)
    (halpha : alpha.toNat < 2 ^ client.bitLength) (key0 key1 : DPFKey)
    (hlen0 : key0.vdpfKeyLen = client.expectedKeySize)
    (hlen1 : key1.vdpfKeyLen = client.expectedKeySize) (rand : List (Uint128 × Uint128))
    (share : Bool → DPFKey)
    (hgen : client.gen C alpha beta key0 key1 rand = some ((share false, share true), client'))
    (addr : Bool → Nat) (s : Bool → AdmissionServer) (d : Bool → DPF)
    (hparty : ∀ b, (s b).party = if b then 1 else 0) (hd : ∀ b, Made C (d b))
    (hsame : ∀ b, SameKeys client (d b)) (signalId : Uint64) (inputs : List Uint64)
    (p : Bool → PreparedAdmission δ)
    (hp : ∀ b, ((s b).prepare C (addr b) (d b) signalId (share b) inputs).1 = .ok (p b))
    (hready : ∀ b, (p b).ready = true) :
    Reconstructs client.bitLength alpha beta inputs (p false).outputs (p true).outputs :=
  ready_outputs C halpha hlen0 hlen1 hgen hparty (fun b => (hd b).keyed) hsame hp hready

/-- The two servers of `sampleWorld` are ready for the shares of a client with
their context keys. -/
theorem sampleWorld_ready {client' : DPF} {alpha beta : Uint64} (share : Bool → DPFKey)
    {rand : List (Uint128 × Uint128)}
    (hgen : (DPF.make 1 1 2 3).gen sampleCrypto alpha beta (DPF.make 1 1 2 3).initKey
      (DPF.make 1 1 2 3).initKey rand = some ((share false, share true), client'))
    (inputs : List Uint64) (hne : inputs ≠ []) (hnodup : inputs.Nodup) :
    ∃ p : Bool → PreparedAdmission (List Byte),
      (∀ b, ((sampleWorld.servers b.toNat).prepare sampleCrypto b.toNat (DPF.make 1 1 2 3) 7
        (share b) inputs).1 = .ok (p b)) ∧ ∀ b, (p b).ready = true := by
  obtain ⟨k, hkey, hlen, _⟩ := gen_shares hgen rfl rfl
  have hready : ∀ b : Bool, ∃ p : PreparedAdmission (List Byte),
      (sampleWorld.prepare sampleCrypto b.toNat 7 (share b) inputs).1 = .ok p ∧ p.ready = true := by
    intro b
    obtain ⟨p, hp, _, _, hr, _⟩ := prepare_ready (C := sampleCrypto)
      (rfl : (sampleWorld.dpfOf b.toNat).Keyed) Finmap.notMem_empty (hkey b) (hlen b) hne hnodup
    exact ⟨p, hp, hr⟩
  choose p hp hr using hready
  exact ⟨p, hp, hr⟩

set_option maxRecDepth 8000 in
/-- A registered list of the domain, with the index in it. -/
theorem admitted_outputs_sample :
    ∃ (share : Bool → DPFKey) (client' : DPF),
      (DPF.make 1 1 2 3).gen sampleCrypto 1 7 (DPF.make 1 1 2 3).initKey
        (DPF.make 1 1 2 3).initKey [(0, 1), (0, 2)] = some ((share false, share true), client') ∧
      ∃ p : Bool → PreparedAdmission (List Byte),
        (∀ b, ((sampleWorld.servers b.toNat).prepare sampleCrypto b.toNat (DPF.make 1 1 2 3) 7
          (share b) [0, 1]).1 = .ok (p b)) ∧
        Reconstructs 1 1 7 [0, 1] (p false).outputs (p true).outputs := by
  have hsome : ((DPF.make 1 1 2 3).gen sampleCrypto 1 7 (DPF.make 1 1 2 3).initKey
      (DPF.make 1 1 2 3).initKey [(0, 1), (0, 2)]).isSome = true := by decide
  obtain ⟨⟨⟨share0, share1⟩, client'⟩, hgen⟩ := Option.isSome_iff_exists.mp hsome
  obtain ⟨p, hp, hready⟩ := sampleWorld_ready (fun b => if b then share1 else share0) hgen [0, 1]
    (by simp) (by simp)
  refine ⟨_, client', hgen, p, hp, ?_⟩
  exact admitted_outputs sampleCrypto (DPF.make 1 1 2 3) client' 1 7 (by decide) _ _ rfl rfl _ _
    hgen Bool.toNat (fun b => sampleWorld.servers b.toNat) (fun _ => DPF.make 1 1 2 3)
    (by decide) (fun _ => .make 1 1 2 3) (fun _ => SameKeys.refl _) 7 [0, 1] p hp hready

set_option maxRecDepth 8000 in
/-- One bit, index 0: the registered identifier 2 gets `beta`. -/
theorem outputs_not_point_function :
    ∃ (share : Bool → DPFKey) (client' : DPF),
      (DPF.make 1 1 2 3).gen sampleCrypto 0 7 (DPF.make 1 1 2 3).initKey
        (DPF.make 1 1 2 3).initKey [(0, 1), (0, 2)] = some ((share false, share true), client') ∧
      ∃ p : Bool → PreparedAdmission (List Byte),
        (∀ b, ((sampleWorld.servers b.toNat).prepare sampleCrypto b.toNat (DPF.make 1 1 2 3) 7
          (share b) [2]).1 = .ok (p b)) ∧
        (∀ b, (p b).ready = true) ∧ (2 : Uint64) ≠ 0 ∧
        (field61Add ((p false).outputs.getD 0 0) ((p true).outputs.getD 0 0)).toNat = 7 := by
  have hsome : ((DPF.make 1 1 2 3).gen sampleCrypto 0 7 (DPF.make 1 1 2 3).initKey
      (DPF.make 1 1 2 3).initKey [(0, 1), (0, 2)]).isSome = true := by decide
  obtain ⟨⟨⟨share0, share1⟩, client'⟩, hgen⟩ := Option.isSome_iff_exists.mp hsome
  obtain ⟨p, hp, hready⟩ := sampleWorld_ready (fun b => if b then share1 else share0) hgen [2]
    (by simp) (by simp)
  refine ⟨_, client', hgen, p, hp, hready, by decide, ?_⟩
  have hsum := (ready_outputs sampleCrypto
    (by decide : (0 : Uint64).toNat < 2 ^ (DPF.make 1 1 2 3).bitLength) rfl rfl hgen
    (s := fun b => sampleWorld.servers b.toNat) (d := fun _ => DPF.make 1 1 2 3) (by decide)
    (fun _ => rfl) (fun _ => SameKeys.refl _) hp hready).sum 0 (by decide)
  exact hsum.trans (by decide)

end PSVFSS

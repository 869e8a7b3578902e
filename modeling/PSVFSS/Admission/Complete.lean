/-
# `Admission.Complete` — an honest request is admitted

Whatever the two servers and their `DPF` objects have been through, the two
shares of one `Gen` call pass every check: both are ready (`prepare_ready`),
their proofs agree because the shares carry one set of correction words
(`fresh_proof_congr`), and both servers store them, in either order.
-/
import PSVFSS.Admission.Store

namespace PSVFSS

open ByteBuffer Runs

variable {δ : Type}

/-! ## One proof for both shares

The proof reads the correction words and the number of inputs
(`batchEvalVDPF_proof`).  The second share is a copy of the first in the
former, and both servers are given the same list. -/

/-- What `Gen` wrote: shares of the right length, the second a copy of the
first in its correction words. -/
theorem gen_shares {C : Crypto δ} {d d' : DPF} {alpha beta : Uint64} {key0 key1 : DPFKey}
    {share : Bool → DPFKey} {rand : List (Uint128 × Uint128)}
    (hgen : d.gen C alpha beta key0 key1 rand = some ((share false, share true), d'))
    (hlen0 : key0.vdpfKeyLen = d.expectedKeySize) (hlen1 : key1.vdpfKeyLen = d.expectedKeySize) :
    ∃ k : Bool → List Byte, (∀ b, (share b).vdpfKey = some (k b)) ∧
      (∀ b, (share b).vdpfKeyLen = d.expectedKeySize) ∧
      ∀ b, (parseKey d.bitLength kVdpfHash1OutBlocks (k false)).cs
        = (parseKey d.bitLength kVdpfHash1OutBlocks (k b)).cs := by
  simp only [DPF.gen] at hgen
  split at hgen
  case h_2 => cases hgen
  split at hgen
  case isTrue => cases hgen
  split at hgen
  case h_1 => cases hgen
  case h_2 r hr =>
    simp only [Option.some_inj, Prod.mk.injEq] at hgen
    obtain ⟨⟨h0, h1⟩, _⟩ := hgen
    refine ⟨fun b => if b then r.k1 else r.k0, ?_, ?_, ?_⟩
    · intro b
      cases b with
      | false => rw [← h0]; rfl
      | true => rw [← h1]; rfl
    · intro b
      cases b with
      | false => rw [← h0]; exact hlen0
      | true => rw [← h1]; exact hlen1
    · intro b
      cases b with
      | false => rfl
      | true =>
          obtain ⟨seed0, seed1, cs, hk0, hk1⟩ := genVDPF_attempt hr
          have hsize : ∀ n, n = d.expectedKeySize →
              (List.replicate n (0 : Byte)).length = keySize d.bitLength kVdpfHash1OutBlocks := by
            rintro n rfl
            rw [List.length_replicate]
            rfl
          have hr0 : r.k0.length = keySize d.bitLength kVdpfHash1OutBlocks := by
            rw [hk0, length_storeKey0]
            exact hsize _ hlen0
          simp only [Bool.false_eq_true, if_false, if_true]
          rw [hk1]
          exact (parseKey_storeKey1_cs _ hr0 (hsize _ hlen1)).symm

/-- Shares with the same correction words have the same proof, at either
party and on either of two objects with the same keys. -/
theorem fresh_proof_congr (C : Crypto δ) {d d' : DPF} (h : SameKeys d d') (b b' : Bool)
    {k k' : List Byte} (hcs : (parseKey d.bitLength kVdpfHash1OutBlocks k).cs
      = (parseKey d.bitLength kVdpfHash1OutBlocks k').cs) (inputs : List Uint64) :
    (d.fresh C b k inputs).proof = (d'.fresh C b' k' inputs).proof := by
  rw [← fresh_congr C h, DPF.fresh, DPF.fresh, batchEvalVDPF_proof, batchEvalVDPF_proof]
  exact congrArg (fun cs => C.sha256 (piBytes (proofMask C _ cs inputs.length))) hcs

/-! ## The steps of one request

What the store theorems know of a step, turned round: from the state before it
to the step that is taken.  The `DPF` objects must run under their own keys,
which every reachable world keeps. -/

theorem keyed_update {dpfs : Nat → DPF} (h : ∀ obj, (dpfs obj).Keyed) {o : Nat} {d : DPF}
    (hd : d.Keyed) (obj : Nat) : (Function.update dpfs o d obj).Keyed := by
  by_cases ho : obj = o
  · subst ho
    rwa [Function.update_self]
  · rw [Function.update_of_ne ho]
    exact h obj

variable [Inhabited δ]

/-- `Prepare` keeps the keys of every `DPF` object. -/
theorem keeps_prepare_step (C : Crypto δ) (w : World δ) (srv : Nat) (signalId : Uint64)
    (key : DPFKey) (inputs : List Uint64) (obj : Nat) :
    Keeps (w.dpfs obj) (Function.update w.dpfs (w.servers srv).dpf
      (w.prepare C srv signalId key inputs).2 obj) := by
  by_cases h : obj = (w.servers srv).dpf
  · subst h
    rw [Function.update_self]
    exact keeps_prepare C srv (w.servers srv) (w.dpfOf srv) signalId key inputs
  · rw [Function.update_of_ne h]
    exact Keeps.refl _

theorem prepare_ready {C : Crypto δ} {w : World δ} {srv : Nat} (hkeyed : (w.dpfOf srv).Keyed)
    {signalId : Uint64} (hfresh : signalId ∉ w.keysAt srv) {key : DPFKey} {k : List Byte}
    (hkey : key.vdpfKey = some k) (hlen : key.vdpfKeyLen = (w.dpfOf srv).expectedKeySize)
    {inputs : List Uint64} (hne : inputs ≠ []) (hnodup : inputs.Nodup) :
    ∃ p, (w.prepare C srv signalId key inputs).1 = .ok p ∧ p.owner = some srv ∧
      p.signalId = signalId ∧ p.ready = true ∧ p.keyShare = k ∧
      p.proof = ((w.dpfOf srv).fresh C ((w.servers srv).party ≠ 0) k inputs).proof := by
  obtain ⟨p, hp, howner, hid, hyes, hno⟩ :=
    prepare_cases C srv (w.servers srv) (w.dpfOf srv) signalId key inputs
  have hready : p.ready = true := by
    by_contra hnot
    cases hno (Bool.eq_false_iff.mpr hnot) with
    | duplicate hdup _ => exact hfresh (contains_iff.mp hdup)
    | invalid _ _ hwhy =>
        rcases hwhy with h | h | h | h
        · exact hne h
        · exact h hnodup
        · exact absurd (hkey.symm.trans h) (Option.some_ne_none k)
        · exact h hlen
  obtain ⟨k', r, hkey', hshare, hver, hproof⟩ := (hyes hready).evaluated
  obtain rfl := Option.some_inj.mp (hkey.symm.trans hkey')
  rw [verEval_eq C hkey hlen hkeyed (w.servers srv).valid hne] at hver
  refine ⟨p, hp, howner, hid, hready, hshare, ?_⟩
  rw [hproof, ← Except.ok.inj hver]

variable [DecidableEq δ]

theorem step_of_prepare {C : Crypto δ} {w : World δ} {srv : Nat} {signalId : Uint64} {key : DPFKey}
    {inputs : List Uint64} {p : PreparedAdmission δ}
    (h : (w.prepare C srv signalId key inputs).1 = .ok p) :
    w.step C (.prepare srv signalId key inputs)
      = some { w with
          dpfs := Function.update w.dpfs (w.servers srv).dpf
            (w.prepare C srv signalId key inputs).2
          prepared := p :: w.prepared } := by
  simp only [World.step, h]

theorem step_of_finalize {C : Crypto δ} {w : World δ} {srv : Nat} {p : PreparedAdmission δ}
    {msg : AdmissionMessage δ} (hp : p ∈ w.prepared) (h : Acceptable srv (w.servers srv) p msg) :
    w.step C (.finalize srv p msg)
      = some { w with
          servers := Function.update w.servers srv
            ((w.servers srv).store p.signalId p.keyShare) } := by
  simp only [World.step, hp, true_or, if_true, World.finalize, finalize_accept h]

theorem step_keyed {C : Crypto δ} {w w' : World δ} {e : Event δ} (hw : ∀ obj, (w.dpfs obj).Keyed)
    (h : w.step C e = some w') : ∀ obj, (w'.dpfs obj).Keyed := by
  cases e with
  | prepare srv signalId key inputs =>
      obtain ⟨p, _, rfl⟩ := prepare_step h
      exact keyed_update hw
        ((keeps_prepare C srv (w.servers srv) (w.dpfOf srv) signalId key inputs).keyed (hw _))
  | finalize srv p msg =>
      obtain ⟨_, rfl⟩ := finalize_step h
      exact hw
  | dpfCall o c =>
      obtain ⟨d, hd, rfl⟩ := Option.map_eq_some_iff.mp h
      exact keyed_update hw ((keeps_call hd).keyed (hw o))
  | importKeys o bytes =>
      cases h
      exact keyed_update hw rfl

/-- The `DPF` objects of a reachable world run under their own PRF keys. -/
theorem run_keyed {C : Crypto δ} {w₀ w : World δ} (h₀ : w₀.Initial C) {log : List (Event δ)}
    (h : Run (World.step C) w₀ log w) : ∀ obj, (w.dpfs obj).Keyed :=
  h.invariant (P := fun w => ∀ obj, (w.dpfs obj).Keyed)
    (fun _ _ _ hw hstep => step_keyed hw hstep) fun obj => (h₀.made obj).keyed

/-! ## Completeness

Four calls, the two preparations first.  Neither server's finalization touches
the other's store, so the order of the two does not matter. -/

/-- Both `Prepare` calls and both `Finalize` calls of one request, starting
with server `c` and server `e`, seen from the world `w` before them. -/
structure Admitted (C : Crypto δ) (w : World δ) (srv : Bool → Nat) (signalId : Uint64)
    (share : Bool → DPFKey) (inputs : List Uint64) (c e : Bool) (p : Bool → PreparedAdmission δ)
    (w₁ w₂ w₃ w₄ : World δ) : Prop where
  prepare₁ : w.step C (.prepare (srv c) signalId (share c) inputs) = some w₁
  result₁ : (w.prepare C (srv c) signalId (share c) inputs).1 = .ok (p c)
  prepare₂ : w₁.step C (.prepare (srv !c) signalId (share !c) inputs) = some w₂
  result₂ : (w₁.prepare C (srv !c) signalId (share !c) inputs).1 = .ok (p !c)
  ready : ∀ b, (p b).ready = true
  proof : (p false).proof = (p true).proof
  finalize₁ : w₂.step C (.finalize (srv e) (p e) (p !e).message) = some w₃
  accept₁ : w₂.Accepts (srv e) (p e) (p !e).message
  finalize₂ : w₃.step C (.finalize (srv !e) (p !e) (p e).message) = some w₄
  accept₂ : w₃.Accepts (srv !e) (p !e) (p e).message
  stored : ∀ b, ∃ k, (share b).vdpfKey = some k ∧
    w₄.keysAt (srv b) = (w.keysAt (srv b)).insert signalId k
  others : ∀ other, (∀ b, other ≠ srv b) → w₄.keysAt other = w.keysAt other

/-- The two preparations, of shares with one set of correction words. -/
theorem prepare_both (C : Crypto δ) {w : World δ} {srv : Bool → Nat}
    (hkeyed : ∀ obj, (w.dpfs obj).Keyed) {client : DPF}
    (hclient : ∀ b, SameKeys client (w.dpfOf (srv b))) {signalId : Uint64}
    (hfresh : ∀ b, signalId ∉ w.keysAt (srv b)) {share : Bool → DPFKey} {k : Bool → List Byte}
    (hkey : ∀ b, (share b).vdpfKey = some (k b))
    (hlen : ∀ b, (share b).vdpfKeyLen = client.expectedKeySize)
    (hcs : ∀ b, (parseKey client.bitLength kVdpfHash1OutBlocks (k false)).cs
      = (parseKey client.bitLength kVdpfHash1OutBlocks (k b)).cs)
    {inputs : List Uint64} (hne : inputs ≠ []) (hnodup : inputs.Nodup) (c : Bool) :
    ∃ (p : Bool → PreparedAdmission δ) (w₁ w₂ : World δ),
      w.step C (.prepare (srv c) signalId (share c) inputs) = some w₁ ∧
      (w.prepare C (srv c) signalId (share c) inputs).1 = .ok (p c) ∧
      w₁.step C (.prepare (srv !c) signalId (share !c) inputs) = some w₂ ∧
      (w₁.prepare C (srv !c) signalId (share !c) inputs).1 = .ok (p !c) ∧
      w₂.keysAt = w.keysAt ∧
      ∀ b, p b ∈ w₂.prepared ∧ (p b).owner = some (srv b) ∧ (p b).signalId = signalId ∧
        (p b).ready = true ∧ (p b).keyShare = k b ∧
        (p b).proof = (client.fresh C false (k false) inputs).proof := by
  have hsize : ∀ d : DPF, SameKeys client d → client.expectedKeySize = d.expectedKeySize := by
    intro d hd
    rw [DPF.expectedKeySize, hd.bitLength]
    rfl
  obtain ⟨p, hp, howner, hid, hready, hshare, hproof⟩ := prepare_ready (hkeyed _) (hfresh c)
    (hkey c) ((hlen c).trans (hsize _ (hclient c))) hne hnodup
  have hstep := step_of_prepare hp
  -- the second server's object may be the first one's: it still has the keys
  have hkeep : ∀ b, SameKeys client (Function.update w.dpfs (w.servers (srv c)).dpf
      (w.prepare C (srv c) signalId (share c) inputs).2 (w.servers (srv b)).dpf) := fun b =>
    (hclient b).trans (keeps_prepare_step C w (srv c) signalId (share c) inputs _).same
  have hkeyed₁ := step_keyed hkeyed hstep
  obtain ⟨p', hp', howner', hid', hready', hshare', hproof'⟩ := prepare_ready (hkeyed₁ _)
    (show signalId ∉ w.keysAt (srv !c) from hfresh !c) (hkey !c)
    ((hlen !c).trans (hsize _ (hkeep !c))) hne hnodup
  have hstep₁ := step_of_prepare hp'
  obtain ⟨q, rfl, rfl⟩ : ∃ q : Bool → PreparedAdmission δ, q c = p ∧ q (!c) = p' :=
    ⟨fun b => if b = c then p else p', if_pos rfl, if_neg (Bool.not_ne_self c)⟩
  refine ⟨q, _, _, hstep, hp, hstep₁, hp', rfl, ?_⟩
  intro b
  by_cases hb : b = c
  · subst hb
    refine ⟨List.mem_cons_of_mem _ (List.mem_cons_self ..), howner, hid, hready, hshare, ?_⟩
    rw [hproof]
    exact (fresh_proof_congr C (hclient b) false _ (hcs b) inputs).symm
  · obtain rfl : b = !c := Bool.eq_not_of_ne hb
    refine ⟨List.mem_cons_self .., howner', hid', hready', hshare', ?_⟩
    rw [hproof']
    exact (fresh_proof_congr C (hkeep !c) false _ (hcs !c) inputs).symm

/-- The two finalizations, from a world that holds both prepared objects. -/
theorem finalize_both (C : Crypto δ) {w : World δ} {srv : Bool → Nat}
    (hsrv : srv false ≠ srv true) {signalId : Uint64} {p : Bool → PreparedAdmission δ}
    (hpool : ∀ b, p b ∈ w.prepared) (howner : ∀ b, (p b).owner = some (srv b))
    (hid : ∀ b, (p b).signalId = signalId) (hready : ∀ b, (p b).ready = true)
    (hproof : (p false).proof = (p true).proof) (hfresh : ∀ b, signalId ∉ w.keysAt (srv b))
    (e : Bool) :
    ∃ w₁ w₂, w.step C (.finalize (srv e) (p e) (p !e).message) = some w₁ ∧
      w.Accepts (srv e) (p e) (p !e).message ∧
      w₁.step C (.finalize (srv !e) (p !e) (p e).message) = some w₂ ∧
      w₁.Accepts (srv !e) (p !e) (p e).message ∧
      (∀ b, w₂.keysAt (srv b) = (w.keysAt (srv b)).insert signalId (p b).keyShare) ∧
      ∀ other, (∀ b, other ≠ srv b) → w₂.keysAt other = w.keysAt other := by
  have hne : srv (!e) ≠ srv e := by
    cases e with
    | false => exact hsrv.symm
    | true => exact hsrv
  have hproofs : ∀ b, (p b).proof = (p !b).proof := by
    intro b
    cases b with
    | false => exact hproof
    | true => exact hproof.symm
  have hacc₁ : Acceptable (srv e) (w.servers (srv e)) (p e) (p !e).message :=
    ⟨howner e, hready e, hready !e, (hid !e).trans (hid e).symm, by rw [hid]; exact hfresh e,
      hproofs e⟩
  have hstep₁ := step_of_finalize (C := C) (hpool e) hacc₁
  obtain ⟨hself₁, hother₁⟩ := keysAt_store w { w with
    servers := Function.update w.servers (srv e)
      ((w.servers (srv e)).store (p e).signalId (p e).keyShare) } rfl
  generalize { w with
    servers := Function.update w.servers (srv e)
      ((w.servers (srv e)).store (p e).signalId (p e).keyShare) } = w₁ at hstep₁ hself₁ hother₁
  have hpool₁ : p (!e) ∈ w₁.prepared := by
    rcases step_prepared hstep₁ with h | ⟨_, _, _, _, _, he, _⟩
    · rw [h]
      exact hpool !e
    · cases he
  have hacc₂ : Acceptable (srv !e) (w₁.servers (srv !e)) (p !e) (p e).message := by
    refine ⟨howner !e, hready !e, hready e, (hid e).trans (hid !e).symm, ?_, (hproofs e).symm⟩
    have hfresh₁ : signalId ∉ w₁.keysAt (srv !e) := by
      rw [hother₁ _ hne]
      exact hfresh !e
    rw [hid]
    exact hfresh₁
  have hstep₂ := step_of_finalize (C := C) hpool₁ hacc₂
  obtain ⟨hself₂, hother₂⟩ := keysAt_store w₁ { w₁ with
    servers := Function.update w₁.servers (srv !e)
      ((w₁.servers (srv !e)).store (p !e).signalId (p !e).keyShare) } rfl
  refine ⟨w₁, _, hstep₁, accepts_iff.mpr hacc₁, hstep₂, accepts_iff.mpr hacc₂, fun b => ?_,
    fun other h => (hother₂ other (h !e)).trans (hother₁ other (h e))⟩
  by_cases hb : b = e
  · subst hb
    rw [hother₂ _ hne.symm, hself₁, hid]
  · obtain rfl : b = !e := Bool.eq_not_of_ne hb
    rw [hself₂, hother₁ _ hne, hid]

/-- Two servers of a reachable world, under the context keys of a client: the
shares of any `Gen` call of the client, under an id neither has stored, are
prepared, agree in their proofs, and are accepted and stored in either order. -/
theorem honest_admission (C : Crypto δ) {w₀ w : World δ} (h₀ : w₀.Initial C)
    {log : List (Event δ)} (hrun : Run (World.step C) w₀ log w) (srv : Bool → Nat)
    (hsrv : srv false ≠ srv true) (client client' : DPF)
    (hclient : ∀ b, SameKeys client (w.dpfOf (srv b))) (alpha beta : Uint64)
    (key0 key1 : DPFKey) (hlen0 : key0.vdpfKeyLen = client.expectedKeySize)
    (hlen1 : key1.vdpfKeyLen = client.expectedKeySize) (rand : List (Uint128 × Uint128))
    (share : Bool → DPFKey)
    (hgen : client.gen C alpha beta key0 key1 rand = some ((share false, share true), client'))
    (signalId : Uint64) (hfresh : ∀ b, signalId ∉ w.keysAt (srv b)) (inputs : List Uint64)
    (hne : inputs ≠ []) (hnodup : inputs.Nodup) (c e : Bool) :
    ∃ p w₁ w₂ w₃ w₄, Admitted C w srv signalId share inputs c e p w₁ w₂ w₃ w₄ := by
  obtain ⟨k, hkey, hlen, hcs⟩ := gen_shares hgen hlen0 hlen1
  obtain ⟨p, w₁, w₂, hprep, hp, hprep', hp', hkeys, hall⟩ := prepare_both C (run_keyed h₀ hrun)
    hclient hfresh hkey hlen hcs hne hnodup c
  have hproof : (p false).proof = (p true).proof :=
    (hall false).2.2.2.2.2.trans (hall true).2.2.2.2.2.symm
  obtain ⟨w₃, w₄, hfin, hacc, hfin', hacc', hstored, hothers⟩ := finalize_both C hsrv
    (fun b => (hall b).1) (fun b => (hall b).2.1) (fun b => (hall b).2.2.1)
    (fun b => (hall b).2.2.2.1) hproof (fun b => by rw [hkeys]; exact hfresh b) e
  refine ⟨p, w₁, w₂, w₃, w₄, hprep, hp, hprep', hp', fun b => (hall b).2.2.2.1, hproof, hfin, hacc,
    hfin', hacc', fun b => ⟨k b, hkey b, ?_⟩, fun other h => ?_⟩
  · rw [hstored, hkeys, (hall b).2.2.2.2.1]
  · rw [hothers other h, hkeys]

set_option maxRecDepth 8000 in
/-- A pair generated on the second attempt, at the two servers of
`sampleWorld`. -/
theorem honest_admission_sample :
    ∃ share client', (DPF.make 1 1 2 3).gen sampleCrypto 1 7 (DPF.make 1 1 2 3).initKey
        (DPF.make 1 1 2 3).initKey [(0, 1), (0, 2)] = some ((share false, share true), client') ∧
      ∃ p w₁ w₂ w₃ w₄, Admitted sampleCrypto sampleWorld Bool.toNat 7 share [0, 1] true false
        p w₁ w₂ w₃ w₄ := by
  have hsome : ((DPF.make 1 1 2 3).gen sampleCrypto 1 7 (DPF.make 1 1 2 3).initKey
      (DPF.make 1 1 2 3).initKey [(0, 1), (0, 2)]).isSome = true := by decide
  obtain ⟨⟨⟨share0, share1⟩, client'⟩, hgen⟩ := Option.isSome_iff_exists.mp hsome
  refine ⟨fun b => if b then share1 else share0, client', hgen, ?_⟩
  exact honest_admission sampleCrypto initial_sampleWorld .nil Bool.toNat (by decide)
    (DPF.make 1 1 2 3) client' (fun _ => SameKeys.refl _) 1 7 _ _ rfl rfl _ _ hgen 7
    (fun _ => Finmap.notMem_empty) [0, 1] (by simp) (by simp) true false

end PSVFSS

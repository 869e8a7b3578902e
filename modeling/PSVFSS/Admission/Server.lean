/-
# `Admission.Server` — `Prepare` and `Finalize`

A server evaluates a key share over the registered list (`prepare`), sends
the proof to its peer, and stores the share once the peer's message carries
the same proof (`finalize`).

    prepare_cases     what `Prepare` can return, with the reason
    finalize_accept   an accepted call adds one entry
    finalize_refuse   a refused one changes nothing, with the reason
-/
import Mathlib.Data.Finmap
import PSVFSS.Dpf

namespace PSVFSS

open ByteBuffer Runs

variable {δ : Type}

/-! ## Data

The records of `admission.h`.  The store maps an id to the bytes of the key
share accepted under it. -/

inductive AdmissionDecision where
  | accept
  | rejectInvalidRequest
  | rejectDuplicateSignalId
  | rejectPeerPrecheck
  | rejectProofMismatch
  deriving DecidableEq

structure AdmissionMessage (δ : Type) where
  signalId : Uint64
  ready : Bool
  proof : δ
  deriving DecidableEq

/-- `PreparedAdmission`.  Only a server fills one in, and none marks it
accepted before it is ready. -/
structure PreparedAdmission (δ : Type) where
  owner : Option Nat
  signalId : Uint64
  ready : Bool
  precheckDecision : AdmissionDecision
  proof : δ
  outputs : List Uint64
  keyShare : List Byte
  checked : ready = false → precheckDecision ≠ .accept
  deriving DecidableEq

/-- A default-constructed `PreparedAdmission`; `default` is the zero proof. -/
def PreparedAdmission.blank [Inhabited δ] : PreparedAdmission δ where
  owner := none
  signalId := 0
  ready := false
  precheckDecision := .rejectInvalidRequest
  proof := default
  outputs := []
  keyShare := []
  checked := nofun

def PreparedAdmission.message (p : PreparedAdmission δ) : AdmissionMessage δ where
  signalId := p.signalId
  ready := p.ready
  proof := p.proof

/-- `verified_keys_`. -/
abbrev VerifiedKeys := Finmap fun _ : Uint64 => List Byte

/-- `AdmissionServer`; the constructor refuses a party above 1.  `dpf` names
the object behind the pointer. -/
structure AdmissionServer where
  party : Byte
  dpf : Nat
  verifiedKeys : VerifiedKeys
  valid : party.toNat ≤ 1

def AdmissionServer.contains (s : AdmissionServer) (signalId : Uint64) : Bool :=
  (s.verifiedKeys.lookup signalId).isSome

def AdmissionServer.lookup (s : AdmissionServer) (signalId : Uint64) : Option (List Byte) :=
  s.verifiedKeys.lookup signalId

def AdmissionServer.signalCount (s : AdmissionServer) : Nat := s.verifiedKeys.keys.card

/-! ## `HasDistinctInputs`

The source inserts into a set until an insertion fails. -/

/-- The loop, with the set of inputs seen so far. -/
def distinctAfter (seen : Finset Uint64) : List Uint64 → Bool
  | [] => true
  | input :: inputs => if input ∈ seen then false else distinctAfter (insert input seen) inputs

def hasDistinctInputs (inputs : List Uint64) : Bool := distinctAfter ∅ inputs

theorem distinctAfter_iff (inputs : List Uint64) (seen : Finset Uint64) :
    distinctAfter seen inputs = true ↔ inputs.Nodup ∧ ∀ x ∈ inputs, x ∉ seen := by
  induction inputs generalizing seen with
  | nil => simp [distinctAfter]
  | cons input inputs ih =>
      rw [distinctAfter]
      by_cases h : input ∈ seen
      · rw [if_pos h]
        constructor
        · exact nofun
        · rintro ⟨_, hseen⟩
          exact absurd h (hseen input (List.mem_cons_self ..))
      · rw [if_neg h, ih, List.nodup_cons]
        constructor
        · rintro ⟨hnodup, hseen⟩
          refine ⟨⟨fun hmem => hseen input hmem (Finset.mem_insert_self ..), hnodup⟩, ?_⟩
          intro x hx
          rcases List.mem_cons.mp hx with rfl | hx
          · exact h
          · exact fun hs => hseen x hx (Finset.mem_insert_of_mem hs)
        · rintro ⟨⟨hnew, hnodup⟩, hseen⟩
          refine ⟨hnodup, ?_⟩
          intro x hx hs
          rcases Finset.mem_insert.mp hs with rfl | hs
          · exact hnew hx
          · exact hseen x (List.mem_cons_of_mem _ hx) hs

theorem hasDistinctInputs_iff (inputs : List Uint64) :
    hasDistinctInputs inputs = true ↔ inputs.Nodup := by
  rw [hasDistinctInputs, distinctAfter_iff]
  exact ⟨And.left, fun h => ⟨h, fun x _ => Finset.notMem_empty x⟩⟩

/-! ## `Prepare`

Its exits in the order of the source.  A `std::invalid_argument` of the
evaluator is caught and becomes a refusal; any other error leaves the call.  A
case of `ReadyCase` or `RefusedCase` holds what is known at that exit. -/

/-- The object `Prepare` returns early. -/
def PreparedAdmission.refused [Inhabited δ] (addr : Nat) (signalId : Uint64)
    (decision : AdmissionDecision) (h : decision ≠ .accept) : PreparedAdmission δ :=
  { PreparedAdmission.blank with
    owner := some addr
    signalId := signalId
    precheckDecision := decision
    checked := fun _ => h }

/-- `Prepare` of the server at address `addr`, over the DPF object `d`; the
object comes back with its contexts advanced. -/
def AdmissionServer.prepare [Inhabited δ] (C : Crypto δ) (addr : Nat) (s : AdmissionServer)
    (d : DPF) (signalId : Uint64) (key : DPFKey) (inputs : List Uint64) :
    Except DpfError (PreparedAdmission δ) × DPF :=
  if s.contains signalId then
    (.ok (.refused addr signalId .rejectDuplicateSignalId nofun), d)
  else if inputs.isEmpty || !hasDistinctInputs inputs then
    (.ok (.refused addr signalId .rejectInvalidRequest nofun), d)
  else
    match d.verEval C s.party key inputs with
    | (.ok evaluation, d) =>
        (.ok
          { owner := some addr
            signalId := signalId
            ready := true
            precheckDecision := .accept
            proof := evaluation.proof
            outputs := evaluation.outputs
            keyShare := key.vdpfKey.getD []
            checked := nofun }, d)
    | (.error (.invalidArgument _), d) =>
        (.ok (.refused addr signalId .rejectInvalidRequest nofun), d)
    | (.error e, d) => (.error e, d)

section
variable [Inhabited δ] (C : Crypto δ) (addr : Nat) (s : AdmissionServer) (d : DPF)
  (signalId : Uint64) (key : DPFKey) (inputs : List Uint64)

/-- What a ready object says about the call that returned it. -/
structure ReadyCase (p : PreparedAdmission δ) : Prop where
  fresh : s.contains signalId = false
  nonempty : inputs ≠ []
  distinct : inputs.Nodup
  length : key.vdpfKeyLen = d.expectedKeySize
  evaluated : ∃ k r, key.vdpfKey = some k ∧ p.keyShare = k ∧
    (d.verEval C s.party key inputs).1 = .ok r ∧ p.proof = r.proof

/-- What a refused one says. -/
inductive RefusedCase (p : PreparedAdmission δ) : Prop
  | duplicate (h : s.contains signalId = true)
      (hd : p.precheckDecision = .rejectDuplicateSignalId)
  | invalid (h : s.contains signalId = false) (hd : p.precheckDecision = .rejectInvalidRequest)
      (why : inputs = [] ∨ ¬inputs.Nodup ∨ key.vdpfKey = none ∨
        key.vdpfKeyLen ≠ d.expectedKeySize)

/-- `Prepare` always returns, with an object of this server and this id. -/
theorem prepare_cases :
    ∃ p, (s.prepare C addr d signalId key inputs).1 = .ok p ∧ p.owner = some addr ∧
      p.signalId = signalId ∧
      (p.ready = true → ReadyCase C s d signalId key inputs p) ∧
      (p.ready = false → RefusedCase s d signalId key inputs p) := by
  have hrefused : ∀ {Q : Prop}, false = true → Q := fun h => absurd h Bool.false_ne_true
  rw [AdmissionServer.prepare]
  by_cases hdup : s.contains signalId = true
  · rw [if_pos hdup]
    exact ⟨_, rfl, rfl, rfl, hrefused, fun _ => .duplicate hdup rfl⟩
  have hfresh : s.contains signalId = false := Bool.eq_false_iff.mpr hdup
  rw [if_neg hdup]
  by_cases hlist : (inputs.isEmpty || !hasDistinctInputs inputs) = true
  · rw [if_pos hlist]
    refine ⟨_, rfl, rfl, rfl, hrefused, fun _ => .invalid hfresh rfl ?_⟩
    rw [Bool.or_eq_true, List.isEmpty_iff, Bool.not_eq_true', ← Bool.not_eq_true,
      hasDistinctInputs_iff] at hlist
    exact hlist.imp id Or.inl
  rw [if_neg hlist]
  rw [Bool.or_eq_true, List.isEmpty_iff, Bool.not_eq_true', ← Bool.not_eq_true,
    hasDistinctInputs_iff, not_or, not_not] at hlist
  obtain ⟨hne, hnodup⟩ := hlist
  cases hkey : key.vdpfKey with
  | none =>
      rw [verEval_refuse C hne (Or.inl hkey)]
      exact ⟨_, rfl, rfl, rfl, hrefused, fun _ => .invalid hfresh rfl (.inr (.inr (.inl hkey)))⟩
  | some k =>
      by_cases hlen : key.vdpfKeyLen = d.expectedKeySize
      · have hver := verEval_accept C hkey hlen s.valid hne
        rw [hver]
        exact ⟨_, rfl, rfl, rfl,
          fun _ => ⟨hfresh, hne, hnodup, hlen, k, _, hkey, rfl, by rw [hver], rfl⟩,
          fun h => absurd h.symm Bool.false_ne_true⟩
      · rw [verEval_refuse C hne (Or.inr hlen)]
        exact ⟨_, rfl, rfl, rfl, hrefused, fun _ => .invalid hfresh rfl (.inr (.inr (.inr hlen)))⟩

end

theorem keeps_prepare [Inhabited δ] (C : Crypto δ) (addr : Nat) (s : AdmissionServer) (d : DPF)
    (signalId : Uint64) (key : DPFKey) (inputs : List Uint64) :
    Keeps d (s.prepare C addr d signalId key inputs).2 := by
  rw [AdmissionServer.prepare]
  split
  · exact Keeps.refl d
  · split
    · exact Keeps.refl d
    · have h := keeps_verEval C d s.party key inputs
      split <;> rename_i heq <;> rw [heq] at h <;> exact h

/-! ## `Finalize`

A chain of guards, each with its own decision.  The insertion at the end
cannot fail, as its key has just been looked for; the source checks it all the
same. -/

/-- `emplace`: inserts unless the key is present, and says whether it did. -/
def emplace (m : VerifiedKeys) (signalId : Uint64) (share : List Byte) : VerifiedKeys × Bool :=
  if signalId ∈ m then (m, false) else (m.insert signalId share, true)

def AdmissionServer.finalize [DecidableEq δ] (addr : Nat) (s : AdmissionServer)
    (prepared : PreparedAdmission δ) (peerMessage : AdmissionMessage δ) :
    AdmissionDecision × AdmissionServer :=
  if prepared.owner ≠ some addr then (.rejectInvalidRequest, s)
  else if !prepared.ready then (prepared.precheckDecision, s)
  else if !peerMessage.ready || peerMessage.signalId ≠ prepared.signalId then
    (.rejectPeerPrecheck, s)
  else if s.contains prepared.signalId then (.rejectDuplicateSignalId, s)
  else if !verifyProofs prepared.proof peerMessage.proof then (.rejectProofMismatch, s)
  else
    let inserted := emplace s.verifiedKeys prepared.signalId prepared.keyShare
    if !inserted.2 then (.rejectDuplicateSignalId, { s with verifiedKeys := inserted.1 })
    else (.accept, { s with verifiedKeys := inserted.1 })

theorem contains_iff {s : AdmissionServer} {signalId : Uint64} :
    s.contains signalId = true ↔ signalId ∈ s.verifiedKeys := Finmap.lookup_isSome

theorem contains_eq_false_iff {s : AdmissionServer} {signalId : Uint64} :
    s.contains signalId = false ↔ signalId ∉ s.verifiedKeys := by
  rw [← contains_iff, Bool.not_eq_true]

/-- All that lets `Finalize` accept. -/
structure Acceptable (addr : Nat) (s : AdmissionServer) (p : PreparedAdmission δ)
    (msg : AdmissionMessage δ) : Prop where
  owner : p.owner = some addr
  ready : p.ready = true
  peerReady : msg.ready = true
  signalId : msg.signalId = p.signalId
  fresh : p.signalId ∉ s.verifiedKeys
  proof : p.proof = msg.proof

/-- The server with one more entry. -/
def AdmissionServer.store (s : AdmissionServer) (signalId : Uint64) (share : List Byte) :
    AdmissionServer := { s with verifiedKeys := s.verifiedKeys.insert signalId share }

theorem finalize_accept [DecidableEq δ] {addr : Nat} {s : AdmissionServer}
    {p : PreparedAdmission δ} {msg : AdmissionMessage δ} (h : Acceptable addr s p msg) :
    s.finalize addr p msg = (.accept, s.store p.signalId p.keyShare) := by
  have hdup : s.contains p.signalId = false := contains_eq_false_iff.mpr h.fresh
  simp [AdmissionServer.finalize, h.owner, h.ready, h.peerReady, h.signalId, hdup, verifyProofs,
    h.proof, emplace, h.fresh, AdmissionServer.store]

/-- Why `Finalize` refuses, and with which decision. -/
inductive FinalizeRefusal (addr : Nat) (s : AdmissionServer) (p : PreparedAdmission δ)
    (msg : AdmissionMessage δ) : AdmissionDecision → Prop
  | owner (h : p.owner ≠ some addr) : FinalizeRefusal addr s p msg .rejectInvalidRequest
  | unready (h : p.ready = false) : FinalizeRefusal addr s p msg p.precheckDecision
  | peer (h : msg.ready = false ∨ msg.signalId ≠ p.signalId) :
      FinalizeRefusal addr s p msg .rejectPeerPrecheck
  | duplicate (h : p.signalId ∈ s.verifiedKeys) :
      FinalizeRefusal addr s p msg .rejectDuplicateSignalId
  | proof (h : p.proof ≠ msg.proof) : FinalizeRefusal addr s p msg .rejectProofMismatch

theorem FinalizeRefusal.ne_accept {addr : Nat} {s : AdmissionServer} {p : PreparedAdmission δ}
    {msg : AdmissionMessage δ} {d : AdmissionDecision} (h : FinalizeRefusal addr s p msg d) :
    d ≠ .accept := by
  cases h with
  | owner _ => exact nofun
  | unready h => exact p.checked h
  | peer _ => exact nofun
  | duplicate _ => exact nofun
  | proof _ => exact nofun

/-- A refusal changes nothing. -/
theorem finalize_refuse [DecidableEq δ] {addr : Nat} {s : AdmissionServer}
    {p : PreparedAdmission δ} {msg : AdmissionMessage δ} (h : ¬Acceptable addr s p msg) :
    ∃ d, s.finalize addr p msg = (d, s) ∧ FinalizeRefusal addr s p msg d := by
  by_cases howner : p.owner = some addr
  swap
  · exact ⟨_, by simp [AdmissionServer.finalize, howner], .owner howner⟩
  by_cases hready : p.ready = true
  swap
  · exact ⟨_, by simp [AdmissionServer.finalize, howner, hready],
      .unready (Bool.eq_false_iff.mpr hready)⟩
  by_cases hpeer : msg.ready = true ∧ msg.signalId = p.signalId
  swap
  · rw [not_and_or, Bool.not_eq_true] at hpeer
    exact ⟨_, by simp [AdmissionServer.finalize, howner, hready, hpeer], .peer hpeer⟩
  by_cases hfresh : p.signalId ∈ s.verifiedKeys
  · have hdup : s.contains p.signalId = true := contains_iff.mpr hfresh
    exact ⟨_, by simp [AdmissionServer.finalize, howner, hready, hpeer, hdup], .duplicate hfresh⟩
  have hdup : s.contains p.signalId = false := contains_eq_false_iff.mpr hfresh
  by_cases hproof : p.proof = msg.proof
  · exact absurd ⟨howner, hready, hpeer.1, hpeer.2, hfresh, hproof⟩ h
  · exact ⟨_, by simp [AdmissionServer.finalize, howner, hready, hpeer, hdup, verifyProofs, hproof],
      .proof hproof⟩

theorem finalize_accept_iff [DecidableEq δ] {addr : Nat} {s : AdmissionServer}
    {p : PreparedAdmission δ} {msg : AdmissionMessage δ} :
    (s.finalize addr p msg).1 = .accept ↔ Acceptable addr s p msg := by
  constructor
  · intro haccept
    by_contra h
    obtain ⟨d, hd, hwhy⟩ := finalize_refuse h
    rw [hd] at haccept
    exact hwhy.ne_accept haccept
  · intro h
    rw [finalize_accept h]

theorem signalCount_store {s : AdmissionServer} {signalId : Uint64} (share : List Byte)
    (h : signalId ∉ s.verifiedKeys) : (s.store signalId share).signalCount = s.signalCount + 1 := by
  have hkeys : (s.store signalId share).verifiedKeys.keys
      = insert signalId s.verifiedKeys.keys := by
    ext x
    rw [Finset.mem_insert, Finmap.mem_keys, Finmap.mem_keys]
    exact Finmap.mem_insert
  rw [AdmissionServer.signalCount, hkeys,
    Finset.card_insert_of_notMem fun hmem => h (Finmap.mem_keys.mp hmem)]
  rfl

end PSVFSS

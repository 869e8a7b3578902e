/-
# `Admission.Store` — the verified store over whole runs

A `World` is any number of `DPF` objects and admission servers, with every
`PreparedAdmission` returned so far.  The events are calls, in any order:
`Prepare` at any server, `Finalize` at any server with any object of the pool
and any message at all, and the calls other code makes on the `DPF` objects.

The store of a server changes by accepted `Finalize` calls only, never loses
an entry, and every entry goes back to a `Prepare` call on that server
(`verifiedKeys_history`).
-/
import PSVFSS.Admission.Server

namespace PSVFSS

open ByteBuffer Runs

variable {δ : Type}

/-! ## Worlds

The pool makes old results available for ever: an object can be finalized
twice, at the wrong server, or with a message of another request.  A message
can be anything. -/

structure World (δ : Type) where
  dpfs : Nat → DPF
  servers : Nat → AdmissionServer
  prepared : List (PreparedAdmission δ)

/-- The `DPF` object a server points to. -/
def World.dpfOf (w : World δ) (srv : Nat) : DPF := w.dpfs (w.servers srv).dpf

def World.keysAt (w : World δ) (srv : Nat) : VerifiedKeys := (w.servers srv).verifiedKeys

inductive Event (δ : Type) where
  | prepare (srv : Nat) (signalId : Uint64) (key : DPFKey) (inputs : List Uint64)
  | finalize (srv : Nat) (prepared : PreparedAdmission δ) (peerMessage : AdmissionMessage δ)
  | dpfCall (obj : Nat) (c : DPF.Call)
  | importKeys (obj : Nat) (bytes : List Byte)

theorem keysAt_store (w w' : World δ) {srv : Nat} {signalId : Uint64} {share : List Byte}
    (h : w'.servers = Function.update w.servers srv ((w.servers srv).store signalId share)) :
    w'.keysAt srv = (w.keysAt srv).insert signalId share ∧
      ∀ other, other ≠ srv → w'.keysAt other = w.keysAt other := by
  constructor
  · rw [World.keysAt, h, Function.update_self]
    rfl
  · intro other hne
    rw [World.keysAt, h, Function.update_of_ne hne]
    rfl

variable [DecidableEq δ]

/-- `Finalize` at server `srv`. -/
def World.finalize (w : World δ) (srv : Nat) (prepared : PreparedAdmission δ)
    (peerMessage : AdmissionMessage δ) : AdmissionDecision × AdmissionServer :=
  (w.servers srv).finalize srv prepared peerMessage

/-- `Finalize` of `prepared` at `srv` accepts. -/
def World.Accepts (w : World δ) (srv : Nat) (prepared : PreparedAdmission δ)
    (peerMessage : AdmissionMessage δ) : Prop := (w.finalize srv prepared peerMessage).1 = .accept

theorem accepts_iff {w : World δ} {srv : Nat} {p : PreparedAdmission δ} {msg : AdmissionMessage δ} :
    w.Accepts srv p msg ↔ Acceptable srv (w.servers srv) p msg := finalize_accept_iff

variable [Inhabited δ]

/-- `Prepare` at server `srv`. -/
def World.prepare (C : Crypto δ) (w : World δ) (srv : Nat) (signalId : Uint64) (key : DPFKey)
    (inputs : List Uint64) : Except DpfError (PreparedAdmission δ) × DPF :=
  (w.servers srv).prepare C srv (w.dpfOf srv) signalId key inputs

/-- One call.  `none`: the argument does not exist, or the call does not come
back. -/
def World.step (C : Crypto δ) (w : World δ) : Event δ → Option (World δ)
  | .prepare srv signalId key inputs =>
      let r := w.prepare C srv signalId key inputs
      let dpfs := Function.update w.dpfs (w.servers srv).dpf r.2
      match r.1 with
      | .ok p => some { w with dpfs := dpfs, prepared := p :: w.prepared }
      | .error .outOfBounds => none
      | .error _ => some { w with dpfs := dpfs }
  | .finalize srv prepared peerMessage =>
      if prepared ∈ w.prepared ∨ prepared = .blank then
        some
          { w with
            servers := Function.update w.servers srv (w.finalize srv prepared peerMessage).2 }
      else none
  | .dpfCall obj c =>
      ((w.dpfs obj).call C c).map fun d => { w with dpfs := Function.update w.dpfs obj d }
  | .importKeys obj bytes =>
      some { w with dpfs := Function.update w.dpfs obj ((w.dpfs obj).importContextKeys bytes) }

/-- Before the first call: nothing prepared, nothing stored. -/
structure World.Initial (C : Crypto δ) (w : World δ) : Prop where
  made : ∀ obj, Made C (w.dpfs obj)
  empty : ∀ srv, w.keysAt srv = ∅
  prepared : w.prepared = []

/-! ## What one call does

One inversion lemma for all events.  Everything below is derived from it
without looking at the calls again. -/

/-- The only event that touches a store. -/
inductive Effect (w : World δ) (e : Event δ) (w' : World δ) : Prop
  | keep (h : w'.servers = w.servers)
      (hno : ∀ srv p msg, e = .finalize srv p msg → ¬w.Accepts srv p msg)
  | insert (srv : Nat) (p : PreparedAdmission δ) (msg : AdmissionMessage δ)
      (he : e = .finalize srv p msg) (hpool : p ∈ w.prepared ∨ p = .blank)
      (haccept : w.Accepts srv p msg)
      (h : w'.servers
        = Function.update w.servers srv ((w.servers srv).store p.signalId p.keyShare))

theorem prepare_step {C : Crypto δ} {w w' : World δ} {srv : Nat} {signalId : Uint64}
    {key : DPFKey} {inputs : List Uint64}
    (h : w.step C (.prepare srv signalId key inputs) = some w') :
    ∃ p, (w.prepare C srv signalId key inputs).1 = .ok p ∧
      w' = { w with
        dpfs := Function.update w.dpfs (w.servers srv).dpf
          (w.prepare C srv signalId key inputs).2
        prepared := p :: w.prepared } := by
  obtain ⟨p, hp, _⟩ := prepare_cases C srv (w.servers srv) (w.dpfOf srv) signalId key inputs
  have hp : (w.prepare C srv signalId key inputs).1 = .ok p := hp
  refine ⟨p, hp, ?_⟩
  simp only [World.step, hp] at h
  exact (Option.some_inj.mp h).symm

theorem finalize_step {C : Crypto δ} {w w' : World δ} {srv : Nat} {p : PreparedAdmission δ}
    {msg : AdmissionMessage δ} (h : w.step C (.finalize srv p msg) = some w') :
    (p ∈ w.prepared ∨ p = .blank) ∧
      w' = { w with servers := Function.update w.servers srv (w.finalize srv p msg).2 } := by
  simp only [World.step] at h
  split at h
  case isTrue hpool => exact ⟨hpool, (Option.some_inj.mp h).symm⟩
  case isFalse => cases h

/-- The step lemma for stores. -/
theorem step_effect {C : Crypto δ} {w w' : World δ} {e : Event δ} (h : w.step C e = some w') :
    Effect w e w' := by
  cases e with
  | prepare srv signalId key inputs =>
      obtain ⟨p, _, rfl⟩ := prepare_step h
      exact .keep rfl nofun
  | finalize srv p msg =>
      obtain ⟨hpool, rfl⟩ := finalize_step h
      by_cases hacc : Acceptable srv (w.servers srv) p msg
      · refine .insert srv p msg rfl hpool (accepts_iff.mpr hacc) ?_
        rw [World.finalize, finalize_accept hacc]
      · refine .keep ?_ ?_
        · obtain ⟨d, hd, _⟩ := finalize_refuse hacc
          rw [World.finalize, hd, Function.update_eq_self]
        · intro srv' p' msg' he
          cases he
          exact fun ha => hacc (accepts_iff.mp ha)
  | dpfCall obj c =>
      obtain ⟨d, _, rfl⟩ := Option.map_eq_some_iff.mp h
      exact .keep rfl nofun
  | importKeys obj bytes =>
      cases h
      exact .keep rfl nofun

/-- The pool only grows, and by what `Prepare` returns. -/
theorem step_prepared {C : Crypto δ} {w w' : World δ} {e : Event δ} (h : w.step C e = some w') :
    w'.prepared = w.prepared ∨
      ∃ srv signalId key inputs p, e = .prepare srv signalId key inputs ∧
        (w.prepare C srv signalId key inputs).1 = .ok p ∧ w'.prepared = p :: w.prepared := by
  cases e with
  | prepare srv signalId key inputs =>
      obtain ⟨p, hp, rfl⟩ := prepare_step h
      exact Or.inr ⟨srv, signalId, key, inputs, p, rfl, hp, rfl⟩
  | finalize srv p msg =>
      obtain ⟨_, rfl⟩ := finalize_step h
      exact Or.inl rfl
  | dpfCall obj c =>
      obtain ⟨d, _, rfl⟩ := Option.map_eq_some_iff.mp h
      exact Or.inl rfl
  | importKeys obj bytes =>
      cases h
      exact Or.inl rfl

/-- No call overwrites or removes an entry. -/
theorem step_lookup {C : Crypto δ} {w w' : World δ} {e : Event δ} (h : w.step C e = some w')
    {srv : Nat} {signalId : Uint64} {share : List Byte}
    (hshare : (w.keysAt srv).lookup signalId = some share) :
    (w'.keysAt srv).lookup signalId = some share := by
  cases step_effect h with
  | keep hserv _ => rwa [World.keysAt, hserv]
  | insert srv' p msg _ _ haccept hserv =>
      obtain ⟨hself, hother⟩ := keysAt_store w w' hserv
      by_cases hs : srv = srv'
      · subst hs
        have hfresh : p.signalId ∉ w.keysAt srv := (accepts_iff.mp haccept).fresh
        have hne : signalId ≠ p.signalId := by
          rintro rfl
          exact hfresh (Finmap.mem_of_lookup_eq_some hshare)
        rw [hself, Finmap.lookup_insert_of_ne _ hne, hshare]
      · rw [hother srv hs, hshare]

theorem run_lookup {C : Crypto δ} {w w' : World δ} {log : List (Event δ)}
    (h : Run (World.step C) w log w') {srv : Nat} {signalId : Uint64} {share : List Byte}
    (hshare : (w.keysAt srv).lookup signalId = some share) :
    (w'.keysAt srv).lookup signalId = some share :=
  h.invariant (P := fun w => (w.keysAt srv).lookup signalId = some share)
    (fun _ _ _ hs hstep => step_lookup hstep hs) hshare

/-! ## Where an entry comes from

Facts about the log that stay true when it grows.  The invariant ties each
object of the pool and each stored entry to such a fact. -/

/-- The log holds a `Prepare` of `signalId` at `srv` on exactly these bytes,
with a non-empty list without repetition, and `VerEval` gave it this proof. -/
def PreparedAt (C : Crypto δ) (w₀ : World δ) (log : List (Event δ)) (srv : Nat)
    (signalId : Uint64) (share : List Byte) (proof : δ) : Prop :=
  ∃ before key inputs after w r, log = before ++ .prepare srv signalId key inputs :: after ∧
    Run (World.step C) w₀ before w ∧ key.vdpfKey = some share ∧ inputs ≠ [] ∧ inputs.Nodup ∧
    ((w.dpfOf srv).verEval C (w.servers srv).party key inputs).1 = .ok r ∧ r.proof = proof

/-- The log goes on from such a `Prepare` to an accepted `Finalize` with a
message that was ready, for the same id, and carried the same proof. -/
def AdmittedAt (C : Crypto δ) (w₀ : World δ) (log : List (Event δ)) (srv : Nat)
    (signalId : Uint64) (share : List Byte) : Prop :=
  ∃ before p msg after w, log = before ++ .finalize srv p msg :: after ∧
    Run (World.step C) w₀ before w ∧ w.Accepts srv p msg ∧ msg.ready = true ∧
    msg.signalId = signalId ∧ PreparedAt C w₀ before srv signalId share msg.proof

theorem PreparedAt.append {C : Crypto δ} {w₀ : World δ} {log : List (Event δ)} {srv : Nat}
    {signalId : Uint64} {share : List Byte} {proof : δ} (later : List (Event δ)) :
    PreparedAt C w₀ log srv signalId share proof →
      PreparedAt C w₀ (log ++ later) srv signalId share proof := by
  rintro ⟨before, key, inputs, after, w, r, rfl, h⟩
  exact ⟨before, key, inputs, after ++ later, w, r, by rw [List.append_assoc, List.cons_append], h⟩

theorem AdmittedAt.append {C : Crypto δ} {w₀ : World δ} {log : List (Event δ)} {srv : Nat}
    {signalId : Uint64} {share : List Byte} (later : List (Event δ)) :
    AdmittedAt C w₀ log srv signalId share → AdmittedAt C w₀ (log ++ later) srv signalId share := by
  rintro ⟨before, p, msg, after, w, rfl, h⟩
  exact ⟨before, p, msg, after ++ later, w, by rw [List.append_assoc, List.cons_append], h⟩

/-- The invariant: what the pool and the stores say about the log. -/
structure History (C : Crypto δ) (w₀ : World δ) (log : List (Event δ)) (w : World δ) : Prop where
  pool : ∀ p ∈ w.prepared, p.ready = true → ∀ srv, p.owner = some srv →
    PreparedAt C w₀ log srv p.signalId p.keyShare p.proof
  stored : ∀ srv signalId share, (w.keysAt srv).lookup signalId = some share →
    AdmittedAt C w₀ log srv signalId share

theorem History.step {C : Crypto δ} {w₀ w w' : World δ} {log : List (Event δ)} {e : Event δ}
    (hrun : Run (World.step C) w₀ log w) (h : History C w₀ log w) (hstep : w.step C e = some w') :
    History C w₀ (log ++ [e]) w' where
  pool := by
    intro p hp hready srv howner
    rcases step_prepared hstep with hsame | ⟨srv', signalId, key, inputs, q, rfl, hq, hnew⟩
    · rw [hsame] at hp
      exact (h.pool p hp hready srv howner).append [e]
    · rw [hnew] at hp
      rcases List.mem_cons.mp hp with rfl | hp
      · obtain ⟨p', hp', howner', hid, hyes, _⟩ :=
          prepare_cases C srv' (w.servers srv') (w.dpfOf srv') signalId key inputs
        obtain rfl : p = p' := Except.ok.inj (hq.symm.trans hp')
        obtain rfl : srv' = srv := Option.some_inj.mp (howner'.symm.trans howner)
        have hcase := hyes hready
        obtain ⟨k, r, hkey, hshare, hver, hproof⟩ := hcase.evaluated
        exact ⟨log, key, inputs, [], w, r, by rw [hid], hrun, hshare ▸ hkey, hcase.nonempty,
          hcase.distinct, hver, hproof.symm⟩
      · exact (h.pool p hp hready srv howner).append _
  stored := by
    intro srv signalId share hshare
    cases step_effect hstep with
    | keep hserv _ =>
        rw [World.keysAt, hserv] at hshare
        exact (h.stored srv signalId share hshare).append [e]
    | insert srv' p msg he hpool haccept hserv =>
        subst he
        obtain ⟨hself, hother⟩ := keysAt_store w w' hserv
        by_cases hs : srv = srv'
        · subst hs
          have hacc := accepts_iff.mp haccept
          by_cases hid : signalId = p.signalId
          · subst hid
            rw [hself, Finmap.lookup_insert] at hshare
            obtain rfl := Option.some_inj.mp hshare
            rcases hpool with hpool | rfl
            · have hprep := h.pool p hpool hacc.ready srv hacc.owner
              rw [hacc.proof] at hprep
              exact ⟨log, p, msg, [], w, rfl, hrun, haccept, hacc.peerReady, hacc.signalId, hprep⟩
            · exact absurd hacc.owner nofun
          · rw [hself, Finmap.lookup_insert_of_ne _ hid] at hshare
            exact (h.stored srv signalId share hshare).append _
        · rw [hother srv hs] at hshare
          exact (h.stored srv signalId share hshare).append _

/-- The run lemma. -/
theorem run_history {C : Crypto δ} {w₀ w : World δ} {log : List (Event δ)} (h₀ : w₀.Initial C)
    (h : Run (World.step C) w₀ log w) : History C w₀ log w := by
  refine h.history (P := History C w₀) ⟨?_, ?_⟩ fun log t e u hrun ht hstep => ht.step hrun hstep
  · intro p hp
    rw [h₀.prepared] at hp
    cases hp
  · intro srv signalId share hshare
    rw [h₀.empty, Finmap.lookup_empty] at hshare
    cases hshare

/-! ## The store invariant

The parts are proved one by one: the contract of a call from its effect, the
rest by the run lemma. -/

/-- `Prepare` leaves every store as it was; `Finalize` accepts exactly when its
own store grows, then by the prepared entry and nothing else. -/
def CallContract (w : World δ) (e : Event δ) (w' : World δ) : Prop :=
  (∀ srv signalId key inputs, e = .prepare srv signalId key inputs → w'.servers = w.servers) ∧
  ∀ srv p msg, e = .finalize srv p msg →
    (w.Accepts srv p msg ↔ (w.servers srv).signalCount < (w'.servers srv).signalCount) ∧
    (¬w.Accepts srv p msg → w'.servers = w.servers) ∧
    (w.Accepts srv p msg → p.signalId ∉ w.keysAt srv ∧
      w'.keysAt srv = (w.keysAt srv).insert p.signalId p.keyShare ∧
      ∀ other, other ≠ srv → w'.keysAt other = w.keysAt other)

theorem step_contract {C : Crypto δ} {w w' : World δ} {e : Event δ} (h : w.step C e = some w') :
    CallContract w e w' := by
  cases step_effect h with
  | keep hserv hno =>
      refine ⟨fun _ _ _ _ _ => hserv, fun srv p msg he => ⟨?_, fun _ => hserv, ?_⟩⟩
      · rw [hserv]
        exact ⟨fun ha => absurd ha (hno srv p msg he), fun hlt => absurd hlt (Nat.lt_irrefl _)⟩
      · exact fun ha => absurd ha (hno srv p msg he)
  | insert srv' p' msg' he _ haccept hserv =>
      subst he
      refine ⟨nofun, ?_⟩
      intro srv p msg he
      cases he
      have hfresh := (accepts_iff.mp haccept).fresh
      have hcount : (w'.servers srv').signalCount = (w.servers srv').signalCount + 1 := by
        rw [hserv, Function.update_self, signalCount_store _ hfresh]
      obtain ⟨hself, hother⟩ := keysAt_store w w' hserv
      exact ⟨⟨fun _ => by rw [hcount]; exact Nat.lt_succ_self _, fun _ => haccept⟩,
        fun hno => absurd haccept hno, fun _ => ⟨hfresh, hself, hother⟩⟩

/-- Along any run from empty stores: the contract of every call, entries that
stay, ids accepted once, and the origin of every entry. -/
theorem verifiedKeys_history (C : Crypto δ) {w₀ w : World δ} (h₀ : w₀.Initial C)
    {log : List (Event δ)} (hrun : Run (World.step C) w₀ log w) :
    (∀ before e after w₁ w₂, log = before ++ e :: after → Run (World.step C) w₀ before w₁ →
      w₁.step C e = some w₂ → CallContract w₁ e w₂) ∧
    (∀ before after w₁, log = before ++ after → Run (World.step C) w₀ before w₁ →
      Run (World.step C) w₁ after w → ∀ srv signalId share,
        (w₁.keysAt srv).lookup signalId = some share →
          (w.keysAt srv).lookup signalId = some share) ∧
    (∀ before between after srv p msg p' msg' w₁ w₂,
      log = before ++ .finalize srv p msg :: (between ++ .finalize srv p' msg' :: after) →
      Run (World.step C) w₀ before w₁ → w₁.Accepts srv p msg →
      Run (World.step C) w₁ (.finalize srv p msg :: between) w₂ → w₂.Accepts srv p' msg' →
        p.signalId ≠ p'.signalId) ∧
    ∀ srv signalId share, (w.keysAt srv).lookup signalId = some share →
      AdmittedAt C w₀ log srv signalId share := by
  refine ⟨fun _ _ _ _ _ _ _ hstep => step_contract hstep,
    fun _ _ _ _ _ hafter srv signalId share hshare => run_lookup hafter hshare, ?_,
    (run_history h₀ hrun).stored⟩
  intro before between after srv p msg p' msg' w₁ w₂ _ _ hacc hbetween hacc' hid
  obtain ⟨t, hstep, hbetween⟩ := run_cons_iff.mp hbetween
  have hin := ((step_contract hstep).2 srv p msg rfl).2.2 hacc
  have hlookup : (t.keysAt srv).lookup p.signalId = some p.keyShare := by
    rw [hin.2.1, Finmap.lookup_insert]
  have hlookup₂ := run_lookup hbetween hlookup
  rw [hid] at hlookup₂
  exact (accepts_iff.mp hacc').fresh (Finmap.mem_of_lookup_eq_some hlookup₂)

/-! ## A run -/

/-- Two servers, each with its own `DPF` object, under the same context keys. -/
def sampleWorld : World (List Byte) where
  dpfs := fun _ => DPF.make 1 1 2 3
  servers := fun srv => ⟨if srv = 0 then 0 else 1, srv, ∅, by split <;> decide⟩
  prepared := []

def sampleKey : DPFKey := (DPF.make 1 1 2 3).initKey

/-- What `Prepare` returns in that world for id 7 and the list `[0, 1]`. -/
def samplePrepared (srv : Nat) : PreparedAdmission (List Byte) :=
  match (sampleWorld.prepare sampleCrypto srv 7 sampleKey [0, 1]).1 with
  | .ok p => p
  | .error _ => .blank

theorem initial_sampleWorld : sampleWorld.Initial sampleCrypto :=
  ⟨fun _ => .make 1 1 2 3, fun _ => rfl, rfl⟩

set_option maxRecDepth 4000 in
theorem verifiedKeys_history_sample :
    AdmittedAt sampleCrypto sampleWorld
      [.prepare 0 7 sampleKey [0, 1], .finalize 0 (samplePrepared 0) (samplePrepared 1).message]
      0 7 (List.replicate 116 0) := by
  obtain ⟨w, hrun, hshare⟩ : ∃ w, Run (World.step sampleCrypto) sampleWorld
      [.prepare 0 7 sampleKey [0, 1], .finalize 0 (samplePrepared 0) (samplePrepared 1).message]
      w ∧ (w.keysAt 0).lookup 7 = some (List.replicate 116 0) :=
    ⟨_, run_of_foldlM rfl, by decide⟩
  exact (verifiedKeys_history sampleCrypto initial_sampleWorld hrun).2.2.2 0 7 _ hshare

end PSVFSS

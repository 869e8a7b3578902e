/-
# `Admission.Agreement` — two servers and any number of sessions

A session is one client request: an id, a key share for each server, and the
registered list.  Each server prepares it once and finalizes it once, with the
message its peer sent for the same session; a client that tries again is
another session, and nothing stops two sessions from choosing one id.

Servers that accept two such sessions in opposite orders disagree about both
(`admission_disagrees`).  That is the only way: `admission_agreement`.
-/
import PSVFSS.Admission.Store

namespace PSVFSS

open ByteBuffer Runs

variable {δ ι : Type}

/-! ## Sessions

An event runs one step of one session at one server, and the order of events
is free.  A session is prepared and finalized once at each server; the peer's
message may be late, but it is the one of the session. -/

structure Session where
  signalId : Uint64
  share : Bool → DPFKey
  inputs : List Uint64

/-- Servers 0 and 1 of a world, and for each session and server: what `Prepare`
returned, the message that came from the peer, what `Finalize` returned. -/
structure Admissions (ι δ : Type) where
  world : World δ
  prepared : ι × Bool → Option (PreparedAdmission δ)
  inbox : ι × Bool → Option (AdmissionMessage δ)
  decision : ι × Bool → Option AdmissionDecision

inductive SessionEvent (ι : Type) where
  | prepare (i : ι) (b : Bool)
  | deliver (i : ι) (b : Bool)
  | finalize (i : ι) (b : Bool)

/-- Session `i` ended with decision `d` at server `b`. -/
def Admissions.Decided (s : Admissions ι δ) (i : ι) (b : Bool) (d : AdmissionDecision) : Prop :=
  s.decision (i, b) = some d

/-! ## The invariant

A refusal is kept with its reason, since the theorem is about why the servers
can end differently.  The reasons survive later events because stores and
finished steps only grow. -/

/-- Why server `b` refused session `i`. -/
inductive Refusal (sess : ι → Session) (s : Admissions ι δ) (i : ι) (b : Bool)
    (p : PreparedAdmission δ) (msg : AdmissionMessage δ) : AdmissionDecision → Prop
  | unready {d : AdmissionDecision} (h : p.ready = false) : Refusal sess s i b p msg d
  | peerUnready {d : AdmissionDecision} (h : msg.ready = false) : Refusal sess s i b p msg d
  | proof {d : AdmissionDecision} (h : p.proof ≠ msg.proof) : Refusal sess s i b p msg d
  | duplicate (j : ι) (hne : j ≠ i) (hid : (sess j).signalId = (sess i).signalId)
      (hj : s.Decided j b .accept) : Refusal sess s i b p msg .rejectDuplicateSignalId

structure Admissions.Inv (sess : ι → Session) (s : Admissions ι δ) : Prop where
  owned : ∀ i b p, s.prepared (i, b) = some p →
    p.owner = some b.toNat ∧ p.signalId = (sess i).signalId ∧
      (p.ready = true → ((sess i).share b).vdpfKey = some p.keyShare)
  delivered : ∀ i b msg, s.inbox (i, b) = some msg →
    ∃ p, s.prepared (i, !b) = some p ∧ msg = p.message
  accepted : ∀ i b, s.Decided i b .accept → ∃ p msg, s.prepared (i, b) = some p ∧
    s.inbox (i, b) = some msg ∧ p.ready = true ∧ msg.ready = true ∧ p.proof = msg.proof
  refused : ∀ i b d, s.Decided i b d → d ≠ .accept → ∃ p msg, s.prepared (i, b) = some p ∧
    s.inbox (i, b) = some msg ∧ Refusal sess s i b p msg d
  stored : ∀ b signalId share, (s.world.keysAt b.toNat).lookup signalId = some share →
    ∃ i, (sess i).signalId = signalId ∧ s.Decided i b .accept ∧
      ((sess i).share b).vdpfKey = some share

/-- Nothing a session has already done is undone. -/
structure Admissions.Extends (s s' : Admissions ι δ) : Prop where
  prepared : ∀ x p, s.prepared x = some p → s'.prepared x = some p
  decision : ∀ x d, s.decision x = some d → s'.decision x = some d

theorem Refusal.extend {sess : ι → Session} {s s' : Admissions ι δ} (h : s.Extends s') {i : ι}
    {b : Bool} {p : PreparedAdmission δ} {msg : AdmissionMessage δ} {d : AdmissionDecision} :
    Refusal sess s i b p msg d → Refusal sess s' i b p msg d := by
  intro hwhy
  cases hwhy with
  | unready h => exact .unready h
  | peerUnready h => exact .peerUnready h
  | proof h => exact .proof h
  | duplicate j hne hid hj => exact .duplicate j hne hid (h.decision _ _ hj)

theorem update_of_none {α β : Type} [DecidableEq α] {f : α → Option β} {a : α} (ha : f a = none)
    (b : β) {x : α} {y : β} (h : f x = some y) : Function.update f a (some b) x = some y := by
  have hne : x ≠ a := by
    rintro rfl
    rw [ha] at h
    cases h
  rw [Function.update_of_ne hne, h]

theorem update_eq_some {α β : Type} [DecidableEq α] {f : α → Option β} {a x : α} {b y : β}
    (h : Function.update f a (some b) x = some y) : (x = a ∧ b = y) ∨ (x ≠ a ∧ f x = some y) := by
  by_cases hx : x = a
  · subst hx
    rw [Function.update_self] at h
    exact Or.inl ⟨rfl, Option.some_inj.mp h⟩
  · rw [Function.update_of_ne hx] at h
    exact Or.inr ⟨hx, h⟩

theorem toNat_injective {b b' : Bool} (h : b.toNat = b'.toNat) : b = b' := by
  cases b <;> cases b' <;> first | rfl | cases h

/-- Two fresh servers, party 0 and party 1, under the same context keys. -/
structure Admissions.Initial (C : Crypto δ) (s : Admissions ι δ) : Prop where
  world : s.world.Initial C
  party : ∀ b : Bool, (s.world.servers b.toNat).party = if b then 1 else 0
  sameKeys : SameKeys (s.world.dpfOf 0) (s.world.dpfOf 1)
  prepared : ∀ x, s.prepared x = none
  inbox : ∀ x, s.inbox x = none
  decision : ∀ x, s.decision x = none

theorem Admissions.Initial.inv {C : Crypto δ} {sess : ι → Session} {s : Admissions ι δ}
    (h : s.Initial C) : s.Inv sess := by
  refine ⟨?_, ?_, ?_, ?_, ?_⟩
  · intro i b p hp
    rw [h.prepared] at hp
    cases hp
  · intro i b msg hmsg
    rw [h.inbox] at hmsg
    cases hmsg
  · intro i b hd
    rw [Admissions.Decided, h.decision] at hd
    cases hd
  · intro i b d hd
    rw [Admissions.Decided, h.decision] at hd
    cases hd
  · intro b signalId share hshare
    rw [h.world.empty, Finmap.lookup_empty] at hshare
    cases hshare

/-- Accepted at one server and refused at the other: the refusal names a
duplicate, and the refusing server has accepted another session with the id. -/
theorem Admissions.Inv.refused_duplicate {sess : ι → Session} {s : Admissions ι δ} (h : s.Inv sess)
    {i : ι} {b : Bool} {d : AdmissionDecision} (hacc : s.Decided i b .accept)
    (hd : s.Decided i (!b) d) (hne : d ≠ .accept) :
    d = .rejectDuplicateSignalId ∧
      ∃ j, j ≠ i ∧ (sess j).signalId = (sess i).signalId ∧ s.Decided j (!b) .accept := by
  obtain ⟨p, msg, hp, hmsg, hready, hpeer, hproof⟩ := h.accepted i b hacc
  obtain ⟨p', msg', hp', hmsg', hwhy⟩ := h.refused i (!b) d hd hne
  -- each message is the other server's prepared object
  obtain ⟨q, hq, rfl⟩ := h.delivered i b msg hmsg
  obtain ⟨q', hq', rfl⟩ := h.delivered i (!b) msg' hmsg'
  rw [Bool.not_not] at hq'
  obtain rfl := Option.some_inj.mp (hp'.symm.trans hq)
  obtain rfl := Option.some_inj.mp (hp.symm.trans hq')
  cases hwhy with
  | unready h => exact absurd (hpeer.symm.trans h) Bool.true_eq_false.mp
  | peerUnready h => exact absurd (hready.symm.trans h) Bool.true_eq_false.mp
  | proof h => exact absurd hproof.symm h
  | duplicate j hji hid hj => exact ⟨rfl, j, hji, hid, hj⟩

/-- The reasons left for `Finalize` to refuse a session's own object with the
session's own message. -/
theorem refusal_of_not_acceptable [DecidableEq δ] {sess : ι → Session} {s : Admissions ι δ} {i : ι}
    {b : Bool} (hs : s.Inv sess) (hnone : s.decision (i, b) = none)
    {p : PreparedAdmission δ} {msg : AdmissionMessage δ} (hp : s.prepared (i, b) = some p)
    (hmsg : s.inbox (i, b) = some msg)
    (hacc : ¬Acceptable b.toNat (s.world.servers b.toNat) p msg) :
    Refusal sess s i b p msg (s.world.finalize b.toNat p msg).1 := by
  obtain ⟨howner, hid, _⟩ := hs.owned i b p hp
  obtain ⟨d, hd, hwhy⟩ := finalize_refuse hacc
  rw [World.finalize, hd]
  cases hwhy with
  | owner h => exact absurd howner h
  | unready h => exact .unready h
  | peer h =>
      obtain ⟨q, hq, rfl⟩ := hs.delivered i b msg hmsg
      have hsame : q.message.signalId = p.signalId := ((hs.owned i (!b) q hq).2.1).trans hid.symm
      exact .peerUnready (h.resolve_right fun hne => hne hsame)
  | duplicate h =>
      obtain ⟨share, hshare⟩ := Finmap.mem_iff.mp h
      obtain ⟨j, hj, hdec, _⟩ := hs.stored b p.signalId share hshare
      refine .duplicate j ?_ (hj.trans hid) hdec
      rintro rfl
      rw [Admissions.Decided, hnone] at hdec
      cases hdec
  | proof h => exact .proof h

variable [DecidableEq δ] [Inhabited δ] [DecidableEq ι]

/-! ## What one event does

The three events are taken one at a time: each changes one entry of one of the
session tables, and only `Finalize` a store. -/

/-- One event, at server `b`.  The servers themselves move as in `World.step`. -/
def Admissions.step (C : Crypto δ) (sess : ι → Session) (s : Admissions ι δ) :
    SessionEvent ι → Option (Admissions ι δ)
  | .prepare i b =>
      match s.prepared (i, b),
          (s.world.prepare C b.toNat (sess i).signalId ((sess i).share b) (sess i).inputs).1,
          s.world.step C
            (.prepare b.toNat (sess i).signalId ((sess i).share b) (sess i).inputs) with
      | none, .ok p, some w =>
          some { s with world := w, prepared := Function.update s.prepared (i, b) (some p) }
      | _, _, _ => none
  | .deliver i b =>
      match s.prepared (i, !b) with
      | some p => some { s with inbox := Function.update s.inbox (i, b) (some p.message) }
      | none => none
  | .finalize i b =>
      match s.decision (i, b), s.prepared (i, b), s.inbox (i, b) with
      | none, some p, some msg =>
          match s.world.step C (.finalize b.toNat p msg) with
          | some w =>
              some
                { s with
                  world := w
                  decision := Function.update s.decision (i, b)
                    (some (s.world.finalize b.toNat p msg).1) }
          | none => none
      | _, _, _ => none

theorem prepare_event {C : Crypto δ} {sess : ι → Session} {s s' : Admissions ι δ} {i : ι} {b : Bool}
    (h : s.step C sess (.prepare i b) = some s') :
    s.prepared (i, b) = none ∧ ∃ p w,
      (s.world.prepare C b.toNat (sess i).signalId ((sess i).share b) (sess i).inputs).1 = .ok p ∧
      s.world.step C (.prepare b.toNat (sess i).signalId ((sess i).share b) (sess i).inputs)
        = some w ∧
      s' = { s with world := w, prepared := Function.update s.prepared (i, b) (some p) } := by
  simp only [Admissions.step] at h
  split at h
  case h_1 p w hnone hp hw => exact ⟨hnone, p, w, hp, hw, (Option.some_inj.mp h).symm⟩
  case h_2 => cases h

theorem deliver_event {C : Crypto δ} {sess : ι → Session} {s s' : Admissions ι δ} {i : ι} {b : Bool}
    (h : s.step C sess (.deliver i b) = some s') :
    ∃ p, s.prepared (i, !b) = some p ∧
      s' = { s with inbox := Function.update s.inbox (i, b) (some p.message) } := by
  simp only [Admissions.step] at h
  split at h
  case h_1 p hp => exact ⟨p, hp, (Option.some_inj.mp h).symm⟩
  case h_2 => cases h

theorem finalize_event {C : Crypto δ} {sess : ι → Session} {s s' : Admissions ι δ} {i : ι}
    {b : Bool} (h : s.step C sess (.finalize i b) = some s') :
    s.decision (i, b) = none ∧ ∃ p msg w, s.prepared (i, b) = some p ∧
      s.inbox (i, b) = some msg ∧ s.world.step C (.finalize b.toNat p msg) = some w ∧
      s' = { s with
        world := w
        decision := Function.update s.decision (i, b)
          (some (s.world.finalize b.toNat p msg).1) } := by
  simp only [Admissions.step] at h
  split at h
  case h_1 p msg hnone hp hmsg =>
    split at h
    case h_1 w hw => exact ⟨hnone, p, msg, w, hp, hmsg, hw, (Option.some_inj.mp h).symm⟩
    case h_2 => cases h
  case h_2 => cases h

section
variable {C : Crypto δ} {sess : ι → Session} {s s' : Admissions ι δ} {i : ι} {b : Bool}

theorem Admissions.Inv.prepare (hs : s.Inv sess) (h : s.step C sess (.prepare i b) = some s') :
    s'.Inv sess := by
  obtain ⟨hnone, p, w, hp, hw, rfl⟩ := prepare_event h
  have hext : s.Extends { s with
      world := w, prepared := Function.update s.prepared (i, b) (some p) } :=
    ⟨fun x q hq => update_of_none hnone p hq, fun _ _ hd => hd⟩
  refine ⟨?_, ?_, ?_, ?_, ?_⟩
  · intro j c q hq
    rcases update_eq_some hq with ⟨hx, rfl⟩ | ⟨_, hq⟩
    · cases hx
      obtain ⟨p', hp', howner, hid, hyes, _⟩ := prepare_cases C b.toNat (s.world.servers b.toNat)
        (s.world.dpfOf b.toNat) (sess i).signalId ((sess i).share b) (sess i).inputs
      obtain rfl : p = p' := Except.ok.inj (hp.symm.trans hp')
      refine ⟨howner, hid, ?_⟩
      intro hready
      obtain ⟨k, r, hkey, hshare, _⟩ := (hyes hready).evaluated
      rw [hkey, hshare]
    · exact hs.owned j c q hq
  · intro j c msg hmsg
    obtain ⟨q, hq, hm⟩ := hs.delivered j c msg hmsg
    exact ⟨q, hext.prepared _ _ hq, hm⟩
  · intro j c hd
    obtain ⟨q, msg, hq, hm, hrest⟩ := hs.accepted j c hd
    exact ⟨q, msg, hext.prepared _ _ hq, hm, hrest⟩
  · intro j c d hd hne
    obtain ⟨q, msg, hq, hm, hrest⟩ := hs.refused j c d hd hne
    exact ⟨q, msg, hext.prepared _ _ hq, hm, hrest.extend hext⟩
  · intro c signalId share hshare
    obtain ⟨_, _, rfl⟩ := prepare_step hw
    exact hs.stored c signalId share hshare

theorem Admissions.Inv.deliver (hs : s.Inv sess) (h : s.step C sess (.deliver i b) = some s') :
    s'.Inv sess := by
  obtain ⟨p, hp, rfl⟩ := deliver_event h
  have hext : s.Extends { s with inbox := Function.update s.inbox (i, b) (some p.message) } :=
    ⟨fun _ _ hq => hq, fun _ _ hd => hd⟩
  -- the peer prepared once, so a second delivery brings the same message
  have hsame : ∀ j c msg, s.inbox (j, c) = some msg →
      Function.update s.inbox (i, b) (some p.message) (j, c) = some msg := by
    intro j c msg hmsg
    by_cases hx : (j, c) = (i, b)
    · cases hx
      obtain ⟨q, hq, rfl⟩ := hs.delivered i b msg hmsg
      obtain rfl := Option.some_inj.mp (hp.symm.trans hq)
      rw [Function.update_self]
    · rw [Function.update_of_ne hx, hmsg]
  refine ⟨hs.owned, ?_, ?_, ?_, hs.stored⟩
  · intro j c msg hmsg
    rcases update_eq_some hmsg with ⟨hx, rfl⟩ | ⟨_, hmsg⟩
    · cases hx
      exact ⟨p, hp, rfl⟩
    · exact hs.delivered j c msg hmsg
  · intro j c hd
    obtain ⟨q, msg, hq, hm, hrest⟩ := hs.accepted j c hd
    exact ⟨q, msg, hq, hsame j c msg hm, hrest⟩
  · intro j c d hd hne
    obtain ⟨q, msg, hq, hm, hrest⟩ := hs.refused j c d hd hne
    exact ⟨q, msg, hq, hsame j c msg hm, hrest.extend hext⟩

theorem Admissions.Inv.finalize (hs : s.Inv sess) (h : s.step C sess (.finalize i b) = some s') :
    s'.Inv sess := by
  obtain ⟨hnone, p, msg, w, hp, hmsg, hw, rfl⟩ := finalize_event h
  have hext : s.Extends { s with
      world := w
      decision := Function.update s.decision (i, b) (some (s.world.finalize b.toNat p msg).1) } :=
    ⟨fun _ _ hq => hq, fun x d hd => update_of_none hnone _ hd⟩
  refine ⟨hs.owned, hs.delivered, ?_, ?_, ?_⟩
  · intro j c hd
    rcases update_eq_some hd with ⟨hx, haccept⟩ | ⟨_, hd⟩
    · cases hx
      have hacc := finalize_accept_iff.mp haccept
      exact ⟨p, msg, hp, hmsg, hacc.ready, hacc.peerReady, hacc.proof⟩
    · exact hs.accepted j c hd
  · intro j c d hd hne
    rcases update_eq_some hd with ⟨hx, rfl⟩ | ⟨_, hd⟩
    · cases hx
      have hacc : ¬Acceptable b.toNat (s.world.servers b.toNat) p msg := fun ha =>
        hne (finalize_accept_iff.mpr ha)
      exact ⟨p, msg, hp, hmsg, (refusal_of_not_acceptable hs hnone hp hmsg hacc).extend hext⟩
    · obtain ⟨q, msg', hq, hm, hrest⟩ := hs.refused j c d hd hne
      exact ⟨q, msg', hq, hm, hrest.extend hext⟩
  · intro c signalId share hshare
    obtain ⟨howner, hid, hkey⟩ := hs.owned i b p hp
    cases step_effect hw with
    | keep hserv _ =>
        have hshare : (w.keysAt c.toNat).lookup signalId = some share := hshare
        rw [World.keysAt, hserv] at hshare
        obtain ⟨j, hj, hdec, hjkey⟩ := hs.stored c signalId share hshare
        exact ⟨j, hj, hext.decision _ _ hdec, hjkey⟩
    | insert srv q msg' he _ haccept hserv =>
        cases he
        have hshare : (w.keysAt c.toNat).lookup signalId = some share := hshare
        obtain ⟨hself, hother⟩ := keysAt_store s.world w hserv
        by_cases hnew : c = b ∧ signalId = p.signalId
        · obtain ⟨rfl, rfl⟩ := hnew
          rw [hself, Finmap.lookup_insert] at hshare
          obtain rfl := Option.some_inj.mp hshare
          refine ⟨i, hid.symm, ?_, hkey (accepts_iff.mp haccept).ready⟩
          exact (Function.update_self ..).trans (congrArg some haccept)
        · have hold : (s.world.keysAt c.toNat).lookup signalId = some share := by
            by_cases hc : c = b
            · subst hc
              rwa [hself, Finmap.lookup_insert_of_ne _ fun h => hnew ⟨rfl, h⟩] at hshare
            · rwa [hother c.toNat fun h => hc (toNat_injective h)] at hshare
          obtain ⟨j, hj, hdec, hjkey⟩ := hs.stored c signalId share hold
          exact ⟨j, hj, hext.decision _ _ hdec, hjkey⟩

end

theorem Admissions.Inv.step {C : Crypto δ} {sess : ι → Session} {s s' : Admissions ι δ}
    {e : SessionEvent ι} (hs : s.Inv sess) (h : s.step C sess e = some s') : s'.Inv sess := by
  cases e with
  | prepare i b => exact hs.prepare h
  | deliver i b => exact hs.deliver h
  | finalize i b => exact hs.finalize h

/-! ## Agreement

Equal proofs are compared by both servers, so all that can separate them is
the duplicate check, which looks at what each has stored before. -/

/-- In every reachable state: a session the servers disagree about lost its id
to another accepted session at the refusing server; every stored share is the
server's share of an accepted session with that id; and where no two sessions
have one id, the servers agree in full. -/
theorem admission_agreement (C : Crypto δ) (sess : ι → Session) {s₀ s : Admissions ι δ}
    (h₀ : s₀.Initial C) {log : List (SessionEvent ι)}
    (hrun : Run (fun s => Admissions.step C sess s) s₀ log s) :
    (∀ i b d, s.Decided i b .accept → s.Decided i (!b) d → d ≠ .accept →
      d = .rejectDuplicateSignalId ∧
        ∃ j, j ≠ i ∧ (sess j).signalId = (sess i).signalId ∧ s.Decided j (!b) .accept) ∧
    (∀ b signalId share, (s.world.keysAt b.toNat).lookup signalId = some share →
      ∃ i, (sess i).signalId = signalId ∧ s.Decided i b .accept ∧
        ((sess i).share b).vdpfKey = some share) ∧
    ∀ signalId, (∀ i j, (sess i).signalId = signalId → (sess j).signalId = signalId → i = j) →
      (∀ i b d, (sess i).signalId = signalId → s.Decided i b .accept → s.Decided i (!b) d →
        d = .accept) ∧
      ∀ share0 share1, (s.world.keysAt 0).lookup signalId = some share0 →
        (s.world.keysAt 1).lookup signalId = some share1 →
        ∃ i, (sess i).signalId = signalId ∧ ((sess i).share false).vdpfKey = some share0 ∧
          ((sess i).share true).vdpfKey = some share1 := by
  have hinv : s.Inv sess := hrun.invariant (P := fun s => s.Inv sess)
    (fun _ _ _ hs hstep => hs.step hstep) h₀.inv
  refine ⟨fun i b d => hinv.refused_duplicate, hinv.stored, fun signalId huniq => ⟨?_, ?_⟩⟩
  · intro i b d hid hacc hd
    by_contra hne
    obtain ⟨_, j, hji, hj, _⟩ := hinv.refused_duplicate hacc hd hne
    exact hji (huniq j i (hj.trans hid) hid)
  · intro share0 share1 h0 h1
    obtain ⟨i, hi, _, hshare0⟩ := hinv.stored false signalId share0 h0
    obtain ⟨j, hj, _, hshare1⟩ := hinv.stored true signalId share1 h1
    obtain rfl := huniq i j hi hj
    exact ⟨i, hi, hshare0, hshare1⟩

/-! ## Two sessions, one id

The case the theorem leaves open does occur, with honest servers and no
message lost. -/

/-- Two sessions with id 7 and different key shares. -/
def sampleSessions (i : Bool) : Session where
  signalId := 7
  share := fun _ =>
    { vdpfKey := some ((List.replicate 116 0).set 1 (if i then 4 else 0))
      vdpfKeyLen := 116
      fcw := 0
      sized := fun k hk => by
        rw [← Option.some_inj.mp hk, List.length_set, List.length_replicate] }
  inputs := [0]

def sampleAdmissions : Admissions Bool (List Byte) where
  world := sampleWorld
  prepared := fun _ => none
  inbox := fun _ => none
  decision := fun _ => none

theorem initial_sampleAdmissions : sampleAdmissions.Initial sampleCrypto where
  world := initial_sampleWorld
  party := by decide
  sameKeys := SameKeys.refl _
  prepared := fun _ => rfl
  inbox := fun _ => rfl
  decision := fun _ => rfl

/-- Both sessions are prepared everywhere before any is finalized; then the
servers take them in opposite orders. -/
def crossedEvents : List (SessionEvent Bool) :=
  [.prepare false false, .prepare false true, .prepare true false, .prepare true true,
    .deliver false false, .deliver false true, .deliver true false, .deliver true true,
    .finalize false false, .finalize true true, .finalize true false, .finalize false true]

theorem admission_agreement_sample :
    ∃ s, Run (fun s => Admissions.step sampleCrypto sampleSessions s) sampleAdmissions
        [.prepare false false, .prepare false true, .deliver false false, .finalize false false] s ∧
      ∃ i, (sampleSessions i).signalId = 7 ∧ s.Decided i false .accept := by
  obtain ⟨s, hrun, hshare⟩ : ∃ s,
      Run (fun s => Admissions.step sampleCrypto sampleSessions s) sampleAdmissions
        [.prepare false false, .prepare false true, .deliver false false, .finalize false false] s ∧
      (s.world.keysAt false.toNat).lookup 7 = some (List.replicate 116 0) :=
    ⟨_, run_of_foldlM rfl, by decide⟩
  obtain ⟨i, hid, hacc, _⟩ := (admission_agreement sampleCrypto sampleSessions
    initial_sampleAdmissions hrun).2.1 false 7 _ hshare
  exact ⟨s, hrun, i, hid, hacc⟩

/-- Server 0 accepts session 0 and refuses session 1, server 1 the other way
round, and the shares they store under id 7 are of different sessions. -/
theorem admission_disagrees :
    ∃ s, Run (fun s => Admissions.step sampleCrypto sampleSessions s) sampleAdmissions
        crossedEvents s ∧
      s.Decided false false .accept ∧ s.Decided false true .rejectDuplicateSignalId ∧
      s.Decided true true .accept ∧ s.Decided true false .rejectDuplicateSignalId ∧
      (s.world.servers 0).lookup 7 = ((sampleSessions false).share false).vdpfKey ∧
      (s.world.servers 1).lookup 7 = ((sampleSessions true).share true).vdpfKey ∧
      ((sampleSessions false).share true).vdpfKey ≠ ((sampleSessions true).share true).vdpfKey := by
  have hend : (crossedEvents.foldlM (fun s => Admissions.step sampleCrypto sampleSessions s)
      sampleAdmissions).map (fun s =>
        ([s.decision (false, false), s.decision (false, true), s.decision (true, true),
            s.decision (true, false)],
          [(s.world.servers 0).lookup 7, (s.world.servers 1).lookup 7]))
      = some ([some .accept, some .rejectDuplicateSignalId, some .accept,
          some .rejectDuplicateSignalId], [((sampleSessions false).share false).vdpfKey,
          ((sampleSessions true).share true).vdpfKey]) := by decide +kernel
  obtain ⟨s, hrun, hs⟩ := Option.map_eq_some_iff.mp hend
  simp only [Prod.mk.injEq, List.cons.injEq, and_true] at hs
  obtain ⟨⟨h0, h0', h1, h1'⟩, hkeys0, hkeys1⟩ := hs
  exact ⟨s, run_of_foldlM hrun, h0, h0', h1, h1', hkeys0, hkeys1, by decide⟩

end PSVFSS

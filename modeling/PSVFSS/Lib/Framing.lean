/-
# `Lib.Framing` — codes that say where they end

`decode` takes one value off the front of a stream.  A code is self-delimiting
when `decode` stops exactly where `encode` did, whatever follows; then a
sequence of frames is read back as it was written (`SelfDelimiting.many`).  A
separator that a field does not contain ends it (`split_inj`).

A code of fixed width (`Fixed`) reads every stream that is long enough, and what
it has read is what stood there.  Such codes can be repeated and put one after
the other; a whole stream is then accepted exactly when its length is right
(`Fixed.accepts`).
-/

namespace Framing

variable {α β : Type}

/-- `n` values, one after the other. -/
def decodeMany (decode : List β → Option (α × List β)) :
    Nat → List β → Option (List α × List β)
  | 0, stream => some ([], stream)
  | n + 1, stream => do
      let (a, stream) ← decode stream
      let (as, stream) ← decodeMany decode n stream
      return (a :: as, stream)

/-- On the values of `P`, what follows a frame does not change how it is read. -/
def SelfDelimiting (P : α → Prop) (encode : α → List β) (decode : List β → Option (α × List β)) :
    Prop :=
  ∀ a, P a → ∀ rest, decode (encode a ++ rest) = some (a, rest)

variable {P : α → Prop} {encode : α → List β} {decode : List β → Option (α × List β)}

theorem SelfDelimiting.many (h : SelfDelimiting P encode decode) :
    ∀ {as : List α}, (∀ a ∈ as, P a) → ∀ rest,
      decodeMany decode as.length (as.flatMap encode ++ rest) = some (as, rest) := by
  intro as
  induction as with
  | nil => exact fun _ _ => rfl
  | cons a as ih =>
      intro has rest
      have hhead := h a (has a List.mem_cons_self) (as.flatMap encode ++ rest)
      have htail := ih (fun b hb => has b (List.mem_cons_of_mem a hb)) rest
      rw [List.length_cons, decodeMany, List.flatMap_cons, List.append_assoc, hhead]
      simp only [Option.bind_eq_bind, Option.bind_some, htail]
      rfl

/-! ## Separators

For text rather than length prefixes: a field that does not contain the
separator ends at the first one. -/

/-- Two lists split at their first `c`. -/
theorem split_inj {c : α} {l l' m m' : List α} (hl : c ∉ l) (hl' : c ∉ l')
    (h : l ++ c :: m = l' ++ c :: m') : l = l' ∧ m = m' := by
  induction l generalizing l' with
  | nil =>
      cases l' with
      | nil => exact ⟨rfl, (List.cons.inj h).2⟩
      | cons d _ => exact absurd ((List.cons.inj h).1 ▸ List.mem_cons_self ..) hl'
  | cons d l ih =>
      cases l' with
      | nil => exact absurd ((List.cons.inj h).1 ▸ List.mem_cons_self ..) hl
      | cons d' l' =>
          obtain ⟨rfl, htail⟩ := List.cons.inj h
          obtain ⟨rfl, hm⟩ := ih (fun hc => hl (List.mem_cons_of_mem _ hc))
            (fun hc => hl' (List.mem_cons_of_mem _ hc)) htail
          exact ⟨rfl, hm⟩

/-! ## Codes of fixed width

A reader of such a code fails for one reason only, that the stream is too
short.  Pairs, images and repetitions of fixed codes are fixed codes again. -/

/-- `decode` undoes `encode` on the values of `P` and delivers no others; it
takes `w` symbols, whichever they are. -/
structure Fixed (P : α → Prop) (w : Nat) (encode : α → List β)
    (decode : List β → Option (α × List β)) : Prop where
  delimiting : SelfDelimiting P encode decode
  exact : ∀ s a rest, decode s = some (a, rest) → P a ∧ s = encode a ++ rest
  width : ∀ a, P a → (encode a).length = w
  reads : ∀ s, w ≤ s.length → ∃ r, decode s = some r

/-- Two values, one after the other. -/
def decodePair {α' : Type} (decode : List β → Option (α × List β))
    (decode' : List β → Option (α' × List β)) (s : List β) : Option ((α × α') × List β) := do
  let (a, s) ← decode s
  let (a', s) ← decode' s
  return ((a, a'), s)

theorem decodePair_eq {α' : Type} {decode' : List β → Option (α' × List β)} {s s₁ s₂ : List β}
    {a : α} {a' : α'} (ha : decode s = some (a, s₁)) (ha' : decode' s₁ = some (a', s₂)) :
    decodePair decode decode' s = some ((a, a'), s₂) := by
  show (decode s).bind _ = _
  rw [ha, Option.bind_some]
  show (decode' s₁).bind _ = _
  rw [ha']
  rfl

theorem decodeMany_succ {n : Nat} {s s₁ s₂ : List β} {a : α} {as : List α}
    (ha : decode s = some (a, s₁)) (has : decodeMany decode n s₁ = some (as, s₂)) :
    decodeMany decode (n + 1) s = some (a :: as, s₂) := by
  show (decode s).bind _ = _
  rw [ha, Option.bind_some]
  show (decodeMany decode n s₁).bind _ = _
  rw [has]
  rfl

namespace Fixed

variable {w : Nat}

theorem pair {α' : Type} {P' : α' → Prop} {encode' : α' → List β}
    {decode' : List β → Option (α' × List β)} {w' : Nat} (h : Fixed P w encode decode)
    (h' : Fixed P' w' encode' decode') :
    Fixed (fun x : α × α' => P x.1 ∧ P' x.2) (w + w') (fun x => encode x.1 ++ encode' x.2)
      (decodePair decode decode') where
  delimiting := by
    rintro ⟨a, a'⟩ ⟨ha, ha'⟩ rest
    rw [List.append_assoc]
    exact decodePair_eq (h.delimiting a ha _) (h'.delimiting a' ha' rest)
  exact := by
    intro s x rest hx
    obtain ⟨⟨a, s₁⟩, ha, hx⟩ := Option.bind_eq_some_iff.mp hx
    obtain ⟨⟨a', s₂⟩, ha', hx⟩ := Option.bind_eq_some_iff.mp hx
    cases hx
    obtain ⟨hP, rfl⟩ := h.exact s a s₁ ha
    obtain ⟨hP', rfl⟩ := h'.exact s₁ a' rest ha'
    exact ⟨⟨hP, hP'⟩, (List.append_assoc _ _ _).symm⟩
  width := by
    rintro ⟨a, a'⟩ ⟨ha, ha'⟩
    rw [List.length_append, h.width a ha, h'.width a' ha']
  reads := by
    intro s hs
    obtain ⟨⟨a, s₁⟩, ha⟩ := h.reads s (by omega)
    obtain ⟨hP, rfl⟩ := h.exact s a s₁ ha
    rw [List.length_append, h.width a hP] at hs
    obtain ⟨⟨a', s₂⟩, ha'⟩ := h'.reads s₁ (by omega)
    exact ⟨((a, a'), s₂), decodePair_eq ha ha'⟩

/-- A value that stands for the one the code delivers. -/
theorem map {α' : Type} {P' : α' → Prop} (h : Fixed P w encode decode) (f : α → α')
    (g : α' → α) (hP : ∀ a, P a → P' (f a)) (hP' : ∀ a', P' a' → P (g a'))
    (hfg : ∀ a', P' a' → f (g a') = a') (hgf : ∀ a, P a → g (f a) = a) :
    Fixed P' w (fun a' => encode (g a')) fun s => (decode s).map fun r => (f r.1, r.2) where
  delimiting := by
    intro a' ha' rest
    show (decode (encode (g a') ++ rest)).map _ = _
    rw [h.delimiting (g a') (hP' a' ha') rest, Option.map_some, hfg a' ha']
  exact := by
    intro s a' rest ha'
    obtain ⟨⟨a, rest'⟩, ha, heq⟩ := Option.map_eq_some_iff.mp ha'
    cases heq
    obtain ⟨hPa, rfl⟩ := h.exact s a rest' ha
    exact ⟨hP a hPa, by rw [hgf a hPa]⟩
  width := fun a' ha' => h.width (g a') (hP' a' ha')
  reads := by
    intro s hs
    obtain ⟨r, hr⟩ := h.reads s hs
    exact ⟨_, congrArg (Option.map fun r => (f r.1, r.2)) hr⟩

theorem many (h : Fixed P w encode decode) (n : Nat) :
    Fixed (fun as : List α => as.length = n ∧ ∀ a ∈ as, P a) (n * w) (·.flatMap encode)
      (decodeMany decode n) where
  delimiting := by
    rintro as ⟨rfl, has⟩ rest
    exact h.delimiting.many has rest
  exact := by
    induction n with
    | zero =>
        intro s as rest has
        cases has
        exact ⟨⟨rfl, fun a ha => absurd ha List.not_mem_nil⟩, rfl⟩
    | succ n ih =>
        intro s as rest has
        obtain ⟨⟨a, s₁⟩, ha, has⟩ := Option.bind_eq_some_iff.mp has
        obtain ⟨⟨as', s₂⟩, has', has⟩ := Option.bind_eq_some_iff.mp has
        cases has
        obtain ⟨hP, rfl⟩ := h.exact s a s₁ ha
        obtain ⟨⟨hlen, hall⟩, rfl⟩ := ih s₁ as' rest has'
        refine ⟨⟨congrArg (· + 1) hlen, fun x hx => ?_⟩, ?_⟩
        · rcases List.mem_cons.mp hx with rfl | hx
          · exact hP
          · exact hall x hx
        · rw [List.flatMap_cons, List.append_assoc]
  width := by
    rintro as ⟨rfl, has⟩
    induction as with
    | nil => exact (Nat.zero_mul w).symm
    | cons a as ih =>
        rw [List.flatMap_cons, List.length_append, h.width a (has a List.mem_cons_self),
          ih fun b hb => has b (List.mem_cons_of_mem a hb), List.length_cons, Nat.succ_mul,
          Nat.add_comm]
  reads := by
    induction n with
    | zero => exact fun s _ => ⟨_, rfl⟩
    | succ n ih =>
        intro s hs
        rw [Nat.succ_mul] at hs
        obtain ⟨⟨a, s₁⟩, ha⟩ := h.reads s (by omega)
        obtain ⟨hP, rfl⟩ := h.exact s a s₁ ha
        rw [List.length_append, h.width a hP] at hs
        obtain ⟨⟨as, s₂⟩, has⟩ := ih s₁ (by omega)
        exact ⟨(a :: as, s₂), decodeMany_succ ha has⟩

/-- A stream of the right length is read to its end, no other one is. -/
theorem accepts (h : Fixed P w encode decode) (s : List β) :
    (∃ a, decode s = some (a, [])) ↔ s.length = w := by
  constructor
  · rintro ⟨a, ha⟩
    obtain ⟨hP, heq⟩ := h.exact s a [] ha
    rw [heq, List.append_nil, h.width a hP]
  · intro hlen
    obtain ⟨⟨a, rest⟩, ha⟩ := h.reads s (Nat.le_of_eq hlen.symm)
    obtain ⟨hP, heq⟩ := h.exact s a rest ha
    have hrest : rest = [] := by
      have hlength := congrArg List.length heq
      rw [List.length_append, h.width a hP, hlen] at hlength
      exact List.eq_nil_of_length_eq_zero (by omega)
    exact ⟨a, hrest ▸ ha⟩

end Fixed

end Framing

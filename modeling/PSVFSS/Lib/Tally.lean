/-
# `Lib.Tally` — dictionaries filled entry by entry

`update f z d k a` puts `f` of what the dictionary `d` holds for `k`, `z` if
nothing, and of `a` in its place; `tally` does so for a list of entries.

    lookup_tally         a key holds the fold over its own entries
    countP_record_le     a dictionary in which a key's last entry stands counts no more
    countP_record_iff    than the entries, and as many exactly when no counted entry
                         is written over
-/
import Mathlib.Data.List.AList
import Mathlib.Data.List.Flatten

namespace Tally

variable {κ α β : Type} [DecidableEq κ]

/-! ## One fold per key

Entries fall into the dictionary by key.  What a key ends up with is the fold
over its own entries, so a change elsewhere in the list does not reach it. -/

/-- `d.setdefault(k, z)`, then `f` of it and `a` put back. -/
def update (f : β → α → β) (z : β) (d : AList fun _ : κ => β) (k : κ) (a : α) :
    AList fun _ : κ => β :=
  d.insert k (f ((d.lookup k).getD z) a)

theorem lookup_update (f : β → α → β) (z : β) (d : AList fun _ : κ => β) (k : κ) (a : α) (j : κ) :
    (update f z d k a).lookup j
      = if j = k then some (f ((d.lookup k).getD z) a) else d.lookup j := by
  by_cases h : j = k
  · subst h
    rw [update, AList.lookup_insert, if_pos rfl]
  · rw [update, AList.lookup_insert_ne h, if_neg h]

def tally (f : β → α → β) (z : β) (d : AList fun _ : κ => β) (entries : List (κ × α)) :
    AList fun _ : κ => β :=
  entries.foldl (fun d e => update f z d e.1 e.2) d

theorem tally_append (f : β → α → β) (z : β) (d : AList fun _ : κ => β)
    (l l' : List (κ × α)) : tally f z d (l ++ l') = tally f z (tally f z d l) l' :=
  List.foldl_append

/-- The entries of a key, in order. -/
def ofKey (k : κ) (entries : List (κ × α)) : List α :=
  entries.filterMap fun e => if e.1 = k then some e.2 else none

theorem ofKey_append (k : κ) (l l' : List (κ × α)) : ofKey k (l ++ l') = ofKey k l ++ ofKey k l' :=
  List.filterMap_append

theorem mem_ofKey {k : κ} {entries : List (κ × α)} {a : α} :
    a ∈ ofKey k entries ↔ (k, a) ∈ entries := by
  simp only [ofKey, List.mem_filterMap, Option.ite_none_right_eq_some, Option.some.injEq]
  constructor
  · rintro ⟨⟨_, _⟩, he, rfl, rfl⟩
    exact he
  · intro h
    exact ⟨_, h, rfl, rfl⟩

theorem ofKey_map {ε : Type} (k : κ) (l : List ε) (key : ε → κ) (val : ε → α) :
    ofKey k (l.map fun e => (key e, val e)) = (l.filter (key · = k)).map val := by
  induction l with
  | nil => rfl
  | cons e l ih =>
      by_cases h : key e = k
      · simp only [ofKey, List.map_cons, List.filterMap_cons, h, if_pos, List.filter_cons] at ih ⊢
        simpa using ih
      · simp only [ofKey, List.map_cons, List.filterMap_cons, h, if_false, List.filter_cons] at ih ⊢
        simpa using ih

theorem ofKey_flatMap {ε : Type} (k : κ) (l : List ε) (f : ε → List (κ × α)) :
    ofKey k (l.flatMap f) = l.flatMap fun e => ofKey k (f e) := by
  induction l with
  | nil => rfl
  | cons e l ih => rw [List.flatMap_cons, ofKey_append, ih, List.flatMap_cons]

/-- Leaving sources out changes nothing exactly when they add nothing. -/
theorem flatMap_filter_eq_iff {ε : Type} (p : ε → Bool) (f : ε → List α) (l : List ε) :
    l.flatMap f = (l.filter p).flatMap f ↔ ∀ e ∈ l, p e = false → f e = [] := by
  induction l with
  | nil => exact iff_of_true rfl (List.forall_mem_nil _)
  | cons e l ih =>
      rw [List.forall_mem_cons, List.flatMap_cons]
      cases hp : p e with
      | true =>
          rw [List.filter_cons_of_pos hp, List.flatMap_cons, List.append_cancel_left_eq, ih]
          exact ⟨fun h => ⟨nofun, h⟩, And.right⟩
      | false =>
          rw [List.filter_cons_of_neg (ne_true_of_eq_false hp)]
          have hle : ((l.filter p).flatMap f).length ≤ (l.flatMap f).length :=
            (List.filter_sublist.flatMap f).length_le
          constructor
          · intro h
            have hlength := congrArg List.length h
            rw [List.length_append] at hlength
            have hnil : f e = [] := List.length_eq_zero_iff.mp (by omega)
            rw [hnil, List.nil_append] at h
            exact ⟨fun _ => hnil, ih.mp h⟩
          · rintro ⟨hnil, hrest⟩
            rw [hnil rfl, List.nil_append]
            exact ih.mpr hrest

theorem foldl_append_singleton (l m : List α) :
    m.foldl (fun values value => values ++ [value]) l = l ++ m := by
  induction m generalizing l with
  | nil => exact (List.append_nil l).symm
  | cons a m ih => rw [List.foldl_cons, ih, List.append_assoc, List.singleton_append]

theorem lookup_tally_getD (f : β → α → β) (z : β) (entries : List (κ × α)) (k : κ) :
    ∀ d : AList fun _ : κ => β,
      ((tally f z d entries).lookup k).getD z
        = (ofKey k entries).foldl f ((d.lookup k).getD z) := by
  induction entries with
  | nil => intro _; rfl
  | cons e entries ih =>
      intro d
      rw [show tally f z d (e :: entries) = tally f z (update f z d e.1 e.2) entries from rfl, ih,
        lookup_update]
      by_cases h : k = e.1
      · subst h
        simp [ofKey]
      · simp [ofKey, h, Ne.symm h]

theorem mem_tally (f : β → α → β) (z : β) (entries : List (κ × α)) (k : κ) :
    ∀ d : AList fun _ : κ => β, k ∈ tally f z d entries ↔ k ∈ d ∨ ofKey k entries ≠ [] := by
  induction entries with
  | nil => intro d; simp [tally, ofKey]
  | cons e entries ih =>
      intro d
      rw [show tally f z d (e :: entries) = tally f z (update f z d e.1 e.2) entries from rfl, ih,
        update, AList.mem_insert]
      by_cases h : k = e.1
      · subst h
        simp [ofKey]
      · simp [ofKey, h, Ne.symm h]

/-- An empty dictionary filled: the keys are those of the entries, and each
holds the fold over its own. -/
theorem lookup_tally (f : β → α → β) (z : β) (entries : List (κ × α)) (k : κ) :
    (tally f z (∅ : AList fun _ : κ => β) entries).lookup k
      = if ofKey k entries = [] then none else some ((ofKey k entries).foldl f z) := by
  have hget := lookup_tally_getD f z entries k ∅
  have hmem := mem_tally f z entries k ∅
  by_cases h : ofKey k entries = []
  · rw [if_pos h]
    exact AList.lookup_eq_none.mpr fun hk => (hmem.mp hk).elim (AList.notMem_empty k) (· h)
  · rw [if_neg h]
    obtain ⟨b, hb⟩ := Option.isSome_iff_exists.mp (AList.lookup_isSome.mpr (hmem.mpr (.inr h)))
    rw [hb] at hget ⊢
    exact congrArg some hget

/-! ## The last entry of a key stands

An assignment overwrites.  Counting the dictionary is counting the list, as
far as no entry that would have counted was overwritten. -/

/-- `d[k] = v` for each entry in turn. -/
def record (d : AList fun _ : κ => β) (entries : List (κ × β)) : AList fun _ : κ => β :=
  entries.foldl (fun d e => d.insert e.1 e.2) d

/-- `d.values()`. -/
def values (d : AList fun _ : κ => β) : List β :=
  d.entries.map Sigma.snd

/-- One entry: what it writes over is no longer counted. -/
theorem countP_values_insert (p : β → Bool) (d : AList fun _ : κ => β) (k : κ) (v : β) :
    (values (d.insert k v)).countP p + ((d.lookup k).toList).countP p
      = (values d).countP p + [v].countP p := by
  have hinsert : values (d.insert k v) = v :: (d.entries.kerase k).map Sigma.snd := by
    rw [values, AList.entries_insert]
    rfl
  have herase : ((d.entries.kerase k).map Sigma.snd).countP p + ((d.lookup k).toList).countP p
      = (values d).countP p := by
    by_cases hk : k ∈ d
    · obtain ⟨old, l, l', _, hentries, hkerase⟩ := List.exists_of_kerase (AList.mem_keys.mpr hk)
      have hlookup : d.lookup k = some old := by
        refine AList.mem_lookup_iff.mpr ?_
        rw [hentries]
        exact List.mem_append_right _ (List.mem_cons_self ..)
      rw [hkerase, hlookup, values, hentries]
      simp only [List.map_append, List.map_cons, List.countP_append, List.countP_cons,
        Option.toList_some, List.countP_nil]
      omega
    · rw [List.kerase_of_notMem_keys (mt AList.mem_keys.mp hk), AList.lookup_eq_none.mpr hk]
      rfl
  rw [hinsert, List.countP_cons, ← herase, List.countP_singleton]
  omega

/-- Counted entries that a later entry of their key, or one already in the
dictionary, does not write over. -/
def NoneOverwritten (p : β → Bool) (d : AList fun _ : κ => β) (entries : List (κ × β)) : Prop :=
  (∀ e ∈ entries, ((d.lookup e.1).toList).countP p = 0) ∧
    entries.Pairwise fun e e' => e.1 = e'.1 → p e.2 = false

theorem noneOverwritten_cons {p : β → Bool} {d : AList fun _ : κ => β} {e : κ × β}
    {entries : List (κ × β)} :
    NoneOverwritten p d (e :: entries) ↔
      ((d.lookup e.1).toList).countP p = 0 ∧ NoneOverwritten p (d.insert e.1 e.2) entries := by
  simp only [NoneOverwritten, List.forall_mem_cons, List.pairwise_cons]
  -- an entry of another key finds what `d` held, one of the same key finds `e.2`
  have hsame : ∀ e' : κ × β, e'.1 = e.1 →
      (((d.insert e.1 e.2).lookup e'.1).toList.countP p = 0 ↔ p e.2 = false) := by
    intro e' he
    rw [he, AList.lookup_insert]
    cases hp : p e.2 <;> simp [hp]
  have hother : ∀ e' : κ × β, e'.1 ≠ e.1 → (d.insert e.1 e.2).lookup e'.1 = d.lookup e'.1 :=
    fun e' he => AList.lookup_insert_ne he
  constructor
  · rintro ⟨⟨hfirst, hrest⟩, hover, hpair⟩
    refine ⟨hfirst, fun e' he' => ?_, hpair⟩
    by_cases h : e'.1 = e.1
    · exact (hsame e' h).mpr (hover e' he' h.symm)
    · rw [hother e' h]
      exact hrest e' he'
  · rintro ⟨hfirst, hrest, hpair⟩
    refine ⟨⟨hfirst, fun e' he' => ?_⟩, fun e' he' h => (hsame e' h.symm).mp (hrest e' he'), hpair⟩
    by_cases h : e'.1 = e.1
    · rw [h]
      exact hfirst
    · rw [← hother e' h]
      exact hrest e' he'

theorem countP_record (p : β → Bool) (entries : List (κ × β)) :
    ∀ d : AList fun _ : κ => β,
      (values (record d entries)).countP p ≤ (values d).countP p + (entries.map Prod.snd).countP p ∧
      ((values (record d entries)).countP p
          = (values d).countP p + (entries.map Prod.snd).countP p
        ↔ NoneOverwritten p d entries) := by
  induction entries with
  | nil => intro d; simp [record, NoneOverwritten]
  | cons e entries ih =>
      intro d
      obtain ⟨hle, hiff⟩ := ih (d.insert e.1 e.2)
      have hstep := countP_values_insert p d e.1 e.2
      have hcons : ((e :: entries).map Prod.snd).countP p
          = (entries.map Prod.snd).countP p + [e.2].countP p := by
        rw [List.map_cons, List.countP_cons, List.countP_singleton]
      rw [noneOverwritten_cons, ← hiff, hcons,
        show record d (e :: entries) = record (d.insert e.1 e.2) entries from rfl]
      omega

theorem countP_record_le (p : β → Bool) (entries : List (κ × β)) :
    (values (record (∅ : AList fun _ : κ => β) entries)).countP p
      ≤ (entries.map Prod.snd).countP p := by
  have h := (countP_record p entries ∅).1
  rwa [show values (∅ : AList fun _ : κ => β) = [] from rfl, List.countP_nil, Nat.zero_add] at h

theorem countP_record_iff (p : β → Bool) (entries : List (κ × β)) :
    (values (record (∅ : AList fun _ : κ => β) entries)).countP p
        = (entries.map Prod.snd).countP p
      ↔ entries.Pairwise fun e e' => e.1 = e'.1 → p e.2 = false := by
  have h := (countP_record p entries ∅).2
  rw [show values (∅ : AList fun _ : κ => β) = [] from rfl, List.countP_nil, Nat.zero_add] at h
  rw [h, NoneOverwritten, and_iff_right_iff_imp]
  intro _ e _
  rw [AList.lookup_empty]
  rfl

end Tally

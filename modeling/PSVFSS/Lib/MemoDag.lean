/-
# `Lib.MemoDag` — memoised depth-first evaluation

Nodes are numbers.  `reads` lists what a node reads, in the order in which it
is visited; `node` computes a node from the results of what it reads.  A result
is a success flag and a value; `none` stands for a run-time error.

    visit     the recursive subroutine: a cache and a set of visited nodes
    evalAt    the value of a node, evaluated to a given depth
    Value     the node has a value at some depth

A success is always a value (`visit_sound`).  A node that has a value is
evaluated, whatever is in the cache, as long as the nodes left visited without
a result have none at its depth (`visit_complete`): this is why a test for
visited nodes detects loops and nothing else.  With as much fuel as there are
nodes the recursion ends (`visit_total`).
-/
import Mathlib.Data.Finset.Card
import Mathlib.Data.Finset.Range
import Mathlib.Data.Finite.Prod
import Mathlib.Data.Fintype.Card
import Mathlib.Logic.Relation

namespace MemoDag

variable {V W : Type}

/-! ## Lists of results

`mapM` over `Option`, entry by entry, in the form `Forall₂` that the induction
on the depth of a node produces. -/

section
variable {α β : Type}

theorem mapM_eq_some_iff {f : α → Option β} {l : List α} {l' : List β} :
    l.mapM f = some l' ↔ List.Forall₂ (fun a b => f a = some b) l l' := by
  induction l generalizing l' with
  | nil =>
      rw [List.forall₂_nil_left_iff]
      exact ⟨fun h => (Option.some.inj h).symm, fun h => congrArg some h.symm⟩
  | cons a l ih =>
      rw [List.mapM_cons, List.forall₂_cons_left_iff]
      constructor
      · intro h
        obtain ⟨b, hb, h⟩ := Option.bind_eq_some_iff.mp h
        obtain ⟨bs, hbs, h⟩ := Option.bind_eq_some_iff.mp h
        exact ⟨b, bs, hb, ih.mp hbs, (Option.some.inj h).symm⟩
      · rintro ⟨b, bs, hb, hbs, rfl⟩
        rw [hb, ih.mpr hbs]
        rfl

/-- The results of the numbers below `n`. -/
theorem getElem?_mapM_range {f : Nat → Option β} {n : Nat} {l : List β}
    (h : (List.range n).mapM f = some l) {i : Nat} (hi : i < n) :
    ∃ b, f i = some b ∧ l[i]? = some b := by
  have hall := mapM_eq_some_iff.mp h
  have hlen : l.length = n := hall.length_eq.symm.trans List.length_range
  have hl : i < l.length := hi.trans_eq hlen.symm
  refine ⟨l[i], ?_, List.getElem?_eq_getElem hl⟩
  have hget := hall.get (i := i) (List.length_range.symm ▸ hi) hl
  rwa [List.get_eq_getElem, List.get_eq_getElem, List.getElem_range] at hget

theorem exists_of_forall₂ {R : α → β → Prop} {l : List α} {l' : List β}
    (h : List.Forall₂ R l l') : ∀ a ∈ l, ∃ b, R a b := by
  induction h with
  | nil => exact fun a ha => absurd ha List.not_mem_nil
  | cons hr _ ih =>
      intro x hx
      rcases List.mem_cons.mp hx with rfl | hx
      · exact ⟨_, hr⟩
      · exact ih x hx

theorem forall₂_zipWith {γ : Type} {R : α → β → Prop} {S : α → γ → Prop} {f : α → β → γ}
    (hf : ∀ a b, R a b → S a (f a b)) {l : List α} {l' : List β} (h : List.Forall₂ R l l') :
    List.Forall₂ S l (List.zipWith f l l') := by
  induction h with
  | nil => exact List.Forall₂.nil
  | cons hr _ ih => exact List.Forall₂.cons (hf _ _ hr) ih

theorem exists_forall₂ {R : α → β → Prop} {l : List α} (h : ∀ a ∈ l, ∃ b, R a b) :
    ∃ l', List.Forall₂ R l l' := by
  induction l with
  | nil => exact ⟨[], List.Forall₂.nil⟩
  | cons a l ih =>
      obtain ⟨b, hb⟩ := h a List.mem_cons_self
      obtain ⟨l', hl'⟩ := ih fun x hx => h x (List.mem_cons_of_mem a hx)
      exact ⟨b :: l', List.Forall₂.cons hb hl'⟩

end

/-! ## The recursion

A node is answered from the cache, refused when it has been visited, or marked
and computed from what it reads, which is visited first and in order.  Only
successes go into the cache.  An output starts from an array with nothing
visited and the cache of the outputs before it. -/

/-- The scratch arrays; `calculated` stands for the flags and the values. -/
structure Scratch (V : Type) where
  visited : Nat → Bool
  calculated : Nat → Option V

namespace Scratch

def mark (s : Scratch V) (g : Nat) : Scratch V :=
  { s with visited := Function.update s.visited g true }

def store (s : Scratch V) (g : Nat) (v : V) : Scratch V :=
  { s with calculated := Function.update s.calculated g (some v) }

/-- Visited, and left without a result. -/
def Pending (s : Scratch V) (x : Nat) : Prop := s.visited x = true ∧ s.calculated x = none

@[simp] theorem mark_calculated (s : Scratch V) (g : Nat) :
    (s.mark g).calculated = s.calculated := rfl

@[simp] theorem store_visited (s : Scratch V) (g : Nat) (v : V) :
    (s.store g v).visited = s.visited := rfl

/-- The nodes are unvisited again; the results stay. -/
def reset (s : Scratch V) : Scratch V := { s with visited := fun _ => false }

theorem mark_of_ne (s : Scratch V) {g x : Nat} (h : x ≠ g) :
    (s.mark g).visited x = s.visited x := by
  simp only [mark, Function.update_of_ne h]

theorem store_self (s : Scratch V) (g : Nat) (v : V) : (s.store g v).calculated g = some v := by
  simp only [store, Function.update_self]

theorem store_of_ne (s : Scratch V) {g x : Nat} (h : x ≠ g) (v : V) :
    (s.store g v).calculated x = s.calculated x := by
  simp only [store, Function.update_of_ne h]

end Scratch

/-- What a list of nodes returns, visited one after the other. -/
def visitList (f : Nat → Scratch V → Option ((Bool × V) × Scratch V)) :
    List Nat → Scratch V → Option (List (Bool × V) × Scratch V)
  | [], s => some ([], s)
  | g :: gs, s => do
      let (r, s) ← f g s
      let (rs, s) ← visitList f gs s
      return (r :: rs, s)

/-- The results of the given nodes, each from an array with no node visited. -/
def visitOutputs (f : Nat → Scratch V → Option ((Bool × V) × Scratch V)) :
    List Nat → Scratch V → Option (Bool × List V)
  | [], _ => some (true, [])
  | g :: gs, s => do
      let ((success, v), s) ← f g s.reset
      if success then
        let (success, vs) ← visitOutputs f gs s
        return if success then (true, v :: vs) else (false, [])
      else return (false, [])

section
variable (reads : Nat → Option (List Nat)) (node : Nat → List (Bool × V) → Option (Bool × V))
  (d : V)

def visit : Nat → Nat → Scratch V → Option ((Bool × V) × Scratch V)
  | 0, _, _ => none
  | fuel + 1, g, s =>
      match s.calculated g with
      | some v => some ((true, v), s)
      | none =>
          if s.visited g then some ((false, d), s)
          else do
            let ins ← reads g
            let (rs, s) ← visitList (visit fuel) ins (s.mark g)
            let (success, v) ← node g rs
            return ((success, v), if success then s.store g v else s)

/-! ## Values

The same evaluation without cache and marks: it reads the graph as deep as its
fuel goes.  A node has at most one value, at whatever depth. -/

def evalAt : Nat → Nat → Option V
  | 0, _ => none
  | k + 1, g => do
      let ins ← reads g
      let vs ← ins.mapM (evalAt k)
      match node g (vs.map (true, ·)) with
      | some (true, v) => some v
      | _ => none

def Value (g : Nat) (v : V) : Prop := ∃ k, evalAt reads node k g = some v

/-- A node that succeeds has only read successes. -/
def Strict : Prop :=
  ∀ g ins rs v, reads g = some ins → rs.length = ins.length → node g rs = some (true, v) →
    ∀ r ∈ rs, r.1 = true

end

variable {reads : Nat → Option (List Nat)} {node : Nat → List (Bool × V) → Option (Bool × V)}
  {d : V}

theorem visitList_cons {f : Nat → Scratch V → Option ((Bool × V) × Scratch V)} {g : Nat}
    {gs : List Nat} {s s₁ s₂ : Scratch V} {r : Bool × V} {rs : List (Bool × V)}
    (hr : f g s = some (r, s₁)) (hrs : visitList f gs s₁ = some (rs, s₂)) :
    visitList f (g :: gs) s = some (r :: rs, s₂) := by
  show (f g s).bind _ = _
  rw [hr, Option.bind_some]
  show (visitList f gs s₁).bind _ = _
  rw [hrs]
  rfl

/-- A node that has neither been visited nor calculated. -/
theorem visit_fresh {fuel g : Nat} {s s₁ : Scratch V} {ins : List Nat} {rs : List (Bool × V)}
    {success : Bool} {v : V} (hcalculated : s.calculated g = none)
    (hvisited : ¬ s.visited g = true) (hins : reads g = some ins)
    (hrs : visitList (visit reads node d fuel) ins (s.mark g) = some (rs, s₁))
    (hnode : node g rs = some (success, v)) :
    visit reads node d (fuel + 1) g s
      = some ((success, v), if success then s₁.store g v else s₁) := by
  rw [visit, hcalculated]
  show (if s.visited g = true then _ else _) = _
  rw [if_neg hvisited]
  show (reads g).bind _ = _
  rw [hins, Option.bind_some]
  show (visitList _ ins (s.mark g)).bind _ = _
  rw [hrs, Option.bind_some]
  show (node g rs).bind _ = _
  rw [hnode]
  rfl

theorem evalAt_succ_eq_some {k g : Nat} {v : V} :
    evalAt reads node (k + 1) g = some v ↔ ∃ ins vs, reads g = some ins ∧
      ins.mapM (evalAt reads node k) = some vs ∧
      node g (vs.map (true, ·)) = some (true, v) := by
  rw [evalAt]
  constructor
  · intro h
    obtain ⟨ins, hins, h⟩ := Option.bind_eq_some_iff.mp h
    obtain ⟨vs, hvs, h⟩ := Option.bind_eq_some_iff.mp h
    refine ⟨ins, vs, hins, hvs, ?_⟩
    split at h
    next w hnode => rw [hnode, Option.some.inj h]
    next => cases h
  · rintro ⟨ins, vs, hins, hvs, hnode⟩
    show (reads g).bind _ = _
    rw [hins, Option.bind_some, hvs]
    show (match node g (vs.map (true, ·)) with | some (true, v) => some v | _ => none) = _
    rw [hnode]

theorem evalAt_succ {k g : Nat} {v : V} (h : evalAt reads node k g = some v) :
    evalAt reads node (k + 1) g = some v := by
  induction k generalizing g v with
  | zero => cases h
  | succ k ih =>
      obtain ⟨ins, vs, hins, hvs, hnode⟩ := evalAt_succ_eq_some.mp h
      have hvs' := (mapM_eq_some_iff.mp hvs).imp fun _ _ => ih
      exact evalAt_succ_eq_some.mpr ⟨ins, vs, hins, mapM_eq_some_iff.mpr hvs', hnode⟩

theorem evalAt_mono {k k' g : Nat} {v : V} (hle : k ≤ k') (h : evalAt reads node k g = some v) :
    evalAt reads node k' g = some v := by
  induction hle with
  | refl => exact h
  | step _ ih => exact evalAt_succ ih

theorem Value.unique {g : Nat} {v w : V} (hv : Value reads node g v) (hw : Value reads node g w) :
    v = w := by
  obtain ⟨k, hk⟩ := hv
  obtain ⟨l, hl⟩ := hw
  have hk' := evalAt_mono (Nat.le_max_left k l) hk
  have hl' := evalAt_mono (Nat.le_max_right k l) hl
  exact Option.some.inj (hk'.symm.trans hl')

/-- The values of a list of nodes, at one depth. -/
theorem exists_mapM_evalAt {ins : List Nat} {vs : List V}
    (h : List.Forall₂ (Value reads node) ins vs) :
    ∃ k, ins.mapM (evalAt reads node k) = some vs := by
  simp only [mapM_eq_some_iff]
  induction h with
  | nil => exact ⟨0, List.Forall₂.nil⟩
  | cons hv _ ih =>
      obtain ⟨k, hk⟩ := hv
      obtain ⟨l, hl⟩ := ih
      exact ⟨max k l, List.Forall₂.cons (evalAt_mono (Nat.le_max_left k l) hk)
        (hl.imp fun _ _ => evalAt_mono (Nat.le_max_right k l))⟩

/-- A node that reads values and succeeds has a value. -/
theorem Value.of_reads {g : Nat} {ins : List Nat} {vs : List V} {v : V}
    (hins : reads g = some ins) (hvs : List.Forall₂ (Value reads node) ins vs)
    (hnode : node g (vs.map (true, ·)) = some (true, v)) : Value reads node g v := by
  obtain ⟨k, hk⟩ := exists_mapM_evalAt hvs
  exact ⟨k + 1, evalAt_succ_eq_some.mpr ⟨ins, vs, hins, hk, hnode⟩⟩

/-! ## Success means a value

The cache holds values only, and a visit that succeeds returns one.  Nothing
is said about a visit that fails: it may have met a loop or an operand that
failed. -/

/-- The cache holds values. -/
def Sound (reads : Nat → Option (List Nat)) (node : Nat → List (Bool × V) → Option (Bool × V))
    (s : Scratch V) : Prop :=
  ∀ x v, s.calculated x = some v → Value reads node x v

/-- What a visit of `g` may return. -/
def Truthful (reads : Nat → Option (List Nat)) (node : Nat → List (Bool × V) → Option (Bool × V))
    (g : Nat) (r : Bool × V) : Prop :=
  r.1 = true → Value reads node g r.2

theorem Sound.store {s : Scratch V} {g : Nat} {v : V} (hs : Sound reads node s)
    (hv : Value reads node g v) : Sound reads node (s.store g v) := by
  intro x w hx
  by_cases hxg : x = g
  · subst hxg
    have hw : some v = some w := (s.store_self x v).symm.trans hx
    exact Option.some.inj hw ▸ hv
  · exact hs x w ((s.store_of_ne hxg v).symm.trans hx)

theorem visitList_sound {f : Nat → Scratch V → Option ((Bool × V) × Scratch V)}
    (hf : ∀ g s r s', Sound reads node s → f g s = some (r, s') →
      Truthful reads node g r ∧ Sound reads node s')
    {gs : List Nat} {s s' : Scratch V} {rs : List (Bool × V)} (hs : Sound reads node s)
    (h : visitList f gs s = some (rs, s')) :
    List.Forall₂ (Truthful reads node) gs rs ∧ Sound reads node s' := by
  induction gs generalizing s rs with
  | nil =>
      cases h
      exact ⟨List.Forall₂.nil, hs⟩
  | cons g gs ih =>
      obtain ⟨⟨r, s₁⟩, hr, h⟩ := Option.bind_eq_some_iff.mp h
      obtain ⟨⟨rs', s₂⟩, hrs, h⟩ := Option.bind_eq_some_iff.mp h
      cases h
      obtain ⟨htrue, hs₁⟩ := hf g s r s₁ hs hr
      obtain ⟨hall, hs'⟩ := ih hs₁ hrs
      exact ⟨List.Forall₂.cons htrue hall, hs'⟩

/-- Results that are all successes are the values of what was read. -/
theorem forall₂_value {ins : List Nat} {rs : List (Bool × V)}
    (h : List.Forall₂ (Truthful reads node) ins rs) (hrs : ∀ r ∈ rs, r.1 = true) :
    List.Forall₂ (Value reads node) ins (rs.map Prod.snd) ∧
      (rs.map Prod.snd).map (true, ·) = rs := by
  induction h with
  | nil => exact ⟨List.Forall₂.nil, rfl⟩
  | @cons g r ins rs hr _ ih =>
      obtain ⟨hvalues, hmap⟩ := ih fun r' hr' => hrs r' (List.mem_cons_of_mem r hr')
      have htrue : r.1 = true := hrs r List.mem_cons_self
      refine ⟨List.Forall₂.cons (hr htrue) hvalues, ?_⟩
      rw [List.map_cons, List.map_cons, hmap, ← htrue]

theorem visit_sound (hstrict : Strict reads node) {fuel g : Nat} {s s' : Scratch V} {r : Bool × V}
    (hs : Sound reads node s) (h : visit reads node d fuel g s = some (r, s')) :
    Truthful reads node g r ∧ Sound reads node s' := by
  induction fuel generalizing g s r s' with
  | zero => cases h
  | succ fuel ih =>
      rw [visit] at h
      split at h
      next v hv =>
        cases h
        exact ⟨fun _ => hs g v hv, hs⟩
      next =>
        split at h
        · cases h
          exact ⟨nofun, hs⟩
        · obtain ⟨ins, hins, h⟩ := Option.bind_eq_some_iff.mp h
          obtain ⟨⟨rs, s₁⟩, hrs, h⟩ := Option.bind_eq_some_iff.mp h
          obtain ⟨⟨success, v⟩, hnode, h⟩ := Option.bind_eq_some_iff.mp h
          cases h
          obtain ⟨htruth, hs₁⟩ := visitList_sound (s := s.mark g)
            (fun _ _ _ _ hs h => ih hs h) hs hrs
          have hvalue : success = true → Value reads node g v := by
            intro hsuccess
            subst hsuccess
            obtain ⟨hvalues, hmap⟩ := forall₂_value htruth
              (hstrict g ins rs v hins htruth.length_eq.symm hnode)
            exact Value.of_reads hins hvalues (hmap.symm ▸ hnode)
          refine ⟨hvalue, ?_⟩
          cases success with
          | true => exact hs₁.store (hvalue rfl)
          | false => exact hs₁

/-! ## A node that has a value is evaluated

The induction is on the depth at which the node has its value.  Its operands
have theirs one level down, so a pending node, which has none at this depth,
is not among them and the test for visited nodes does not fire. -/

theorem pending_mark {s : Scratch V} {g x : Nat} (h : (s.mark g).Pending x) :
    x = g ∨ s.Pending x := by
  obtain ⟨hvisited, hcalculated⟩ := h
  by_cases hx : x = g
  · exact Or.inl hx
  · exact Or.inr ⟨(s.mark_of_ne hx).symm.trans hvisited, hcalculated⟩

theorem pending_store {s : Scratch V} {g x : Nat} {v : V} (h : (s.store g v).Pending x) :
    x ≠ g ∧ s.Pending x := by
  obtain ⟨hvisited, hcalculated⟩ := h
  have hx : x ≠ g := by
    rintro rfl
    have hsome : some v = none := (s.store_self x v).symm.trans hcalculated
    cases hsome
  exact ⟨hx, hvisited, (s.store_of_ne hx v).symm.trans hcalculated⟩

/-- Nodes with values at depth `m`, from a scratch whose pending nodes have
none there. -/
theorem visitList_complete {f : Nat → Scratch V → Option ((Bool × V) × Scratch V)} {m : Nat}
    (hf : ∀ g s v, evalAt reads node m g = some v → Sound reads node s →
      (∀ x, s.Pending x → evalAt reads node m x = none) →
      ∃ s', f g s = some ((true, v), s') ∧ Sound reads node s' ∧ ∀ x, s'.Pending x → s.Pending x)
    {gs : List Nat} {vs : List V} {s : Scratch V} (hvs : gs.mapM (evalAt reads node m) = some vs)
    (hs : Sound reads node s) (hpending : ∀ x, s.Pending x → evalAt reads node m x = none) :
    ∃ s', visitList f gs s = some (vs.map (true, ·), s') ∧ Sound reads node s' ∧
      ∀ x, s'.Pending x → s.Pending x := by
  induction gs generalizing vs s with
  | nil =>
      cases hvs
      exact ⟨s, rfl, hs, fun _ hx => hx⟩
  | cons g gs ih =>
      rw [List.mapM_cons] at hvs
      obtain ⟨v, hv, hvs⟩ := Option.bind_eq_some_iff.mp hvs
      obtain ⟨ws, hws, hvs⟩ := Option.bind_eq_some_iff.mp hvs
      cases hvs
      obtain ⟨s₁, hr, hs₁, hpending₁⟩ := hf g s v hv hs hpending
      obtain ⟨s₂, hrs, hs₂, hpending₂⟩ :=
        ih hws hs₁ fun x hx => hpending x (hpending₁ x hx)
      refine ⟨s₂, ?_, hs₂, fun x hx => hpending₁ x (hpending₂ x hx)⟩
      exact visitList_cons hr hrs

theorem visit_complete {k fuel g : Nat} {v : V} {s : Scratch V} (hfuel : k ≤ fuel)
    (hv : evalAt reads node k g = some v) (hs : Sound reads node s)
    (hpending : ∀ x, s.Pending x → evalAt reads node k x = none) :
    ∃ s', visit reads node d fuel g s = some ((true, v), s') ∧ Sound reads node s' ∧
      ∀ x, s'.Pending x → s.Pending x := by
  induction k using Nat.strong_induction_on generalizing fuel g v s with
  | _ k ih =>
      -- the least depth at which `g` has a value
      by_cases hless : ∃ j < k, evalAt reads node j g = some v
      · obtain ⟨j, hjk, hj⟩ := hless
        refine ih j hjk (hjk.le.trans hfuel) hj hs fun x hx => ?_
        cases hx' : evalAt reads node j x with
        | none => rfl
        | some w => exact absurd (hpending x hx) (evalAt_mono hjk.le hx' ▸ nofun)
      · cases k with
        | zero => cases hv
        | succ m =>
            obtain ⟨ins, vs, hins, hvs, hnode⟩ := evalAt_succ_eq_some.mp hv
            obtain ⟨fuel, rfl⟩ : ∃ n, fuel = n + 1 := ⟨fuel - 1, by omega⟩
            cases hcalculated : s.calculated g with
            | some w =>
                have hw : w = v := (hs g w hcalculated).unique ⟨m + 1, hv⟩
                refine ⟨s, ?_, hs, fun _ hx => hx⟩
                rw [visit, hcalculated, hw]
            | none =>
                have hvisited : ¬ s.visited g = true := by
                  intro hvisited
                  have hnone := hpending g ⟨hvisited, hcalculated⟩
                  rw [hv] at hnone
                  cases hnone
                have hmark : ∀ x, (s.mark g).Pending x → evalAt reads node m x = none := by
                  intro x hx
                  cases hx' : evalAt reads node m x with
                  | none => rfl
                  | some w =>
                      rcases pending_mark hx with rfl | hx
                      · have hw : w = v := Value.unique ⟨m, hx'⟩ ⟨m + 1, hv⟩
                        exact absurd ⟨m, Nat.lt_succ_self m, hw ▸ hx'⟩ hless
                      · have hnone := hpending x hx
                        rw [evalAt_succ hx'] at hnone
                        cases hnone
                obtain ⟨s₁, hrs, hs₁, hpending₁⟩ :=
                  visitList_complete
                    (fun g s v hg hs hp => ih m (Nat.lt_succ_self m)
                      (Nat.le_of_succ_le_succ hfuel) hg hs hp)
                    hvs (s := s.mark g) hs hmark
                refine ⟨s₁.store g v, ?_, hs₁.store ⟨m + 1, hv⟩, fun x hx => ?_⟩
                · exact visit_fresh hcalculated hvisited hins hrs hnode
                · obtain ⟨hxg, hx⟩ := pending_store hx
                  exact (pending_mark (hpending₁ x hx)).resolve_left hxg

/-! ## The recursion ends

Every visit that recurses marks a node no visit had marked.  The number of
unmarked nodes is therefore enough fuel, and it only shrinks along a list of
operands. -/

/-- The first `N` nodes read each other, and no results are an error. -/
structure Closed (reads : Nat → Option (List Nat))
    (node : Nat → List (Bool × V) → Option (Bool × V)) (N : Nat) : Prop where
  within : ∀ g < N, ∃ ins, reads g = some ins ∧ ∀ x ∈ ins, x < N
  total : ∀ g < N, ∀ ins rs, reads g = some ins → rs.length = ins.length →
    ∃ r, node g rs = some r

namespace Scratch

/-- The nodes that may still be visited. -/
def unvisited (s : Scratch V) (N : Nat) : Finset Nat := {x ∈ Finset.range N | ¬ s.visited x = true}

/-- Nothing is unmarked. -/
def Grows (s s' : Scratch V) : Prop := ∀ x, s.visited x = true → s'.visited x = true

theorem Grows.card_le {s s' : Scratch V} (h : s.Grows s') (N : Nat) :
    (s'.unvisited N).card ≤ (s.unvisited N).card := by
  refine Finset.card_le_card fun x hx => ?_
  obtain ⟨hN, hnot⟩ := Finset.mem_filter.mp hx
  exact Finset.mem_filter.mpr ⟨hN, fun hvisited => hnot (h x hvisited)⟩

theorem mark_self (s : Scratch V) (g : Nat) : (s.mark g).visited g = true := by
  simp only [mark, Function.update_self]

theorem grows_mark (s : Scratch V) (g : Nat) : s.Grows (s.mark g) := by
  intro x hx
  by_cases hxg : x = g
  · exact hxg ▸ s.mark_self x
  · exact (s.mark_of_ne hxg).trans hx

theorem card_unvisited_mark {s : Scratch V} {g N : Nat} (hg : g < N)
    (hnot : ¬ s.visited g = true) :
    ((s.mark g).unvisited N).card < (s.unvisited N).card := by
  refine Finset.card_lt_card (Finset.ssubset_iff_subset_ne.mpr ⟨fun x hx => ?_, fun heq => ?_⟩)
  · obtain ⟨hN, hnot⟩ := Finset.mem_filter.mp hx
    exact Finset.mem_filter.mpr ⟨hN, fun hvisited => hnot (s.grows_mark g x hvisited)⟩
  · have hmem : g ∈ (s.mark g).unvisited N :=
      heq ▸ Finset.mem_filter.mpr ⟨Finset.mem_range.mpr hg, hnot⟩
    exact (Finset.mem_filter.mp hmem).2 (s.mark_self g)

end Scratch

theorem visitList_total {f : Nat → Scratch V → Option ((Bool × V) × Scratch V)} {N b : Nat}
    (hf : ∀ g < N, ∀ s, (s.unvisited N).card < b → ∃ r s', f g s = some (r, s') ∧ s.Grows s')
    {gs : List Nat} (hgs : ∀ g ∈ gs, g < N) {s : Scratch V} (hs : (s.unvisited N).card < b) :
    ∃ rs s', visitList f gs s = some (rs, s') ∧ rs.length = gs.length ∧ s.Grows s' := by
  induction gs generalizing s with
  | nil => exact ⟨[], s, rfl, rfl, fun _ hx => hx⟩
  | cons g gs ih =>
      obtain ⟨r, s₁, hr, hgrows⟩ := hf g (hgs g List.mem_cons_self) s hs
      obtain ⟨rs, s₂, hrs, hlen, hgrows'⟩ :=
        ih (fun x hx => hgs x (List.mem_cons_of_mem g hx)) ((hgrows.card_le N).trans_lt hs)
      exact ⟨r :: rs, s₂, visitList_cons hr hrs, congrArg (· + 1) hlen,
        fun x hx => hgrows' x (hgrows x hx)⟩

theorem visit_total {N fuel g : Nat} (hclosed : Closed reads node N) (hg : g < N) {s : Scratch V}
    (hfuel : (s.unvisited N).card < fuel) :
    ∃ r s', visit reads node d fuel g s = some (r, s') ∧ s.Grows s' := by
  induction fuel generalizing g s with
  | zero => exact absurd hfuel (Nat.not_lt_zero _)
  | succ fuel ih =>
      cases hcalculated : s.calculated g with
      | some v =>
          refine ⟨(true, v), s, ?_, fun _ hx => hx⟩
          rw [visit, hcalculated]
      | none =>
          by_cases hvisited : s.visited g = true
          · refine ⟨(false, d), s, ?_, fun _ hx => hx⟩
            rw [visit, hcalculated]
            exact if_pos hvisited
          · obtain ⟨ins, hins, hwithin⟩ := hclosed.within g hg
            have hless := Scratch.card_unvisited_mark hg hvisited
            obtain ⟨rs, s₁, hrs, hlen, hgrows⟩ :=
              visitList_total (b := fuel) (fun x hx s hs => ih hx hs) hwithin
                (s := s.mark g) (by omega)
            obtain ⟨⟨success, v⟩, hnode⟩ := hclosed.total g hg ins rs hins hlen
            refine ⟨(success, v), _, visit_fresh hcalculated hvisited hins hrs hnode, ?_⟩
            intro x hx
            have hx' := hgrows x (s.grows_mark g x hx)
            cases success with
            | true => exact hx'
            | false => exact hx'

/-- More fuel changes nothing. -/
theorem visitList_mono {f f' : Nat → Scratch V → Option ((Bool × V) × Scratch V)}
    (hf : ∀ g s r, f g s = some r → f' g s = some r) {gs : List Nat} {s : Scratch V}
    {r : List (Bool × V) × Scratch V} (h : visitList f gs s = some r) :
    visitList f' gs s = some r := by
  induction gs generalizing s r with
  | nil => exact h
  | cons g gs ih =>
      obtain ⟨⟨r, s₁⟩, hr, h⟩ := Option.bind_eq_some_iff.mp h
      obtain ⟨⟨rs, s₂⟩, hrs, h⟩ := Option.bind_eq_some_iff.mp h
      cases h
      exact visitList_cons (hf g s _ hr) (ih hrs)

theorem visit_mono {fuel fuel' g : Nat} {s : Scratch V} {r : (Bool × V) × Scratch V}
    (hle : fuel ≤ fuel') (h : visit reads node d fuel g s = some r) :
    visit reads node d fuel' g s = some r := by
  induction fuel generalizing fuel' g s r with
  | zero => cases h
  | succ fuel ih =>
      obtain ⟨fuel', rfl⟩ : ∃ n, fuel' = n + 1 := ⟨fuel' - 1, by omega⟩
      rw [visit] at h ⊢
      cases hcalculated : s.calculated g with
      | some v =>
          rw [hcalculated] at h
          exact h
      | none =>
          rw [hcalculated] at h
          by_cases hvisited : s.visited g = true
          · exact (if_pos hvisited).trans ((if_pos hvisited).symm.trans h)
          · have h' := (if_neg hvisited).symm.trans h
            obtain ⟨ins, hins, h'⟩ := Option.bind_eq_some_iff.mp h'
            obtain ⟨⟨rs, s₁⟩, hrs, h'⟩ := Option.bind_eq_some_iff.mp h'
            obtain ⟨⟨success, v⟩, hnode, h'⟩ := Option.bind_eq_some_iff.mp h'
            cases h'
            have hrs' := visitList_mono (fun _ _ _ => ih (Nat.le_of_succ_le_succ hle)) hrs
            have hfresh := visit_fresh hcalculated hvisited hins hrs' hnode
            rw [visit, hcalculated] at hfresh
            exact hfresh

/-! ## The outputs

A pass over the outputs resets the marks and keeps the cache.  The outputs
delivered are those of the values; a single output without a value makes the
whole pass fail. -/

/-- A node of a closed graph is evaluated from an array with no node visited. -/
theorem visit_reset {N fuel g : Nat} {v : V} {s : Scratch V} (hclosed : Closed reads node N)
    (hg : g < N) (hfuel : N < fuel) (hs : Sound reads node s) (hv : Value reads node g v) :
    ∃ s', visit reads node d fuel g s.reset = some ((true, v), s') ∧
      Sound reads node s' := by
  obtain ⟨k, hk⟩ := hv
  have hcard : (s.reset.unvisited N).card < fuel :=
    (Finset.card_filter_le _ _).trans_lt ((Finset.card_range N).symm ▸ hfuel)
  obtain ⟨r, s₁, hr, -⟩ := visit_total (d := d) hclosed hg hcard
  obtain ⟨s', hs', hsound, -⟩ := visit_complete (d := d) (Nat.le_max_left k fuel) hk
    (s := s.reset) hs (fun x hx => absurd hx.1 nofun)
  have hsame := (visit_mono (Nat.le_max_right k fuel) hr).symm.trans hs'
  exact ⟨s', hr.trans hsame, hsound⟩

theorem visitOutputs_cons {f : Nat → Scratch V → Option ((Bool × V) × Scratch V)} {g : Nat}
    {gs : List Nat} {s s₁ : Scratch V} {v : V} (hr : f g s.reset = some ((true, v), s₁)) :
    visitOutputs f (g :: gs) s = (visitOutputs f gs s₁).bind fun r =>
      some (if r.1 then (true, v :: r.2) else (false, [])) := by
  rw [visitOutputs, hr]
  rfl

theorem visitOutputs_values {N fuel : Nat} (hclosed : Closed reads node N) (hfuel : N < fuel)
    {gs : List Nat} {vs : List V} (hgs : ∀ g ∈ gs, g < N) {s : Scratch V}
    (hs : Sound reads node s) (hvs : List.Forall₂ (Value reads node) gs vs) :
    visitOutputs (visit reads node d fuel) gs s = some (true, vs) := by
  induction hvs generalizing s with
  | nil => rfl
  | cons hv _ ih =>
      obtain ⟨s₁, hr, hs₁⟩ :=
        visit_reset (d := d) hclosed (hgs _ List.mem_cons_self) hfuel hs hv
      rw [visitOutputs_cons hr, ih (fun x hx => hgs x (List.mem_cons_of_mem _ hx)) hs₁]
      rfl

theorem visitOutputs_refused {N fuel : Nat} (hclosed : Closed reads node N)
    (hstrict : Strict reads node) (hfuel : N < fuel) {gs : List Nat} (hgs : ∀ g ∈ gs, g < N)
    {s : Scratch V} (hs : Sound reads node s) (hnone : ∃ g ∈ gs, ∀ v, ¬ Value reads node g v) :
    visitOutputs (visit reads node d fuel) gs s = some (false, []) := by
  induction gs generalizing s with
  | nil =>
      obtain ⟨g, hg, -⟩ := hnone
      exact absurd hg List.not_mem_nil
  | cons g gs ih =>
      have hg : g < N := hgs g List.mem_cons_self
      by_cases hvalue : ∃ v, Value reads node g v
      · obtain ⟨v, hv⟩ := hvalue
        obtain ⟨s₁, hr, hs₁⟩ := visit_reset (d := d) hclosed hg hfuel hs hv
        obtain ⟨x, hx, hnone⟩ := hnone
        have hrest : ∃ x ∈ gs, ∀ v, ¬ Value reads node x v := by
          rcases List.mem_cons.mp hx with rfl | hx
          · exact absurd hv (hnone v)
          · exact ⟨x, hx, hnone⟩
        rw [visitOutputs_cons hr, ih (fun x hx => hgs x (List.mem_cons_of_mem _ hx)) hs₁ hrest]
        rfl
      · have hcard : (s.reset.unvisited N).card < fuel :=
          (Finset.card_filter_le _ _).trans_lt ((Finset.card_range N).symm ▸ hfuel)
        obtain ⟨⟨success, v⟩, s₁, hr, -⟩ := visit_total (d := d) hclosed hg hcard
        have hfail : success = false := by
          cases success with
          | false => rfl
          | true => exact absurd ⟨v, (visit_sound hstrict (s := s.reset) hs hr).1 rfl⟩ hvalue
        subst hfail
        rw [visitOutputs, hr]
        rfl

/-- All outputs are delivered, or one has no value. -/
theorem visitOutputs_spec {N fuel : Nat} (hclosed : Closed reads node N)
    (hstrict : Strict reads node) (hfuel : N < fuel) {gs : List Nat} (hgs : ∀ g ∈ gs, g < N)
    {s : Scratch V} (hs : Sound reads node s) :
    (∃ vs, List.Forall₂ (Value reads node) gs vs ∧
        visitOutputs (visit reads node d fuel) gs s = some (true, vs)) ∨
      ((∃ g ∈ gs, ∀ v, ¬ Value reads node g v) ∧
        visitOutputs (visit reads node d fuel) gs s = some (false, [])) := by
  by_cases hall : ∀ g ∈ gs, ∃ v, Value reads node g v
  · obtain ⟨vs, hvs⟩ := exists_forall₂ hall
    exact Or.inl ⟨vs, hvs, visitOutputs_values hclosed hfuel hgs hs hvs⟩
  · have hnone : ∃ g ∈ gs, ∀ v, ¬ Value reads node g v := by
      simpa only [not_forall, not_exists, exists_prop] using hall
    exact Or.inr ⟨hnone, visitOutputs_refused hclosed hstrict hfuel hgs hs hnone⟩

/-! ## Values and loops

Why a node of a finite graph can have no value, when successes of what is read
always make a success: there is a loop at the node or below it. -/

/-- `x` is read by `g`. -/
def ReadBy (reads : Nat → Option (List Nat)) (x g : Nat) : Prop :=
  ∃ ins, reads g = some ins ∧ x ∈ ins

/-- Everything read by a node with a value has one. -/
theorem Value.inversion {g : Nat} {v : V} (h : Value reads node g v) :
    ∃ ins vs, reads g = some ins ∧ List.Forall₂ (Value reads node) ins vs ∧
      node g (vs.map (true, ·)) = some (true, v) := by
  obtain ⟨k, hk⟩ := h
  cases k with
  | zero => cases hk
  | succ k =>
      obtain ⟨ins, vs, hins, hvs, hnode⟩ := evalAt_succ_eq_some.mp hk
      exact ⟨ins, vs, hins, (mapM_eq_some_iff.mp hvs).imp fun _ _ hv => ⟨k, hv⟩, hnode⟩

/-- Nothing below a node with a value is a loop. -/
theorem Value.acc {g : Nat} {v : V} (h : Value reads node g v) : Acc (ReadBy reads) g := by
  obtain ⟨k, hk⟩ := h
  induction k generalizing g v with
  | zero => cases hk
  | succ k ih =>
      obtain ⟨ins, vs, hins, hvs, -⟩ := evalAt_succ_eq_some.mp hk
      refine Acc.intro g fun x hx => ?_
      obtain ⟨ins', hins', hmem⟩ := hx
      obtain rfl : ins = ins' := Option.some.inj (hins.symm.trans hins')
      obtain ⟨w, hw⟩ := exists_of_forall₂ (mapM_eq_some_iff.mp hvs) x hmem
      exact ih hw

/-- Without loops below it a node has a value, when successes make a success. -/
theorem exists_value {N g : Nat} (hclosed : Closed reads node N)
    (hsuccess : ∀ g < N, ∀ ins (vs : List V), reads g = some ins → vs.length = ins.length →
      ∃ v, node g (vs.map (true, ·)) = some (true, v))
    (hacc : Acc (ReadBy reads) g) (hg : g < N) : ∃ v, Value reads node g v := by
  induction hacc with
  | intro g _ ih =>
      obtain ⟨ins, hins, hwithin⟩ := hclosed.within g hg
      obtain ⟨vs, hvs⟩ := exists_forall₂ fun x hx => ih x ⟨ins, hins, hx⟩ (hwithin x hx)
      obtain ⟨v, hv⟩ := hsuccess g hg ins vs hins hvs.length_eq.symm
      exact ⟨v, Value.of_reads hins hvs hv⟩

theorem Acc.not_self {r : Nat → Nat → Prop} {x : Nat} (h : Acc r x) : ¬ r x x := by
  induction h with
  | intro x _ ih => exact fun hxx => ih x hxx hxx

/-- In a finite graph what stops a node is a loop below it. -/
theorem acc_iff_no_loop {r : Nat → Nat → Prop} {N : Nat} (hr : ∀ x y, r x y → x < N) (g : Nat) :
    Acc r g ↔ ¬ ∃ x, Relation.ReflTransGen r x g ∧ Relation.TransGen r x x := by
  constructor
  · rintro hacc ⟨x, hreach, hloop⟩
    have hbelow : ∀ y, Relation.ReflTransGen r y g → Acc r y := by
      intro y hy
      induction hy using Relation.ReflTransGen.head_induction_on with
      | refl => exact hacc
      | head hstep _ ih => exact ih.inv hstep
    exact Acc.not_self (hbelow x hreach).transGen hloop
  · intro hno
    -- the nodes below `g` are finitely many, and no path leads from one to itself
    let below (x y : {x : Fin N // Relation.ReflTransGen r x.1 g}) : Prop :=
      Relation.TransGen r x.1.1 y.1.1
    have htrans : IsTrans _ below := ⟨fun _ _ _ h h' => h.trans h'⟩
    have hirrefl : Std.Irrefl below := ⟨fun x hx => hno ⟨x.1.1, x.2, hx⟩⟩
    have hwf : WellFounded below := Finite.wellFounded_of_trans_of_irrefl below
    have hacc : ∀ x : {x : Fin N // Relation.ReflTransGen r x.1 g}, Acc r x.1.1 := by
      intro x
      induction x using hwf.induction with
      | _ x ih =>
          refine Acc.intro _ fun y hy => ?_
          exact ih ⟨⟨y, hr y _ hy⟩, Relation.ReflTransGen.head hy x.2⟩ (Relation.TransGen.single hy)
    refine Acc.intro g fun y hy => ?_
    exact hacc ⟨⟨y, hr y g hy⟩, Relation.ReflTransGen.single hy⟩

/-! ## Two evaluations of one graph

A second evaluation may read other wires and compute on another type.  It
needs to follow the first one only on values, node by node. -/

/-- Values of one evaluation are carried to values of another when every node
carries them. -/
theorem Value.map {node' : Nat → List (Bool × W) → Option (Bool × W)}
    {reads' : Nat → Option (List Nat)} (f : Nat → V → W)
    (hnode : ∀ g ins vs v, reads g = some ins → List.Forall₂ (Value reads node) ins vs →
      node g (vs.map (true, ·)) = some (true, v) → reads' g = some ins ∧
      node' g ((List.zipWith f ins vs).map (true, ·)) = some (true, f g v))
    {g : Nat} {v : V} (h : Value reads node g v) : Value reads' node' g (f g v) := by
  have hacc := h.acc
  induction hacc generalizing v with
  | intro g _ ih =>
      obtain ⟨ins, vs, hins, hvs, hv⟩ := h.inversion
      obtain ⟨hins', hv'⟩ := hnode g ins vs v hins hvs hv
      refine Value.of_reads hins' ?_ hv'
      have hmem : ∀ x ∈ ins, ReadBy reads x g := fun x hx => ⟨ins, hins, hx⟩
      clear hins hins' hv hv'
      induction hvs with
      | nil => exact List.Forall₂.nil
      | @cons x w ins vs hw _ ihl =>
          exact List.Forall₂.cons (ih x (hmem x List.mem_cons_self) hw)
            (ihl fun y hy => hmem y (List.mem_cons_of_mem x hy))

end MemoDag

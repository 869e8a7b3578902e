/-
# `Lib.Loop` — counting loops over arrays

`forLoop n body s` is `for (i = 0; i < n; i++) s = body(i, s)`.  An array is
a function on indices and a write is `Function.update`.

    forLoop_induction    the invariant rule
    forLoop_chain        entry `i + 1` computed from entry `i`
    forLoop_scatter      entry `f i` set to `g i`, with `f` injective
    forLoop_blocks       entry `j * T + i` set to `g j i`, loop in loop
    forLoop_nested       loop in loop as one loop
    foldlM_range         the invariant rule for loops that can fail
    foldlM_range_none    a loop with a pass that always fails
    mapM_of_forall       a loop of calls that all succeed
    mapM_forall₂         the same, with what each call gives
    mapM_none            a loop with a call that fails
    total                a loop that accumulates
    forLoop_rotate       a loop that takes from the head of a queue and adds at its end
-/
import Mathlib.Algebra.BigOperators.Group.Finset.Basic
import Mathlib.Logic.Function.Basic

namespace Loop

variable {σ α : Type}

def forLoop : Nat → (Nat → σ → σ) → σ → σ
  | 0, _, s => s
  | n + 1, body, s => body n (forLoop n body s)

@[simp] theorem forLoop_zero (body : Nat → σ → σ) (s : σ) : forLoop 0 body s = s := rfl

theorem forLoop_succ (n : Nat) (body : Nat → σ → σ) (s : σ) :
    forLoop (n + 1) body s = body n (forLoop n body s) := rfl

theorem forLoop_congr {n : Nat} {body body' : Nat → σ → σ} {s : σ}
    (h : ∀ i < n, ∀ s, body i s = body' i s) : forLoop n body s = forLoop n body' s := by
  induction n with
  | zero => rfl
  | succ n ih =>
      rw [forLoop_succ, forLoop_succ, h n (Nat.lt_succ_self n),
        ih fun i hi => h i (Nat.lt_succ_of_lt hi)]

/-- What holds before the loop and survives every pass holds after it. -/
theorem forLoop_induction {n : Nat} {f : Nat → σ → σ} {s : σ} {P : Nat → σ → Prop}
    (h₀ : P 0 s) (hstep : ∀ i < n, ∀ s, P i s → P (i + 1) (f i s)) :
    P n (forLoop n f s) := by
  induction n with
  | zero => exact h₀
  | succ n ih =>
      exact hstep n (Nat.lt_succ_self n) _
        (ih fun i hi => hstep i (Nat.lt_succ_of_lt hi))

/-- Entry `i + 1` is computed from entry `i`: the array holds the orbit of its
entry 0. -/
theorem forLoop_chain {g : Nat → α → α} {v : Nat → α} {w : Nat → α}
    (h₀ : w 0 = v 0) (hw : ∀ i, w (i + 1) = g i (w i)) (n : Nat) :
    ∀ i ≤ n, forLoop n (fun j v => Function.update v (j + 1) (g j (v j))) v i = w i := by
  induction n with
  | zero =>
      intro i hi
      obtain rfl := Nat.le_zero.mp hi
      exact h₀.symm
  | succ n ih =>
      intro i hi
      rw [forLoop_succ]
      by_cases hin : i = n + 1
      · subst hin
        rw [Function.update_self, ih n (Nat.le_refl n), hw]
      · rw [Function.update_of_ne hin, ih i (by omega)]

/-- Entries the loop does not name keep their value. -/
theorem forLoop_scatter_of_ne {f : Nat → Nat} {g : Nat → α} {v : Nat → α} {n x : Nat}
    (h : ∀ i < n, x ≠ f i) :
    forLoop n (fun i v => Function.update v (f i) (g i)) v x = v x := by
  induction n with
  | zero => rfl
  | succ n ih =>
      rw [forLoop_succ, Function.update_of_ne (h n (Nat.lt_succ_self n)),
        ih fun i hi => h i (Nat.lt_succ_of_lt hi)]

/-- Entry `f i` ends with `g i` when no later pass overwrites it. -/
theorem forLoop_scatter {f : Nat → Nat} {g : Nat → α} {v : Nat → α} {n : Nat}
    (hf : ∀ i < n, ∀ j < n, f i = f j → i = j) {i : Nat} (hi : i < n) :
    forLoop n (fun i v => Function.update v (f i) (g i)) v (f i) = g i := by
  induction n with
  | zero => exact absurd hi (Nat.not_lt_zero i)
  | succ n ih =>
      rw [forLoop_succ]
      by_cases hin : i = n
      · subst hin
        exact Function.update_self _ _ _
      · have hne : f i ≠ f n := fun h => hin (hf i hi n (Nat.lt_succ_self n) h)
        rw [Function.update_of_ne hne]
        exact ih (fun i hi j hj => hf i (Nat.lt_succ_of_lt hi) j (Nat.lt_succ_of_lt hj)) (by omega)

/-- Entry `i` of block `j`. -/
theorem block_div {T i : Nat} (j : Nat) (hi : i < T) : (j * T + i) / T = j := by
  rw [Nat.mul_comm, Nat.mul_add_div (Nat.zero_lt_of_lt hi), Nat.div_eq_of_lt hi, Nat.add_zero]

theorem block_mod {T i : Nat} (j : Nat) (hi : i < T) : (j * T + i) % T = i := by
  rw [Nat.mul_comm, Nat.mul_add_mod, Nat.mod_eq_of_lt hi]

/-- Two nested loops are one loop over both counters. -/
theorem forLoop_nested (m n : Nat) (body : Nat → σ → σ) (s : σ) :
    forLoop m (fun i s => forLoop n (fun j s => body (i * n + j) s) s) s
      = forLoop (m * n) body s := by
  have hadd : ∀ k n s, forLoop n (fun j s => body (k + j) s) (forLoop k body s)
      = forLoop (k + n) body s := by
    intro k n s
    induction n with
    | zero => rfl
    | succ n ih => exact congrArg (body (k + n)) ih
  induction m with
  | zero =>
      rw [Nat.zero_mul]
      rfl
  | succ m ih => rw [forLoop_succ, ih, hadd, Nat.succ_mul]

/-- Two nested loops that fill an array block by block. -/
theorem forLoop_blocks {m T : Nat} {g : Nat → Nat → α} {v : Nat → α} {k : Nat} (hk : k < m * T) :
    forLoop m (fun j v => forLoop T (fun i v => Function.update v (j * T + i) (g j i)) v) v k
      = g (k / T) (k % T) := by
  induction m with
  | zero =>
      rw [Nat.zero_mul] at hk
      exact absurd hk (Nat.not_lt_zero k)
  | succ m ih =>
      rw [forLoop_succ]
      by_cases hlast : m * T ≤ k
      · obtain ⟨i, rfl⟩ := Nat.exists_eq_add_of_le hlast
        have hi : i < T := by
          rw [Nat.succ_mul] at hk
          omega
        rw [block_div m hi, block_mod m hi]
        exact forLoop_scatter (f := fun i => m * T + i) (g := g m)
          (fun _ _ _ _ h => Nat.add_left_cancel h) hi
      · have hne : ∀ i < T, k ≠ m * T + i := fun i _ heq => by omega
        rw [forLoop_scatter_of_ne hne]
        exact ih (Nat.lt_of_not_le hlast)

/-- A loop that can fail does not, if no pass that starts in the invariant
fails, and it keeps the invariant. -/
theorem foldlM_range {n : Nat} {body : σ → Nat → Option σ} {s : σ} {P : Nat → σ → Prop}
    (h₀ : P 0 s) (hstep : ∀ i < n, ∀ s, P i s → ∃ s', body s i = some s' ∧ P (i + 1) s') :
    ∃ s', (List.range n).foldlM body s = some s' ∧ P n s' := by
  induction n with
  | zero => exact ⟨s, rfl, h₀⟩
  | succ n ih =>
      obtain ⟨s', hs', hP⟩ := ih fun i hi => hstep i (Nat.lt_succ_of_lt hi)
      obtain ⟨s'', hs'', hP'⟩ := hstep n (Nat.lt_succ_self n) s' hP
      refine ⟨s'', ?_, hP'⟩
      rw [List.range_succ, List.foldlM_append, hs']
      simp [hs'']

/-- What the passes of a loop that has ended keep. -/
theorem foldlM_range_of_eq {n : Nat} {body : σ → Nat → Option σ} {s s' : σ} {P : Nat → σ → Prop}
    (h₀ : P 0 s) (hstep : ∀ i < n, ∀ s s', P i s → body s i = some s' → P (i + 1) s')
    (h : (List.range n).foldlM body s = some s') : P n s' := by
  induction n generalizing s' with
  | zero =>
      cases h
      exact h₀
  | succ n ih =>
      rw [List.range_succ, List.foldlM_append] at h
      obtain ⟨s₁, hs₁, h⟩ := Option.bind_eq_some_iff.mp h
      rw [List.foldlM_cons] at h
      obtain ⟨s₂, hs₂, h⟩ := Option.bind_eq_some_iff.mp h
      cases h
      exact hstep n (Nat.lt_succ_self n) s₁ s'
        (ih (fun i hi => hstep i (Nat.lt_succ_of_lt hi)) hs₁) hs₂

/-- A loop fails that comes to a pass which fails in every state. -/
theorem foldlM_range_none {n k : Nat} {body : σ → Nat → Option σ} (hk : k < n)
    (hnone : ∀ s, body s k = none) (s : σ) : (List.range n).foldlM body s = none := by
  rw [Option.eq_none_iff_forall_ne_some]
  intro s' hs'
  have hlast := foldlM_range_of_eq (P := fun i _ => i ≤ k) (Nat.zero_le k) (fun i _ s s' hi hs => by
    refine Nat.lt_of_le_of_ne hi ?_
    rintro rfl
    rw [hnone s] at hs
    cases hs) hs'
  omega

/-- A loop of calls none of which fails. -/
theorem mapM_of_forall {β : Type} {f : α → Option β} {g : α → β} {l : List α}
    (h : ∀ x ∈ l, f x = some (g x)) : l.mapM f = some (l.map g) := by
  induction l with
  | nil => rfl
  | cons x l ih =>
      rw [List.mapM_cons, h x List.mem_cons_self, ih fun y hy => h y (List.mem_cons_of_mem _ hy)]
      rfl

/-- What holds of each argument and its result. -/
theorem mapM_forall₂ {β : Type} {f : α → Option β} {R : α → β → Prop} {l : List α}
    (h : ∀ x ∈ l, ∃ y, f x = some y ∧ R x y) : ∃ ys, l.mapM f = some ys ∧ List.Forall₂ R l ys := by
  induction l with
  | nil => exact ⟨[], rfl, .nil⟩
  | cons x l ih =>
      obtain ⟨y, hy, hR⟩ := h x List.mem_cons_self
      obtain ⟨ys, hys, hall⟩ := ih fun z hz => h z (List.mem_cons_of_mem x hz)
      refine ⟨y :: ys, ?_, .cons hR hall⟩
      rw [List.mapM_cons, hy, hys]
      rfl

theorem mapM_none {β : Type} {f : α → Option β} {l : List α} {x : α} (hx : x ∈ l)
    (hnone : f x = none) : l.mapM f = none := by
  induction l with
  | nil => exact absurd hx List.not_mem_nil
  | cons y l ih =>
      rw [List.mapM_cons]
      rcases List.mem_cons.mp hx with rfl | hmem
      · rw [hnone]
        rfl
      · rw [ih hmem]
        cases f y <;> rfl

/-- A verdict that no pass gives back once it is false. -/
theorem foldlM_range_all {n : Nat} {body : Bool → Nat → Option Bool} {good : Nat → Prop}
    (hgood : ∀ i, body true i = some true ↔ good i) (hfalse : ∀ i, body false i ≠ some true) :
    (List.range n).foldlM body true = some true ↔ ∀ i < n, good i := by
  induction n with
  | zero => exact ⟨fun _ i hi => absurd hi (Nat.not_lt_zero i), fun _ => rfl⟩
  | succ n ih =>
      have hstep : (List.range (n + 1)).foldlM body true = some true ↔
          (List.range n).foldlM body true = some true ∧ body true n = some true := by
        rw [List.range_succ, List.foldlM_append]
        constructor
        · intro h
          obtain ⟨result, hresult, h⟩ := Option.bind_eq_some_iff.mp h
          rw [List.foldlM_cons] at h
          obtain ⟨last, hlast, h⟩ := Option.bind_eq_some_iff.mp h
          cases h
          cases result with
          | true => exact ⟨hresult, hlast⟩
          | false => exact absurd hlast (hfalse n)
        · rintro ⟨hbefore, hlast⟩
          rw [hbefore, Option.bind_eq_bind, Option.bind_some, List.foldlM_cons, hlast]
          rfl
      rw [hstep, ih, hgood n]
      constructor
      · rintro ⟨hbefore, hlast⟩ i hi
        rcases Nat.lt_succ_iff_lt_or_eq.mp hi with hlt | rfl
        · exact hbefore i hlt
        · exact hlast
      · exact fun h => ⟨fun i hi => h i (Nat.lt_succ_of_lt hi), h n (Nat.lt_succ_self n)⟩

/-! ## Accumulating

A loop whose only state is a running total.  With an operation that is its own
inverse the total hides every entry but one from whoever holds the total of
the others. -/

/-- `op` over `f 0, …, f (n - 1)`, from `e`. -/
def total (op : α → α → α) (e : α) (n : Nat) (f : Nat → α) : α :=
  forLoop n (fun i s => op s (f i)) e

section
variable {op : α → α → α} {e : α} {f : Nat → α}

theorem total_succ (n : Nat) : total op e (n + 1) f = op (total op e n f) (f n) := rfl

theorem total_congr {g : Nat → α} {n : Nat} (h : ∀ i < n, f i = g i) :
    total op e n f = total op e n g :=
  forLoop_congr fun i hi s => congrArg (op s) (h i hi)

theorem total_eq_sum {G : Type} [AddCommMonoid G] (f : Nat → G) (n : Nat) :
    total (fun x y => x + y) 0 n f = ∑ i ∈ Finset.range n, f i := by
  induction n with
  | zero => rfl
  | succ n ih => rw [total_succ, ih, Finset.sum_range_succ]

variable (hassoc : ∀ x y z, op (op x y) z = op x (op y z)) (hid : ∀ x, op x e = x)
include hassoc hid

theorem total_add (m n : Nat) :
    total op e (m + n) f = op (total op e m f) (total op e n fun i => f (m + i)) := by
  induction n with
  | zero => exact (hid _).symm
  | succ n ih => rw [← Nat.add_assoc, total_succ, ih, total_succ, hassoc]

variable (hcomm : ∀ x y, op x y = op y x) (hself : ∀ x, op x x = e)
include hcomm hself

/-- Where every element is its own inverse, the total less one entry leaves that
entry of the total. -/
theorem total_off {n k : Nat} (hk : k < n) :
    op (total op e n f) (total op e n fun i => if i = k then e else f i) = f k := by
  induction n with
  | zero => exact absurd hk (Nat.not_lt_zero k)
  | succ n ih =>
      rw [total_succ, total_succ]
      by_cases hkn : k = n
      · subst hkn
        have hrest : total op e k (fun i => if i = k then e else f i) = total op e k f :=
          total_congr fun i hi => if_neg (Nat.ne_of_lt hi)
        rw [hrest, if_pos rfl, hid, hcomm (total op e k f), hassoc, hself, hid]
      · have hcancel : ∀ x y z : α, op (op x z) (op y z) = op x y := by
          intro x y z
          rw [hassoc, hcomm y z, ← hassoc z, hself, hcomm e y, hid]
        rw [if_neg (Ne.symm hkn), hcancel]
        exact ih (by omega)

end

/-! ## Queues

A pass takes from the front and pushes at the end.  A loop as long as the
queue was therefore reads the old entries only and leaves the new ones, in
order. -/

/-- A loop over a queue, as long as the queue is, that replaces every entry by
what is pushed for it. -/
theorem forLoop_rotate {β : Type} {body : List α × β → List α × β} {push : α → List α}
    {add : β → α → β} (hbody : ∀ x q s, body (x :: q, s) = (q ++ push x, add s x)) (n : Nat)
    (g : Nat → α) (s : β) :
    forLoop n (fun _ s => body s) ((List.range n).map g, s)
      = ((List.range n).flatMap fun i => push (g i), forLoop n (fun i s => add s (g i)) s) := by
  -- what stands behind the first `n` entries comes to the front
  have hrest : ∀ n rest, forLoop n (fun _ s => body s) ((List.range n).map g ++ rest, s)
      = (rest ++ (List.range n).flatMap fun i => push (g i),
          forLoop n (fun i s => add s (g i)) s) := by
    intro n
    induction n with
    | zero => exact fun rest => by simp
    | succ n ih =>
        intro rest
        rw [forLoop_succ, List.range_succ, List.map_append, List.append_assoc, List.map_singleton,
          List.singleton_append, ih, List.cons_append, hbody, List.flatMap_append,
          List.append_assoc, List.flatMap_singleton]
        rfl
  have h := hrest n []
  rwa [List.append_nil, List.nil_append] at h

theorem forLoop_append (g : Nat → α) (n : Nat) :
    forLoop n (fun i out => out ++ [g i]) [] = (List.range n).map g := by
  induction n with
  | zero => rfl
  | succ n ih => rw [forLoop_succ, ih, List.range_succ, List.map_append, List.map_singleton]

/-- Entries are written one after the other, so the loop fills the array. -/
theorem forLoop_set (g : Nat → α) (e : α) (n : Nat) :
    ∀ k ≤ n, forLoop k (fun j l => l.set j (g j)) (List.replicate n e)
      = (List.range k).map g ++ List.replicate (n - k) e := by
  intro k hk
  induction k with
  | zero => rfl
  | succ k ih =>
      have hrest : n - k = (n - (k + 1)) + 1 := by omega
      rw [forLoop_succ, ih (Nat.le_of_lt hk), hrest, List.replicate_succ,
        List.set_append_right _ _ (by simp), List.length_map, List.length_range, Nat.sub_self,
        List.set_cons_zero, List.range_succ, List.map_append, List.append_assoc]
      rfl

theorem flatMap_pairs (h : Nat → α) (n : Nat) :
    (List.range n).flatMap (fun i => [h (2 * i), h (2 * i + 1)]) = (List.range (2 * n)).map h := by
  induction n with
  | zero => rfl
  | succ n ih =>
      rw [List.range_succ, List.flatMap_append, ih, List.flatMap_singleton, Nat.mul_succ,
        List.range_succ, List.range_succ, List.map_append, List.map_append, List.append_assoc]
      rfl

theorem modify_map_range (h : Nat → α) (n k : Nat) (f : α → α) :
    ((List.range n).map h).modify k f
      = (List.range n).map fun i => if i = k then f (h i) else h i := by
  refine List.ext_getElem (by simp) fun i hi _ => ?_
  simp [List.getElem_modify, eq_comm]

end Loop

/-
# `Lib.Rearrange` — a permutation of a grid in three stages

Every permutation of `ι × κ` first permutes within the rows, then within the
columns, then within the rows again.

    the graph       a vertex for every row, twice; an edge for every position,
                    from its row to the row it is moved to
    a matching      a regular bipartite multigraph has one, by Hall's theorem
                    (`Regular.exists_matching`)
    a colouring     taking matchings away one after the other colours the
                    edges with as many colours as a row has positions
                    (`Regular.exists_colouring`)
    three stages    the colour of an edge is the column its position crosses
                    over in (`exists_three_stages`)

`exists_three_stages_nat` says it of numbers below `P * Q`, with rows `k % Q`
and columns `k / Q`.
-/
import Mathlib.Algebra.BigOperators.Ring.Finset
import Mathlib.Algebra.Order.Interval.Set.Group
import Mathlib.Combinatorics.Hall.Basic
import Mathlib.Data.Fintype.EquivFin
import Mathlib.Data.Fintype.Prod

namespace Rearrange

open Finset

/-! ## Regular bipartite multigraphs

Edges are the elements of a finite set, with their two ends given by
functions, so parallel edges need no extra structure.  Hall's condition holds
by counting edges; removing matchings one by one colours the graph. -/

section
variable {ε ι : Type} [DecidableEq ι] {E M : Finset ε} {left right : ε → ι} {k : Nat}

/-- Every vertex on either side has `k` edges of `E`. -/
structure Regular (E : Finset ε) (left right : ε → ι) (k : Nat) : Prop where
  left : ∀ i, #{e ∈ E | left e = i} = k
  right : ∀ i, #{e ∈ E | right e = i} = k

theorem card_fibers {f : ε → ι} (h : ∀ i, #{e ∈ E | f e = i} = k) (s : Finset ι) :
    #{e ∈ E | f e ∈ s} = k * #s := by
  have hmaps : (({e ∈ E | f e ∈ s} : Finset ε) : Set ε).MapsTo f s :=
    fun e he => (mem_filter.mp he).2
  have hfiber : ∀ i ∈ s, #{e ∈ {e ∈ E | f e ∈ s} | f e = i} = k := by
    intro i hi
    rw [filter_filter, ← h i]
    refine congrArg card (filter_congr fun e _ => and_iff_right_of_imp ?_)
    rintro rfl
    exact hi
  rw [card_eq_sum_card_fiberwise hmaps, sum_const_nat hfiber, Nat.mul_comm]

/-- Two edges of a matching at one vertex are one edge. -/
theorem Regular.eq_of_left (h : Regular M left right 1) {e e' : ε} (he : e ∈ M) (he' : e' ∈ M)
    (heq : left e = left e') : e = e' :=
  card_le_one.mp (h.left (left e)).le e (mem_filter.mpr ⟨he, rfl⟩) e'
    (mem_filter.mpr ⟨he', heq.symm⟩)

theorem Regular.eq_of_right (h : Regular M left right 1) {e e' : ε} (he : e ∈ M) (he' : e' ∈ M)
    (heq : right e = right e') : e = e' :=
  card_le_one.mp (h.right (right e)).le e (mem_filter.mpr ⟨he, rfl⟩) e'
    (mem_filter.mpr ⟨he', heq.symm⟩)

variable [DecidableEq ε]

/-- Taking a matching away leaves every vertex one edge fewer. -/
theorem Regular.sdiff (h : Regular E left right (k + 1)) (hM : Regular M left right 1)
    (hsub : M ⊆ E) : Regular (E \ M) left right k := by
  have hcard : ∀ {f : ε → ι} {i : ι}, #{e ∈ E | f e = i} = k + 1 → #{e ∈ M | f e = i} = 1 →
      #{e ∈ E \ M | f e = i} = k := by
    intro f i hE hM
    have hsplit : ({e ∈ E \ M | f e = i} : Finset ε)
        = ({e ∈ E | f e = i} : Finset ε) \ {e ∈ M | f e = i} := by
      ext e
      simp only [mem_filter, mem_sdiff]
      tauto
    rw [hsplit, card_sdiff_of_subset (filter_subset_filter _ hsub), hE, hM, Nat.add_sub_cancel]
  exact ⟨fun i => hcard (h.left i) (hM.left i), fun i => hcard (h.right i) (hM.right i)⟩

variable [Fintype ι]

/-- A regular graph with edges has a matching of all vertices. -/
theorem Regular.exists_matching (h : Regular E left right (k + 1)) :
    ∃ M ⊆ E, Regular M left right 1 := by
  have hhall : ∀ s : Finset ι,
      #s ≤ #(s.biUnion fun i => {e ∈ E | left e = i}.image right) := by
    intro s
    -- the edges that leave `s` all arrive in its neighbourhood
    have hle : #{e ∈ E | left e ∈ s}
        ≤ #{e ∈ E | right e ∈ s.biUnion fun i => {e ∈ E | left e = i}.image right} := by
      refine card_le_card fun e he => ?_
      obtain ⟨heE, hes⟩ := mem_filter.mp he
      refine mem_filter.mpr ⟨heE, mem_biUnion.mpr ⟨left e, hes, ?_⟩⟩
      exact mem_image_of_mem right (mem_filter.mpr ⟨heE, rfl⟩)
    rw [card_fibers h.left, card_fibers h.right] at hle
    exact Nat.le_of_mul_le_mul_left hle (Nat.succ_pos k)
  obtain ⟨f, hf, hmem⟩ := (all_card_le_biUnion_card_iff_exists_injective _).mp hhall
  have hedge : ∀ i, ∃ e ∈ E, left e = i ∧ right e = f i := by
    intro i
    obtain ⟨e, he, heq⟩ := mem_image.mp (hmem i)
    obtain ⟨heE, hel⟩ := mem_filter.mp he
    exact ⟨e, heE, hel, heq⟩
  choose m hmE hmleft hmright using hedge
  have hsurj : Function.Surjective f := Finite.injective_iff_surjective.mp hf
  refine ⟨univ.image m, fun e he => ?_, ?_, ?_⟩
  · obtain ⟨i, _, rfl⟩ := mem_image.mp he
    exact hmE i
  · intro i
    refine card_eq_one.mpr ⟨m i, ?_⟩
    ext e
    rw [mem_filter, mem_image, mem_singleton]
    constructor
    · rintro ⟨⟨i', _, rfl⟩, hi'⟩
      rw [← hi', hmleft]
    · rintro rfl
      exact ⟨⟨i, mem_univ i, rfl⟩, hmleft i⟩
  · intro i
    obtain ⟨i', rfl⟩ := hsurj i
    refine card_eq_one.mpr ⟨m i', ?_⟩
    ext e
    rw [mem_filter, mem_image, mem_singleton]
    constructor
    · rintro ⟨⟨i'', _, rfl⟩, hi''⟩
      rw [hmright] at hi''
      rw [hf hi'']
    · rintro rfl
      exact ⟨⟨i', mem_univ i', rfl⟩, hmright i'⟩

/-- Edges that meet on one side have different colours. -/
structure Proper (E : Finset ε) (left right : ε → ι) (k : Nat) (colour : ε → Nat) : Prop where
  lt : ∀ e ∈ E, colour e < k
  left : ∀ e ∈ E, ∀ e' ∈ E, left e = left e' → colour e = colour e' → e = e'
  right : ∀ e ∈ E, ∀ e' ∈ E, right e = right e' → colour e = colour e' → e = e'

/-- One colour a matching. -/
theorem Regular.exists_colouring (h : Regular E left right k) :
    ∃ colour, Proper E left right k colour := by
  induction k generalizing E with
  | zero =>
      have hempty : ∀ e, e ∉ E := by
        intro e he
        have hmem : e ∈ ({e' ∈ E | left e' = left e} : Finset ε) := mem_filter.mpr ⟨he, rfl⟩
        exact card_ne_zero_of_mem hmem (h.left (left e))
      exact ⟨fun _ => 0, fun e he => absurd he (hempty e), fun e he => absurd he (hempty e),
        fun e he => absurd he (hempty e)⟩
  | succ k ih =>
      obtain ⟨M, hsub, hM⟩ := h.exists_matching
      obtain ⟨colour, hc⟩ := ih (h.sdiff hM hsub)
      have hold : ∀ e ∈ E, e ∉ M → e ∈ E \ M := fun e he hne => mem_sdiff.mpr ⟨he, hne⟩
      -- the matching gets the new colour, which no other edge has
      have hproper : ∀ f : ε → ι, (∀ e ∈ M, ∀ e' ∈ M, f e = f e' → e = e') →
          (∀ e ∈ E \ M, ∀ e' ∈ E \ M, f e = f e' → colour e = colour e' → e = e') →
          ∀ e ∈ E, ∀ e' ∈ E, f e = f e' →
            (if e ∈ M then k else colour e) = (if e' ∈ M then k else colour e') → e = e' := by
        intro f hnew hrest e he e' he' heq hcolour
        by_cases heM : e ∈ M
        · by_cases heM' : e' ∈ M
          · exact hnew e heM e' heM' heq
          · rw [if_pos heM, if_neg heM'] at hcolour
            exact absurd hcolour (hc.lt e' (hold e' he' heM')).ne'
        · by_cases heM' : e' ∈ M
          · rw [if_neg heM, if_pos heM'] at hcolour
            exact absurd hcolour (hc.lt e (hold e he heM)).ne
          · rw [if_neg heM, if_neg heM'] at hcolour
            exact hrest e (hold e he heM) e' (hold e' he' heM') heq hcolour
      refine ⟨fun e => if e ∈ M then k else colour e, fun e he => ?_, ?_, ?_⟩
      · split
        case isTrue => exact Nat.lt_succ_self k
        case isFalse hne => exact (hc.lt e (hold e he hne)).trans (Nat.lt_succ_self k)
      · exact hproper left (fun e he e' he' => hM.eq_of_left he he') hc.left
      · exact hproper right (fun e he e' he' => hM.eq_of_right he he') hc.right

end

/-! ## Three stages

An entry of the grid is an edge from the row it stands in to the row it goes
to.  A colour tells it in which column to change rows. -/

section
variable {ι κ : Type} [Fintype ι] [Fintype κ] [DecidableEq ι]

/-- The graph of a permutation of the grid: as many edges a row as columns. -/
theorem regular_perm (π : Equiv.Perm (ι × κ)) :
    Regular univ Prod.fst (fun e => (π e).1) (Fintype.card κ) := by
  have hrow : ∀ i : ι, #{e : ι × κ | e.1 = i} = Fintype.card κ := by
    intro i
    rw [← card_univ]
    refine (card_bij (fun c _ => (i, c)) ?_ ?_ ?_).symm
    · intro c _
      exact mem_filter.mpr ⟨mem_univ _, rfl⟩
    · intro c _ c' _ heq
      exact congrArg Prod.snd heq
    · rintro ⟨i', c⟩ he
      obtain rfl : i' = i := (mem_filter.mp he).2
      exact ⟨c, mem_univ c, rfl⟩
  refine ⟨hrow, fun i => ?_⟩
  rw [← hrow i]
  refine card_bij (fun e _ => π e) ?_ ?_ ?_
  · intro e he
    simpa using he
  · intro e _ e' _ heq
    exact π.injective heq
  · intro e he
    exact ⟨π.symm e, by simpa using he, π.apply_symm_apply e⟩

variable [DecidableEq κ]

/-- Rows, columns, rows. -/
theorem exists_three_stages (π : Equiv.Perm (ι × κ)) :
    ∃ (f h : ι → Equiv.Perm κ) (g : κ → Equiv.Perm ι),
      ∀ i c, π (i, c) = (g (f i c) i, h (g (f i c) i) (f i c)) := by
  obtain ⟨colour, hc⟩ := (regular_perm π).exists_colouring
  let column (e : ι × κ) : κ := (Fintype.equivFin κ).symm ⟨colour e, hc.lt e (mem_univ e)⟩
  have hcolour : ∀ {e e'}, column e = column e' → colour e = colour e' := fun heq =>
    congrArg Fin.val ((Fintype.equivFin κ).symm.injective heq)
  -- within a row the columns are all different
  have hf : ∀ i, Function.Injective fun c => column (i, c) := fun i c c' heq =>
    congrArg Prod.snd (hc.left (i, c) (mem_univ _) (i, c') (mem_univ _) rfl (hcolour heq))
  let f (i : ι) : Equiv.Perm κ := Equiv.ofBijective _ (Finite.injective_iff_bijective.mp (hf i))
  have hcolumn : ∀ i c, column (i, (f i).symm c) = c := fun i c => (f i).apply_symm_apply c
  -- within a column the target rows are all different
  have hg : ∀ c, Function.Injective fun i => (π (i, (f i).symm c)).1 := fun c i i' heq =>
    congrArg Prod.fst (hc.right _ (mem_univ _) _ (mem_univ _) heq
      (hcolour ((hcolumn i c).trans (hcolumn i' c).symm)))
  let g (c : κ) : Equiv.Perm ι := Equiv.ofBijective _ (Finite.injective_iff_bijective.mp (hg c))
  -- the position that arrives in row `i` over column `c`
  let source (i : ι) (c : κ) : ι × κ := ((g c).symm i, (f ((g c).symm i)).symm c)
  have hsource : ∀ i c, (π (source i c)).1 = i := fun i c => (g c).apply_symm_apply i
  have hh : ∀ i, Function.Injective fun c => (π (source i c)).2 := by
    intro i c c' heq
    have hsame : source i c = source i c' :=
      π.injective (Prod.ext ((hsource i c).trans (hsource i c').symm) heq)
    rw [← hcolumn ((g c).symm i) c, ← hcolumn ((g c').symm i) c']
    exact congrArg column hsame
  let h (i : ι) : Equiv.Perm κ := Equiv.ofBijective _ (Finite.injective_iff_bijective.mp (hh i))
  refine ⟨f, h, g, fun i c => ?_⟩
  have hrow : (π (i, c)).1 = g (f i c) i := by
    show _ = (π (i, (f i).symm (f i c))).1
    rw [(f i).symm_apply_apply]
  have hback : source (g (f i c) i) (f i c) = (i, c) := by
    show ((g (f i c)).symm (g (f i c) i), (f ((g (f i c)).symm (g (f i c) i))).symm (f i c))
      = (i, c)
    rw [(g (f i c)).symm_apply_apply, (f i).symm_apply_apply]
  refine Prod.ext hrow ?_
  show _ = (π (source (g (f i c) i) (f i c))).2
  rw [hback]

end

/-! ## Numbers

The same statement for positions `a * Q + j`, as a network of switches has
them. -/

/-- Permutations of initial segments, as functions on numbers. -/
def onNat {m n : Nat} (f : Fin m → Equiv.Perm (Fin n)) (j x : Nat) : Nat :=
  if h : j < m ∧ x < n then f ⟨j, h.1⟩ ⟨x, h.2⟩ else x

theorem onNat_eq {m n : Nat} (f : Fin m → Equiv.Perm (Fin n)) {j x : Nat} (hj : j < m)
    (hx : x < n) : onNat f j x = f ⟨j, hj⟩ ⟨x, hx⟩ := dif_pos ⟨hj, hx⟩

theorem bijOn_onNat {m n : Nat} (f : Fin m → Equiv.Perm (Fin n)) {j : Nat} (hj : j < m) :
    Set.BijOn (onNat f j) (Set.Iio n) (Set.Iio n) := by
  refine ⟨fun x hx => ?_, fun x hx y hy heq => ?_, fun y hy => ?_⟩
  · rw [Set.mem_Iio, onNat_eq f hj hx]
    exact Fin.isLt _
  · rw [onNat_eq f hj hx, onNat_eq f hj hy] at heq
    exact congrArg Fin.val ((f ⟨j, hj⟩).injective (Fin.ext heq))
  · refine ⟨(f ⟨j, hj⟩).symm ⟨y, hy⟩, Fin.isLt _, ?_⟩
    rw [onNat_eq f hj (Fin.isLt _)]
    exact congrArg Fin.val ((f ⟨j, hj⟩).apply_symm_apply ⟨y, hy⟩)

/-- A permutation of the numbers below `P * Q` moves `a * Q + j` within row
`j`, then within its column, then within its row. -/
theorem exists_three_stages_nat {P Q : Nat} {π : Nat → Nat}
    (hπ : Set.BijOn π (Set.Iio (P * Q)) (Set.Iio (P * Q))) :
    ∃ f h g : Nat → Nat → Nat,
      (∀ j < Q, Set.BijOn (f j) (Set.Iio P) (Set.Iio P)) ∧
      (∀ j < Q, Set.BijOn (h j) (Set.Iio P) (Set.Iio P)) ∧
      (∀ a < P, Set.BijOn (g a) (Set.Iio Q) (Set.Iio Q)) ∧
      ∀ a < P, ∀ j < Q, π (a * Q + j) = h (g (f j a) j) (f j a) * Q + g (f j a) j := by
  have hplace : ∀ {a j : Nat}, a < P → j < Q → a * Q + j < P * Q := by
    intro a j ha hj
    calc a * Q + j < (a + 1) * Q := by
          rw [Nat.succ_mul]
          omega
      _ ≤ P * Q := Nat.mul_le_mul_right Q ha
  have hmove : ∀ e : Fin Q × Fin P, π (e.2 * Q + e.1) < P * Q := fun e =>
    hπ.mapsTo (hplace e.2.isLt e.1.isLt)
  let move (e : Fin Q × Fin P) : Fin Q × Fin P :=
    (⟨π (e.2 * Q + e.1) % Q, Nat.mod_lt _ e.1.pos⟩,
      ⟨π (e.2 * Q + e.1) / Q, Nat.div_lt_of_lt_mul (Nat.mul_comm P Q ▸ hmove e)⟩)
  have hinj : Function.Injective move := by
    intro e e' heq
    have hmod := congrArg (fun e => e.1.val) heq
    have hdiv := congrArg (fun e => e.2.val) heq
    have hval : π (e.2 * Q + e.1) = π (e'.2 * Q + e'.1) := by
      rw [← Nat.div_add_mod (π (e.2 * Q + e.1)) Q, ← Nat.div_add_mod (π (e'.2 * Q + e'.1)) Q]
      exact congrArg₂ (fun x y => Q * x + y) hdiv hmod
    have hsame := hπ.injOn (hplace e.2.isLt e.1.isLt) (hplace e'.2.isLt e'.1.isLt) hval
    have hrow : e.1.val = e'.1.val := by
      have h := congrArg (· % Q) hsame
      simpa only [Nat.mul_add_mod', Nat.mod_eq_of_lt e.1.isLt, Nat.mod_eq_of_lt e'.1.isLt] using h
    rw [hrow] at hsame
    exact Prod.ext (Fin.ext hrow)
      (Fin.ext (Nat.eq_of_mul_eq_mul_right e.1.pos (Nat.add_right_cancel hsame)))
  obtain ⟨f, h, g, hstages⟩ :=
    exists_three_stages (Equiv.ofBijective move (Finite.injective_iff_bijective.mp hinj))
  refine ⟨onNat f, onNat h, onNat g, fun j => bijOn_onNat f, fun j => bijOn_onNat h,
    fun a => bijOn_onNat g, fun a ha j hj => ?_⟩
  have hstage : move (⟨j, hj⟩, ⟨a, ha⟩) = _ := hstages ⟨j, hj⟩ ⟨a, ha⟩
  have hmod := congrArg (fun e => e.1.val) hstage
  have hdiv := congrArg (fun e => e.2.val) hstage
  rw [onNat_eq f hj ha, onNat_eq g (Fin.isLt _) hj, onNat_eq h (Fin.isLt _) (Fin.isLt _),
    ← Nat.div_add_mod (π (a * Q + j)) Q, Nat.mul_comm]
  exact congrArg₂ (fun x y => x * Q + y) hdiv hmod

end Rearrange

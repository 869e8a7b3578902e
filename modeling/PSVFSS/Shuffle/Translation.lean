/-
# `Shuffle.Translation` — share translation out of punctured vectors

ALICE expands `T` trees, the rows of a matrix, and keeps its column sums `a`
and row sums `b`.  BOB has her matrix but for entry `perm i` of row `i`.  In
`delta i`, his row sum less his column sum, the entries he lacks are where row
`i` meets column `perm i`: they would cancel, so he gets `b i - a (perm i)`.

    bobResult_v        BOB's matrix
    bobResult_delta    the difference
    translated_calls   all calls of `Offline`
-/
import Mathlib.Algebra.BigOperators.Group.Finset.Basic
import PSVFSS.Shuffle.Offline
import PSVFSS.Shuffle.Opv

namespace PSVFSS

open Loop Network PathTree Set TwoParty

/-! ## `ShareTranslation`

One punctured vector for every row, then the sums.  ALICE has no index to
hide, and passes -1. -/

/-- What the branch for ALICE leaves: her matrix, row by row, and her outputs. -/
structure AliceVectors where
  v : Nat → Nat → Block
  a : Nat → Block
  b : Nat → Block

structure BobVectors where
  v : Nat → Nat → Block
  delta : Nat → Block

/-- Column sums and row sums. -/
def aliceVectors (length : Nat) (v : Nat → Nat → Block) : AliceVectors where
  v := v
  a := fun i => forLoop length (fun j a => a + v j i) zeroBlock
  b := fun i => forLoop length (fun j b => b + v i j) zeroBlock

def bobVectors (length : Nat) (perm : Nat → Nat) (v : Nat → Nat → Block) : BobVectors where
  v := v
  delta := fun i => forLoop length (fun j delta => delta + (v i j - v j (perm i))) zeroBlock

section
variable (DLenPRG : Block → Bool → Block) (ote : Ote)

/-- One row; `x` is -1 at ALICE, who does not look at it. -/
def translationRow (length : Nat) (party : Party) (x : Nat → Nat) (root : Nat → Block)
    (v : Nat → Nat → Block) (i : Nat) : Proc Nat OtStrings (Nat → Nat → Block) := do
  let seeds ← oblivSetup DLenPRG ote i length (x i) party (root i)
  return Function.update v i (expand DLenPRG length (x i) seeds party (v i))

def shareTranslationAlice (length : Nat) (root : Nat → Block) :
    Proc Nat OtStrings AliceVectors := do
  let v ← (List.range length).foldlM
    (translationRow DLenPRG ote length .alice (fun _ => 0xFFFFFFFFFFFFFFFF) root)
    fun _ _ => zeroBlock
  return aliceVectors length v

def shareTranslationBob (length : Nat) (perm : Nat → Nat) : Proc Nat OtStrings BobVectors := do
  let v ← (List.range length).foldlM
    (translationRow DLenPRG ote length .bob perm fun _ => zeroBlock)
    fun _ _ => zeroBlock
  return bobVectors length perm v

end

/-! ## The rows

A row is one call on both sides.  The loop rule leaves the first `n` rows in
the matrices after `n` calls. -/

section
variable (DLenPRG : Block → Bool → Block) (ote : Ote) (k : Nat) (perm : Nat → Nat)
  (root : Nat → Block)

/-- What ALICE writes into row `i`, and BOB. -/
def aliceRow (i : Nat) : (Nat → Block) → Nat → Block :=
  expand DLenPRG (2 ^ k) 0xFFFFFFFFFFFFFFFF (fun _ => root i) .alice

def bobRow (i : Nat) : (Nat → Block) → Nat → Block :=
  expand DLenPRG (2 ^ k) (perm i)
    (ote.recv (prepareCorrelation DLenPRG k 0 (root i) fun _ _ => zeroBlock)
      (chosenBits k (perm i)) k) .bob

/-- One row at both. -/
def rowBoth (s : (Nat → Nat → Block) × (Nat → Nat → Block)) (i : Nat) :
    (Nat → Nat → Block) × (Nat → Nat → Block) :=
  (Function.update s.1 i (aliceRow DLenPRG k root i (s.1 i)),
    Function.update s.2 i (bobRow DLenPRG ote k perm root i (s.2 i)))

theorem paired_translationRow (s : (Nat → Nat → Block) × (Nat → Nat → Block)) (i : Nat) :
    Paired 1
      (translationRow DLenPRG ote (2 ^ k) .alice (fun _ => 0xFFFFFFFFFFFFFFFF) root s.1 i)
      (translationRow DLenPRG ote (2 ^ k) .bob perm (fun _ => zeroBlock) s.2 i)
      (rowBoth DLenPRG ote k perm root s i).1 (rowBoth DLenPRG ote k perm root s i).2 := by
  simp only [translationRow, oblivSetup, Nat.log2_two_pow]
  exact .leftToRight (.ret _ _)

/-- The matrix after `n` rows. -/
def firstRows (row : Nat → (Nat → Block) → Nat → Block) (n i : Nat) : Nat → Block :=
  if i < n then row i fun _ => zeroBlock else fun _ => zeroBlock

theorem firstRows_succ (row : Nat → (Nat → Block) → Nat → Block) (n : Nat) :
    Function.update (firstRows row n) n (row n (firstRows row n n)) = firstRows row (n + 1) := by
  have hlast : firstRows row n n = fun _ => zeroBlock := if_neg (Nat.lt_irrefl n)
  funext i
  by_cases hi : i = n
  · subst hi
    rw [Function.update_self, hlast, firstRows, if_pos (Nat.lt_succ_self i)]
  · rw [Function.update_of_ne hi, firstRows, firstRows]
    congr 1
    rw [eq_iff_iff]
    omega

theorem foldl_rowBoth (n : Nat) :
    (List.range n).foldl (rowBoth DLenPRG ote k perm root)
        (fun _ _ => zeroBlock, fun _ _ => zeroBlock)
      = (firstRows (aliceRow DLenPRG k root) n, firstRows (bobRow DLenPRG ote k perm root) n) := by
  induction n with
  | zero => rfl
  | succ n ih =>
      rw [List.range_succ, List.foldl_append, ih, ← firstRows_succ, ← firstRows_succ]
      rfl

/-- One transfer a row. -/
theorem paired_rows (n : Nat) :
    Paired n
      ((List.range n).foldlM
        (translationRow DLenPRG ote (2 ^ k) .alice (fun _ => 0xFFFFFFFFFFFFFFFF) root)
        fun _ _ => zeroBlock)
      ((List.range n).foldlM (translationRow DLenPRG ote (2 ^ k) .bob perm fun _ => zeroBlock)
        fun _ _ => zeroBlock)
      (firstRows (aliceRow DLenPRG k root) n) (firstRows (bobRow DLenPRG ote k perm root) n) := by
  have hloop := Paired.foldlM (paired_translationRow DLenPRG ote k perm root) (List.range n)
    (fun _ _ => zeroBlock, fun _ _ => zeroBlock)
  rw [List.length_range, foldl_rowBoth, Nat.one_mul] at hloop
  exact hloop

theorem aliceRow_eq (hk : 1 ≤ k) (i : Nat) (v : Nat → Block) {j : Nat} (hj : j < 2 ^ k) :
    aliceRow DLenPRG k root i v j = seedNode DLenPRG (root i) k j := by
  obtain ⟨depth, rfl⟩ := Nat.exists_eq_add_of_le' hk
  have h := (simpleExpand_spec DLenPRG (root i) depth 0 0 0 v).1 j hj
  rw [Nat.zero_add, Nat.zero_add, Nat.zero_mul, Nat.zero_add] at h
  simp only [aliceRow, expand, Nat.log2_two_pow, Nat.add_sub_cancel]
  exact h

theorem bobRow_eq (hote : ote.Correct) (hk : 1 ≤ k) {i : Nat} (hperm : perm i < 2 ^ k)
    (hnode : ∀ L, 1 ≤ L → L < k → ∀ o < 2 ^ L, seedNode DLenPRG (root i) L o ≠ zeroBlock)
    (v : Nat → Block) {j : Nat} (hj : j < 2 ^ k) :
    bobRow DLenPRG ote k perm root i v j
      = if j = perm i then zeroBlock else seedNode DLenPRG (root i) k j := by
  simp only [bobRow, expand, Nat.log2_two_pow]
  refine punctureExpand_spec hk hperm (fun d hd => ?_) hnode v hj
  have h := prepareCorrelation_spec DLenPRG (root i) k 0 0 (fun _ _ => zeroBlock)
    (chosenBits k (perm i) d) d hd
  rw [Nat.zero_add, zero_xorBlock] at h
  rw [hote _ _ _ d hd]
  exact h

end

/-! ## The sums

An entry that stands in both the row and the column is added once and
subtracted once, whether BOB has it or a zero in its place. -/

theorem sum_off {n k : Nat} (hk : k < n) (f : Nat → Block) :
    ∑ j ∈ Finset.range n, (if j = k then zeroBlock else f j)
      = ∑ j ∈ Finset.range n, f j - f k := by
  rw [← Finset.sum_erase_eq_sub (Finset.mem_range.mpr hk), ← Finset.filter_ne', Finset.sum_filter]
  exact Finset.sum_congr rfl fun j _ => by simp only [ne_eq, ite_not]; rfl

/-- Row `i` and column `perm i` of BOB's matrix lack one entry each, and it is
the same entry: no other row lacks one in that column. -/
theorem delta_eq {n : Nat} {perm : Nat → Nat} (hperm : BijOn perm (Iio n) (Iio n))
    {v v' : Nat → Nat → Block}
    (hv : ∀ i < n, ∀ j < n, v' i j = if j = perm i then zeroBlock else v i j) {i : Nat}
    (hi : i < n) :
    forLoop n (fun j delta => delta + (v' i j - v' j (perm i))) zeroBlock
      = forLoop n (fun j b => b + v i j) zeroBlock
        - forLoop n (fun j a => a + v j (perm i)) zeroBlock := by
  have hpi : perm i < n := hperm.mapsTo hi
  have hrow : ∑ j ∈ Finset.range n, v' i j = ∑ j ∈ Finset.range n, v i j - v i (perm i) := by
    rw [← sum_off hpi]
    exact Finset.sum_congr rfl fun j hj => hv i hi j (Finset.mem_range.mp hj)
  have hcolumn : ∑ j ∈ Finset.range n, v' j (perm i)
      = ∑ j ∈ Finset.range n, v j (perm i) - v i (perm i) := by
    rw [← sum_off hi fun j => v j (perm i)]
    refine Finset.sum_congr rfl fun j hj => ?_
    have hj := Finset.mem_range.mp hj
    rw [hv j hj _ hpi]
    by_cases hji : j = i
    · rw [if_pos hji, if_pos (hji ▸ rfl)]
    · rw [if_neg hji, if_neg fun h => hji (hperm.injOn hj hi h.symm)]
  calc forLoop n (fun j delta => delta + (v' i j - v' j (perm i))) zeroBlock
      = ∑ j ∈ Finset.range n, (v' i j - v' j (perm i)) := total_eq_sum _ n
    _ = ∑ j ∈ Finset.range n, v i j - ∑ j ∈ Finset.range n, v j (perm i) := by
        rw [Finset.sum_sub_distrib, hrow, hcolumn, sub_sub_sub_cancel_right]
    _ = _ := congrArg₂ (fun x y => x - y) (total_eq_sum _ n).symm (total_eq_sum _ n).symm

/-! ## `ShareTranslation` at both -/

section
variable (DLenPRG : Block → Bool → Block) (ote : Ote) (k : Nat) (perm : Nat → Nat)
  (root : Nat → Block)

/-- What the two are left with. -/
def aliceResult : AliceVectors :=
  aliceVectors (2 ^ k) (firstRows (aliceRow DLenPRG k root) (2 ^ k))

def bobResult : BobVectors :=
  bobVectors (2 ^ k) perm (firstRows (bobRow DLenPRG ote k perm root) (2 ^ k))

theorem paired_shareTranslation :
    Paired (2 ^ k) (shareTranslationAlice DLenPRG ote (2 ^ k) root)
      (shareTranslationBob DLenPRG ote (2 ^ k) perm) (aliceResult DLenPRG k root)
      (bobResult DLenPRG ote k perm root) :=
  (paired_rows DLenPRG ote k perm root (2 ^ k)).bind (m := 0) (.ret _ _)

variable (hote : ote.Correct) (hk : 1 ≤ k) (hperm : BijOn perm (Iio (2 ^ k)) (Iio (2 ^ k)))
  (hnode : ∀ i < 2 ^ k, ∀ L, 1 ≤ L → L < k → ∀ o < 2 ^ L,
    seedNode DLenPRG (root i) L o ≠ zeroBlock)
include hote hk hperm hnode

omit hote hperm hnode in
theorem aliceResult_v {i j : Nat} (hi : i < 2 ^ k) (hj : j < 2 ^ k) :
    (aliceResult DLenPRG k root).v i j = seedNode DLenPRG (root i) k j := by
  have hrow : firstRows (aliceRow DLenPRG k root) (2 ^ k) i
      = aliceRow DLenPRG k root i fun _ => zeroBlock := if_pos hi
  show firstRows (aliceRow DLenPRG k root) (2 ^ k) i j = _
  rw [hrow, aliceRow_eq DLenPRG k root hk i _ hj]

theorem bobResult_v {i j : Nat} (hi : i < 2 ^ k) (hj : j < 2 ^ k) :
    (bobResult DLenPRG ote k perm root).v i j
      = if j = perm i then zeroBlock else (aliceResult DLenPRG k root).v i j := by
  have hrow : firstRows (bobRow DLenPRG ote k perm root) (2 ^ k) i
      = bobRow DLenPRG ote k perm root i fun _ => zeroBlock := if_pos hi
  show firstRows (bobRow DLenPRG ote k perm root) (2 ^ k) i j = _
  rw [aliceResult_v DLenPRG k root hk hi hj, hrow,
    bobRow_eq DLenPRG ote k perm root hote hk (hperm.mapsTo hi) (hnode i hi) _ hj]

theorem bobResult_delta {i : Nat} (hi : i < 2 ^ k) :
    (bobResult DLenPRG ote k perm root).delta i
      = (aliceResult DLenPRG k root).b i - (aliceResult DLenPRG k root).a (perm i) :=
  delta_eq hperm (fun _ hi _ hj => bobResult_v DLenPRG ote k perm root hote hk hperm hnode hi hj) hi

end

/-- Share translation is correct, whatever the generators: if the transfer
delivers the chosen strings and no inner node is the placeholder, both end with
the transfers matched, ALICE's row `i` is the leaves of her tree, BOB's row `i`
is ALICE's but for the entry `perm i`, and `delta` translates `a` into `b`. -/
theorem shareTranslation_correct (DLenPRG : Block → Bool → Block) (ote : Ote) (hote : ote.Correct)
    (k : Nat) (hk : 1 ≤ k) (perm : Nat → Nat) (hperm : BijOn perm (Iio (2 ^ k)) (Iio (2 ^ k)))
    (root : Nat → Block)
    (hnode : ∀ i < 2 ^ k, ∀ L, 1 ≤ L → L < k → ∀ o < 2 ^ L,
      seedNode DLenPRG (root i) L o ≠ zeroBlock) :
    ∃ rA rB,
      Completes (shareTranslationAlice DLenPRG ote (2 ^ k) root)
        (shareTranslationBob DLenPRG ote (2 ^ k) perm) rA rB ∧
      (∀ i < 2 ^ k, ∀ j < 2 ^ k, rA.v i j = seedNode DLenPRG (root i) k j) ∧
      (∀ i < 2 ^ k, (∀ j < 2 ^ k, j ≠ perm i → rB.v i j = rA.v i j) ∧
        rB.v i (perm i) = zeroBlock) ∧
      ∀ i < 2 ^ k, rB.delta i = rA.b i - rA.a (perm i) := by
  have hv : ∀ i < 2 ^ k, ∀ j < 2 ^ k, (bobResult DLenPRG ote k perm root).v i j
      = if j = perm i then zeroBlock else (aliceResult DLenPRG k root).v i j := fun _ hi _ hj =>
    bobResult_v DLenPRG ote k perm root hote hk hperm hnode hi hj
  refine ⟨_, _, (paired_shareTranslation DLenPRG ote k perm root).completes,
    fun i hi j hj => aliceResult_v DLenPRG k root hk hi hj,
    fun i hi => ⟨fun j hj hne => ?_, ?_⟩, fun i hi => ?_⟩
  · exact (hv i hi j hj).trans (if_neg hne)
  · exact (hv i hi _ (hperm.mapsTo hi)).trans (if_pos rfl)
  · exact bobResult_delta DLenPRG ote k perm root hote hk hperm hnode hi

/-- Four positions reversed, every seed with the children 1 and 2. -/
theorem shareTranslation_correct_sample :
    ∃ rA rB,
      Completes
        (shareTranslationAlice (fun _ r => if r then (2, 0) else (1, 0))
          ⟨fun str chosen _ i => str (chosen i) i⟩ (2 ^ 2) fun i => (BitVec.ofNat 64 i, 7))
        (shareTranslationBob (fun _ r => if r then (2, 0) else (1, 0))
          ⟨fun str chosen _ i => str (chosen i) i⟩ (2 ^ 2) fun i => 3 - i) rA rB ∧
      (∀ i < 2 ^ 2, ∀ j < 2 ^ 2, rA.v i j = seedNode (fun _ r => if r then (2, 0) else (1, 0))
        (BitVec.ofNat 64 i, 7) 2 j) ∧
      (∀ i < 2 ^ 2, (∀ j < 2 ^ 2, j ≠ 3 - i → rB.v i j = rA.v i j) ∧ rB.v i (3 - i) = zeroBlock) ∧
      ∀ i < 2 ^ 2, rB.delta i = rA.b i - rA.a (3 - i) := by
  refine shareTranslation_correct _ _ (fun _ _ _ _ _ => rfl) 2 (by decide) (fun i => 3 - i)
    (bijOn_reverse 3) _ ?_
  intro i _ L hL _ o _
  obtain ⟨L, rfl⟩ := Nat.exists_eq_add_of_le' hL
  show (if decide (o % 2 = 1) = true then ((2, 0) : Block) else (1, 0)) ≠ zeroBlock
  split <;> decide

/-! ## The calls of `Offline`

One call for every block of every layer.  Their vectors are laid side by side,
which is how `Offline` finds them. -/

/-- The vectors of all calls, one after the other. -/
def placed (T : Nat) (u : Nat → Nat → Block) (x : Nat) : Block := u (x / T) (x % T)

/-- `Offline` calls `ShareTranslation` for every sub-permutation of its table.
The vectors the calls leave, in the places `LocateVector` gives them, are the
share translations the shuffle needs. -/
theorem translated_calls (DLenPRG : Block → Bool → Block) (ote : Ote) (hote : ote.Correct)
    {d n t : Nat} (ht : 1 ≤ t) {perms : Nat → Nat}
    (hperms : TableOfPerms d (2 ^ n) (2 ^ t) perms) (root : Nat → Nat → Block)
    (hnode : ∀ c < d * (2 ^ n / 2 ^ t), ∀ i < 2 ^ t, ∀ L, 1 ≤ L → L < t → ∀ o < 2 ^ L,
      seedNode DLenPRG (root c i) L o ≠ zeroBlock) :
    ∃ (rA : Nat → AliceVectors) (rB : Nat → BobVectors),
      (∀ c, Completes (shareTranslationAlice DLenPRG ote (2 ^ t) (root c))
        (shareTranslationBob DLenPRG ote (2 ^ t) fun r => perms (c * 2 ^ t + r)) (rA c) (rB c)) ∧
      Translated d (2 ^ n) (2 ^ t) perms (placed (2 ^ t) fun c => (rB c).delta)
        (placed (2 ^ t) fun c => (rA c).a) (placed (2 ^ t) fun c => (rA c).b) := by
  refine ⟨_, _, fun c => (paired_shareTranslation DLenPRG ote t _ (root c)).completes, ?_⟩
  intro l hl j hj r hr
  have hcall : l * (2 ^ n / 2 ^ t) + j < d * (2 ^ n / 2 ^ t) := by
    calc l * (2 ^ n / 2 ^ t) + j < (l + 1) * (2 ^ n / 2 ^ t) := by
          rw [Nat.succ_mul]
          exact Nat.add_lt_add_left hj _
      _ ≤ d * (2 ^ n / 2 ^ t) := Nat.mul_le_mul_right _ hl
  have hplace : locateVector (2 ^ n / 2 ^ t) (2 ^ t) l j = (l * (2 ^ n / 2 ^ t) + j) * 2 ^ t :=
    (Nat.add_mul _ _ _).symm
  have hbij := hperms l hl j hj
  have hsub : subpermAt (2 ^ n) (2 ^ t) perms l j
      = fun r => perms ((l * (2 ^ n / 2 ^ t) + j) * 2 ^ t + r) := by
    funext r
    rw [subpermAt, hplace]
  rw [hsub] at hbij ⊢
  rw [hplace]
  simp only [placed]
  rw [block_div _ hr, block_mod _ hr, block_div _ (hbij.mapsTo hr), block_mod _ (hbij.mapsTo hr)]
  exact bobResult_delta DLenPRG ote t _ _ hote ht hbij (hnode _ hcall) hr

end PSVFSS

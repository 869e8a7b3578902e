/-
# `Lib.Network` — layers of block permutations

A layer cuts an index set into blocks of equal shape and permutes inside each
block.  Where the entries of a block lie is a `Layout`; `Layout.layer` is the
map of the whole layer, `layers` the composition of several.

    Layout.bijOn_layer   blockwise permutations make a permutation
    threeDigits          the layout that moves the middle one of three digits
    gather_eqOn          differences along the layers telescope

The last is the algebra of translating shares through a network: each layer
contributes `b l - a l ∘ σ l`, and an offset `a (l + 1) - b l` carries it to
the next one.
-/
import Mathlib.Data.Set.Function
import Mathlib.Algebra.Group.Pi.Basic
import Mathlib.Algebra.Order.Interval.Set.Group
import Mathlib.Tactic.Abel
import Mathlib.Tactic.Ring

namespace Network

open Set

variable {ι κ χ G : Type}

/-! ## Composition

The layer with the highest number acts first.  A composition of permutations
of `S` is one, and an embedding that carries every layer carries the
composition. -/

/-- `σ 0 ∘ σ 1 ∘ … ∘ σ (d - 1)`. -/
def layers (σ : Nat → ι → ι) : Nat → ι → ι
  | 0 => id
  | d + 1 => layers σ d ∘ σ d

section
variable {S : Set ι} {σ : Nat → ι → ι} {d : Nat}

theorem bijOn_layers (h : ∀ l < d, BijOn (σ l) S S) : BijOn (layers σ d) S S := by
  induction d with
  | zero => exact bijOn_id S
  | succ d ih =>
      exact (ih fun l hl => h l (Nat.lt_succ_of_lt hl)).comp (h d (Nat.lt_succ_self d))

/-- Layers that act through an embedding compose to a map that does. -/
theorem layers_semiconj {ι' : Type} {T : Set ι'} {σ' : Nat → ι' → ι'} {e : ι' → ι}
    (hσ' : ∀ l < d, MapsTo (σ' l) T T) (h : ∀ l < d, ∀ y ∈ T, σ l (e y) = e (σ' l y)) :
    ∀ y ∈ T, layers σ d (e y) = e (layers σ' d y) := by
  induction d with
  | zero => exact fun _ _ => rfl
  | succ d ih =>
      intro y hy
      show layers σ d (σ d (e y)) = e (layers σ' d (σ' d y))
      rw [h d (Nat.lt_succ_self d) y hy]
      exact ih (fun l hl => hσ' l (Nat.lt_succ_of_lt hl)) (fun l hl => h l (Nat.lt_succ_of_lt hl))
        _ (hσ' d (Nat.lt_succ_self d) hy)

/-- Equal layers compose to equal maps. -/
theorem layers_eqOn {σ' : Nat → ι → ι} (hσ' : ∀ l < d, MapsTo (σ' l) S S)
    (h : ∀ l < d, EqOn (σ l) (σ' l) S) : EqOn (layers σ d) (layers σ' d) S :=
  layers_semiconj (e := id) hσ' h

/-- The outermost layer split off. -/
theorem layers_succ_left (σ : Nat → ι → ι) (d : Nat) :
    layers σ (d + 1) = σ 0 ∘ layers (fun l => σ (l + 1)) d := by
  induction d with
  | zero => rfl
  | succ d ih =>
      rw [layers, ih, layers]
      rfl

/-- Where all layers but one are the identity, that one is the composition. -/
theorem layers_single {l₀ : Nat} (hl₀ : l₀ < d) (hσ : MapsTo (σ l₀) S S)
    (h : ∀ l < d, l ≠ l₀ → EqOn (σ l) id S) : EqOn (layers σ d) (σ l₀) S := by
  have hid : ∀ e ≤ l₀, EqOn (layers σ e) id S := by
    intro e he
    induction e with
    | zero => exact fun _ _ => rfl
    | succ e ih =>
        intro k hk
        show layers σ e (σ e k) = k
        rw [h e (by omega) (by omega) hk]
        exact ih (by omega) hk
  induction d with
  | zero => exact absurd hl₀ (Nat.not_lt_zero l₀)
  | succ d ih =>
      intro k hk
      show layers σ d (σ d k) = σ l₀ k
      by_cases hd : d = l₀
      · subst hd
        exact hid d (Nat.le_refl d) (hσ hk)
      · rw [h d (Nat.lt_succ_self d) hd hk]
        exact ih (by omega) (fun l hl => h l (Nat.lt_succ_of_lt hl)) hk

end

/-- The reversal of an initial segment. -/
theorem bijOn_reverse (n : Nat) : BijOn (fun i => n - i) (Iio (n + 1)) (Iio (n + 1)) := by
  have hmaps : MapsTo (fun i => n - i) (Iio (n + 1)) (Iio (n + 1)) := fun i _ =>
    Nat.lt_succ_of_le (Nat.sub_le n i)
  have hback : ∀ i ∈ Iio (n + 1), n - (n - i) = i := fun _ hi =>
    Nat.sub_sub_self (Nat.le_of_lt_succ hi)
  exact InvOn.bijOn ⟨hback, hback⟩ hmaps hmaps

/-! ## Layouts

A layout is a bijection between positions and pairs of a block and a digit,
given with its inverse.  A layer changes the digit and keeps the block, so
whether it permutes is decided block by block. -/

/-- Where digit `x` of block `j` lies in `S`, and which block and digit lie at
an index. -/
structure Layout (S : Set ι) (B : Set κ) (D : Set χ) where
  place : κ → χ → ι
  block : ι → κ
  digit : ι → χ
  place_mem : ∀ {j x}, j ∈ B → x ∈ D → place j x ∈ S
  block_mem : ∀ {k}, k ∈ S → block k ∈ B
  digit_mem : ∀ {k}, k ∈ S → digit k ∈ D
  block_place : ∀ {j x}, j ∈ B → x ∈ D → block (place j x) = j
  digit_place : ∀ {j x}, j ∈ B → x ∈ D → digit (place j x) = x
  place_block_digit : ∀ {k}, k ∈ S → place (block k) (digit k) = k

namespace Layout

variable {S : Set ι} {B : Set κ} {D : Set χ} (L : Layout S B D) {sub : κ → χ → χ}

/-- The same layout, its sets written differently. -/
def congr {S' : Set ι} {B' : Set κ} (hS : S = S') (hB : B = B') : Layout S' B' D where
  place := L.place
  block := L.block
  digit := L.digit
  place_mem hj hx := hS ▸ L.place_mem (hB ▸ hj) hx
  block_mem hk := hB ▸ L.block_mem (hS ▸ hk)
  digit_mem hk := L.digit_mem (hS ▸ hk)
  block_place hj hx := L.block_place (hB ▸ hj) hx
  digit_place hj hx := L.digit_place (hB ▸ hj) hx
  place_block_digit hk := L.place_block_digit (hS ▸ hk)

/-- Permute the digits of every block. -/
def layer (sub : κ → χ → χ) (k : ι) : ι := L.place (L.block k) (sub (L.block k) (L.digit k))

theorem layer_place {j : κ} {x : χ} (hj : j ∈ B) (hx : x ∈ D) :
    L.layer sub (L.place j x) = L.place j (sub j x) := by
  rw [layer, L.block_place hj hx, L.digit_place hj hx]

theorem place_injective {j j' : κ} {x x' : χ} (hj : j ∈ B) (hx : x ∈ D) (hj' : j' ∈ B)
    (hx' : x' ∈ D) (h : L.place j x = L.place j' x') : j = j' ∧ x = x' := by
  constructor
  · rw [← L.block_place hj hx, h, L.block_place hj' hx']
  · rw [← L.digit_place hj hx, h, L.digit_place hj' hx']

theorem mapsTo_layer (h : ∀ j ∈ B, MapsTo (sub j) D D) : MapsTo (L.layer sub) S S :=
  fun _ hk => L.place_mem (L.block_mem hk) (h _ (L.block_mem hk) (L.digit_mem hk))

theorem bijOn_layer (h : ∀ j ∈ B, BijOn (sub j) D D) : BijOn (L.layer sub) S S := by
  refine ⟨L.mapsTo_layer fun j hj => (h j hj).mapsTo, ?_, ?_⟩
  · intro k hk k' hk' heq
    have hb := L.block_mem hk
    have hb' := L.block_mem hk'
    obtain ⟨hblock, hdigit⟩ := L.place_injective hb ((h _ hb).mapsTo (L.digit_mem hk)) hb'
      ((h _ hb').mapsTo (L.digit_mem hk')) heq
    rw [hblock] at hdigit
    have hdigit := (h _ hb').injOn (L.digit_mem hk) (L.digit_mem hk') hdigit
    rw [← L.place_block_digit hk, hblock, hdigit, L.place_block_digit hk']
  · intro k hk
    obtain ⟨x, hx, hsub⟩ := (h _ (L.block_mem hk)).surjOn (L.digit_mem hk)
    refine ⟨L.place (L.block k) x, L.place_mem (L.block_mem hk) hx, ?_⟩
    rw [L.layer_place (L.block_mem hk) hx, hsub, L.place_block_digit hk]

end Layout

/-! ## Three digits

The layers of a regular switching network are of this shape: the middle digit
moves, and the sizes of the outer two say which layer it is. -/

/-- A number below `A * B * C` has a low digit below `A`, a middle digit below
`B` and a high digit below `C`.  Block `j` fixes the outer two, `j / A` and
`j % A`. -/
def threeDigits (A B C : Nat) (hA : 0 < A) (hB : 0 < B) :
    Layout (Iio (A * B * C)) (Iio (A * C)) (Iio B) where
  place j x := j / A * (A * B) + x * A + j % A
  block k := k / (A * B) * A + k % A
  digit k := k / A % B
  place_mem {j x} hj hx := by
    have hhigh : j / A + 1 ≤ C := Nat.div_lt_of_lt_mul hj
    have hlow := Nat.mod_lt j hA
    have hmid : x + 1 ≤ B := hx
    show j / A * (A * B) + x * A + j % A < A * B * C
    calc j / A * (A * B) + x * A + j % A < j / A * (A * B) + x * A + A := by omega
      _ = j / A * (A * B) + (x + 1) * A := by ring
      _ ≤ j / A * (A * B) + B * A := by gcongr
      _ = (j / A + 1) * (A * B) := by ring
      _ ≤ C * (A * B) := by gcongr
      _ = A * B * C := by ring
  block_mem {k} hk := by
    have hhigh : k / (A * B) + 1 ≤ C := Nat.div_lt_of_lt_mul hk
    have hlow := Nat.mod_lt k hA
    show k / (A * B) * A + k % A < A * C
    calc k / (A * B) * A + k % A < k / (A * B) * A + A := by omega
      _ = (k / (A * B) + 1) * A := by ring
      _ ≤ C * A := by gcongr
      _ = A * C := by ring
  digit_mem _ := Nat.mod_lt _ hB
  block_place {j x} _ hx := by
    have hplace : j / A * (A * B) + x * A + j % A = j % A + A * (x + B * (j / A)) := by ring
    rw [hplace, ← Nat.div_div_eq_div_mul, Nat.add_mul_div_left _ _ hA,
      Nat.div_eq_of_lt (Nat.mod_lt j hA), Nat.zero_add, Nat.add_mul_div_left _ _ hB,
      Nat.div_eq_of_lt hx, Nat.zero_add, Nat.add_mul_mod_self_left, Nat.mod_mod, Nat.mul_comm,
      Nat.div_add_mod]
  digit_place {j x} _ hx := by
    have hplace : j / A * (A * B) + x * A + j % A = j % A + A * (x + B * (j / A)) := by ring
    rw [hplace, Nat.add_mul_div_left _ _ hA, Nat.div_eq_of_lt (Nat.mod_lt j hA), Nat.zero_add,
      Nat.add_mul_mod_self_left, Nat.mod_eq_of_lt hx]
  place_block_digit {k} _ := by
    have hdiv : (k / (A * B) * A + k % A) / A = k / (A * B) := by
      rw [Nat.add_comm, Nat.add_mul_div_right _ _ hA, Nat.div_eq_of_lt (Nat.mod_lt k hA),
        Nat.zero_add]
    have hmod : (k / (A * B) * A + k % A) % A = k % A := by
      rw [Nat.add_comm, Nat.add_mul_mod_self_right, Nat.mod_mod]
    have hmid : B * (k / (A * B)) + k / A % B = k / A := by
      rw [← Nat.div_div_eq_div_mul, Nat.div_add_mod]
    rw [hdiv, hmod]
    calc k / (A * B) * (A * B) + k / A % B * A + k % A
        = A * (B * (k / (A * B)) + k / A % B) + k % A := by ring
      _ = k := by rw [hmid, Nat.div_add_mod]

/-- A multiple of `A * B * R` on top of a position adds a multiple of `R * A` to
its block and stays on top. -/
theorem threeDigits_layer_high {A B C : Nat} (hA : 0 < A) (hB : 0 < B) (R : Nat)
    (sub : Nat → Nat → Nat) (a y : Nat) :
    (threeDigits A B C hA hB).layer sub (a * (A * B * R) + y)
      = a * (A * B * R) + (threeDigits A B C hA hB).layer (fun j => sub (a * (R * A) + j)) y := by
  have hhigh : (a * (A * B * R) + y) / (A * B) = a * R + y / (A * B) := by
    rw [show a * (A * B * R) = A * B * (a * R) by ring, Nat.mul_add_div (Nat.mul_pos hA hB)]
  have hlow : (a * (A * B * R) + y) % A = y % A := by
    rw [show a * (A * B * R) = A * (a * B * R) by ring, Nat.mul_add_mod]
  have hdigit : (a * (A * B * R) + y) / A % B = y / A % B := by
    rw [show a * (A * B * R) = A * (B * (a * R)) by ring, Nat.mul_add_div hA, Nat.mul_add_mod]
  have hblock : (a * (A * B * R) + y) / (A * B) * A + (a * (A * B * R) + y) % A
      = a * (R * A) + (y / (A * B) * A + y % A) := by
    rw [hhigh, hlow]
    ring
  have hplace : ∀ j x, (a * (R * A) + j) / A * (A * B) + x * A + (a * (R * A) + j) % A
      = a * (A * B * R) + (j / A * (A * B) + x * A + j % A) := by
    intro j x
    rw [show a * (R * A) = A * (a * R) by ring, Nat.mul_add_div hA, Nat.mul_add_mod]
    ring
  simp only [Layout.layer, threeDigits, hblock, hdigit, hplace]

/-! ## Telescoping

The offset after one layer removes what that layer's mask left and puts the
next layer's mask there.  Only the first and the last mask stay. -/

section
variable [AddCommGroup G] {S : Set ι} {σ : Nat → ι → ι} {a b delta offset : Nat → ι → G} {d : Nat}

/-- What has been gathered after layer `l`: permuted layer by layer, with each
layer's difference and offset added. -/
def gather (σ : Nat → ι → ι) (delta offset : Nat → ι → G) : Nat → ι → G
  | 0 => delta 0 + offset 0
  | l + 1 => gather σ delta offset l ∘ σ (l + 1) + (delta (l + 1) + offset (l + 1))

theorem gather_eqOn (hσ : ∀ l < d, MapsTo (σ l) S S)
    (hdelta : ∀ l < d, EqOn (delta l) (b l - a l ∘ σ l) S)
    (hoffset : ∀ l, l + 1 < d → EqOn (offset l) (a (l + 1) - b l) S) :
    ∀ l, l + 1 < d → EqOn (gather σ delta offset l) (a (l + 1) - a 0 ∘ layers σ (l + 1)) S := by
  intro l
  induction l with
  | zero =>
      intro hl k hk
      show delta 0 k + offset 0 k = a 1 k - a 0 (σ 0 k)
      rw [hdelta 0 (by omega) hk, hoffset 0 hl hk]
      show b 0 k - a 0 (σ 0 k) + (a 1 k - b 0 k) = a 1 k - a 0 (σ 0 k)
      abel
  | succ l ih =>
      intro hl k hk
      have hk' := hσ (l + 1) (by omega) hk
      show gather σ delta offset l (σ (l + 1) k) + (delta (l + 1) k + offset (l + 1) k) = _
      rw [ih (by omega) hk', hdelta (l + 1) (by omega) hk, hoffset (l + 1) hl hk]
      show a (l + 1) (σ (l + 1) k) - a 0 (layers σ (l + 1) (σ (l + 1) k))
          + (b (l + 1) k - a (l + 1) (σ (l + 1) k) + (a (l + 2) k - b (l + 1) k))
        = a (l + 2) k - a 0 (layers σ (l + 1) (σ (l + 1) k))
      abel

/-- The last layer has no offset: what is left is the difference across the
whole network. -/
theorem gather_last {l : Nat} (hσ : ∀ i < l + 2, MapsTo (σ i) S S)
    (hdelta : ∀ i < l + 2, EqOn (delta i) (b i - a i ∘ σ i) S)
    (hoffset : ∀ i, i + 1 < l + 2 → EqOn (offset i) (a (i + 1) - b i) S) :
    EqOn (gather σ delta offset l ∘ σ (l + 1) + delta (l + 1))
      (b (l + 1) - a 0 ∘ layers σ (l + 2)) S := by
  intro k hk
  have hlast : l + 1 < l + 2 := Nat.lt_succ_self _
  show gather σ delta offset l (σ (l + 1) k) + delta (l + 1) k = _
  rw [gather_eqOn hσ hdelta hoffset l hlast (hσ (l + 1) hlast hk), hdelta (l + 1) hlast hk]
  show a (l + 1) (σ (l + 1) k) - a 0 (layers σ (l + 1) (σ (l + 1) k))
      + (b (l + 1) k - a (l + 1) (σ (l + 1) k))
    = b (l + 1) k - a 0 (layers σ (l + 1) (σ (l + 1) k))
  abel

end

end Network

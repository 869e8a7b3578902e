/-
# `Shuffle.Benes` — the layered network realises every permutation

With `n = (m + 1) * t`, layer `l` of `2 * m + 1` permutes digit `|m - l|`,
counted from the low end.  The first and the last layer permute the top digit,
and the layers between are, for every value of that digit, a network on one
digit less.  A permutation splits accordingly (`Rearrange.exists_three_stages_nat`):

    layerMap_top     the top digit
    layerMap_high    below a fixed top digit
    exists_network   the induction over the digits
-/
import Mathlib.Data.Nat.Dist
import PSVFSS.Lib.Rearrange
import PSVFSS.Shuffle.Layers

namespace PSVFSS

open Loop Network Rearrange Set

/-! ## The wiring

What the running suffix length makes of the layer number: the layers are
symmetric about the middle one, and digit `|m - l|` is the one layer `l`
permutes. -/

/-- The suffix lengths run from the top digit down to the low end and back. -/
theorem runningSuffixLen_dist {m l : Nat} (t : Nat) (hl : l < 2 * m + 1) :
    runningSuffixLen l (2 * (m + 1) - 1) ((m + 1) * t) t = Nat.dist m l * t := by
  have hmid : (2 * (m + 1) - 1) / 2 = m := by omega
  rw [runningSuffixLen, hmid, Nat.succ_mul, Nat.add_sub_cancel]
  split
  case isTrue hle => rw [Nat.dist_eq_sub_of_le_right hle, Nat.sub_mul]
  case isFalse hlt =>
      have hshort : (l - m) * t ≤ m * t := Nat.mul_le_mul_right t (by omega)
      rw [Nat.dist_eq_sub_of_le (Nat.le_of_not_le hlt), Nat.sub_self, Nat.zero_add,
        Nat.min_eq_left hshort]

/-- The suffix of the outer layers is everything below the top digit. -/
theorem layerMap_top {t M : Nat} (sub : Nat → Nat → Nat) {a j : Nat} (ha : a < 2 ^ t)
    (hj : j < 2 ^ M) : layerMap t M sub (a * 2 ^ M + j) = sub j a * 2 ^ M + j := by
  have hplace : ∀ x, (digitLayout (Nat.le_refl (M + t))).place j x = x * 2 ^ M + j := by
    intro x
    show j / 2 ^ M * (2 ^ M * 2 ^ t) + x * 2 ^ M + j % 2 ^ M = _
    rw [Nat.div_eq_of_lt hj, Nat.mod_eq_of_lt hj, Nat.zero_mul, Nat.zero_add]
  have hblock : j ∈ Iio (2 ^ (M + t - t)) := by rwa [Nat.add_sub_cancel]
  rw [← hplace, ← hplace]
  exact (digitLayout (Nat.le_refl (M + t))).layer_place hblock ha

/-- Layers with a shorter suffix leave the top digit alone. -/
theorem layerMap_high {t s M : Nat} (h : s + t ≤ M) (sub : Nat → Nat → Nat) (a y : Nat) :
    layerMap t s sub (a * 2 ^ M + y)
      = a * 2 ^ M + layerMap t s (fun j => sub (a * 2 ^ (M - t) + j)) y := by
  have htop : 2 ^ M = 2 ^ s * 2 ^ t * 2 ^ (M - t - s) := by
    rw [← Nat.pow_add, ← Nat.pow_add]
    congr 1
    omega
  have hblock : 2 ^ (M - t) = 2 ^ (M - t - s) * 2 ^ s := by
    rw [← Nat.pow_add]
    congr 1
    omega
  rw [htop, hblock]
  exact threeDigits_layer_high _ _ _ sub a y

/-! ## One digit more

A network on one digit more has a network on the other digits for each value
of the new one.  The base is a single layer, which is any permutation of the
digits. -/

/-- The layers of a network on `m + 1` digits. -/
def networkMaps (m t : Nat) (sub : Nat → Nat → Nat → Nat) (l : Nat) : Nat → Nat :=
  layerMap t (Nat.dist m l * t) (sub l)

/-- Outer layers `first` and `last` around a network for every top digit. -/
def extend (m t : Nat) (first last : Nat → Nat → Nat) (inner : Nat → Nat → Nat → Nat → Nat) :
    Nat → Nat → Nat → Nat
  | 0, j => last j
  | l + 1, j =>
      if l = 2 * m + 1 then first j
      else inner (j / 2 ^ (m * t)) l (j % 2 ^ (m * t))

section
variable {m t : Nat} {first last g : Nat → Nat → Nat} {inner : Nat → Nat → Nat → Nat → Nat}

theorem bijOn_extend
    (hfirst : ∀ j < 2 ^ ((m + 1) * t), BijOn (first j) (Iio (2 ^ t)) (Iio (2 ^ t)))
    (hlast : ∀ j < 2 ^ ((m + 1) * t), BijOn (last j) (Iio (2 ^ t)) (Iio (2 ^ t)))
    (hinner : ∀ a < 2 ^ t, ∀ l < 2 * m + 1, ∀ j < 2 ^ (m * t),
      BijOn (inner a l j) (Iio (2 ^ t)) (Iio (2 ^ t)))
    {l j : Nat} (hl : l < 2 * (m + 1) + 1) (hj : j < 2 ^ ((m + 1) * t)) :
    BijOn (extend m t first last inner l j) (Iio (2 ^ t)) (Iio (2 ^ t)) := by
  cases l with
  | zero => exact hlast j hj
  | succ l =>
      rw [extend]
      split
      · exact hfirst j hj
      · have htop : j / 2 ^ (m * t) < 2 ^ t := by
          refine Nat.div_lt_of_lt_mul ?_
          rwa [← Nat.pow_add, ← Nat.succ_mul]
        exact hinner _ htop l (by omega) _ (Nat.mod_lt _ (Nat.two_pow_pos _))

/-- Between the outer layers, the network of the top digit. -/
theorem layers_extend (hinner : ∀ a < 2 ^ t, ∀ l < 2 * m + 1, ∀ j < 2 ^ (m * t),
      BijOn (inner a l j) (Iio (2 ^ t)) (Iio (2 ^ t)))
    {a y : Nat} (ha : a < 2 ^ t) (hy : y < 2 ^ ((m + 1) * t)) :
    layers (fun l => networkMaps (m + 1) t (extend m t first last inner) (l + 1)) (2 * m + 1)
        (a * 2 ^ ((m + 1) * t) + y)
      = a * 2 ^ ((m + 1) * t) + layers (networkMaps m t (inner a)) (2 * m + 1) y := by
  have hlow : (m + 1) * t - t = m * t := by rw [Nat.succ_mul, Nat.add_sub_cancel]
  have hsuf : ∀ l < 2 * m + 1, Nat.dist m l * t + t ≤ (m + 1) * t := by
    intro l hl
    rw [← Nat.succ_mul]
    refine Nat.mul_le_mul_right t (Nat.succ_le_succ ?_)
    rw [Nat.dist]
    omega
  refine layers_semiconj (T := Iio (2 ^ ((m + 1) * t))) (e := fun y => a * 2 ^ ((m + 1) * t) + y)
    ?_ ?_ y hy
  · intro l hl
    refine mapsTo_layerMap (hsuf l hl) fun j hj => ?_
    rw [hlow] at hj
    exact (hinner a ha l hl j hj).mapsTo
  · intro l hl y hy
    show layerMap t (Nat.dist (m + 1) (l + 1) * t) (extend m t first last inner (l + 1)) _
      = _ + layerMap t (Nat.dist m l * t) (inner a l) y
    rw [Nat.dist_succ_succ, layerMap_high (hsuf l hl), hlow]
    congr 1
    refine layerMap_congr (hsuf l hl) (fun j hj x _ => ?_) hy
    rw [hlow] at hj
    show extend m t first last inner (l + 1) (a * 2 ^ (m * t) + j) x = inner a l j x
    rw [extend, if_neg (by omega), block_div a hj, block_mod a hj]

variable (last) in
/-- The three stages, one after the other. -/
theorem network_extend
    (hfirst : ∀ j < 2 ^ ((m + 1) * t), MapsTo (first j) (Iio (2 ^ t)) (Iio (2 ^ t)))
    (hg : ∀ a < 2 ^ t, MapsTo (g a) (Iio (2 ^ ((m + 1) * t))) (Iio (2 ^ ((m + 1) * t))))
    (hinner : ∀ a < 2 ^ t, ∀ l < 2 * m + 1, ∀ j < 2 ^ (m * t),
      BijOn (inner a l j) (Iio (2 ^ t)) (Iio (2 ^ t)))
    (hnet : ∀ a < 2 ^ t,
      EqOn (layers (networkMaps m t (inner a)) (2 * m + 1)) (g a) (Iio (2 ^ ((m + 1) * t))))
    {a j : Nat} (ha : a < 2 ^ t) (hj : j < 2 ^ ((m + 1) * t)) :
    layers (networkMaps (m + 1) t (extend m t first last inner)) (2 * (m + 1) + 1)
        (a * 2 ^ ((m + 1) * t) + j)
      = last (g (first j a) j) (first j a) * 2 ^ ((m + 1) * t) + g (first j a) j := by
  have hfa : first j a < 2 ^ t := hfirst j hj ha
  have hga : g (first j a) j < 2 ^ ((m + 1) * t) := hg _ hfa hj
  have houter : ∀ l, Nat.dist (m + 1) l = m + 1 → ∀ {a j : Nat}, a < 2 ^ t →
      j < 2 ^ ((m + 1) * t) →
      networkMaps (m + 1) t (extend m t first last inner) l (a * 2 ^ ((m + 1) * t) + j)
        = extend m t first last inner l j a * 2 ^ ((m + 1) * t) + j := by
    intro l hl a j ha hj
    rw [networkMaps, hl]
    exact layerMap_top _ ha hj
  have hend : Nat.dist (m + 1) (2 * m + 1 + 1) = m + 1 := by
    rw [Nat.dist]
    omega
  show layers _ (2 * m + 1 + 1) (networkMaps (m + 1) t _ (2 * m + 1 + 1) _) = _
  rw [houter _ hend ha hj, extend, if_pos rfl, layers_succ_left, Function.comp_apply,
    layers_extend hinner hfa hj, hnet _ hfa hj, houter 0 (Nat.dist_zero_right _) hfa hga, extend]

end

/-- The induction over the digits: one digit is one sub-permutation, and a
permutation of one digit more splits in three. -/
theorem exists_network (t m : Nat) (π : Nat → Nat)
    (hπ : BijOn π (Iio (2 ^ ((m + 1) * t))) (Iio (2 ^ ((m + 1) * t)))) :
    ∃ sub : Nat → Nat → Nat → Nat,
      (∀ l < 2 * m + 1, ∀ j < 2 ^ (m * t), BijOn (sub l j) (Iio (2 ^ t)) (Iio (2 ^ t))) ∧
        EqOn (layers (networkMaps m t sub) (2 * m + 1)) π (Iio (2 ^ ((m + 1) * t))) := by
  induction m generalizing π with
  | zero =>
      rw [Nat.zero_add, Nat.one_mul] at hπ ⊢
      refine ⟨fun _ _ => π, fun _ _ _ _ => hπ, fun k hk => ?_⟩
      show layerMap t (Nat.dist 0 0 * t) (fun _ => π) k = π k
      rw [Nat.dist_self, Nat.zero_mul, layerMap_zero, Nat.div_eq_of_lt hk, Nat.mod_eq_of_lt hk,
        Nat.zero_mul, Nat.zero_add]
  | succ m ih =>
      have hsize : 2 ^ ((m + 1 + 1) * t) = 2 ^ t * 2 ^ ((m + 1) * t) := by
        rw [← Nat.pow_add, Nat.succ_mul (m + 1), Nat.add_comm]
      rw [hsize] at hπ ⊢
      obtain ⟨first, last, g, hfirst, hlast, hg, hsplit⟩ := exists_three_stages_nat hπ
      choose! inner hinner hnet using fun a ha => ih (g a) (hg a ha)
      refine ⟨extend m t first last inner, fun l hl j hj => bijOn_extend hfirst hlast hinner hl hj,
        fun k hk => ?_⟩
      have ha : k / 2 ^ ((m + 1) * t) < 2 ^ t := Nat.div_lt_of_lt_mul (Nat.mul_comm _ _ ▸ hk)
      have hj := Nat.mod_lt k (Nat.two_pow_pos ((m + 1) * t))
      have h := network_extend last (fun j hj => (hfirst j hj).mapsTo)
        (fun a ha => (hg a ha).mapsTo) hinner hnet ha hj
      rw [← hsplit _ ha _ hj, Nat.div_add_mod'] at h
      exact h

/-! ## `PermReconstruct`

The layers of the network, written as a table, with every sub-permutation in
its place. -/

/-- The network on `m + 1` digits, as a table. -/
theorem permReconstruct_network {m t : Nat} {sub : Nat → Nat → Nat → Nat}
    (hsub : ∀ l < 2 * m + 1, ∀ j < 2 ^ (m * t), BijOn (sub l j) (Iio (2 ^ t)) (Iio (2 ^ t))) :
    ∃ perms, TableOfPerms (2 * (m + 1) - 1) (2 ^ ((m + 1) * t)) (2 ^ t) perms ∧ ∀ perm, ∃ perm',
      permReconstruct (2 * (m + 1) - 1) (2 ^ ((m + 1) * t)) (2 ^ t) ((m + 1) * t) t perms perm
          = some perm' ∧
        EqOn perm' (layers (networkMaps m t sub) (2 * m + 1)) (Iio (2 ^ ((m + 1) * t))) := by
  have hle : t ≤ (m + 1) * t := le_mul (Nat.succ_pos m) t
  rw [← show (m + 1) * t - t = m * t by rw [Nat.succ_mul, Nat.add_sub_cancel]] at hsub
  have hperms := tableOfPerms_tableOf hle hsub
  refine ⟨_, hperms, fun perm => ?_⟩
  obtain ⟨perm', hperm', heq⟩ := permReconstruct_layers (Nat.succ_pos m) hperms perm
  refine ⟨perm', hperm', heq.trans ?_⟩
  have hlayer : ∀ l < 2 * m + 1, Nat.dist m l * t + t ≤ (m + 1) * t ∧
      EqOn (layerOf (m + 1) t (tableOf ((m + 1) * t) t sub) l) (networkMaps m t sub l)
        (Iio (2 ^ ((m + 1) * t))) := by
    intro l hl
    have hsuf := runningSuffixLen_le (half_layers (t := t) (Nat.succ_pos m)) l
    rw [runningSuffixLen_dist t hl] at hsuf
    refine ⟨hsuf, ?_⟩
    rw [layerOf, layerMaps, runningSuffixLen_dist t hl]
    exact layerMap_tableOf hle hsuf l
  refine layers_eqOn (fun l hl => ?_) fun l hl => (hlayer l hl).2
  exact mapsTo_layerMap (hlayer l hl).1 fun j hj => (hsub l hl j hj).mapsTo

/-- Every permutation of the positions is what `PermReconstruct` makes of some
table.  For a single position (`n = 0`) no layer has a block, and the count,
which is -1 in the source and 0 here, does not matter. -/
theorem permReconstruct_surjective (n t : Nat) (ht : 1 ≤ t) (hdvd : t ∣ n) (π : Nat → Nat)
    (hπ : BijOn π (Iio (2 ^ n)) (Iio (2 ^ n))) :
    ∃ perms, TableOfPerms (2 * (n / t) - 1) (2 ^ n) (2 ^ t) perms ∧ ∀ perm, ∃ perm',
      permReconstruct (2 * (n / t) - 1) (2 ^ n) (2 ^ t) n t perms perm = some perm' ∧
        EqOn perm' π (Iio (2 ^ n)) := by
  obtain ⟨m, rfl⟩ : ∃ m, n = m * t := ⟨n / t, (Nat.div_mul_cancel hdvd).symm⟩
  rw [Nat.mul_div_cancel m ht]
  cases m with
  | zero =>
      have hblocks : 2 ^ (0 * t) / 2 ^ t = 0 := by
        rw [Nat.zero_mul]
        exact Nat.div_eq_of_lt (Nat.one_lt_two_pow (Nat.ne_of_gt ht))
      refine ⟨id, fun l hl => absurd hl (Nat.not_lt_zero l), fun perm => ⟨fun i => i, ?_, ?_⟩⟩
      · simp only [permReconstruct, permLayer, hblocks]
        rfl
      · intro k hk
        rw [Nat.zero_mul] at hk hπ
        have hk : k < 1 := hk
        have hπk : π k < 1 := hπ.mapsTo hk
        show k = π k
        omega
  | succ m =>
      obtain ⟨sub, hsub, hnet⟩ := exists_network t m π hπ
      obtain ⟨perms, hperms, hrec⟩ := permReconstruct_network hsub
      refine ⟨perms, hperms, fun perm => ?_⟩
      obtain ⟨perm', hperm', heq⟩ := hrec perm
      exact ⟨perm', hperm', heq.trans hnet⟩

/-- Four positions, digits of one bit: the reversal, in three layers. -/
theorem permReconstruct_surjective_sample :
    ∃ perms, TableOfPerms (2 * (2 / 1) - 1) (2 ^ 2) (2 ^ 1) perms ∧ ∀ perm, ∃ perm',
      permReconstruct (2 * (2 / 1) - 1) (2 ^ 2) (2 ^ 1) 2 1 perms perm = some perm' ∧
        EqOn perm' (fun k => 3 - k) (Iio (2 ^ 2)) :=
  permReconstruct_surjective 2 1 (by decide) (by decide) (fun k => 3 - k) (bijOn_reverse 3)

end PSVFSS

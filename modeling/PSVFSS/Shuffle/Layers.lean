/-
# `Shuffle.Layers` — the layer counts, and when the layers compose

`Offline` takes `2 * (n / t) - 1` layers, rounding down, the benchmark
`2 * ⌈n / t⌉ - 1`.  Where `t` does not divide `n` the two part:

    rounded down    the running suffix length stops at `n % t` in the middle,
                    where the closed form has 0, so `PermReconstruct` and
                    `SubPermReconstruct` wire the middle layer differently
    rounded up      the running suffix length is negative in the middle, and
                    `PermReconstruct` shifts by it

A single layer (`n / t = 1`) is wired by a branch of its own, which is the
closed form (`permReconstruct_single`).
-/
import PSVFSS.Shuffle.Offline

namespace PSVFSS

open Loop Network Set

/-! ## The layers of the closed form

What `SubPermReconstruct` returns for each layer of a table, on its own: no
layer depends on those before it. -/

/-- The maps `SubPermReconstruct` rebuilds. -/
def closedMaps (d n t : Nat) (perms : Nat → Nat) (l : Nat) : Nat → Nat :=
  layerMap t (layerSuffixLen l d n t).toNat (subpermAt (2 ^ n) (2 ^ t) perms l)

section
variable {d n t : Nat} (hn : d / 2 * t + t ≤ n)
include hn

/-- The closed suffix length is in range at every layer. -/
theorem layerSuffixLen_range (l : Nat) :
    0 ≤ layerSuffixLen l d n t ∧ layerSuffixLen l d n t + t ≤ n := by
  rw [layerSuffixLen]
  split
  case isTrue hl =>
      have hup : (l + 1) * t ≤ d / 2 * t := Nat.mul_le_mul_right t hl
      have hlow : t ≤ (l + 1) * t := Nat.le_mul_of_pos_left t (Nat.succ_pos l)
      have hcast : ((l : Int) + 1) * t = ((l + 1) * t : Nat) := by push_cast; ring
      omega
  case isFalse hl =>
      split
      · omega
      · have hcast : ((l : Int) - (d / 2 : Nat)) * t = ((l - d / 2) * t : Nat) := by
          push_cast [Nat.cast_sub (Nat.le_of_not_lt hl)]
          ring
        rw [hcast, cappedSuffixLen]
        omega

theorem layerSuffixLen_toNat (l : Nat) :
    layerSuffixLen l d n t = ((layerSuffixLen l d n t).toNat : Int) ∧
      (layerSuffixLen l d n t).toNat + t ≤ n := by
  have h := layerSuffixLen_range hn l
  omega

variable {perms : Nat → Nat} (hperms : TableOfPerms d (2 ^ n) (2 ^ t) perms)
include hperms

theorem mapsTo_closedMaps {l : Nat} (hl : l < d) :
    MapsTo (closedMaps d n t perms l) (Iio (2 ^ n)) (Iio (2 ^ n)) :=
  mapsTo_layerMap (layerSuffixLen_toNat hn l).2 fun _ hj =>
    (hperms.bijOn (Nat.le_of_add_left_le hn) hl hj).mapsTo

theorem subPermReconstruct_closed {l : Nat} (hl : l < d) :
    ∃ σ, subPermReconstruct l d (2 ^ n) (2 ^ t) n t (row (2 ^ n) perms l) = some σ ∧
      EqOn σ (closedMaps d n t perms l) (Iio (2 ^ n)) := by
  obtain ⟨hlen, hs⟩ := layerSuffixLen_toNat hn l
  exact subPermReconstruct_row (Nat.le_of_add_left_le hn) hperms hl hs hlen

end

/-! ## One layer -/

/-- With suffixes of no bits, the digit is the low end of the position. -/
theorem layerMap_zero (t : Nat) (sub : Nat → Nat → Nat) (k : Nat) :
    layerMap t 0 sub k = k / 2 ^ t * 2 ^ t + sub (k / 2 ^ t) (k % 2 ^ t) := by
  have hblock : k / (2 ^ 0 * 2 ^ t) * 2 ^ 0 + k % 2 ^ 0 = k / 2 ^ t := by
    rw [Nat.pow_zero, Nat.one_mul, Nat.mul_one, Nat.mod_one, Nat.add_zero]
  have hdigit : k / 2 ^ 0 % 2 ^ t = k % 2 ^ t := by rw [Nat.pow_zero, Nat.div_one]
  show (k / (2 ^ 0 * 2 ^ t) * 2 ^ 0 + k % 2 ^ 0) / 2 ^ 0 * (2 ^ 0 * 2 ^ t)
      + sub (k / (2 ^ 0 * 2 ^ t) * 2 ^ 0 + k % 2 ^ 0) (k / 2 ^ 0 % 2 ^ t) * 2 ^ 0
      + (k / (2 ^ 0 * 2 ^ t) * 2 ^ 0 + k % 2 ^ 0) % 2 ^ 0 = _
  rw [hblock, hdigit, Nat.pow_zero, Nat.div_one, Nat.one_mul, Nat.mul_one, Nat.mod_one,
    Nat.add_zero]

/-- The branch for one layer writes the closed form. -/
theorem permReconstruct_single {n t : Nat} (h : t ≤ n) (perms perm : Nat → Nat) :
    ∃ perm', permReconstruct 1 (2 ^ n) (2 ^ t) n t perms perm = some perm' ∧
      EqOn perm' (closedMaps 1 n t perms 0) (Iio (2 ^ n)) := by
  refine ⟨_, by rw [permReconstruct, if_pos rfl], fun k hk => ?_⟩
  have hk : k < 2 ^ n / 2 ^ t * 2 ^ t := by rwa [Nat.div_mul_cancel (Nat.pow_dvd_pow 2 h)]
  have hclosed : closedMaps 1 n t perms 0 = layerMap t 0 (subpermAt (2 ^ n) (2 ^ t) perms 0) := rfl
  rw [forLoop_blocks hk, hclosed, layerMap_zero]

/-! ## Composition

`PermReconstruct` composes the layers of its running suffix lengths.  It
composes the rebuilt ones when both lists of layers have one composition,
which is weaker than being equal. -/

/-- `PermReconstruct` returns the composition of the layers that
`SubPermReconstruct` rebuilds from the rows of the table. -/
def Composes (d n t : Nat) (perms perm : Nat → Nat) : Prop :=
  ∃ perm' σ, permReconstruct d (2 ^ n) (2 ^ t) n t perms perm = some perm' ∧
    (∀ l < d, subPermReconstruct l d (2 ^ n) (2 ^ t) n t (row (2 ^ n) perms l) = some (σ l)) ∧
    EqOn perm' (layers σ d) (Iio (2 ^ n))

section
variable {d n t : Nat} {perms : Nat → Nat}

/-- The rebuilt layers compose as the closed form does. -/
theorem composes_of_eqOn (hn : d / 2 * t + t ≤ n) (hperms : TableOfPerms d (2 ^ n) (2 ^ t) perms)
    {perm perm' : Nat → Nat}
    (hperm : permReconstruct d (2 ^ n) (2 ^ t) n t perms perm = some perm') :
    Composes d n t perms perm ↔
      EqOn perm' (layers (closedMaps d n t perms) d) (Iio (2 ^ n)) := by
  have hclosed := fun (l : Nat) (hl : l < d) => subPermReconstruct_closed hn hperms hl
  have hmaps := fun (l : Nat) (hl : l < d) => mapsTo_closedMaps hn hperms hl
  constructor
  · rintro ⟨perm'', σ, hperm'', hσ, heq⟩
    obtain rfl := Option.some_inj.mp (hperm.symm.trans hperm'')
    refine heq.trans (layers_eqOn hmaps fun l hl => ?_)
    obtain ⟨σ', hσ', heq'⟩ := hclosed l hl
    rwa [Option.some_inj.mp ((hσ l hl).symm.trans hσ')]
  · intro heq
    choose! σ hσ hσeq using hclosed
    exact ⟨perm', σ, hperm, hσ, heq.trans (layers_eqOn hmaps hσeq).symm⟩

/-- Several layers: the running suffix lengths have to compose to the map of
the closed ones. -/
theorem composes_iff (hn : d / 2 * t + t ≤ n) (hd : 1 < d)
    (hperms : TableOfPerms d (2 ^ n) (2 ^ t) perms) (perm : Nat → Nat) :
    Composes d n t perms perm ↔
      EqOn (layers (layerMaps d n t perms) d) (layers (closedMaps d n t perms) d)
        (Iio (2 ^ n)) := by
  obtain ⟨perm', hperm', heq⟩ := permReconstruct_spec hn
    (fun l hl j hj => (hperms.bijOn (Nat.le_of_add_left_le hn) hl hj).mapsTo) hd perm
  rw [composes_of_eqOn hn hperms hperm']
  exact ⟨heq.symm.trans, heq.trans⟩

/-- One layer always composes. -/
theorem composes_single (h : t ≤ n) (hperms : TableOfPerms 1 (2 ^ n) (2 ^ t) perms)
    (perm : Nat → Nat) : Composes 1 n t perms perm := by
  obtain ⟨perm', hperm', heq⟩ := permReconstruct_single h perms perm
  exact (composes_of_eqOn (by omega) hperms hperm').mpr heq

end

/-- Where `t` divides `n` the two suffix lengths are equal. -/
theorem layerMaps_eq_closedMaps {m t : Nat} (hm : 1 ≤ m) (perms : Nat → Nat) :
    layerMaps (2 * m - 1) (m * t) t perms = closedMaps (2 * m - 1) (m * t) t perms := by
  funext l
  rw [layerMaps, closedMaps, layerSuffixLen_eq hm, Int.toNat_natCast]

/-- Both branches of `PermReconstruct` return the composition of the layers. -/
theorem permReconstruct_layers {m t : Nat} (hm : 1 ≤ m) {perms : Nat → Nat}
    (hperms : TableOfPerms (2 * m - 1) (2 ^ (m * t)) (2 ^ t) perms) (perm : Nat → Nat) :
    ∃ perm', permReconstruct (2 * m - 1) (2 ^ (m * t)) (2 ^ t) (m * t) t perms perm = some perm' ∧
      EqOn perm' (layers (layerOf m t perms) (2 * m - 1)) (Iio (2 ^ (m * t))) := by
  by_cases hone : m = 1
  · subst hone
    obtain ⟨perm', hperm', heq⟩ := permReconstruct_single (le_mul (Nat.le_refl 1) t) perms perm
    refine ⟨perm', hperm', heq.trans ?_⟩
    rw [layerOf, layerMaps_eq_closedMaps (Nat.le_refl 1)]
    exact fun _ _ => rfl
  · exact permReconstruct_spec (half_layers hm)
      (fun l hl j hj => (hperms.bijOn (le_mul hm t) hl hj).mapsTo) (by omega) perm

/-! ## Tables

A table is one list with the entries of all layers; from here on it is written
down by its sub-permutations. -/

/-- The table with `sub l j` as sub-permutation `j` of layer `l`. -/
def tableOf (n t : Nat) (sub : Nat → Nat → Nat → Nat) (x : Nat) : Nat :=
  sub (x / 2 ^ n) (x % 2 ^ n / 2 ^ t) (x % 2 ^ t)

section
variable {n t : Nat} (h : t ≤ n) {sub : Nat → Nat → Nat → Nat}
include h

theorem subpermAt_tableOf {l j r : Nat} (hj : j < 2 ^ (n - t)) (hr : r < 2 ^ t) :
    subpermAt (2 ^ n) (2 ^ t) (tableOf n t sub) l j r = sub l j r := by
  have hlt : j * 2 ^ t + r < 2 ^ n := entry_lt h hj hr
  rw [← row_subpermAt h, row, tableOf, ← Nat.mod_mod_of_dvd _ (Nat.pow_dvd_pow 2 h),
    block_div l hlt, block_mod l hlt, block_div j hr, block_mod j hr]

theorem tableOfPerms_tableOf {d : Nat}
    (hsub : ∀ l < d, ∀ j < 2 ^ (n - t), BijOn (sub l j) (Iio (2 ^ t)) (Iio (2 ^ t))) :
    TableOfPerms d (2 ^ n) (2 ^ t) (tableOf n t sub) := by
  intro l hl j hj
  rw [blocks_div h] at hj
  exact (hsub l hl j hj).congr fun r hr => (subpermAt_tableOf h hj hr).symm

/-- A layer of such a table. -/
theorem layerMap_tableOf {s : Nat} (hs : s + t ≤ n) (l : Nat) :
    EqOn (layerMap t s (subpermAt (2 ^ n) (2 ^ t) (tableOf n t sub) l)) (layerMap t s (sub l))
      (Iio (2 ^ n)) :=
  layerMap_congr hs fun _ hj _ hr => subpermAt_tableOf h hj hr

end

/-! ## A table on which the layers part

All layers but one are the identity, so the composition is that layer, and
where it sends position 0 shows its suffix length. -/

/-- Exchange the digits 0 and 1 in block 0 of layer `l₀`. -/
def swapDigits (l₀ l j r : Nat) : Nat := if l = l₀ ∧ j = 0 ∧ r < 2 then 1 - r else r

/-- All sub-permutations the identity, but for that exchange. -/
def swapAt (n t l₀ : Nat) : Nat → Nat := tableOf n t (swapDigits l₀)

section
variable {n t l₀ : Nat}

theorem swapDigits_swapDigits (l₀ l j r : Nat) :
    swapDigits l₀ l j (swapDigits l₀ l j r) = r := by
  by_cases hr : l = l₀ ∧ j = 0 ∧ r < 2
  · have hr' : l = l₀ ∧ j = 0 ∧ 1 - r < 2 := ⟨hr.1, hr.2.1, by omega⟩
    rw [swapDigits, swapDigits, if_pos hr, if_pos hr']
    omega
  · rw [swapDigits, swapDigits, if_neg hr, if_neg hr]

theorem bijOn_swapDigits (ht : 1 ≤ t) (l₀ l j : Nat) :
    BijOn (swapDigits l₀ l j) (Iio (2 ^ t)) (Iio (2 ^ t)) := by
  have hT : 2 ≤ 2 ^ t := Nat.le_self_pow (by omega) 2
  have hmaps : MapsTo (swapDigits l₀ l j) (Iio (2 ^ t)) (Iio (2 ^ t)) := by
    intro r hr
    have hr : r < 2 ^ t := hr
    show swapDigits l₀ l j r < 2 ^ t
    rw [swapDigits]
    split <;> omega
  exact InvOn.bijOn ⟨fun r _ => swapDigits_swapDigits l₀ l j r,
    fun r _ => swapDigits_swapDigits l₀ l j r⟩ hmaps hmaps

theorem tableOfPerms_swapAt (ht : 1 ≤ t) (h : t ≤ n) (d l₀ : Nat) :
    TableOfPerms d (2 ^ n) (2 ^ t) (swapAt n t l₀) :=
  tableOfPerms_tableOf h fun l _ j _ => bijOn_swapDigits ht l₀ l j

/-- The layers of this table are the identity, but for layer `l₀`. -/
theorem layerMap_swapAt (h : t ≤ n) {s : Nat} (hs : s + t ≤ n) {l : Nat} (hl : l ≠ l₀) :
    EqOn (layerMap t s (subpermAt (2 ^ n) (2 ^ t) (swapAt n t l₀) l)) id (Iio (2 ^ n)) := by
  intro k hk
  refine (layerMap_tableOf h hs l hk).trans ?_
  show (digitLayout hs).place ((digitLayout hs).block k)
    (swapDigits l₀ l ((digitLayout hs).block k) ((digitLayout hs).digit k)) = k
  rw [swapDigits, if_neg fun h => hl h.1, (digitLayout hs).place_block_digit hk]

/-- Layer `l₀` moves position 0 by one digit, that is by `2 ^ s`. -/
theorem layerMap_swapAt_zero (h : t ≤ n) {s : Nat} (hs : s + t ≤ n) (l₀ : Nat) :
    layerMap t s (subpermAt (2 ^ n) (2 ^ t) (swapAt n t l₀) l₀) 0 = 2 ^ s := by
  refine (layerMap_tableOf h hs l₀ (Nat.two_pow_pos n)).trans ?_
  have hplace : (digitLayout hs).place 0 0 = 0 := by
    show 0 / 2 ^ s * (2 ^ s * 2 ^ t) + 0 * 2 ^ s + 0 % 2 ^ s = 0
    simp
  have hswap : swapDigits l₀ l₀ 0 0 = 1 := if_pos ⟨rfl, rfl, Nat.two_pos⟩
  have hmove : layerMap t s (swapDigits l₀ l₀) ((digitLayout hs).place 0 0)
      = (digitLayout hs).place 0 (swapDigits l₀ l₀ 0 0) :=
    (digitLayout hs).layer_place (Nat.two_pow_pos (n - t)) (Nat.two_pow_pos t)
  rw [hplace, hswap] at hmove
  refine hmove.trans ?_
  show 0 / 2 ^ s * (2 ^ s * 2 ^ t) + 1 * 2 ^ s + 0 % 2 ^ s = 2 ^ s
  simp

end

/-! ## Rounded down

The running length comes down to `n % t` in the middle and goes up again.
Below it the layers agree with the closed form; in the middle they do not. -/

/-- The layers fit. -/
theorem floor_layers {n t : Nat} (ht : 1 ≤ t) (h : t ≤ n) :
    (2 * (n / t) - 1) / 2 * t + t ≤ n :=
  (half_layers (Nat.div_pos h ht)).trans (Nat.div_mul_le_self n t)

/-- Where `t` does not divide `n` and there are several layers, the swap in the
middle tells the two apart. -/
theorem not_composes_swapAt {n t : Nat} (ht : 1 ≤ t) (h : t ≤ n) (hdvd : ¬ t ∣ n)
    (hm : n / t ≠ 1) (perm : Nat → Nat) :
    ¬ Composes (2 * (n / t) - 1) n t (swapAt n t (n / t - 1)) perm := by
  have hpos : 1 ≤ n / t := Nat.div_pos h ht
  have hn := floor_layers ht h
  have hmid : (2 * (n / t) - 1) / 2 = n / t - 1 := by omega
  have hl₀ : n / t - 1 < 2 * (n / t) - 1 := by omega
  have hperms := tableOfPerms_swapAt ht h (2 * (n / t) - 1) (n / t - 1)
  have hrest : 0 < n % t := Nat.pos_of_ne_zero fun h0 => hdvd (Nat.dvd_of_mod_eq_zero h0)
  -- the middle suffix lengths: `n % t` running, 0 closed
  have hrun : runningSuffixLen (n / t - 1) (2 * (n / t) - 1) n t = n % t := by
    rw [runningSuffixLen, if_pos (by omega)]
    have hsum : (n / t - 1) * t + t + n % t = n := by
      rw [← Nat.succ_mul, Nat.succ_eq_add_one, Nat.sub_add_cancel hpos, Nat.mul_comm,
        Nat.div_add_mod]
    omega
  have hclosed : layerSuffixLen (n / t - 1) (2 * (n / t) - 1) n t = 0 := by
    rw [layerSuffixLen, hmid, if_neg (Nat.lt_irrefl _), if_pos rfl]
  rw [composes_iff hn (by omega) hperms]
  intro heq
  have hleft := layers_single (σ := layerMaps (2 * (n / t) - 1) n t (swapAt n t (n / t - 1))) hl₀
    (mapsTo_layerMap (runningSuffixLen_le hn _) fun _ hj => (hperms.bijOn h hl₀ hj).mapsTo)
    fun l _ hl => layerMap_swapAt h (runningSuffixLen_le hn l) hl
  have hright := layers_single (σ := closedMaps (2 * (n / t) - 1) n t (swapAt n t (n / t - 1))) hl₀
    (mapsTo_closedMaps hn hperms hl₀)
    fun l _ hl => layerMap_swapAt h (layerSuffixLen_toNat hn l).2 hl
  have h0 : (0 : Nat) ∈ Iio (2 ^ n) := Nat.two_pow_pos n
  have hrun0 := layerMap_swapAt_zero h (runningSuffixLen_le hn (n / t - 1)) (n / t - 1)
  have hclosed0 := layerMap_swapAt_zero h (layerSuffixLen_toNat hn (n / t - 1)).2 (n / t - 1)
  have hone : 2 ^ (n % t) = 1 := by
    rw [← hrun, ← hrun0]
    refine (hleft h0).symm.trans ((heq h0).trans ((hright h0).trans (hclosed0.trans ?_)))
    rw [hclosed]
    rfl
  exact absurd hone (Nat.one_lt_two_pow (by omega)).ne'

/-- With the layer count of `Offline`, `PermReconstruct` composes the layers of
every table exactly when `t` divides `n` or there is one layer. -/
theorem permReconstruct_composes_iff (n t : Nat) (ht : 1 ≤ t) (h : t ≤ n) :
    (∀ perms perm, TableOfPerms (2 * (n / t) - 1) (2 ^ n) (2 ^ t) perms →
        Composes (2 * (n / t) - 1) n t perms perm) ↔
      t ∣ n ∨ n / t = 1 := by
  constructor
  · intro hall
    by_contra hnot
    rw [not_or] at hnot
    exact not_composes_swapAt ht h hnot.1 hnot.2 id (hall _ id (tableOfPerms_swapAt ht h _ _))
  · intro hcond perms perm hperms
    by_cases hm : n / t = 1
    · rw [hm] at hperms ⊢
      exact composes_single h hperms perm
    · obtain ⟨m, rfl⟩ : ∃ m, n = m * t :=
        ⟨n / t, (Nat.div_mul_cancel (hcond.resolve_right hm)).symm⟩
      have hpos : 1 ≤ m * t / t := Nat.div_pos h ht
      rw [Nat.mul_div_cancel m ht] at hm hpos hperms ⊢
      rw [composes_iff (half_layers hpos) (by omega) hperms, layerMaps_eq_closedMaps hpos]
      exact eqOn_refl _ _

/-- Sixteen positions, digits of two bits. -/
theorem permReconstruct_composes_iff_sample :
    Composes (2 * (4 / 2) - 1) 4 2 (swapAt 4 2 1) id :=
  (permReconstruct_composes_iff 4 2 (by decide) (by decide)).mpr (.inl (by decide)) _ id
    (tableOfPerms_swapAt (by decide) (by decide) _ 1)

/-- Thirty-two positions, digits of two bits: one bit is left over. -/
theorem permReconstruct_not_composes :
    TableOfPerms (2 * (5 / 2) - 1) (2 ^ 5) (2 ^ 2) (swapAt 5 2 1) ∧
      ¬ Composes (2 * (5 / 2) - 1) 5 2 (swapAt 5 2 1) id :=
  ⟨tableOfPerms_swapAt (by decide) (by decide) _ 1,
    not_composes_swapAt (by decide) (by decide) (by decide) (by decide) id⟩

/-! ## Rounded up

One layer more on either side takes the running length below zero.  Nothing a
table holds can prevent the shift. -/

/-- The `d` of `RunBenchmarkCase`, `2 * ⌈n / t⌉ - 1`. -/
def benchmarkLayers (n t : Nat) : Nat := 2 * ((n + t - 1) / t) - 1

theorem benchmarkLayers_of_dvd {m t : Nat} (ht : 1 ≤ t) :
    benchmarkLayers (m * t) t = 2 * m - 1 := by
  have hceil : (m * t + t - 1) / t = m := by
    rw [Nat.add_sub_assoc ht, Nat.mul_comm, Nat.mul_add_div ht, Nat.div_eq_of_lt (by omega),
      Nat.add_zero]
  rw [benchmarkLayers, hceil]

theorem benchmarkLayers_of_not_dvd {n t : Nat} (ht : 1 ≤ t) (hdvd : ¬ t ∣ n) :
    benchmarkLayers n t = 2 * (n / t) + 1 := by
  have hrest : 0 < n % t := Nat.pos_of_ne_zero fun h0 => hdvd (Nat.dvd_of_mod_eq_zero h0)
  have hsum : n + t - 1 = t * (n / t + 1) + (n % t - 1) := by
    have := Nat.div_add_mod n t
    rw [Nat.mul_succ]
    omega
  have hlow : n % t - 1 < t := by
    have := Nat.mod_lt n ht
    omega
  have hceil : (n + t - 1) / t = n / t + 1 := by
    rw [hsum, Nat.mul_add_div ht, Nat.div_eq_of_lt hlow, Nat.add_zero]
  rw [benchmarkLayers, hceil]
  omega

/-- Whatever the table, a loop over `i` layers that comes back has lowered the
suffix length `i` times. -/
theorem firstLoop_suffixLen {N T t : Nat} {perms : Nat → Nat} {i : Nat}
    {s s' : Int × (Nat → Nat)}
    (h : (List.range i).foldlM (firstPass N T t perms) s = some s') : s'.1 = s.1 - i * t := by
  induction i generalizing s' with
  | zero =>
      cases h
      simp
  | succ i ih =>
      rw [List.range_succ, List.foldlM_append] at h
      obtain ⟨u, hu, hlast⟩ := Option.bind_eq_some_iff.mp h
      have hu := ih hu
      simp only [List.foldlM_cons, List.foldlM_nil, firstPass, Option.bind_eq_bind,
        Option.pure_def, Option.bind_some, Option.bind_assoc] at hlast
      obtain ⟨v, _, hv⟩ := Option.bind_eq_some_iff.mp hlast
      rw [← Option.some_inj.mp hv]
      show u.1 - t = s.1 - (i + 1 : Nat) * t
      rw [hu]
      push_cast
      ring

/-- Where `t` does not divide `n`, the middle layer is reached with a negative
suffix length. -/
theorem permReconstruct_eq_none {n t : Nat} (ht : 1 ≤ t) (h : t ≤ n) (hdvd : ¬ t ∣ n)
    (perms perm : Nat → Nat) :
    permReconstruct (benchmarkLayers n t) (2 ^ n) (2 ^ t) n t perms perm = none := by
  have hpos : 1 ≤ n / t := Nat.div_pos h ht
  have hhalf : (2 * (n / t) + 1) / 2 = n / t := by omega
  have hshort : (n : Int) - t - (n / t : Nat) * t < 0 := by
    have hdiv : ((n / t : Nat) : Int) * t + (n % t : Nat) = n := by
      rw [← Nat.cast_mul, ← Nat.cast_add, Nat.mul_comm, Nat.div_add_mod]
    have := Nat.mod_lt n ht
    omega
  rw [benchmarkLayers_of_not_dvd ht hdvd, permReconstruct, if_neg (by omega), hhalf]
  cases hfirst : (List.range (n / t)).foldlM (firstPass (2 ^ n) (2 ^ t) t perms)
      ((n : Int) - t, fun i => i) with
  | none => rfl
  | some s =>
      have hsuf : s.1 < 0 := (firstLoop_suffixLen hfirst).trans_lt hshort
      have hblocks : 0 < 2 ^ n / 2 ^ t := by
        rw [blocks_div h]
        exact Nat.two_pow_pos (n - t)
      simp only [Option.bind_eq_bind, Option.bind_some, permLayer, if_pos (And.intro hblocks hsuf),
        Option.bind_none]

/-- Where it does, the layers compose to a permutation of the positions. -/
theorem permReconstruct_bijOn {m t : Nat} (hm : 1 ≤ m) {perms : Nat → Nat}
    (hperms : TableOfPerms (2 * m - 1) (2 ^ (m * t)) (2 ^ t) perms) (perm : Nat → Nat) :
    ∃ perm', permReconstruct (2 * m - 1) (2 ^ (m * t)) (2 ^ t) (m * t) t perms perm = some perm' ∧
      BijOn perm' (Iio (2 ^ (m * t))) (Iio (2 ^ (m * t))) := by
  obtain ⟨perm', hperm', heq⟩ := permReconstruct_layers hm hperms perm
  exact ⟨perm', hperm', heq.bijOn_iff.mpr (bijOn_layers fun l hl => bijOn_layerOf hm hperms hl)⟩

/-- With the layer count of the benchmark, `PermReconstruct` stays in range and
leaves a permutation exactly when `t` divides `n`.  The branch for one layer
makes no shift; what it writes is in range by the first part. -/
theorem permReconstruct_inRange_iff (n t : Nat) (ht : 1 ≤ t) (h : t ≤ n) (perms perm : Nat → Nat)
    (hperms : TableOfPerms (benchmarkLayers n t) (2 ^ n) (2 ^ t) perms) :
    (∀ j < 2 ^ n / 2 ^ t, ∀ i < 2 ^ t, j * 2 ^ t + i < 2 ^ n) ∧
      ((∃ perm', permReconstruct (benchmarkLayers n t) (2 ^ n) (2 ^ t) n t perms perm = some perm' ∧
          BijOn perm' (Iio (2 ^ n)) (Iio (2 ^ n))) ↔
        t ∣ n) := by
  constructor
  · rw [blocks_div h]
    exact fun j hj i hi => entry_lt h hj hi
  · constructor
    · rintro ⟨perm', hperm', _⟩
      by_contra hdvd
      rw [permReconstruct_eq_none ht h hdvd] at hperm'
      cases hperm'
    · intro hdvd
      obtain ⟨m, rfl⟩ : ∃ m, n = m * t := ⟨n / t, (Nat.div_mul_cancel hdvd).symm⟩
      rw [benchmarkLayers_of_dvd ht] at hperms ⊢
      exact permReconstruct_bijOn (Nat.pos_of_mul_pos_right (ht.trans h)) hperms perm

/-- Sixteen positions, digits of two bits, the swap in the middle. -/
theorem permReconstruct_inRange_iff_sample :
    ∃ perm',
      permReconstruct (benchmarkLayers 4 2) (2 ^ 4) (2 ^ 2) 4 2 (swapAt 4 2 1) id = some perm' ∧
        BijOn perm' (Iio (2 ^ 4)) (Iio (2 ^ 4)) :=
  (permReconstruct_inRange_iff 4 2 (by decide) (by decide) (swapAt 4 2 1) id
    (tableOfPerms_swapAt (by decide) (by decide) _ 1)).2.mpr (by decide)

/-- Eight positions, digits of two bits: a negative shift. -/
theorem permReconstruct_not_inRange :
    TableOfPerms (benchmarkLayers 3 2) (2 ^ 3) (2 ^ 2) (swapAt 3 2 1) ∧
      permReconstruct (benchmarkLayers 3 2) (2 ^ 3) (2 ^ 2) 3 2 (swapAt 3 2 1) id = none :=
  ⟨tableOfPerms_swapAt (by decide) (by decide) _ 1,
    permReconstruct_eq_none (by decide) (by decide) (by decide) _ _⟩

end PSVFSS

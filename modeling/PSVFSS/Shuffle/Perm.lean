/-
# `Shuffle.Perm` — from sub-permutations to a permutation

`N = 2^n` positions are permuted in `d` layers.  A layer splits a position
into prefix, digit and suffix, and a sub-permutation of `T = 2^t` digits acts
on the middle for every prefix and suffix.  `PermReconstruct` runs through all
layers with a running suffix length, `SubPermReconstruct` rebuilds one layer
from a closed form.

    subPerm_spec           one sub-permutation moves one block
    permLayer_spec         a whole layer is `layerMap`
    permReconstruct_spec   all layers compose
-/
import PSVFSS.Lib.Loop
import PSVFSS.Lib.Network

namespace PSVFSS

open Loop Network Set

/-! ## Index arithmetic -/

def cappedSuffixLen (rawSuffixLen : Int) (n t : Nat) : Int := min rawSuffixLen (n - t)

def lowMask (bits : Nat) : Nat := if bits = 0 then 0 else (1 <<< bits) - 1

/-- The offset `LocateVector` adds to its array. -/
def locateVector (y z i j : Nat) : Nat := i * y * z + j * z

/-- Prefix, digit and suffix put together. -/
def digitIndex (t suffixLen pre x suf : Nat) : Nat :=
  (pre <<< (t + suffixLen)) ||| (x <<< suffixLen) ||| suf

/-! ## The loops

Positions are read and written in an array, and an access outside it is an
error.  The suffix length is an `int` that is decreased in every pass of the
first loop and increased in every pass of the last. -/

/-- `SubPerm`.  `none`: a position at or beyond `N` was read or written. -/
def subPerm (N T t suffixLen pre suf : Nat) (perm v : Nat → Nat) : Option (Nat → Nat) :=
  if ∀ i < T,
      digitIndex t suffixLen pre (perm i) suf < N ∧ digitIndex t suffixLen pre i suf < N then
    let tmp := fun i => v (digitIndex t suffixLen pre (perm i) suf)
    some (forLoop T (fun i v => Function.update v (digitIndex t suffixLen pre i suf) (tmp i)) v)
  else none

/-- The loop over the sub-permutations `sub j` of one layer; `none` also for a
shift by a negative suffix length. -/
def permLayer (N T t subpermNum : Nat) (suffixLen : Int) (sub : Nat → Nat → Nat)
    (v : Nat → Nat) : Option (Nat → Nat) :=
  if 0 < subpermNum ∧ suffixLen < 0 then none
  else
    (List.range subpermNum).foldlM
      (fun v counter => subPerm N T t suffixLen.toNat (counter >>> suffixLen.toNat)
        (counter &&& lowMask suffixLen.toNat) (sub counter) v) v

/-- Sub-permutation `j` of layer `i` in the table `perms`. -/
def subpermAt (N T : Nat) (perms : Nat → Nat) (i j r : Nat) : Nat :=
  perms (locateVector (N / T) T i j + r)

/-- A pass of the loop over the first `d / 2` layers. -/
def firstPass (N T t : Nat) (perms : Nat → Nat) (s : Int × (Nat → Nat)) (i : Nat) :
    Option (Int × (Nat → Nat)) := do
  let perm ← permLayer N T t (N / T) s.1 (subpermAt N T perms i) s.2
  return (s.1 - t, perm)

/-- Pass `i` of the loop over the last `d / 2` layers, layer `d / 2 + 1 + i`. -/
def lastPass (d N T n t : Nat) (perms : Nat → Nat) (s : Int × (Nat → Nat)) (i : Nat) :
    Option (Int × (Nat → Nat)) := do
  let perm ← permLayer N T t (N / T) (cappedSuffixLen s.1 n t)
    (subpermAt N T perms (d / 2 + 1 + i)) s.2
  return (s.1 + t, perm)

def permReconstruct (d N T n t : Nat) (perms perm : Nat → Nat) : Option (Nat → Nat) :=
  let subpermNum := N / T
  if d = 1 then
    some (forLoop subpermNum (fun j perm =>
      forLoop T (fun i perm =>
        Function.update perm (j * T + i) (j * T + subpermAt N T perms 0 j i)) perm) perm)
  else do
    let first ← (List.range (d / 2)).foldlM (firstPass N T t perms) ((n : Int) - t, fun i => i)
    let middle ← permLayer N T t subpermNum first.1 (subpermAt N T perms (d / 2)) first.2
    let last ← (List.range (d - (d / 2 + 1))).foldlM (lastPass d N T n t perms)
      (first.1 + t, middle)
    return last.2

/-- The suffix length `SubPermReconstruct` and `Reallocate` use at a layer. -/
def layerSuffixLen (layer d n t : Nat) : Int :=
  if layer < d / 2 then (n : Int) - (layer + 1) * t
  else if layer = d / 2 then 0
  else cappedSuffixLen (((layer : Int) - (d / 2 : Nat)) * t) n t

/-- `SubPermReconstruct`, on the part of the table that belongs to the layer. -/
def subPermReconstruct (layer d N T n t : Nat) (perms : Nat → Nat) : Option (Nat → Nat) :=
  permLayer N T t (N / T) (layerSuffixLen layer d n t) (fun j r => perms (j * T + r)) fun i => i

/-! ## One layer

The blocks of a layer are the pairs of prefix and suffix; the loops visit them
one by one and write only inside each.  So the whole layer reads the array
through one map. -/

/-- The number of sub-permutations in a layer. -/
theorem blocks_div {n t : Nat} (h : t ≤ n) : 2 ^ n / 2 ^ t = 2 ^ (n - t) :=
  Nat.pow_div h Nat.two_pos

/-- Digit `r` of block `j`, counted block by block. -/
theorem entry_lt {n t j r : Nat} (h : t ≤ n) (hj : j < 2 ^ (n - t)) (hr : r < 2 ^ t) :
    j * 2 ^ t + r < 2 ^ n := by
  calc j * 2 ^ t + r < (j + 1) * 2 ^ t := by
        rw [Nat.succ_mul]
        omega
    _ ≤ 2 ^ (n - t) * 2 ^ t := Nat.mul_le_mul_right _ hj
    _ = 2 ^ n := by rw [← Nat.pow_add, Nat.sub_add_cancel h]

/-- The layout of a layer with suffixes of `s` bits. -/
def digitLayout {n t s : Nat} (h : s + t ≤ n) :
    Layout (Iio (2 ^ n)) (Iio (2 ^ (n - t))) (Iio (2 ^ t)) :=
  (threeDigits (2 ^ s) (2 ^ t) (2 ^ (n - t - s)) (Nat.two_pow_pos s) (Nat.two_pow_pos t)).congr
    (congrArg Iio (by
      rw [← Nat.pow_add, ← Nat.pow_add]
      congr 1
      omega))
    (congrArg Iio (by
      rw [← Nat.pow_add]
      congr 1
      omega))

/-- The map of one layer. -/
def layerMap (t s : Nat) (sub : Nat → Nat → Nat) : Nat → Nat :=
  (threeDigits (2 ^ s) (2 ^ t) 1 (Nat.two_pow_pos s) (Nat.two_pow_pos t)).layer sub

section
variable {n t s : Nat} (h : s + t ≤ n)

theorem lowMask_and (j s : Nat) : j &&& lowMask s = j % 2 ^ s := by
  rw [lowMask]
  split
  case isTrue hs =>
      subst hs
      simp [Nat.mod_one]
  case isFalse => rw [Nat.one_shiftLeft, Nat.and_two_pow_sub_one_eq_mod]

include h

/-- The bit operations place digit `x` of block `j`. -/
theorem digitIndex_eq (j : Nat) {x : Nat} (hx : x < 2 ^ t) :
    digitIndex t s (j >>> s) x (j &&& lowMask s) = (digitLayout h).place j x := by
  have hsuf : j % 2 ^ s < 2 ^ s := Nat.mod_lt j (Nat.two_pow_pos s)
  have hmid : x <<< s ||| j % 2 ^ s = x <<< s + j % 2 ^ s :=
    (Nat.shiftLeft_add_eq_or_of_lt hsuf x).symm
  have hlow : x <<< s + j % 2 ^ s < 2 ^ (t + s) := by
    rw [Nat.shiftLeft_eq, Nat.pow_add]
    calc x * 2 ^ s + j % 2 ^ s < x * 2 ^ s + 2 ^ s := by omega
      _ = (x + 1) * 2 ^ s := by ring
      _ ≤ 2 ^ t * 2 ^ s := Nat.mul_le_mul_right _ hx
  rw [digitIndex, lowMask_and, Nat.or_assoc, hmid, ← Nat.shiftLeft_add_eq_or_of_lt hlow,
    Nat.shiftLeft_eq, Nat.shiftLeft_eq, Nat.shiftRight_eq_div_pow]
  show _ = j / 2 ^ s * (2 ^ s * 2 ^ t) + x * 2 ^ s + j % 2 ^ s
  rw [Nat.pow_add]
  ring

theorem mapsTo_layerMap {sub : Nat → Nat → Nat}
    (hsub : ∀ j < 2 ^ (n - t), MapsTo (sub j) (Iio (2 ^ t)) (Iio (2 ^ t))) :
    MapsTo (layerMap t s sub) (Iio (2 ^ n)) (Iio (2 ^ n)) :=
  (digitLayout h).mapsTo_layer hsub

theorem bijOn_layerMap {sub : Nat → Nat → Nat}
    (hsub : ∀ j < 2 ^ (n - t), BijOn (sub j) (Iio (2 ^ t)) (Iio (2 ^ t))) :
    BijOn (layerMap t s sub) (Iio (2 ^ n)) (Iio (2 ^ n)) :=
  (digitLayout h).bijOn_layer hsub

/-- Only the blocks and digits of the positions count. -/
theorem layerMap_congr {sub sub' : Nat → Nat → Nat}
    (hsub : ∀ j < 2 ^ (n - t), EqOn (sub j) (sub' j) (Iio (2 ^ t))) :
    EqOn (layerMap t s sub) (layerMap t s sub') (Iio (2 ^ n)) := by
  intro k hk
  have hblock : (digitLayout h).block k < 2 ^ (n - t) := (digitLayout h).block_mem hk
  exact congrArg ((digitLayout h).place _) (hsub _ hblock ((digitLayout h).digit_mem hk))

/-- One sub-permutation replaces the entries of its block. -/
theorem subPerm_spec {j : Nat} (hj : j < 2 ^ (n - t)) {perm : Nat → Nat}
    (hperm : MapsTo perm (Iio (2 ^ t)) (Iio (2 ^ t))) (v : Nat → Nat) :
    ∃ v', subPerm (2 ^ n) (2 ^ t) t s (j >>> s) (j &&& lowMask s) perm v = some v' ∧
      (∀ x < 2 ^ t, v' ((digitLayout h).place j x) = v ((digitLayout h).place j (perm x))) ∧
      ∀ k, (∀ x < 2 ^ t, k ≠ (digitLayout h).place j x) → v' k = v k := by
  have hplace : ∀ x < 2 ^ t,
      digitIndex t s (j >>> s) x (j &&& lowMask s) = (digitLayout h).place j x :=
    fun x hx => digitIndex_eq h j hx
  have hin : ∀ x < 2 ^ t, digitIndex t s (j >>> s) x (j &&& lowMask s) < 2 ^ n := by
    intro x hx
    rw [hplace x hx]
    exact (digitLayout h).place_mem hj hx
  refine ⟨_, if_pos fun i hi => ⟨hin _ (hperm hi), hin i hi⟩, ?_, ?_⟩
  · intro x hx
    rw [← hplace x hx, ← hplace _ (hperm hx)]
    refine forLoop_scatter (fun i hi i' hi' heq => ?_) hx
    rw [hplace i hi, hplace i' hi'] at heq
    exact ((digitLayout h).place_injective hj hi hj hi' heq).2
  · intro k hk
    refine forLoop_scatter_of_ne ?_
    intro i hi
    rw [hplace i hi]
    exact hk i hi

/-- Before sub-permutation `m`, the first `m` blocks have been read through
`layerMap`, and the others are as they were. -/
theorem subPerm_step {sub : Nat → Nat → Nat}
    (hsub : ∀ j < 2 ^ (n - t), MapsTo (sub j) (Iio (2 ^ t)) (Iio (2 ^ t))) {v w : Nat → Nat}
    {m : Nat} (hm : m < 2 ^ (n - t))
    (hw : ∀ k < 2 ^ n, w k = if (digitLayout h).block k < m then v (layerMap t s sub k) else v k) :
    ∃ w', subPerm (2 ^ n) (2 ^ t) t s (m >>> s) (m &&& lowMask s) (sub m) w = some w' ∧
      ∀ k < 2 ^ n,
        w' k = if (digitLayout h).block k < m + 1 then v (layerMap t s sub k) else v k := by
  obtain ⟨w', hw', hin, hout⟩ := subPerm_spec h hm (hsub m hm) w
  refine ⟨w', hw', ?_⟩
  intro k hk
  by_cases hblock : (digitLayout h).block k = m
  · -- the source entry lies in block `m` too, so no pass has moved it yet
    have hdigit := (digitLayout h).digit_mem hk
    have hback := (digitLayout h).place_block_digit hk
    have hlt : layerMap t s sub k < 2 ^ n := mapsTo_layerMap h hsub hk
    have hsrc : (digitLayout h).place m (sub m ((digitLayout h).digit k)) = layerMap t s sub k := by
      rw [← hblock]
      rfl
    have hsame : (digitLayout h).block (layerMap t s sub k) = m := by
      rw [← hsrc, (digitLayout h).block_place hm (hsub m hm hdigit)]
    rw [hblock] at hback
    rw [if_pos (by omega), ← hback, hin _ hdigit, hback, hsrc, hw _ hlt, hsame,
      if_neg (Nat.lt_irrefl m)]
  · have hne : ∀ x < 2 ^ t, k ≠ (digitLayout h).place m x := by
      rintro x hx rfl
      exact hblock ((digitLayout h).block_place hm hx)
    rw [hout k hne, hw k hk]
    by_cases hlt : (digitLayout h).block k < m
    · rw [if_pos hlt, if_pos (by omega)]
    · rw [if_neg hlt, if_neg (by omega)]

/-- A layer reads every entry through `layerMap`. -/
theorem permLayer_spec {sub : Nat → Nat → Nat}
    (hsub : ∀ j < 2 ^ (n - t), MapsTo (sub j) (Iio (2 ^ t)) (Iio (2 ^ t))) (v : Nat → Nat) :
    ∃ v', permLayer (2 ^ n) (2 ^ t) t (2 ^ (n - t)) (s : Int) sub v = some v' ∧
      EqOn v' (v ∘ layerMap t s sub) (Iio (2 ^ n)) := by
  have hneg : ¬(0 < 2 ^ (n - t) ∧ (s : Int) < 0) := fun h =>
    absurd h.2 (Int.natCast_nonneg s).not_gt
  simp only [permLayer, if_neg hneg, Int.toNat_natCast]
  obtain ⟨v', hv', hdone⟩ := foldlM_range (n := 2 ^ (n - t))
    (P := fun m w => ∀ k < 2 ^ n,
      w k = if (digitLayout h).block k < m then v (layerMap t s sub k) else v k)
    (s := v) (fun k _ => (if_neg (Nat.not_lt_zero _)).symm)
    fun m hm w hw => subPerm_step h hsub hm hw
  refine ⟨v', hv', ?_⟩
  intro k hk
  have hblock : (digitLayout h).block k < 2 ^ (n - t) := (digitLayout h).block_mem hk
  rw [hdone k hk, if_pos hblock]
  rfl

/-- A pass over layer `l` adds it to the composition. -/
theorem permLayer_layers {σ : Nat → Nat → Nat} {l : Nat} {suffixLen : Int}
    (hs : suffixLen = (s : Int)) {sub : Nat → Nat → Nat} (hσ : σ l = layerMap t s sub)
    (hsub : ∀ j < 2 ^ (n - t), MapsTo (sub j) (Iio (2 ^ t)) (Iio (2 ^ t))) {v : Nat → Nat}
    (hv : EqOn v (layers σ l) (Iio (2 ^ n))) :
    ∃ v', permLayer (2 ^ n) (2 ^ t) t (2 ^ (n - t)) suffixLen sub v = some v' ∧
      EqOn v' (layers σ (l + 1)) (Iio (2 ^ n)) := by
  subst hs
  obtain ⟨v', hv', heq⟩ := permLayer_spec h hsub v
  refine ⟨v', hv', ?_⟩
  intro k hk
  rw [heq hk]
  show v (layerMap t s sub k) = layers σ l (σ l k)
  rw [hσ]
  exact hv (mapsTo_layerMap h hsub hk)

end

/-! ## All layers

The suffix length at the start of each pass is a function of the layer, which
makes the two loops one composition. -/

/-- The suffix length of layer `l` in `PermReconstruct`: it runs down to the
middle layer and up again, capped. -/
def runningSuffixLen (l d n t : Nat) : Nat :=
  if l ≤ d / 2 then n - t - l * t else min (n - t - d / 2 * t + (l - d / 2) * t) (n - t)

theorem cappedSuffixLen_natCast {x n t : Nat} (h : t ≤ n) :
    cappedSuffixLen (x : Int) n t = (min x (n - t) : Nat) := by
  rw [cappedSuffixLen]
  omega

section
variable {d n t : Nat} (hn : d / 2 * t + t ≤ n) {perms : Nat → Nat}
include hn

theorem runningSuffixLen_le (l : Nat) : runningSuffixLen l d n t + t ≤ n := by
  rw [runningSuffixLen]
  split
  · omega
  · have := Nat.min_le_right (n - t - d / 2 * t + (l - d / 2) * t) (n - t)
    omega

/-- The maps `PermReconstruct` composes. -/
def layerMaps (d n t : Nat) (perms : Nat → Nat) (l : Nat) : Nat → Nat :=
  layerMap t (runningSuffixLen l d n t) (subpermAt (2 ^ n) (2 ^ t) perms l)

section
variable (hsub : ∀ l < d, ∀ j < 2 ^ (n - t),
  MapsTo (subpermAt (2 ^ n) (2 ^ t) perms l j) (Iio (2 ^ t)) (Iio (2 ^ t)))
include hsub

theorem permLayer_step {l : Nat} (hl : l < d) {suffixLen : Int}
    (hs : suffixLen = (runningSuffixLen l d n t : Int)) {v : Nat → Nat}
    (hv : EqOn v (layers (layerMaps d n t perms) l) (Iio (2 ^ n))) :
    ∃ v', permLayer (2 ^ n) (2 ^ t) t (2 ^ n / 2 ^ t) suffixLen
        (subpermAt (2 ^ n) (2 ^ t) perms l) v = some v' ∧
      EqOn v' (layers (layerMaps d n t perms) (l + 1)) (Iio (2 ^ n)) := by
  rw [blocks_div (by omega)]
  exact permLayer_layers (runningSuffixLen_le hn l) hs rfl (hsub l hl) hv

/-- Down to the middle layer. -/
theorem firstLoop_spec :
    ∃ s, (List.range (d / 2)).foldlM (firstPass (2 ^ n) (2 ^ t) t perms)
        ((n : Int) - t, fun i => i) = some s ∧
      s.1 = (n : Int) - t - (d / 2 : Nat) * t ∧
      EqOn s.2 (layers (layerMaps d n t perms) (d / 2)) (Iio (2 ^ n)) := by
  refine foldlM_range (P := fun i (s : Int × (Nat → Nat)) =>
    s.1 = (n : Int) - t - i * t ∧ EqOn s.2 (layers (layerMaps d n t perms) i) (Iio (2 ^ n)))
    ⟨by simp, fun _ _ => rfl⟩ fun i hi s hs => ?_
  have hle : i * t ≤ d / 2 * t := Nat.mul_le_mul_right t (Nat.le_of_lt hi)
  have hlen : s.1 = (runningSuffixLen i d n t : Int) := by
    rw [hs.1, runningSuffixLen, if_pos (Nat.le_of_lt hi)]
    push_cast [Nat.sub_sub, Nat.cast_sub (show t + i * t ≤ n by omega)]
    ring
  obtain ⟨v', hv', heq⟩ := permLayer_step hn hsub (by omega) hlen hs.2
  refine ⟨(s.1 - t, v'), by rw [firstPass, hv']; rfl, ?_, heq⟩
  show s.1 - t = (n : Int) - t - (i + 1 : Nat) * t
  rw [hs.1]
  push_cast
  ring

/-- And up again. -/
theorem lastLoop_spec (hd : 1 < d) {suffixLen : Int} {v : Nat → Nat}
    (hsuf : suffixLen = (n : Int) - t - (d / 2 : Nat) * t + t)
    (hperm : EqOn v (layers (layerMaps d n t perms) (d / 2 + 1)) (Iio (2 ^ n))) :
    ∃ s, (List.range (d - (d / 2 + 1))).foldlM (lastPass d (2 ^ n) (2 ^ t) n t perms) (suffixLen, v)
        = some s ∧
      EqOn s.2 (layers (layerMaps d n t perms) d) (Iio (2 ^ n)) := by
  have hstep : ∀ i < d - (d / 2 + 1), ∀ s : Int × (Nat → Nat),
      (s.1 = (n : Int) - t - (d / 2 : Nat) * t + (i + 1 : Nat) * t ∧
        EqOn s.2 (layers (layerMaps d n t perms) (d / 2 + 1 + i)) (Iio (2 ^ n))) →
      ∃ s', lastPass d (2 ^ n) (2 ^ t) n t perms s i = some s' ∧
        (s'.1 = (n : Int) - t - (d / 2 : Nat) * t + (i + 1 + 1 : Nat) * t ∧
          EqOn s'.2 (layers (layerMaps d n t perms) (d / 2 + 1 + (i + 1))) (Iio (2 ^ n))) := by
    intro i hi s hs
    have hcast : s.1 = (n - t - d / 2 * t + (i + 1) * t : Nat) := by
      rw [hs.1]
      push_cast [Nat.sub_sub, Nat.cast_sub (show t + d / 2 * t ≤ n by omega)]
      ring
    have hlen : cappedSuffixLen s.1 n t = (runningSuffixLen (d / 2 + 1 + i) d n t : Int) := by
      rw [hcast, runningSuffixLen, if_neg (by omega), cappedSuffixLen_natCast (by omega),
        show d / 2 + 1 + i - d / 2 = i + 1 by omega]
    obtain ⟨v', hv', heq⟩ := permLayer_step hn hsub (by omega) hlen hs.2
    refine ⟨(s.1 + t, v'), by rw [lastPass, hv']; rfl, ?_, heq⟩
    show s.1 + t = (n : Int) - t - (d / 2 : Nat) * t + (i + 1 + 1 : Nat) * t
    rw [hs.1]
    push_cast
    ring
  obtain ⟨s, hs, _, hdone⟩ := foldlM_range (s := (suffixLen, v)) ⟨by rw [hsuf]; simp, hperm⟩ hstep
  refine ⟨s, hs, ?_⟩
  rwa [show d / 2 + 1 + (d - (d / 2 + 1)) = d by omega] at hdone

/-- `PermReconstruct` returns the composition of the layers. -/
theorem permReconstruct_spec (hd : 1 < d) (perm : Nat → Nat) :
    ∃ perm', permReconstruct d (2 ^ n) (2 ^ t) n t perms perm = some perm' ∧
      EqOn perm' (layers (layerMaps d n t perms) d) (Iio (2 ^ n)) := by
  obtain ⟨first, hfirst, hsuf, hperm⟩ := firstLoop_spec hn hsub
  have hlen : first.1 = (runningSuffixLen (d / 2) d n t : Int) := by
    rw [hsuf, runningSuffixLen, if_pos (Nat.le_refl _)]
    push_cast [Nat.sub_sub, Nat.cast_sub (show t + d / 2 * t ≤ n by omega)]
    ring
  obtain ⟨middle, hmiddle, hmid⟩ := permLayer_step hn hsub (by omega) hlen hperm
  have hback : first.1 + t = (n : Int) - t - (d / 2 : Nat) * t + t := by rw [hsuf]
  obtain ⟨last, hlast, hdone⟩ := lastLoop_spec hn hsub hd hback hmid
  refine ⟨last.2, ?_, hdone⟩
  rw [permReconstruct, if_neg (by omega)]
  simp only [Option.bind_eq_bind, hfirst, Option.bind_some, hmiddle, hlast]
  rfl

end

end

/-- `SubPermReconstruct` returns its layer. -/
theorem subPermReconstruct_spec {layer d n t s : Nat} (h : s + t ≤ n)
    (hs : layerSuffixLen layer d n t = (s : Int)) {perms : Nat → Nat}
    (hsub : ∀ j < 2 ^ (n - t),
      MapsTo (fun r => perms (j * 2 ^ t + r)) (Iio (2 ^ t)) (Iio (2 ^ t))) :
    ∃ perm, subPermReconstruct layer d (2 ^ n) (2 ^ t) n t perms = some perm ∧
      EqOn perm (layerMap t s fun j r => perms (j * 2 ^ t + r)) (Iio (2 ^ n)) := by
  rw [subPermReconstruct, hs, blocks_div (by omega)]
  exact permLayer_spec h hsub fun i => i

/-- Where the digits fill the positions exactly, the running and the closed
suffix lengths agree at every layer. -/
theorem layerSuffixLen_eq {l m t : Nat} (hm : 1 ≤ m) :
    layerSuffixLen l (2 * m - 1) (m * t) t = (runningSuffixLen l (2 * m - 1) (m * t) t : Int) := by
  obtain ⟨m, rfl⟩ := Nat.exists_eq_add_of_le' hm
  have hd : (2 * (m + 1) - 1) / 2 = m := by omega
  rw [layerSuffixLen, runningSuffixLen, hd]
  have hn : (m + 1) * t = m * t + t := Nat.succ_mul m t
  rcases Nat.lt_trichotomy l m with hl | rfl | hl
  · have hlt : l * t ≤ m * t := Nat.mul_le_mul_right t (Nat.le_of_lt hl)
    rw [if_pos hl, if_pos (Nat.le_of_lt hl), hn, Nat.add_sub_cancel, Nat.cast_sub hlt]
    push_cast
    ring
  · rw [if_neg (Nat.lt_irrefl l), if_pos rfl, if_pos (Nat.le_refl l), hn, Nat.add_sub_cancel,
      Nat.sub_self]
    rfl
  · have hcast : ((l : Int) - (m : Nat)) * t = ((l - m) * t : Nat) := by
      push_cast [Nat.cast_sub (Nat.le_of_lt hl)]
      ring
    rw [if_neg (by omega), if_neg (by omega), if_neg (by omega), hcast,
      cappedSuffixLen_natCast (by rw [hn]; exact Nat.le_add_left t _), hn, Nat.add_sub_cancel,
      Nat.sub_self, Nat.zero_add]

end PSVFSS

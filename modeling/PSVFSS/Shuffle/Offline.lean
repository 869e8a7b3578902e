/-
# `Shuffle.Offline` — share translation for the whole permutation

The share translations give each party, for each of its sub-permutations, a
difference `b - a ∘ sub` of vectors the peer holds.  `Offline` reorders them
by position (`reallocate`), rebuilds the layers, and exchanges the offsets
that carry the end of one layer to the start of the next.  What is left at a
party is the difference across all its layers (`offline_correlated`).
-/
import PSVFSS.Server.Cprs
import PSVFSS.Shuffle.Perm

namespace PSVFSS

open Loop Network Set TwoParty

/-! ## Vectors on the wire

A vector is sent as its first `N` entries; what the receiver has behind them
does not matter, as no one reads it. -/

/-- The vectors the parties exchange, `m` and `w` once a round. -/
inductive ShuffleTag where
  | offset
  | m (round : Nat)
  | w (round : Nat)
  deriving DecidableEq

/-- `send_block`: the first `n` entries. -/
def blocks (n : Nat) (v : Nat → Block) : List Block := (List.range n).map v

/-- `recv_block`. -/
def unblock (l : List Block) : Nat → Block := fun i => l.getD i 0

theorem unblock_blocks {n i : Nat} (hi : i < n) (v : Nat → Block) :
    unblock (blocks n v) i = v i := by
  rw [unblock, blocks, List.getD_eq_getElem _ _ (by simpa using hi), List.getElem_map,
    List.getElem_range]

/-! ## `Reallocate`, `SimplePerm`

The vectors of the share translations are in the order of the calls, block
after block.  Here they are put in the order of positions; the counter names
the block and goes up when its `T` entries are done. -/

/-- One pass of `Reallocate`, over the counter and the array being filled. -/
def reallocatePass (v : Nat → Block) (N T t suffixLen : Nat) (s : Nat × (Nat → Block)) (i : Nat) :
    Option (Nat × (Nat → Block)) :=
  let index := digitIndex t suffixLen (s.1 >>> suffixLen) (i % T) (s.1 &&& lowMask suffixLen)
  if index < N then
    some (if (i + 1) % T = 0 then s.1 + 1 else s.1, Function.update s.2 index (v i))
  else none

def reallocate (v : Nat → Block) (layer d N T n t : Nat) : Option (Nat → Block) :=
  let suffixLen := layerSuffixLen layer d n t
  if suffixLen < 0 then none
  else
    ((List.range N).foldlM (reallocatePass v N T t suffixLen.toNat) (0, fun _ => 0)).map fun s =>
      fun i => if i < N then s.2 i else v i

def simplePerm {α : Type} (N : Nat) (perm : Nat → Nat) (v : Nat → α) : Nat → α :=
  fun i => if i < N then v (perm i) else v i

theorem simplePerm_eq {α : Type} {N i : Nat} (perm : Nat → Nat) (v : Nat → α) (hi : i < N) :
    simplePerm N perm v i = v (perm i) := if_pos hi

theorem succ_div_eq (T i : Nat) :
    (i + 1) / T = if (i + 1) % T = 0 then i / T + 1 else i / T := by
  rw [Nat.succ_div]
  by_cases h : T ∣ i + 1
  · rw [if_pos h, if_pos (Nat.mod_eq_zero_of_dvd h)]
  · rw [if_neg h, if_neg fun h' => h (Nat.dvd_of_mod_eq_zero h'), Nat.add_zero]

section
variable {n t s : Nat} (h : s + t ≤ n)
include h

/-- Before pass `i` the counter is `i / T` and the first `i` entries are in
their places. -/
theorem reallocatePass_spec {v : Nat → Block} {i : Nat} (hi : i < 2 ^ n) {u : Nat × (Nat → Block)}
    (hcounter : u.1 = i / 2 ^ t)
    (hfill : ∀ i' < i, u.2 ((digitLayout h).place (i' / 2 ^ t) (i' % 2 ^ t)) = v i') :
    ∃ u', reallocatePass v (2 ^ n) (2 ^ t) t s u i = some u' ∧ u'.1 = (i + 1) / 2 ^ t ∧
      ∀ i' < i + 1, u'.2 ((digitLayout h).place (i' / 2 ^ t) (i' % 2 ^ t)) = v i' := by
  have hT := Nat.two_pow_pos t
  have hblock : ∀ i' < 2 ^ n, i' / 2 ^ t < 2 ^ (n - t) := by
    intro i' hi'
    refine Nat.div_lt_of_lt_mul ?_
    rwa [← Nat.pow_add, Nat.add_sub_cancel' (by omega)]
  have hx := Nat.mod_lt i hT
  have hindex : digitIndex t s (u.1 >>> s) (i % 2 ^ t) (u.1 &&& lowMask s)
      = (digitLayout h).place (i / 2 ^ t) (i % 2 ^ t) := by
    rw [digitIndex_eq h _ hx, hcounter]
  refine ⟨(if (i + 1) % 2 ^ t = 0 then u.1 + 1 else u.1,
    Function.update u.2 ((digitLayout h).place (i / 2 ^ t) (i % 2 ^ t)) (v i)), ?_, ?_, ?_⟩
  · rw [reallocatePass, hindex]
    exact if_pos ((digitLayout h).place_mem (hblock i hi) hx)
  · rw [succ_div_eq, hcounter]
  · intro i' hi'
    show Function.update u.2 _ (v i) _ = v i'
    by_cases hlast : i' = i
    · subst hlast
      exact Function.update_self ..
    · have hne : (digitLayout h).place (i' / 2 ^ t) (i' % 2 ^ t)
          ≠ (digitLayout h).place (i / 2 ^ t) (i % 2 ^ t) := by
        intro heq
        obtain ⟨hdiv, hmod⟩ := (digitLayout h).place_injective (hblock i' (by omega))
          (Nat.mod_lt i' hT) (hblock i hi) hx heq
        exact hlast (by rw [← Nat.div_add_mod i' (2 ^ t), hdiv, hmod, Nat.div_add_mod])
      rw [Function.update_of_ne hne]
      exact hfill i' (by omega)

/-- A position, counted block by block. -/
theorem position_lt {k : Nat} (hk : k < 2 ^ n) :
    (digitLayout h).block k * 2 ^ t + (digitLayout h).digit k < 2 ^ n :=
  entry_lt (by omega) ((digitLayout h).block_mem hk) ((digitLayout h).digit_mem hk)

/-- Entry `j * T + x` of a layer's vector moves to digit `x` of block `j`. -/
theorem reallocate_spec {layer d : Nat} (hs : layerSuffixLen layer d n t = (s : Int))
    (v : Nat → Block) :
    ∃ v', reallocate v layer d (2 ^ n) (2 ^ t) n t = some v' ∧
      EqOn v' (fun k => v ((digitLayout h).block k * 2 ^ t + (digitLayout h).digit k))
        (Iio (2 ^ n)) := by
  have hneg : ¬(s : Int) < 0 := Int.not_lt.mpr (Int.natCast_nonneg s)
  obtain ⟨u, hu, _, hfill⟩ := foldlM_range (n := 2 ^ n)
    (P := fun i (u : Nat × (Nat → Block)) => u.1 = i / 2 ^ t ∧
      ∀ i' < i, u.2 ((digitLayout h).place (i' / 2 ^ t) (i' % 2 ^ t)) = v i')
    (s := (0, fun _ => 0))
    ⟨(Nat.zero_div _).symm, fun _ h => absurd h (Nat.not_lt_zero _)⟩
    fun i hi u hu => reallocatePass_spec h hi hu.1 hu.2
  refine ⟨fun i => if i < 2 ^ n then u.2 i else v i, ?_, ?_⟩
  · simp only [reallocate, hs, if_neg hneg, Int.toNat_natCast]
    rw [hu]
    rfl
  · intro k hk
    have hx : (digitLayout h).digit k < 2 ^ t := (digitLayout h).digit_mem hk
    have hk' := hfill _ (position_lt h hk)
    rw [block_div _ hx, block_mod _ hx, (digitLayout h).place_block_digit hk] at hk'
    exact (if_pos (show k < 2 ^ n from hk)).trans hk'

end

/-! ## `Offline`

Each party does the same: it reallocates, rebuilds the layers of its own
table, sends the offsets of the vectors it chose and gathers the differences
it was given. -/

/-- The vectors of all layers, each in its place, and the layers' maps. -/
structure LayerVectors where
  as : Nat → Nat → Block
  bs : Nat → Nat → Block
  deltas : Nat → Nat → Block
  subperms : Nat → Nat → Nat

/-- Row `i` of a table of rows of `N` entries. -/
def row {α : Type} (N : Nat) (v : Nat → α) (i k : Nat) : α := v (i * N + k)

/-- The loop that reallocates the vectors and rebuilds the layers. -/
def reallocateLayers (d N T n t : Nat) (perms : Nat → Nat) (as bs deltas : Nat → Block) :
    Option LayerVectors :=
  (List.range d).foldlM
    (fun (L : LayerVectors) i => do
      let a ← reallocate (row N as i) i d N T n t
      let b ← reallocate (row N bs i) i d N T n t
      let delta ← reallocate (row N deltas i) i d N T n t
      let subperm ← subPermReconstruct i d N T n t (row N perms i)
      return {
        as := Function.update L.as i a
        bs := Function.update L.bs i b
        deltas := Function.update L.deltas i delta
        subperms := Function.update L.subperms i subperm })
    { as := row N as, bs := row N bs, deltas := row N deltas, subperms := fun _ _ => 0 }

/-- What `Offline` leaves at a party. -/
structure OfflineResult where
  perm : Nat → Nat
  a : Nat → Block
  b : Nat → Block
  delta : Nat → Block

/-- The offsets a party sends: the start of each layer less the end of the one
before. -/
def offsetOf (N : Nat) (L : LayerVectors) (i : Nat) : Block :=
  L.as (i / N + 1) (i % N) - L.bs (i / N) (i % N)

/-- The accumulation loop over the layers in between, `l = 1 .. d - 2`. -/
def accumulate (d N : Nat) (L : LayerVectors) (offset_ : Nat → Block) : Nat → Block :=
  forLoop (d - 2)
    (fun l delta j =>
      simplePerm N (L.subperms (l + 1)) delta j + (L.deltas (l + 1) j + row N offset_ (l + 1) j))
    fun i => L.deltas 0 i + row N offset_ 0 i

/-- `Offline` once the peer's offsets are there. -/
def finishOffline (d N : Nat) (perm : Nat → Nat) (L : LayerVectors) (offset_ : Nat → Block) :
    OfflineResult where
  perm := perm
  a := L.as 0
  b := L.bs (d - 1)
  delta := fun i =>
    simplePerm N (L.subperms (d - 1)) (accumulate d N L offset_) i + L.deltas (d - 1) i

/-- `Offline`, from what the share translations returned: `as` and `bs` of the
translations the peer chose, `deltas` of the party's own. -/
def offline (N T : Nat) (perms : Nat → Nat) (party : Party) (perm : Nat → Nat)
    (as bs deltas : Nat → Block) : Option (Proc ShuffleTag (List Block) OfflineResult) :=
  let n := Nat.log2 N
  let t := Nat.log2 T
  let d := 2 * (n / t) - 1
  do
    let perm ← permReconstruct d N T n t perms perm
    if d = 1 then
      return (pure { perm := perm, a := as, b := bs, delta := deltas })
    else
      let L ← reallocateLayers d N T n t perms as bs deltas
      return do
        let offset_ ← exchange party .offset (blocks ((d - 1) * N) (offsetOf N L))
        return finishOffline d N perm L (unblock offset_)

/-! ## Every row in its place

The layers' numbers of blocks and digits fit the number of positions when `n`
is a multiple of `t`.  Row by row the reallocated vectors are those of the
layer, and the rebuilt map is the layer's. -/

/-- The digits fill the positions exactly. -/
theorem half_layers {m t : Nat} (hm : 1 ≤ m) : (2 * m - 1) / 2 * t + t ≤ m * t := by
  rw [show (2 * m - 1) / 2 = m - 1 by omega, ← Nat.succ_mul, Nat.succ_eq_add_one,
    Nat.sub_add_cancel hm]

/-- Every block of the table is a permutation of the digits. -/
def TableOfPerms (d N T : Nat) (perms : Nat → Nat) : Prop :=
  ∀ l < d, ∀ j < N / T, BijOn (subpermAt N T perms l j) (Iio T) (Iio T)

section
variable {d n t : Nat} (h : t ≤ n) {perms : Nat → Nat}
include h

/-- The table, read row by row. -/
theorem row_subpermAt (perms : Nat → Nat) (l j r : Nat) :
    row (2 ^ n) perms l (j * 2 ^ t + r) = subpermAt (2 ^ n) (2 ^ t) perms l j r := by
  rw [row, subpermAt, locateVector, Nat.mul_assoc, Nat.div_mul_cancel (Nat.pow_dvd_pow 2 h),
    Nat.add_assoc]

variable (hperms : TableOfPerms d (2 ^ n) (2 ^ t) perms)
include hperms

theorem TableOfPerms.bijOn {l j : Nat} (hl : l < d) (hj : j < 2 ^ (n - t)) :
    BijOn (subpermAt (2 ^ n) (2 ^ t) perms l j) (Iio (2 ^ t)) (Iio (2 ^ t)) := by
  rw [← blocks_div h] at hj
  exact hperms l hl j hj

/-- `SubPermReconstruct` on row `l` of the table. -/
theorem subPermReconstruct_row {l s : Nat} (hl : l < d) (hs : s + t ≤ n)
    (hlen : layerSuffixLen l d n t = (s : Int)) :
    ∃ σ, subPermReconstruct l d (2 ^ n) (2 ^ t) n t (row (2 ^ n) perms l) = some σ ∧
      EqOn σ (layerMap t s (subpermAt (2 ^ n) (2 ^ t) perms l)) (Iio (2 ^ n)) := by
  have hrow : (fun j r => row (2 ^ n) perms l (j * 2 ^ t + r))
      = subpermAt (2 ^ n) (2 ^ t) perms l := by
    funext j r
    exact row_subpermAt h perms l j r
  have hmaps : ∀ j < 2 ^ (n - t),
      MapsTo (fun r => row (2 ^ n) perms l (j * 2 ^ t + r)) (Iio (2 ^ t)) (Iio (2 ^ t)) := by
    intro j hj x hx
    show row (2 ^ n) perms l (j * 2 ^ t + x) ∈ Iio (2 ^ t)
    rw [row_subpermAt h]
    exact (hperms.bijOn h hl hj).mapsTo hx
  obtain ⟨σ, hσ, heq⟩ := subPermReconstruct_spec hs hlen hmaps
  rw [hrow] at heq
  exact ⟨σ, hσ, heq⟩

end

/-- The share translations: in every block, the difference a party holds is
the peer's `b` less the peer's `a` taken through the party's sub-permutation. -/
def Translated (d N T : Nat) (perms : Nat → Nat) (deltas as bs : Nat → Block) : Prop :=
  ∀ l < d, ∀ j < N / T, ∀ r < T,
    deltas (locateVector (N / T) T l j + r)
      = bs (locateVector (N / T) T l j + r)
        - as (locateVector (N / T) T l j + subpermAt N T perms l j r)

/-- The offsets that arrive, row by row. -/
theorem offset_arrives {N d l : Nat} (hl : l + 1 < d) (L : LayerVectors) :
    EqOn (row N (unblock (blocks ((d - 1) * N) (offsetOf N L))) l) (L.as (l + 1) - L.bs l)
      (Iio N) := by
  intro k hk
  have hk : k < N := hk
  have hlt : l * N + k < (d - 1) * N := by
    calc l * N + k < (l + 1) * N := by rw [Nat.succ_mul]; omega
      _ ≤ (d - 1) * N := Nat.mul_le_mul_right _ (by omega)
  rw [row, unblock_blocks hlt, offsetOf, block_div l hk, block_mod l hk]
  rfl

section
variable {m : Nat} (hm : 1 ≤ m) (t : Nat)

/-- The layout of layer `l` of the `2 m - 1`. -/
def layoutAt (l : Nat) : Layout (Iio (2 ^ (m * t))) (Iio (2 ^ (m * t - t))) (Iio (2 ^ t)) :=
  digitLayout (runningSuffixLen_le (half_layers hm) l)

/-- The maps of the `2 m - 1` layers, for the table `perms`. -/
def layerOf (m t : Nat) (perms : Nat → Nat) : Nat → Nat → Nat :=
  layerMaps (2 * m - 1) (m * t) t perms

/-- Where in its row the entry for position `k` is before reallocation. -/
def sourceOf (l k : Nat) : Nat :=
  (layoutAt hm t l).block k * 2 ^ t + (layoutAt hm t l).digit k

/-- Row `l` after reallocation. -/
structure RowReady (perms : Nat → Nat) (as bs deltas : Nat → Block) (L : LayerVectors) (l : Nat) :
    Prop where
  as : EqOn (L.as l) (row (2 ^ (m * t)) as l ∘ sourceOf hm t l) (Iio (2 ^ (m * t)))
  bs : EqOn (L.bs l) (row (2 ^ (m * t)) bs l ∘ sourceOf hm t l) (Iio (2 ^ (m * t)))
  deltas : EqOn (L.deltas l) (row (2 ^ (m * t)) deltas l ∘ sourceOf hm t l) (Iio (2 ^ (m * t)))
  subperms : EqOn (L.subperms l) (layerOf m t perms l) (Iio (2 ^ (m * t)))

include hm

theorem le_mul : t ≤ m * t := Nat.le_mul_of_pos_left t hm

theorem blocks_mul : 2 ^ (m * t) / 2 ^ t * 2 ^ t = 2 ^ (m * t) :=
  Nat.div_mul_cancel (Nat.pow_dvd_pow 2 (le_mul hm t))

section
variable {t} {perms : Nat → Nat} (hperms : TableOfPerms (2 * m - 1) (2 ^ (m * t)) (2 ^ t) perms)
include hperms

theorem mapsTo_layerOf {l : Nat} (hl : l < 2 * m - 1) :
    MapsTo (layerOf m t perms l) (Iio (2 ^ (m * t))) (Iio (2 ^ (m * t))) :=
  mapsTo_layerMap (runningSuffixLen_le (half_layers hm) l) fun _ hj =>
    (hperms.bijOn (le_mul hm t) hl hj).mapsTo

theorem bijOn_layerOf {l : Nat} (hl : l < 2 * m - 1) :
    BijOn (layerOf m t perms l) (Iio (2 ^ (m * t))) (Iio (2 ^ (m * t))) :=
  bijOn_layerMap (runningSuffixLen_le (half_layers hm) l) fun _ hj =>
    hperms.bijOn (le_mul hm t) hl hj

theorem reallocateLayers_spec (as bs deltas : Nat → Block) :
    ∃ L, reallocateLayers (2 * m - 1) (2 ^ (m * t)) (2 ^ t) (m * t) t perms as bs deltas = some L ∧
      ∀ l < 2 * m - 1, RowReady hm t perms as bs deltas L l := by
  refine foldlM_range (P := fun i L => ∀ l < i, RowReady hm t perms as bs deltas L l)
    (fun _ h => absurd h (Nat.not_lt_zero _)) fun i hi L hL => ?_
  have hrealloc : ∀ v : Nat → Block,
      ∃ v', reallocate v i (2 * m - 1) (2 ^ (m * t)) (2 ^ t) (m * t) t = some v' ∧
        EqOn v' (v ∘ sourceOf hm t i) (Iio (2 ^ (m * t))) :=
    reallocate_spec (runningSuffixLen_le (half_layers hm) i) (layerSuffixLen_eq hm)
  obtain ⟨a, ha, hae⟩ := hrealloc (row (2 ^ (m * t)) as i)
  obtain ⟨b, hb, hbe⟩ := hrealloc (row (2 ^ (m * t)) bs i)
  obtain ⟨delta, hdelta, hdeltae⟩ := hrealloc (row (2 ^ (m * t)) deltas i)
  have hrow : ∃ subperm, subPermReconstruct i (2 * m - 1) (2 ^ (m * t)) (2 ^ t) (m * t) t
        (row (2 ^ (m * t)) perms i) = some subperm ∧
      EqOn subperm (layerOf m t perms i) (Iio (2 ^ (m * t))) :=
    subPermReconstruct_row (le_mul hm t) hperms hi (runningSuffixLen_le (half_layers hm) i)
      (layerSuffixLen_eq hm)
  obtain ⟨subperm, hsub, hsube⟩ := hrow
  refine ⟨_, by rw [ha, hb, hdelta, hsub]; rfl, ?_⟩
  intro l hl
  by_cases hli : l = i
  · subst hli
    constructor
    · simpa only [Function.update_self] using hae
    · simpa only [Function.update_self] using hbe
    · simpa only [Function.update_self] using hdeltae
    · simpa only [Function.update_self] using hsube
  · have hold := hL l (by omega)
    constructor
    · simpa only [Function.update_of_ne hli] using hold.as
    · simpa only [Function.update_of_ne hli] using hold.bs
    · simpa only [Function.update_of_ne hli] using hold.deltas
    · simpa only [Function.update_of_ne hli] using hold.subperms

/-! ## Translation along the layers

A party's differences go through its maps, and the vectors they are
differences of are its peer's.  The peer's offsets make them telescope
(`Network.gather_eqOn`). -/

variable {as bs deltas : Nat → Block} {L : LayerVectors}

section
variable {perms' : Nat → Nat} {as' bs' deltas' : Nat → Block} {L' : LayerVectors}
  (hst : Translated (2 * m - 1) (2 ^ (m * t)) (2 ^ t) perms deltas as' bs')
include hst

/-- After reallocation the differences are taken through the layers' maps. -/
theorem layer_translates {l : Nat} (hl : l < 2 * m - 1) (hL : RowReady hm t perms as bs deltas L l)
    (hL' : RowReady hm t perms' as' bs' deltas' L' l) :
    EqOn (L.deltas l) (L'.bs l - L'.as l ∘ layerOf m t perms l) (Iio (2 ^ (m * t))) := by
  intro k hk
  have hj := (layoutAt hm t l).block_mem hk
  have hx := (layoutAt hm t l).digit_mem hk
  have hsub := (hperms.bijOn (le_mul hm t) hl hj).mapsTo hx
  -- the entry the layer's map leads to lies in the same block
  have hnext : sourceOf hm t l (layerOf m t perms l k)
      = (layoutAt hm t l).block k * 2 ^ t
        + subpermAt (2 ^ (m * t)) (2 ^ t) perms l ((layoutAt hm t l).block k)
          ((layoutAt hm t l).digit k) := by
    have hblock := (layoutAt hm t l).block_place hj hsub
    have hdigit := (layoutAt hm t l).digit_place hj hsub
    exact congrArg₂ (fun j x => j * 2 ^ t + x) hblock hdigit
  have h := hst l hl _ (by rw [blocks_div (le_mul hm t)]; exact hj) _ hx
  rw [locateVector, Nat.mul_assoc, blocks_mul hm, Nat.add_assoc, Nat.add_assoc] at h
  show L.deltas l k = L'.bs l k - L'.as l (layerOf m t perms l k)
  rw [hL.deltas hk, hL'.bs hk, hL'.as (mapsTo_layerOf hm hperms hl hk)]
  show row _ deltas l (sourceOf hm t l k) = row _ bs' l (sourceOf hm t l k)
    - row _ as' l (sourceOf hm t l (layerOf m t perms l k))
  rw [hnext]
  exact h

end

/-- The loop between the first and the last layer gathers. -/
theorem accumulate_gather (hL : ∀ l < 2 * m - 1, RowReady hm t perms as bs deltas L l)
    (offset_ : Nat → Block) :
    EqOn (accumulate (2 * m - 1) (2 ^ (m * t)) L offset_)
      (gather (layerOf m t perms) L.deltas (row (2 ^ (m * t)) offset_) (2 * m - 1 - 2))
      (Iio (2 ^ (m * t))) := by
  refine forLoop_induction (P := fun l delta => EqOn delta
    (gather (layerOf m t perms) L.deltas (row (2 ^ (m * t)) offset_) l) (Iio (2 ^ (m * t))))
    (fun _ _ => rfl) fun l hl delta hdelta k hk => ?_
  have hl' : l + 1 < 2 * m - 1 := by omega
  have hk' := mapsTo_layerOf hm hperms hl' hk
  show simplePerm _ (L.subperms (l + 1)) delta k + _
    = gather _ _ _ l (layerOf m t perms (l + 1) k) + _
  rw [simplePerm_eq _ _ hk, (hL _ hl').subperms hk, hdelta hk']
  rfl

/-- What a party is left with, when the peer's offsets have come in. -/
theorem finishOffline_delta {perms' : Nat → Nat} {as' bs' deltas' : Nat → Block}
    {L' : LayerVectors} (hst : Translated (2 * m - 1) (2 ^ (m * t)) (2 ^ t) perms deltas as' bs')
    (hm2 : 2 ≤ m) (hL : ∀ l < 2 * m - 1, RowReady hm t perms as bs deltas L l)
    (hL' : ∀ l < 2 * m - 1, RowReady hm t perms' as' bs' deltas' L' l) (perm : Nat → Nat) :
    EqOn (finishOffline (2 * m - 1) (2 ^ (m * t)) perm L (unblock (blocks
        ((2 * m - 1 - 1) * 2 ^ (m * t)) (offsetOf (2 ^ (m * t)) L')))).delta
      (L'.bs (2 * m - 1 - 1) - L'.as 0 ∘ layers (layerOf m t perms) (2 * m - 1))
      (Iio (2 ^ (m * t))) := by
  obtain ⟨l, hl⟩ : ∃ l, 2 * m - 1 = l + 2 := ⟨2 * m - 3, by omega⟩
  intro k hk
  have hlast : 2 * m - 1 - 1 < 2 * m - 1 := by omega
  have hgather := accumulate_gather hm hperms hL (unblock (blocks
    ((2 * m - 1 - 1) * 2 ^ (m * t)) (offsetOf (2 ^ (m * t)) L')))
  have htel := gather_last (l := l) (S := Iio (2 ^ (m * t))) (a := L'.as) (b := L'.bs)
    (fun i hi => mapsTo_layerOf hm hperms (by omega))
    (fun i hi => layer_translates hm hperms hst (by omega) (hL i (by omega)) (hL' i (by omega)))
    (fun i hi => offset_arrives (d := 2 * m - 1) (by omega) L')
  show simplePerm _ (L.subperms (2 * m - 1 - 1)) _ k + L.deltas (2 * m - 1 - 1) k = _
  rw [simplePerm_eq _ _ hk, (hL _ hlast).subperms hk, hgather (mapsTo_layerOf hm hperms hlast hk)]
  simp only [hl, Nat.add_sub_cancel] at htel ⊢
  exact htel hk

end

end

/-! ## Both parties

What is correlated at the end is one party's permutation and difference with
the other party's first and last vectors. -/

/-- What `Offline` gives a party to hold against its peer. -/
structure Correlated (N : Nat) (r r' : OfflineResult) : Prop where
  perm : BijOn r.perm (Iio N) (Iio N)
  delta : ∀ i < N, r.delta i = r'.b i - r'.a (r.perm i)

section
variable {m t : Nat} (ht : 1 ≤ t) (hm : 2 ≤ m)
include ht hm

/-- Up to the exchange a party is on its own. -/
theorem offline_eq {perms : Nat → Nat}
    (hperms : TableOfPerms (2 * m - 1) (2 ^ (m * t)) (2 ^ t) perms) (party : Party)
    (perm₀ : Nat → Nat) (as bs deltas : Nat → Block) :
    ∃ perm L, offline (2 ^ (m * t)) (2 ^ t) perms party perm₀ as bs deltas = some (do
        let offset_ ← exchange party .offset
          (blocks ((2 * m - 1 - 1) * 2 ^ (m * t)) (offsetOf (2 ^ (m * t)) L))
        return finishOffline (2 * m - 1) (2 ^ (m * t)) perm L (unblock offset_)) ∧
      EqOn perm (layers (layerOf m t perms) (2 * m - 1)) (Iio (2 ^ (m * t))) ∧
      ∀ l < 2 * m - 1, RowReady (Nat.le_of_lt hm) t perms as bs deltas L l := by
  have hm1 : 1 ≤ m := Nat.le_of_lt hm
  obtain ⟨perm, hperm, heq⟩ := permReconstruct_spec (half_layers (t := t) hm1)
    (fun l hl j hj => (hperms.bijOn (le_mul hm1 t) hl hj).mapsTo) (by omega) perm₀
  obtain ⟨L, hL, hrows⟩ := reallocateLayers_spec hm1 hperms as bs deltas
  refine ⟨perm, L, ?_, heq, hrows⟩
  have hd : ¬2 * m - 1 = 1 := by omega
  simp only [offline, Nat.log2_two_pow, Nat.mul_div_cancel _ ht, hperm, hL, if_neg hd,
    Option.bind_eq_bind, Option.bind_some]
  rfl

/-- Both run `Offline` to the end, with the permutations of their tables, and hold
correlated vectors. -/
theorem offline_correlated {permsA permsB : Nat → Nat}
    (hA : TableOfPerms (2 * m - 1) (2 ^ (m * t)) (2 ^ t) permsA)
    (hB : TableOfPerms (2 * m - 1) (2 ^ (m * t)) (2 ^ t) permsB)
    {asA bsA deltasA asB bsB deltasB : Nat → Block}
    (hstA : Translated (2 * m - 1) (2 ^ (m * t)) (2 ^ t) permsA deltasA asB bsB)
    (hstB : Translated (2 * m - 1) (2 ^ (m * t)) (2 ^ t) permsB deltasB asA bsA)
    (permA permB : Nat → Nat) :
    ∃ pA pB rA rB,
      offline (2 ^ (m * t)) (2 ^ t) permsA .alice permA asA bsA deltasA = some pA ∧
      offline (2 ^ (m * t)) (2 ^ t) permsB .bob permB asB bsB deltasB = some pB ∧
      Paired 2 pA pB rA rB ∧
      EqOn rA.perm (layers (layerOf m t permsA) (2 * m - 1)) (Iio (2 ^ (m * t))) ∧
      EqOn rB.perm (layers (layerOf m t permsB) (2 * m - 1)) (Iio (2 ^ (m * t))) ∧
      Correlated (2 ^ (m * t)) rA rB ∧ Correlated (2 ^ (m * t)) rB rA := by
  have hm1 : 1 ≤ m := Nat.le_of_lt hm
  obtain ⟨pA, LA, hpA, heqA, hLA⟩ := offline_eq ht hm hA .alice permA asA bsA deltasA
  obtain ⟨pB, LB, hpB, heqB, hLB⟩ := offline_eq ht hm hB .bob permB asB bsB deltasB
  have hbij : ∀ {perms : Nat → Nat}, TableOfPerms (2 * m - 1) (2 ^ (m * t)) (2 ^ t) perms →
      BijOn (layers (layerOf m t perms) (2 * m - 1)) (Iio (2 ^ (m * t))) (Iio (2 ^ (m * t))) :=
    fun h => bijOn_layers fun l hl => bijOn_layerOf hm1 h hl
  refine ⟨_, _, _, _, hpA, hpB, (paired_exchange _ _ _).bind (m := 0) (.ret _ _), heqA, heqB,
    ?_, ?_⟩
  · refine ⟨(hbij hA).congr heqA.symm, ?_⟩
    intro i hi
    rw [finishOffline_delta hm1 hA hstA hm hLA hLB pA hi]
    exact congrArg (fun k => LB.bs _ i - LB.as 0 k) (heqA hi).symm
  · refine ⟨(hbij hB).congr heqB.symm, ?_⟩
    intro i hi
    rw [finishOffline_delta hm1 hB hstB hm hLB hLA pB hi]
    exact congrArg (fun k => LA.bs _ i - LA.as 0 k) (heqB hi).symm

end

end PSVFSS

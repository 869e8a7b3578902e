/-
# `Omr.Clue` — clues, and the bits that the detector makes of them

A clue is an encryption of zeros under the recipient's public key: a sum of
samples of it.  The detector has the secret key in ciphertexts, computes
`b - ⟨a, sk⟩` for a whole batch of clues, one clue in each slot, and checks the
range.  It turns the key one slot further for each coordinate, so that the clue
of a slot meets all coordinates, each clue in its own order.  A round in which
every clue meets a zero has a plaintext of zeros, and the detector throws: with
few clues the padding of the key makes such a round.

The library's vectors modulo 65537 are lists, what a generator draws is an
argument.
-/
import PSVFSS.Omr.Expand
import PSVFSS.Omr.RangeCheck

namespace PSVFSS.Omr

open Loop

variable {Ct : Type}

/-! ## Clues

The library's encryption with its loops over coordinates.  What the recipient
has left of a coordinate when the key is taken off is an encoded bit and
noise. -/

/-- The parameters; `q` is 65537 throughout. -/
structure PVWParam where
  n : ℕ
  ell : ℕ

structure PVWCiphertext where
  a : List ℕ
  b : List ℕ

/-- A vector of `n` numbers. -/
def vec (n : ℕ) (f : ℕ → ℕ) : List ℕ := (List.range n).map f

theorem getD_map_range {α : Type} {n i : ℕ} (hi : i < n) (f : ℕ → α) (e : α) :
    ((List.range n).map f).getD i e = f i := by
  rw [List.getD_eq_getElem?_getD, List.getElem?_map, List.getElem?_range hi]
  rfl

theorem getD_vec {n i : ℕ} (hi : i < n) (f : ℕ → ℕ) : (vec n f).getD i 0 = f i :=
  getD_map_range hi f 0

theorem plain_vec {n i : ℕ} (hi : i < n) (f : ℕ → ℕ) : plain (vec n f) i = f i := by
  rw [plain, getD_vec hi]

/-- The inner product of the first `n` coordinates. -/
def inner (n : ℕ) (a sk : List ℕ) : Slot := ∑ i ∈ Finset.range n, plain a i * plain sk i

/-- The inner product as the loops compute it. -/
def innerMod (n : ℕ) (a sk : List ℕ) : ℕ :=
  (∑ i ∈ Finset.range n, a.getD i 0 * sk.getD i 0 % 65537) % 65537

theorem cast_innerMod (n : ℕ) (a sk : List ℕ) : (innerMod n a sk : Slot) = inner n a sk := by
  rw [innerMod, ZMod.natCast_mod, Nat.cast_sum]
  refine Finset.sum_congr rfl fun i _ => ?_
  rw [ZMod.natCast_mod, Nat.cast_mul]
  rfl

/-- What is added for a bit of the message. -/
def encoded (msg : ℕ) : ℕ := if msg ≠ 0 then 3 * 65537 / 4 else 65537 / 4

/-- A sample of the generator of small integers, modulo `q`. -/
def generateInteger (e : ℤ) : ℕ := (e % 65537).toNat

theorem cast_generateInteger (e : ℤ) : (generateInteger e : Slot) = e := by
  have hcast : ((generateInteger e : ℕ) : ℤ) = e % 65537 :=
    Int.toNat_of_nonneg (Int.emod_nonneg e (by decide))
  calc ((generateInteger e : ℕ) : Slot) = ((generateInteger e : ℤ) : Slot) :=
        (Int.cast_natCast _).symm
    _ = ((e % (65537 : ℕ) : ℤ) : Slot) := by rw [hcast]; rfl
    _ = e := ZMod.intCast_mod e 65537

/-- `PVWEncSK`, given the vector and the noise that it draws. -/
def pvwEncSK (param : PVWParam) (msg : List ℕ) (sk : List (List ℕ)) (pkGen : Bool) (a : List ℕ)
    (noise : List ℤ) : PVWCiphertext where
  a := vec param.n fun i => a.getD i 0
  b := vec param.ell fun j =>
    ((if pkGen then innerMod param.n a (sk.getD j [])
        else (innerMod param.n a (sk.getD j []) + encoded (msg.getD j 0)) % 65537)
      + generateInteger (noise.getD j 0)) % 65537

/-- `PVWGeneratePublicKey`, a sample for each draw. -/
def pvwGeneratePublicKey (param : PVWParam) (sk : List (List ℕ))
    (draws : List (List ℕ × List ℤ)) : List PVWCiphertext :=
  draws.map fun draw => pvwEncSK param (List.replicate param.ell 0) sk true draw.1 draw.2

/-- A sample of the public key, added to a ciphertext. -/
def addSample (param : PVWParam) (ct sample : PVWCiphertext) : PVWCiphertext where
  a := vec param.n fun i => (ct.a.getD i 0 + sample.a.getD i 0) % 65537
  b := vec param.ell fun j => (ct.b.getD j 0 + sample.b.getD j 0) % 65537

/-- `PVWEncPK`, given which samples `rand` takes. -/
def pvwEncPK (param : PVWParam) (msg : List ℕ) (pk : List (PVWCiphertext × Bool)) :
    PVWCiphertext :=
  let ct := pk.foldl (fun ct p => if p.2 then addSample param ct p.1 else ct)
    ⟨List.replicate param.n 0, List.replicate param.ell 0⟩
  { ct with b := vec param.ell fun j => (ct.b.getD j 0 + encoded (msg.getD j 0)) % 65537 }

/-- What is left of coordinate `j` when the key is taken off. -/
def residue (param : PVWParam) (sk : List (List ℕ)) (ct : PVWCiphertext) (j : ℕ) : Slot :=
  plain ct.b j - inner param.n ct.a (sk.getD j [])

section

variable {param : PVWParam} {sk : List (List ℕ)}

theorem inner_vec (f : ℕ → ℕ) (s : List ℕ) :
    inner param.n (vec param.n f) s = ∑ i ∈ Finset.range param.n, (f i : Slot) * plain s i :=
  Finset.sum_congr rfl fun i hi => by rw [plain_vec (Finset.mem_range.mp hi)]

theorem residue_addSample (ct sample : PVWCiphertext) {j : ℕ} (hj : j < param.ell) :
    residue param sk (addSample param ct sample) j
      = residue param sk ct j + residue param sk sample j := by
  have hinner : inner param.n (addSample param ct sample).a (sk.getD j [])
      = inner param.n ct.a (sk.getD j []) + inner param.n sample.a (sk.getD j []) := by
    rw [addSample, inner_vec, inner, inner, ← Finset.sum_add_distrib]
    refine Finset.sum_congr rfl fun i _ => ?_
    rw [ZMod.natCast_mod, Nat.cast_add, add_mul]
    rfl
  have hb : plain (addSample param ct sample).b j = plain ct.b j + plain sample.b j := by
    rw [addSample, plain_vec hj, ZMod.natCast_mod, Nat.cast_add]
    rfl
  rw [residue, residue, residue, hinner, hb]
  ring

/-- A sample of the public key is noise under the key. -/
theorem residue_sample (draw : List ℕ × List ℤ) {j : ℕ} (hj : j < param.ell) :
    residue param sk (pvwEncSK param (List.replicate param.ell 0) sk true draw.1 draw.2) j
      = (draw.2.getD j 0 : ℤ) := by
  have hinner : inner param.n (vec param.n fun i => draw.1.getD i 0) (sk.getD j [])
      = inner param.n draw.1 (sk.getD j []) := inner_vec _ _
  rw [residue, pvwEncSK, hinner, plain_vec hj, ZMod.natCast_mod, Nat.cast_add, if_pos rfl,
    cast_innerMod, cast_generateInteger, add_sub_cancel_left]

/-- The noise of the samples that are taken. -/
def totalNoise (draws : List ((List ℕ × List ℤ) × Bool)) (j : ℕ) : ℤ :=
  (draws.map fun draw => if draw.2 then draw.1.2.getD j 0 else 0).sum

theorem totalNoise_cons (draw : (List ℕ × List ℤ) × Bool)
    (draws : List ((List ℕ × List ℤ) × Bool)) (j : ℕ) :
    totalNoise (draw :: draws) j
      = (if draw.2 then draw.1.2.getD j 0 else 0) + totalNoise draws j := by
  rw [totalNoise, List.map_cons, List.sum_cons]
  rfl

/-- The samples of a public key, each with whether it is taken. -/
def drawn (param : PVWParam) (sk : List (List ℕ)) (draws : List ((List ℕ × List ℤ) × Bool)) :
    List (PVWCiphertext × Bool) :=
  (pvwGeneratePublicKey param sk (draws.map Prod.fst)).zip (draws.map Prod.snd)

theorem drawn_cons (draw : (List ℕ × List ℤ) × Bool) (draws : List ((List ℕ × List ℤ) × Bool)) :
    drawn param sk (draw :: draws)
      = (pvwEncSK param (List.replicate param.ell 0) sk true draw.1.1 draw.1.2, draw.2)
        :: drawn param sk draws := rfl

theorem residue_fold {j : ℕ} (hj : j < param.ell) (draws : List ((List ℕ × List ℤ) × Bool)) :
    ∀ ct, residue param sk ((drawn param sk draws).foldl
        (fun ct p => if p.2 then addSample param ct p.1 else ct) ct) j
      = residue param sk ct j + (totalNoise draws j : ℤ) := by
  induction draws with
  | nil =>
    intro ct
    simp [drawn, pvwGeneratePublicKey, totalNoise]
  | cons draw draws ih =>
    intro ct
    rw [drawn_cons, List.foldl_cons, ih, totalNoise_cons, Int.cast_add]
    split
    · rw [residue_addSample _ _ hj, residue_sample _ hj, add_assoc]
    · rw [Int.cast_zero, zero_add]

/-- A clue of zeros: a quarter of `q` and the noise of the samples. -/
theorem residue_clue {j : ℕ} (hj : j < param.ell) (draws : List ((List ℕ × List ℤ) × Bool)) :
    residue param sk (pvwEncPK param (List.replicate param.ell 0) (drawn param sk draws)) j
      = 16384 + (totalNoise draws j : ℤ) := by
  have hzero : residue param sk ⟨List.replicate param.n 0, List.replicate param.ell 0⟩ j = 0 := by
    rw [residue, plain_replicate hj, Nat.cast_zero, zero_sub, neg_eq_zero]
    refine Finset.sum_eq_zero fun i hi => ?_
    rw [plain_replicate (Finset.mem_range.mp hi), Nat.cast_zero, zero_mul]
  have hmsg : encoded ((List.replicate param.ell 0).getD j 0) = 16384 := by
    rw [List.getD_eq_getElem?_getD, List.getElem?_replicate, if_pos hj]
    rfl
  have hfold : residue param sk _ j = _ := residue_fold hj draws ⟨List.replicate param.n 0,
    List.replicate param.ell 0⟩
  rw [hzero, zero_add, residue] at hfold
  rw [residue, pvwEncPK, plain_vec hj, ZMod.natCast_mod, Nat.cast_add, hmsg, ← hfold]
  push_cast
  rw [plain]
  ring

end

/-! ## The first phase of the detector

A coordinate of the key is the same in all slots of its ciphertext.  Turning
it by one slot a round brings every clue together with every coordinate, and
each round multiplies with one plaintext. -/

/-- `tempn`: the first power of two from `n` on. -/
def tempn (n : ℕ) : ℕ := 2 ^ Nat.clog 2 n

/-- Coordinate `k` of a vector filled up with zeros. -/
def padded (n : ℕ) (v : List ℕ) (k : ℕ) : ℕ := if k ≥ n then 0 else v.getD k 0

/-- `genSwitchingKeyPVWPacked`: each key repeated over all slots. -/
def genSwitchingKeyPVWPacked (ev : Evaluator Ct) (degree : ℕ) (param : PVWParam)
    (regSk : List (List ℕ)) : List Ct :=
  regSk.map fun sk =>
    ev.encrypt (vec degree fun i => padded param.n sk (i % tempn param.n) % 65537)

/-- The coordinates that meet the key in round `i`. -/
def vectorOfInts (param : PVWParam) (toPack : List PVWCiphertext) (i : ℕ) : List ℕ :=
  toPack.mapIdx fun j clue => padded param.n clue.a ((i + j) % tempn param.n)

/-- A round after the first one: the products so far, and the key as it is
turned now. -/
def productStep (ev : Evaluator Ct) (param : PVWParam) (toPack : List PVWCiphertext)
    (s : Ct × Ct) (i : ℕ) : Option (Ct × Ct) := do
  let temp ← ev.multiplyPlain s.2 (vectorOfInts param toPack (i + 1))
  some (ev.add s.1 temp, ev.rotateRows s.2 1)

/-- The rounds of `computeBplusASPVWOptimized` for one of the keys. -/
def products (ev : Evaluator Ct) (param : PVWParam) (toPack : List PVWCiphertext) (key : Ct) :
    Option Ct := do
  let output ← ev.multiplyPlain key (vectorOfInts param toPack 0)
  let s ← (List.range (tempn param.n - 1)).foldlM (productStep ev param toPack)
    (output, ev.rotateRows key 1)
  some s.1

/-- `(b - 16384) % 65537` on 64-bit words: below 16384 the difference wraps
around, and `2 ^ 64` is one modulo 65537. -/
def shifted (b : ℕ) : ℕ := (b + 2 ^ 64 - 16384) % 2 ^ 64 % 65537

/-- `computeBplusASPVWOptimized`, which refuses more clues than there are slots. -/
def computeBplusASPVWOptimized (ev : Evaluator Ct) (degree : ℕ) (param : PVWParam)
    (toPack : List PVWCiphertext) (switchingKey : List Ct) : Option (List Ct) :=
  if toPack.length > degree then none
  else switchingKey.zipIdx.mapM fun key => do
    let output ← products ev param toPack key.1
    some (ev.addPlain (ev.negate output)
      (toPack.map fun clue => shifted (clue.b.getD key.2 0)))

/-- `serverOperations1obtainPackedSIC`. -/
def serverOperations1obtainPackedSIC (ev : Evaluator Ct) (degree : ℕ) (param : PVWParam)
    (SICPVW : List PVWCiphertext) (switchingKey : List Ct) : Option Ct := do
  let packedSIC ← computeBplusASPVWOptimized ev degree param SICPVW switchingKey
  newRangeCheckPVW ev degree packedSIC

/-- No round has a plaintext of zeros. -/
def NonzeroRounds (param : PVWParam) (toPack : List PVWCiphertext) : Prop :=
  ∀ i < tempn param.n, ¬ Zeros (vectorOfInts param toPack i)

instance decidableNonzeroRounds (param : PVWParam) (toPack : List PVWCiphertext) :
    Decidable (NonzeroRounds param toPack) :=
  inferInstanceAs (Decidable (∀ i < tempn param.n, ¬ Zeros (vectorOfInts param toPack i)))

/-- What the detector has of coordinate `j` of a clue. -/
def reading (param : PVWParam) (sk : List (List ℕ)) (clue : PVWCiphertext) (j : ℕ) : Slot :=
  shifted (clue.b.getD j 0) - inner param.n clue.a (sk.getD j [])

/-- The clues that pass the range check. -/
def Pertinent (param : PVWParam) (sk : List (List ℕ)) (clue : PVWCiphertext) : Prop :=
  ∀ j < sk.length, reading param sk clue j ∈ rangeSet

instance decidablePertinent (param : PVWParam) (sk : List (List ℕ)) (clue : PVWCiphertext) :
    Decidable (Pertinent param sk clue) :=
  inferInstanceAs (Decidable (∀ j < sk.length, reading param sk clue j ∈ rangeSet))

/-- A clue of numbers modulo 65537. -/
def PVWCiphertext.Reduced (clue : PVWCiphertext) : Prop := ∀ v ∈ clue.a, v < 65537

instance decidableReduced (clue : PVWCiphertext) : Decidable clue.Reduced :=
  inferInstanceAs (Decidable (∀ v ∈ clue.a, v < 65537))

theorem cast_shifted {b : ℕ} (hb : b < 65537) :
    (shifted b : Slot) = b - 16384 + if b < 16384 then 1 else 0 := by
  rw [shifted, ZMod.natCast_mod]
  split
  next hlt =>
    have hwrap : (b + 2 ^ 64 - 16384) % 2 ^ 64 = b + (2 ^ 64 - 16384) := by omega
    have hword : 2 ^ 64 - 16384 + 16384 = 65537 * 281470681808895 + 1 := by norm_num
    have hconst : ((2 ^ 64 - 16384 : ℕ) : Slot) = 1 - 16384 := by
      calc ((2 ^ 64 - 16384 : ℕ) : Slot)
          = ((2 ^ 64 - 16384 + 16384 : ℕ) : Slot) - (16384 : ℕ) := by
            rw [Nat.cast_add, add_sub_cancel_right]
        _ = ((65537 * 281470681808895 + 1 : ℕ) : Slot) - 16384 := by rw [hword, Nat.cast_ofNat]
        _ = 1 - 16384 := by
            rw [Nat.cast_add, Nat.cast_mul, ZMod.natCast_self, zero_mul, zero_add, Nat.cast_one]
    rw [hwrap, Nat.cast_add, hconst]
    ring
  next hge =>
    have hplain : (b + 2 ^ 64 - 16384) % 2 ^ 64 = b - 16384 := by omega
    rw [hplain, Nat.cast_sub (by omega), add_zero, Nat.cast_ofNat]

theorem padded_lt {n : ℕ} {v : List ℕ} (hv : ∀ x ∈ v, x < 65537) (k : ℕ) :
    padded n v k < 65537 := by
  rw [padded]
  split
  · decide
  · rw [List.getD_eq_getElem?_getD]
    cases hk : v[k]? with
    | none => decide
    | some x => exact hv x (List.mem_of_getElem? hk)

section

variable {ev : Evaluator Ct} {half : ℕ} (h : ev.Lawful half) {param : PVWParam}
  {toPack : List PVWCiphertext}
include h

omit h in
theorem plain_vectorOfInts (i : ℕ) {t : ℕ} (ht : t < toPack.length) :
    plain (vectorOfInts param toPack i) t
      = padded param.n toPack[t].a ((i + t) % tempn param.n) := by
  rw [plain, vectorOfInts, List.getD_eq_getElem?_getD, List.getElem?_mapIdx,
    List.getElem?_eq_getElem ht, Option.map_some, Option.getD_some]

omit h in
theorem encodable_vectorOfInts (hlen : toPack.length ≤ 2 * half)
    (hred : ∀ clue ∈ toPack, clue.Reduced) (i : ℕ) :
    Encodable half (vectorOfInts param toPack i) := by
  refine ⟨by rw [vectorOfInts, List.length_mapIdx]; exact hlen, fun v hv => ?_⟩
  obtain ⟨j, hj, rfl⟩ := List.mem_mapIdx.mp hv
  exact padded_lt (hred _ (List.getElem_mem hj)) _

/-- The key after `k` turns. -/
def KeyTurned (ev : Evaluator Ct) (half : ℕ) (param : PVWParam) (sk : List ℕ) (k : ℕ) (key : Ct) :
    Prop :=
  ∀ i < 2 * half, ev.slot key i = padded param.n sk ((i + k) % tempn param.n)

theorem keyTurned_zero (sk : List ℕ) :
    KeyTurned ev half param sk 0 (ev.encrypt (vec (2 * half) fun i =>
      padded param.n sk (i % tempn param.n) % 65537)) := by
  intro i hi
  have henc : Encodable half (vec (2 * half) fun i =>
      padded param.n sk (i % tempn param.n) % 65537) := by
    refine ⟨by rw [vec, List.length_map, List.length_range], fun v hv => ?_⟩
    obtain ⟨j, -, rfl⟩ := List.mem_map.mp hv
    exact Nat.mod_lt _ (by decide)
  rw [h.encrypt _ henc i hi, plain_vec hi, ZMod.natCast_mod, Nat.add_zero]

/-- A turn within the rows is a turn of the repeated key, as the rows hold whole
copies of it. -/
theorem keyTurned_succ (hdvd : tempn param.n ∣ half) {sk : List ℕ} {k : ℕ} {key : Ct}
    (hkey : KeyTurned ev half param sk k key) :
    KeyTurned ev half param sk (k + 1) (ev.rotateRows key 1) := by
  intro i hi
  have hpos : 0 < half := by omega
  obtain ⟨r, j, hr, hj, rfl⟩ : ∃ r j, r < 2 ∧ j < half ∧ i = r * half + j :=
    ⟨i / half, i % half, (Nat.div_lt_iff_lt_mul hpos).mpr hi, Nat.mod_lt _ hpos,
      (Nat.div_add_mod' i half).symm⟩
  have hcol : (r * half + (j + 1) % half + k) ≡ (r * half + j + (k + 1)) [MOD tempn param.n] := by
    have hmod : (j + 1) % half ≡ j + 1 [MOD tempn param.n] := (Nat.mod_modEq _ _).of_dvd hdvd
    have := (hmod.add_left (r * half)).add_right k
    rwa [show r * half + j + (k + 1) = r * half + (j + 1) + k from by omega]
  rw [h.rotateRows key 1 r hr j hj, hkey _ (Evaluator.cell_lt hr (Nat.mod_lt _ hpos)), hcol]

variable (hdvd : tempn param.n ∣ half) (hlen : toPack.length ≤ 2 * half)
  (hred : ∀ clue ∈ toPack, clue.Reduced)
include hdvd hlen hred

omit hdvd in
/-- A round: each slot has the product of the coordinates that meet in it. -/
theorem round_spec (hrounds : NonzeroRounds param toPack) {sk : List ℕ} {k : ℕ}
    (hk : k < tempn param.n) {key : Ct} (hkey : KeyTurned ev half param sk k key) :
    ∃ c, ev.multiplyPlain key (vectorOfInts param toPack k) = some c ∧
      ∀ t (ht : t < toPack.length), ev.slot c t
        = (padded param.n toPack[t].a ((t + k) % tempn param.n) : Slot)
          * padded param.n sk ((t + k) % tempn param.n) := by
  obtain ⟨c, hc, hslot⟩ := h.multiplyPlain key _ (encodable_vectorOfInts hlen hred k)
    (hrounds k hk)
  refine ⟨c, hc, fun t ht => ?_⟩
  have htd : t < 2 * half := Nat.lt_of_lt_of_le ht hlen
  rw [hslot t htd, hkey t htd, plain_vectorOfInts k ht, Nat.add_comm k, mul_comm]

/-- After all rounds every slot has met all coordinates of its clue. -/
theorem products_spec (hrounds : NonzeroRounds param toPack) {sk : List ℕ} {key : Ct}
    (hkey : KeyTurned ev half param sk 0 key) :
    ∃ c, products ev param toPack key = some c ∧
      ∀ t (ht : t < toPack.length), ev.slot c t = inner param.n toPack[t].a sk := by
  have hpos : 0 < tempn param.n := Nat.two_pow_pos _
  obtain ⟨first, hfirst, hstart⟩ := round_spec h hlen hred hrounds hpos hkey
  have hstep : ∀ i < tempn param.n - 1, ∀ s : Ct × Ct,
      (KeyTurned ev half param sk (i + 1) s.2 ∧ ∀ t (ht : t < toPack.length), ev.slot s.1 t
        = ∑ k ∈ Finset.range (i + 1), (padded param.n toPack[t].a ((t + k) % tempn param.n) : Slot)
          * padded param.n sk ((t + k) % tempn param.n)) →
      ∃ s', productStep ev param toPack s i = some s' ∧ KeyTurned ev half param sk (i + 1 + 1) s'.2
        ∧ ∀ t (ht : t < toPack.length), ev.slot s'.1 t
          = ∑ k ∈ Finset.range (i + 1 + 1),
            (padded param.n toPack[t].a ((t + k) % tempn param.n) : Slot)
              * padded param.n sk ((t + k) % tempn param.n) := by
    rintro i hi s ⟨hturned, hsum⟩
    obtain ⟨temp, htemp, hslot⟩ := round_spec h hlen hred hrounds (by omega) hturned
    refine ⟨(ev.add s.1 temp, ev.rotateRows s.2 1), by rw [productStep, htemp]; rfl,
      keyTurned_succ h hdvd hturned, fun t ht => ?_⟩
    rw [Finset.sum_range_succ, h.add _ _ t (Nat.lt_of_lt_of_le ht hlen), hsum t ht, hslot t ht]
  obtain ⟨s, hs, -, hsum⟩ := foldlM_range (s := (first, ev.rotateRows key 1))
    ⟨keyTurned_succ h hdvd hkey, fun t ht => by rw [Finset.sum_range_one]; exact hstart t ht⟩ hstep
  refine ⟨s.1, by rw [products, hfirst, Option.bind_eq_bind, Option.bind_some, hs]; rfl,
    fun t ht => ?_⟩
  have hle : param.n ≤ tempn param.n := Nat.le_pow_clog Nat.one_lt_two _
  rw [hsum t ht, Nat.sub_add_cancel hpos, sum_turned (fun u =>
      (padded param.n toPack[t].a u : Slot) * padded param.n sk u), inner]
  refine (Finset.sum_subset (Finset.range_mono hle) fun u _ hu => ?_).symm.trans
    (Finset.sum_congr rfl fun u hu => ?_)
  · rw [padded, if_pos (Nat.le_of_not_lt fun hlt => hu (Finset.mem_range.mpr hlt)), Nat.cast_zero,
      zero_mul]
  · have hu := Nat.not_le_of_lt (Finset.mem_range.mp hu)
    rw [padded, padded, if_neg hu, if_neg hu]
    rfl

omit hdvd hlen hred in
/-- A round of zeros. -/
theorem products_none {i : ℕ} (hi : i < tempn param.n)
    (hzeros : Zeros (vectorOfInts param toPack i)) (key : Ct) :
    products ev param toPack key = none := by
  cases i with
  | zero =>
    rw [products, h.transparent key _ hzeros]
    rfl
  | succ i =>
    rw [products]
    cases ev.multiplyPlain key (vectorOfInts param toPack 0) with
    | none => rfl
    | some output =>
      have hround : ∀ s, productStep ev param toPack s i = none := fun s => by
        rw [productStep, h.transparent s.2 _ hzeros]
        rfl
      have hlast : i < tempn param.n - 1 := by omega
      rw [Option.bind_eq_bind, Option.bind_some, foldlM_range_none hlast hround]
      rfl

omit hdvd hlen hred in
theorem packedSIC_none (hrounds : ¬ NonzeroRounds param toPack) {switchingKey : List Ct}
    (hkey : switchingKey ≠ []) (degree : ℕ) :
    serverOperations1obtainPackedSIC ev degree param toPack switchingKey = none := by
  obtain ⟨i, hi, hzeros⟩ : ∃ i < tempn param.n, Zeros (vectorOfInts param toPack i) := by
    by_contra hall
    exact hrounds fun i hi hzeros => hall ⟨i, hi, hzeros⟩
  have hnone : computeBplusASPVWOptimized ev degree param toPack switchingKey = none := by
    rw [computeBplusASPVWOptimized]
    split
    · rfl
    · obtain ⟨key, keys, rfl⟩ := List.exists_cons_of_ne_nil hkey
      refine mapM_none (x := (key, 0)) List.mem_cons_self ?_
      rw [products_none h hi hzeros]
      rfl
  rw [serverOperations1obtainPackedSIC, hnone]
  rfl

omit h hdvd hlen hred in
/-- Fewer clues than the padding is long: in the round where the first of them
meets the padding the others do so too. -/
theorem not_nonzeroRounds_of_short (hshort : toPack.length + param.n ≤ tempn param.n) :
    ¬ NonzeroRounds param toPack := by
  have hpos : 0 < tempn param.n := Nat.two_pow_pos _
  intro hrounds
  refine hrounds (param.n % tempn param.n) (Nat.mod_lt _ hpos) fun v hv => ?_
  obtain ⟨j, hj, rfl⟩ := List.mem_mapIdx.mp hv
  have hplace : (param.n % tempn param.n + j) % tempn param.n = param.n + j := by
    rw [Nat.mod_add_mod, Nat.mod_eq_of_lt (by omega)]
  rw [hplace, padded, if_pos (Nat.le_add_right _ j)]

/-- One ciphertext for each key, with what it reads in the clues. -/
theorem computeBplusASPVW_spec (hrounds : NonzeroRounds param toPack) (regSk : List (List ℕ)) :
    ∃ outputs, computeBplusASPVWOptimized ev (2 * half) param toPack
        (genSwitchingKeyPVWPacked ev (2 * half) param regSk) = some outputs
      ∧ outputs.length = regSk.length
      ∧ ∀ j (hj : j < outputs.length), ∀ t (ht : t < toPack.length),
        ev.slot outputs[j] t = reading param regSk toPack[t] j := by
  have henc : ∀ j, Encodable half (toPack.map fun clue => shifted (clue.b.getD j 0)) := by
    intro j
    refine ⟨by rw [List.length_map]; exact hlen, fun v hv => ?_⟩
    obtain ⟨clue, -, rfl⟩ := List.mem_map.mp hv
    exact Nat.mod_lt _ (by decide)
  obtain ⟨keys, hkeys⟩ : ∃ l, genSwitchingKeyPVWPacked ev (2 * half) param regSk = l := ⟨_, rfl⟩
  have hlength : keys.length = regSk.length := by
    rw [← hkeys, genSwitchingKeyPVWPacked, List.length_map]
  have hturned : ∀ j (hj : j < keys.length),
      KeyTurned ev half param (regSk.getD j []) 0 keys[j] := by
    intro j hj
    subst hkeys
    have hj' : j < regSk.length := hj.trans_eq hlength
    have hget : regSk.getD j [] = regSk[j] := by
      rw [List.getD_eq_getElem?_getD, List.getElem?_eq_getElem, Option.getD_some]
    rw [hget]
    simp only [genSwitchingKeyPVWPacked, List.getElem_map]
    exact keyTurned_zero h _
  have hcall : ∀ key ∈ keys.zipIdx, ∃ c,
      (do
        let output ← products ev param toPack key.1
        some (ev.addPlain (ev.negate output)
          (toPack.map fun clue => shifted (clue.b.getD key.2 0)))) = some c
      ∧ ∀ t (ht : t < toPack.length), ev.slot c t = reading param regSk toPack[t] key.2 := by
    rintro ⟨key, j⟩ hkey
    obtain ⟨hj, hget⟩ := List.mem_zipIdx' hkey
    obtain ⟨c, hc, hslot⟩ := products_spec h hdvd hlen hred hrounds (hget ▸ hturned j hj)
    refine ⟨_, by rw [hc]; rfl, fun t ht => ?_⟩
    have htd : t < 2 * half := Nat.lt_of_lt_of_le ht hlen
    have hb : plain (toPack.map fun clue => shifted (clue.b.getD j 0)) t
        = shifted (toPack[t].b.getD j 0) := by
      rw [plain, List.getD_eq_getElem?_getD, List.getElem?_map, List.getElem?_eq_getElem ht,
        Option.map_some, Option.getD_some]
    rw [h.addPlain _ _ (henc j) t htd, h.negate _ t htd, hslot t ht, hb, reading, neg_add_eq_sub]
  obtain ⟨outputs, houtputs, hall⟩ := mapM_forall₂ hcall
  obtain ⟨hsame, hread⟩ := List.forall₂_iff_get.mp hall
  rw [List.length_zipIdx] at hsame
  refine ⟨outputs, ?_, hsame.symm.trans hlength, fun j hj t ht => ?_⟩
  · rw [computeBplusASPVWOptimized, if_neg (Nat.not_lt.mpr hlen), hkeys]
    exact houtputs
  · have hslot := hread j (by rw [List.length_zipIdx, hsame]; exact hj) hj t ht
    rw [List.get_eq_getElem, List.get_eq_getElem, List.getElem_zipIdx, Nat.zero_add] at hslot
    exact hslot

/-- The first phase leaves a one for each pertinent clue and a zero for each
other one. -/
theorem packedSIC_spec (hrounds : NonzeroRounds param toPack) {regSk : List (List ℕ)}
    (hsk : regSk ≠ []) :
    ∃ c, serverOperations1obtainPackedSIC ev (2 * half) param toPack
        (genSwitchingKeyPVWPacked ev (2 * half) param regSk) = some c
      ∧ ∀ t (ht : t < toPack.length),
        ev.slot c t = if Pertinent param regSk toPack[t] then 1 else 0 := by
  obtain ⟨outputs, houtputs, hlength, hread⟩ :=
    computeBplusASPVW_spec h hdvd hlen hred hrounds regSk
  have hne : outputs ≠ [] := by
    rw [← List.length_pos_iff, hlength]
    exact List.length_pos_iff.mpr hsk
  obtain ⟨c, hc, hone⟩ := newRangeCheckPVW_spec h outputs hne
  refine ⟨c, ?_, fun t ht => ?_⟩
  · rw [serverOperations1obtainPackedSIC, houtputs]
    exact hc
  · rw [hone t (Nat.lt_of_lt_of_le ht hlen)]
    refine if_congr ?_ rfl rfl
    constructor
    · intro hall j hj
      have hj' : j < outputs.length := hj.trans_eq hlength.symm
      rw [← hread j hj' t ht]
      exact hall _ (List.getElem_mem hj')
    · intro hpert d hd
      obtain ⟨j, hj, rfl⟩ := List.getElem_of_mem hd
      rw [hread j hj t ht]
      exact hpert j (hj.trans_eq hlength)

end

/-! ## Which clues of the recipient are found

From the draws of the encryption to the range check: all that decides is the
sum of the noise, shifted by a quarter of the modulus. -/

section

variable {param : PVWParam} {sk : List (List ℕ)} (draws : List ((List ℕ × List ℤ) × Bool))

/-- The clue of a message for the holder of `sk`. -/
def clueFor (param : PVWParam) (sk : List (List ℕ)) (draws : List ((List ℕ × List ℤ) × Bool)) :
    PVWCiphertext :=
  pvwEncPK param (List.replicate param.ell 0) (drawn param sk draws)

theorem reading_clueFor {j : ℕ} (hj : j < param.ell) :
    reading param sk (clueFor param sk draws) j
      = (totalNoise draws j
          + if (clueFor param sk draws).b.getD j 0 < 16384 then 1 else 0 : ℤ) := by
  have hlt : (clueFor param sk draws).b.getD j 0 < 65537 := by
    rw [clueFor, pvwEncPK, getD_vec hj]
    exact Nat.mod_lt _ (by decide)
  have hres : residue param sk _ j = _ := residue_clue hj draws
  rw [residue, plain, sub_eq_iff_eq_add] at hres
  rw [reading, cast_shifted hlt, clueFor, hres, Int.cast_add]
  push_cast
  ring

/-- A clue whose noise is at least -850 and below 850 is found: the wrap of the
subtraction adds one at most. -/
theorem pertinent_clueFor (hsk : sk.length = param.ell)
    (hnoise : ∀ j < param.ell, -850 ≤ totalNoise draws j ∧ totalNoise draws j < 850) :
    Pertinent param sk (clueFor param sk draws) := by
  intro j hj
  have hj : j < param.ell := hsk ▸ hj
  have hbounds := hnoise j hj
  rw [reading_clueFor draws hj]
  refine mem_rangeSet.mpr ⟨_, ?_, ?_, rfl⟩
  · split <;> omega
  · split <;> omega

/-- A clue that is found has its noise between -851 and 850. -/
theorem noise_of_pertinent (hsk : sk.length = param.ell)
    (hpert : Pertinent param sk (clueFor param sk draws)) {j : ℕ} (hj : j < param.ell) :
    ∃ s : ℤ, -851 ≤ s ∧ s ≤ 850 ∧ totalNoise draws j ≡ s [ZMOD 65537] := by
  have hmem := hpert j (hsk ▸ hj)
  rw [reading_clueFor draws hj] at hmem
  obtain ⟨s, hlow, hhigh, hs⟩ := mem_rangeSet.mp hmem
  have hmod : s ≡ _ [ZMOD 65537] := (ZMod.intCast_eq_intCast_iff _ _ 65537).mp hs
  refine ⟨s - if (clueFor param sk draws).b.getD j 0 < 16384 then 1 else 0, ?_, ?_, ?_⟩
  · split <;> omega
  · split <;> omega
  · have hsub := hmod.symm.sub_right (if (clueFor param sk draws).b.getD j 0 < 16384 then 1 else 0)
    rwa [add_sub_cancel_right] at hsub

/-- What the noise of a clue decides: from -850 and below 850 in every
coordinate it is found, and found ones have it from -851 to 850. -/
theorem clue_found (hsk : sk.length = param.ell) :
    ((∀ j < param.ell, -850 ≤ totalNoise draws j ∧ totalNoise draws j < 850) →
        Pertinent param sk (clueFor param sk draws))
      ∧ (Pertinent param sk (clueFor param sk draws) → ∀ j < param.ell,
        ∃ s : ℤ, -851 ≤ s ∧ s ≤ 850 ∧ totalNoise draws j ≡ s [ZMOD 65537]) :=
  ⟨pertinent_clueFor draws hsk, fun hpert _ hj => noise_of_pertinent draws hsk hpert hj⟩

end

/-- The noise -850 of the first sample and 2 of the last one. -/
theorem clue_found_sample :
    Pertinent ⟨1, 1⟩ [[3]] (clueFor ⟨1, 1⟩ [[3]]
      [(([5], [-850]), true), (([7], [900]), false), (([9], [2]), true)]) := by
  have hsk : [[3]].length = (⟨1, 1⟩ : PVWParam).ell := rfl
  exact (clue_found _ hsk).1 (by decide)

end PSVFSS.Omr

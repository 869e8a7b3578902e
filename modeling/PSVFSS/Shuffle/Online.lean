/-
# `Shuffle.Online` — the secret-shared shuffle

`SecretSharedShuffle` runs `PermuteShare` twice with the roles swapped: first
the second party permutes the shares of both, then the first party does.  The
vectors `Offline` left correlate the two rounds, so nothing but masked shares
crosses the wire.
-/
import PSVFSS.Shuffle.Offline

namespace PSVFSS

open Network Set TwoParty

/-! ## `PermuteShare`

The party that permutes takes the masked share of the other through its
permutation and adds the difference.  The other is left with a random vector
less its last mask. -/

/-- `nullptr` for a vector the role does not read. -/
def nullVector : Nat → Block := fun _ => 0

/-- One round of permute and share, `w` being what the generator fills in.
`round` names the call and is not part of the program. -/
def permuteShare (round N : Nat) (perm : Nat → Nat) (delta x a b : Nat → Block) (party : Party)
    (w : Nat → Block) : Proc ShuffleTag (List Block) (Nat → Block) :=
  match party with
  | .alice => do
      sendMsg (.m round) (blocks N fun i => x i + a i)
      let w ← recvMsg (.w round)
      return fun i => unblock w i - b i
  | .bob => do
      let m ← recvMsg (.m round)
      sendMsg (.w round) (blocks N w)
      return fun i => simplePerm N perm (unblock m) i + delta i - w i

/-! ## `SecretSharedShuffle`

Two rounds with the roles exchanged.  With a single layer the source returns
after the first. -/

/-- The vectors a party is left with: its share of the shuffled vector, and
its input, which the second party overwrites. -/
structure ShuffleResult where
  out : Nat → Block
  x : Nat → Block

def secretSharedShuffle (N T : Nat) (party : Party) (x : Nat → Block) (r : OfflineResult)
    (w : Nat → Block) : Proc ShuffleTag (List Block) ShuffleResult :=
  let n := Nat.log2 N
  let t := Nat.log2 T
  let d := 2 * (n / t) - 1
  if d = 1 then do
    let out ← permuteShare 1 N r.perm r.delta x r.a r.b party w
    return { out := out, x := x }
  else
    match party with
    | .alice => do
        let out0 ← permuteShare 1 N id nullVector x r.a r.b .alice w
        let out ← permuteShare 2 N r.perm r.delta nullVector nullVector nullVector .bob w
        return { out := fun i => out i + simplePerm N r.perm out0 i, x := x }
    | .bob => do
        let out0 ← permuteShare 1 N r.perm r.delta nullVector nullVector nullVector .bob w
        let x := fun i => simplePerm N r.perm x i + out0 i
        let out ← permuteShare 2 N id nullVector x r.a r.b .alice w
        return { out := out, x := x }

/-! ## The two texts side by side

One round takes shares of a vector to shares of its image under the permuting
party's map.  The second round starts from what the first has left. -/

theorem paired_permuteShare (round N : Nat) (perm perm' : Nat → Nat)
    (delta x a b w delta' x' a' b' w' : Nat → Block) :
    Paired 2 (permuteShare round N perm delta x a b .alice w)
      (permuteShare round N perm' delta' x' a' b' .bob w')
      (fun i => unblock (blocks N w') i - b i)
      (fun i => simplePerm N perm' (unblock (blocks N fun i => x i + a i)) i + delta' i - w' i) :=
  .leftToRight (.rightToLeft (.ret _ _))

/-- `s` and `s'` are shares of the vector `x` taken through `perm`. -/
def Shared (N : Nat) (s s' x : Nat → Block) (perm : Nat → Nat) : Prop :=
  ∀ i < N, s i + s' i = x (perm i)

/-- One round: the party that permutes holds `r`, its peer `r'` and the vector
`x`. -/
theorem permuteShare_shared {N : Nat} {r r' : OfflineResult} (h : Correlated N r r')
    (x w : Nat → Block) :
    Shared N
      (fun i => simplePerm N r.perm (unblock (blocks N fun i => x i + r'.a i)) i + r.delta i - w i)
      (fun i => unblock (blocks N w) i - r'.b i) x r.perm := by
  intro i hi
  have hperm : r.perm i < N := h.perm.mapsTo hi
  show simplePerm N r.perm _ i + r.delta i - w i + (unblock (blocks N w) i - r'.b i) = x (r.perm i)
  rw [simplePerm_eq _ _ hi, unblock_blocks hperm, unblock_blocks hi, h.delta i hi]
  abel

/-- Two rounds: the sum of the inputs goes through both permutations. -/
theorem secretSharedShuffle_shared {N T : Nat} (hd : 2 * (Nat.log2 N / Nat.log2 T) - 1 ≠ 1)
    {rA rB : OfflineResult} (hA : Correlated N rA rB) (hB : Correlated N rB rA)
    (xA xB wA wB : Nat → Block) :
    ∃ sA sB,
      Paired 4 (secretSharedShuffle N T .alice xA rA wA) (secretSharedShuffle N T .bob xB rB wB)
        sA sB ∧
      Shared N sA.out sB.out (fun k => xA k + xB k) (rB.perm ∘ rA.perm) := by
  simp only [secretSharedShuffle, if_neg hd]
  refine ⟨_, _, (paired_permuteShare 1 N _ _ _ _ _ _ _ _ _ _ _ _).bind (m := 2)
    ((paired_permuteShare 2 N _ _ _ _ _ _ _ _ _ _ _ _).symm.bind (m := 0) (.ret _ _)), ?_⟩
  intro i hi
  have hk : rA.perm i < N := hA.perm.mapsTo hi
  -- after the first round the second party adds its share to its permuted input
  have hfirst := permuteShare_shared hB xA wB (rA.perm i) hk
  have hsecond := permuteShare_shared hA (fun i => simplePerm N rB.perm xB i
    + (simplePerm N rB.perm (unblock (blocks N fun i => xA i + rA.a i)) i + rB.delta i - wB i))
    wA i hi
  simp only [simplePerm_eq _ xB hk] at hsecond
  calc _ = _ := add_right_comm _ _ _
    _ = _ := congrArg₂ (· + ·) hsecond (simplePerm_eq _ _ hi)
    _ = _ := add_assoc _ _ _
    _ = xB (rB.perm (rA.perm i)) + xA (rB.perm (rA.perm i)) := congrArg _ hfirst
    _ = _ := add_comm _ _

/-! ## One layer

The round that is made permutes by the second party's map, and reads the first
party's share only. -/

/-- `u` lists the blocks of `v` in some order. -/
def Rearranges (N : Nat) (u v : Nat → Block) : Prop := (blocks N u).Perm (blocks N v)

theorem rearranges_comp {N : Nat} {perm : Nat → Nat} (h : BijOn perm (Iio N) (Iio N))
    (v : Nat → Block) : Rearranges N (v ∘ perm) v := by
  have hnodup : ((List.range N).map perm).Nodup :=
    List.Nodup.map_on (fun i hi j hj => h.injOn (List.mem_range.mp hi) (List.mem_range.mp hj))
      List.nodup_range
  have hperm : ((List.range N).map perm).Perm (List.range N) := by
    rw [List.perm_ext_iff_of_nodup hnodup List.nodup_range]
    intro k
    rw [List.mem_map, List.mem_range]
    constructor
    · rintro ⟨i, hi, rfl⟩
      exact h.mapsTo (List.mem_range.mp hi)
    · intro hk
      obtain ⟨i, hi, rfl⟩ := h.surjOn hk
      exact ⟨i, List.mem_range.mpr hi, rfl⟩
  rw [Rearranges, blocks, ← List.map_map]
  exact hperm.map v

/-- One round only: the first party's input goes through the second party's
permutation, and the second party's input goes nowhere. -/
theorem secretSharedShuffle_single {N T : Nat} (hd : 2 * (Nat.log2 N / Nat.log2 T) - 1 = 1)
    {rA rB : OfflineResult} (hB : Correlated N rB rA) (xA xB wA wB : Nat → Block) :
    ∃ sA sB,
      Paired 2 (secretSharedShuffle N T .alice xA rA wA) (secretSharedShuffle N T .bob xB rB wB)
        sA sB ∧
      Shared N sA.out sB.out xA rB.perm := by
  simp only [secretSharedShuffle, if_pos hd]
  refine ⟨_, _, (paired_permuteShare 1 N _ _ _ _ _ _ _ _ _ _ _ _).bind (m := 0) (.ret _ _), ?_⟩
  intro i hi
  exact (add_comm _ _).trans (permuteShare_shared hB xA wB i hi)

/-- The shuffle of one layer rearranges the shared vector exactly when the first
party's share alone is a rearrangement of it. -/
theorem secretSharedShuffle_single_iff (N T : Nat) (hd : 2 * (Nat.log2 N / Nat.log2 T) - 1 = 1)
    (rA rB : OfflineResult) (hB : Correlated N rB rA) (xA xB wA wB : Nat → Block) :
    ∃ sA sB,
      Completes (secretSharedShuffle N T .alice xA rA wA) (secretSharedShuffle N T .bob xB rB wB)
        sA sB ∧
      (Rearranges N (fun i => sA.out i + sB.out i) (fun i => xA i + xB i) ↔
        Rearranges N xA fun i => xA i + xB i) := by
  obtain ⟨sA, sB, hs, hshared⟩ := secretSharedShuffle_single hd hB xA xB wA wB
  refine ⟨sA, sB, hs.completes, ?_⟩
  have hout : blocks N (fun i => sA.out i + sB.out i) = blocks N (xA ∘ rB.perm) :=
    List.map_congr_left fun i hi => hshared i (List.mem_range.mp hi)
  have hback := rearranges_comp hB.perm xA
  rw [Rearranges, hout]
  exact ⟨hback.symm.trans, hback.trans⟩

/-- The exchange of two positions, with vectors of zeros. -/
def swapResult : OfflineResult where
  perm k := 1 - k
  a := fun _ => 0
  b := fun _ => 0
  delta := fun _ => 0

theorem correlated_swapResult : Correlated 2 swapResult swapResult where
  perm := bijOn_reverse 1
  delta := fun _ _ => (sub_zero (0 : Block)).symm

/-- The second party's share is zero. -/
theorem secretSharedShuffle_single_iff_sample :
    ∃ sA sB, Completes
        (secretSharedShuffle 2 2 .alice (fun k => (BitVec.ofNat 64 k, 1)) swapResult
          fun _ => (5, 6))
        (secretSharedShuffle 2 2 .bob (fun _ => 0) swapResult fun _ => (7, 8)) sA sB ∧
      Rearranges 2 (fun i => sA.out i + sB.out i) fun k => (BitVec.ofNat 64 k, 1) + 0 := by
  obtain ⟨sA, sB, h, hiff⟩ := secretSharedShuffle_single_iff 2 2 (by decide) swapResult swapResult
    correlated_swapResult (fun k => (BitVec.ofNat 64 k, 1)) (fun _ => 0) (fun _ => (5, 6))
    fun _ => (7, 8)
  refine ⟨sA, sB, h, hiff.mpr ?_⟩
  simp only [Rearranges, add_zero]
  exact List.Perm.refl _

/-- All of the vector is in the second party's share: zeros come out. -/
theorem secretSharedShuffle_not_rearranges :
    ∃ sA sB, Completes (secretSharedShuffle 2 2 .alice (fun _ => 0) swapResult fun _ => 0)
        (secretSharedShuffle 2 2 .bob (fun _ => (1, 1)) swapResult fun _ => 0) sA sB ∧
      ¬ Rearranges 2 (fun i => sA.out i + sB.out i) fun _ => 0 + (1, 1) := by
  obtain ⟨sA, sB, h, hshared⟩ := secretSharedShuffle_single (N := 2) (T := 2) (by decide)
    correlated_swapResult (fun _ => 0) (fun _ => (1, 1)) (fun _ => 0) fun _ => 0
  refine ⟨sA, sB, h.completes, fun hre => ?_⟩
  have hout : blocks 2 (fun i => sA.out i + sB.out i) = [0, 0] :=
    congrArg₂ (fun u v => [u, v]) (hshared 0 (by decide)) (hshared 1 (by decide))
  rw [Rearranges, hout] at hre
  exact absurd (hre.mem_iff.mp (List.mem_cons_self ..)) (by decide)

/-! ## The whole shuffle

`Offline` and the two rounds, one after the other, from tables and share
translations to the shares of the shuffled vector. -/

/-- Whatever the tables of permutations, the share translations, the inputs
and the masks: every interleaving of `Offline` ends with the permutations that
the layers of the tables compose to and with correlated vectors, and every
interleaving of `SecretSharedShuffle` after it with shares of the shuffled sum. -/
theorem secretSharedShuffle_correct {n t : Nat} (ht : 1 ≤ t) (hdvd : t ∣ n) (hm : 2 ≤ n / t)
    {permsA permsB : Nat → Nat} (hpermsA : TableOfPerms (2 * (n / t) - 1) (2 ^ n) (2 ^ t) permsA)
    (hpermsB : TableOfPerms (2 * (n / t) - 1) (2 ^ n) (2 ^ t) permsB)
    {asA bsA deltasA asB bsB deltasB : Nat → Block}
    (hstA : Translated (2 * (n / t) - 1) (2 ^ n) (2 ^ t) permsA deltasA asB bsB)
    (hstB : Translated (2 * (n / t) - 1) (2 ^ n) (2 ^ t) permsB deltasB asA bsA)
    (permA permB : Nat → Nat) (xA xB wA wB : Nat → Block) :
    ∃ pA pB rA rB,
      offline (2 ^ n) (2 ^ t) permsA .alice permA asA bsA deltasA = some pA ∧
      offline (2 ^ n) (2 ^ t) permsB .bob permB asB bsB deltasB = some pB ∧
      Completes pA pB rA rB ∧
      BijOn rA.perm (Iio (2 ^ n)) (Iio (2 ^ n)) ∧ BijOn rB.perm (Iio (2 ^ n)) (Iio (2 ^ n)) ∧
      EqOn rA.perm (layers (layerMaps (2 * (n / t) - 1) n t permsA) (2 * (n / t) - 1))
        (Iio (2 ^ n)) ∧
      EqOn rB.perm (layers (layerMaps (2 * (n / t) - 1) n t permsB) (2 * (n / t) - 1))
        (Iio (2 ^ n)) ∧
      (∀ i < 2 ^ n, rA.delta i = rB.b i - rB.a (rA.perm i)) ∧
      (∀ i < 2 ^ n, rB.delta i = rA.b i - rA.a (rB.perm i)) ∧
      ∃ sA sB,
        Completes (secretSharedShuffle (2 ^ n) (2 ^ t) .alice xA rA wA)
          (secretSharedShuffle (2 ^ n) (2 ^ t) .bob xB rB wB) sA sB ∧
        ∀ i < 2 ^ n, sA.out i + sB.out i
          = xA (rB.perm (rA.perm i)) + xB (rB.perm (rA.perm i)) := by
  obtain ⟨m, rfl⟩ : ∃ m, n = m * t := ⟨n / t, (Nat.div_mul_cancel hdvd).symm⟩
  rw [Nat.mul_div_cancel _ ht] at hm hpermsA hpermsB hstA hstB ⊢
  obtain ⟨pA, pB, rA, rB, hpA, hpB, hpaired, hpermA, hpermB, hA, hB⟩ :=
    offline_correlated ht hm hpermsA hpermsB hstA hstB permA permB
  have hd : 2 * (Nat.log2 (2 ^ (m * t)) / Nat.log2 (2 ^ t)) - 1 ≠ 1 := by
    rw [Nat.log2_two_pow, Nat.log2_two_pow, Nat.mul_div_cancel _ ht]
    omega
  obtain ⟨sA, sB, hs, hshared⟩ := secretSharedShuffle_shared hd hA hB xA xB wA wB
  exact ⟨pA, pB, rA, rB, hpA, hpB, hpaired.completes, hA.perm, hB.perm, hpermA, hpermB, hA.delta,
    hB.delta, sA, sB, hs.completes, hshared⟩

/-- Four positions in three layers, every sub-permutation a swap. -/
theorem secretSharedShuffle_correct_sample :
    ∃ rA rB sA sB, rA.delta 3 = rB.b 3 - rB.a (rA.perm 3) ∧
      Completes (secretSharedShuffle (2 ^ 2) (2 ^ 1) .alice (fun k => (BitVec.ofNat 64 k, 1)) rA
          fun _ => (5, 6))
        (secretSharedShuffle (2 ^ 2) (2 ^ 1) .bob (fun _ => (10, 20)) rB fun _ => (7, 8)) sA sB ∧
      sA.out 3 + sB.out 3
        = (BitVec.ofNat 64 (rB.perm (rA.perm 3)), 1) + ((10, 20) : Block) := by
  let swap : Nat → Nat := fun k => 1 - k % 2
  let as : Nat → Block := fun k => (BitVec.ofNat 64 k, 2)
  let bs : Nat → Block := fun k => (3, BitVec.ofNat 64 k)
  let deltas : Nat → Block := fun k => bs k - as (k / 2 * 2 + swap k)
  have htable : TableOfPerms (2 * (2 / 1) - 1) (2 ^ 2) (2 ^ 1) swap := by
    intro l _ j _
    refine ⟨fun r _ => ?_, fun r hr r' hr' heq => ?_, fun r hr => ⟨1 - r, ?_, ?_⟩⟩
    · show 1 - (l * 2 * 2 + j * 2 + r) % 2 < 2
      omega
    · have hr : r < 2 := hr
      have hr' : r' < 2 := hr'
      have heq : 1 - (l * 2 * 2 + j * 2 + r) % 2 = 1 - (l * 2 * 2 + j * 2 + r') % 2 := heq
      omega
    · show 1 - r < 2
      omega
    · have hr : r < 2 := hr
      show 1 - (l * 2 * 2 + j * 2 + (1 - r)) % 2 = r
      omega
  have hst : Translated (2 * (2 / 1) - 1) (2 ^ 2) (2 ^ 1) swap deltas as bs := by
    intro l _ j _ r hr
    have hr : r < 2 := hr
    refine congrArg (fun k => bs _ - as k) ?_
    show (l * 2 * 2 + j * 2 + r) / 2 * 2 + swap (l * 2 * 2 + j * 2 + r)
      = l * 2 * 2 + j * 2 + swap (l * 2 * 2 + j * 2 + r)
    omega
  obtain ⟨_, _, rA, rB, _, _, _, _, _, _, _, hdelta, _, sA, sB, hcompletes, hout⟩ :=
    secretSharedShuffle_correct (n := 2) (t := 1) (by decide) (by decide) (by decide) htable htable
      hst hst id id (fun k => (BitVec.ofNat 64 k, 1)) (fun _ => (10, 20)) (fun _ => (5, 6))
      fun _ => (7, 8)
  exact ⟨rA, rB, sA, sB, hdelta 3 (by decide), hcompletes, hout 3 (by decide)⟩

end PSVFSS

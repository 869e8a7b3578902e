/-
# `Server.BtGen` — how the servers make a multiplication triple

ALICE owns a Paillier key pair.  She sends her two factors encrypted, BOB
forms `fa_A * fb_B + fb_A * fa_B + r` under the encryption and keeps
`fa_B * fb_B - r` for himself; at the end each party turns its factors and its
part of the product into blocks.  Then ALICE sends all three of her numbers
once more, in clear.

Paillier comes from a library, so it is a parameter (`Paillier`); what the
protocol relies on is `Paillier.Correct`.  A number crosses the channel whole:
its frame is left out.
-/
import Mathlib.Tactic.Ring
import PSVFSS.Lib.Transcript
import PSVFSS.Server.Bn
import PSVFSS.Server.Masking

namespace PSVFSS

open TwoParty

/-! ## Paillier -/

/-- `cp_phpe_enc`, `cp_phpe_dec` and `cp_phpe_add`.  Encryption draws from a
random source; `κ` is the type of private keys. -/
structure Paillier (κ : Type) where
  enc : (pub m coin : Nat) → Nat
  dec : (prv : κ) → (c : Nat) → Nat
  add : (c d pub : Nat) → Nat

/-- Correct and additively homomorphic for one key pair: `Encrypts c m` is
what makes `c` a ciphertext of `m`. -/
structure Paillier.Correct {κ : Type} (P : Paillier κ) (pub : Nat) (prv : κ)
    (Encrypts : Nat → Nat → Prop) : Prop where
  enc : ∀ m coin, m < pub → Encrypts (P.enc pub m coin) m
  dec : ∀ c m, Encrypts c m → P.dec prv c = m
  add : ∀ c d m m', Encrypts c m → Encrypts d m' → Encrypts (P.add c d pub) ((m + m') % pub)
  mxp : ∀ c m k, Encrypts c m → Encrypts (bnMxp c k (pub * pub)) (k * m % pub)

/-! ## `BTGen`

Both functions in the order of the source, from the key pair to the three
numbers in clear that ALICE sends last. -/

/-- The frames of `BTGen`, in the order of their first use. -/
inductive Frame where
  | Efa
  | Efb
  | pub
  | v
  | fa
  | fb
  | t
  deriving DecidableEq

/-- The blocks a party ends with. -/
structure BtBlocks where
  aa : Block
  bb : Block
  cch : Block
  ccl : Block
  deriving DecidableEq

def btBlocks (fa fb t : Nat) : BtBlocks where
  aa := bn2Block128 fa
  bb := bn2Block128 fb
  cch := (bn2Block256 t).1
  ccl := (bn2Block256 t).2

variable {κ : Type}

def btGenAlice (P : Paillier κ) (pub : Nat) (prv : κ) (fa fb coinA coinB : Nat) :
    Proc Frame Nat BtBlocks := do
  let Efa := P.enc pub fa coinA
  let Efb := P.enc pub fb coinB
  let fb := P.dec prv Efb
  sendMsg .Efa Efa
  sendMsg .Efb Efb
  sendMsg .pub pub
  let Ev ← recvMsg .v
  let v := P.dec prv Ev
  let t := bnMod (fa * fb : Nat) pub
  let t := bnMod (v + t : Nat) pub
  sendMsg .fa fa
  sendMsg .fb fb
  sendMsg .t t
  return btBlocks fa fb t

def btGenBob (P : Paillier κ) (fa fb r coin : Nat) : Proc Frame Nat BtBlocks := do
  let Efa ← recvMsg .Efa
  let Efb ← recvMsg .Efb
  let pub ← recvMsg .pub
  let n2 := pub * pub
  let t := bnMod (fa * fb : Nat) pub
  let t := bnMod (t - r) pub
  let t1 := bnMxp Efa fb n2
  let t2 := bnMxp Efb fa n2
  let v := P.add t2 t1 pub
  let rEnc := P.enc pub r coin
  let vSum := P.add v rEnc pub
  sendMsg .v vSum
  -- the sums BOB forms with these three are compared with nothing
  let _a0 ← recvMsg .fa
  let _b0 ← recvMsg .fb
  let _c0 ← recvMsg .t
  return btBlocks fa fb t

/-! ## Side by side

The two programs meet frame by frame.  What they end with is a function of the
factors, BOB's mask and the random numbers, and the ciphertexts play no part
in it. -/

/-- ALICE's last number. -/
def aliceT (pub fa fb fa' fb' r : Nat) : Nat := (fa * fb + fa * fb' + fb * fa' + r) % pub

/-- BOB's. -/
def bobT (pub fa fb r : Nat) : Nat := bnMod (bnMod (fa * fb : Nat) pub - r) pub

section
variable {P : Paillier κ} {pub : Nat} {prv : κ} {Encrypts : Nat → Nat → Prop}
  {fa fb r : Nat}

/-- What BOB returns to ALICE under the encryption. -/
theorem encrypts_vSum (hP : P.Correct pub prv Encrypts) {Efa Efb rEnc : Nat}
    (ha : Encrypts Efa fa) (hb : Encrypts Efb fb) (hr : Encrypts rEnc r) (fa' fb' : Nat) :
    Encrypts (P.add (P.add (bnMxp Efb fa' (pub * pub)) (bnMxp Efa fb' (pub * pub)) pub) rEnc pub)
      ((fa' * fb + fb' * fa + r) % pub) := by
  have hsum := hP.add _ _ _ _ (hP.add _ _ _ _ (hP.mxp _ _ fa' hb) (hP.mxp _ _ fb' ha)) hr
  rwa [← Nat.add_mod, Nat.mod_add_mod] at hsum

theorem paired_observed_btGen (hP : P.Correct pub prv Encrypts) (hfa : fa < pub) (hfb : fb < pub)
    (hr : r < pub) (fa' fb' coinA coinB coin : Nat) :
    ∃ Ev, Paired 7 (btGenAlice P pub prv fa fb coinA coinB).observed
      (btGenBob P fa' fb' r coin).observed
      (btBlocks fa fb (aliceT pub fa fb fa' fb' r), [(.v, Ev)])
      (btBlocks fa' fb' (bobT pub fa' fb' r),
        [(.Efa, P.enc pub fa coinA), (.Efb, P.enc pub fb coinB), (.pub, pub), (.fa, fa),
          (.fb, fb), (.t, aliceT pub fa fb fa' fb' r)]) := by
  have ha := hP.enc fa coinA hfa
  have hb := hP.enc fb coinB hfb
  have hv := hP.dec _ _ (encrypts_vSum hP ha hb (hP.enc r coin hr) fa' fb')
  have ht : bnMod (((fa' * fb + fb' * fa + r) % pub + bnMod (fa * fb : Nat) pub : Nat)) pub
      = aliceT pub fa fb fa' fb' r := by
    rw [bnMod_natCast, bnMod_natCast, ← Nat.add_mod, aliceT]
    exact congrArg (· % pub) (by ring)
  have h : Paired 7 (btGenAlice P pub prv fa fb coinA coinB).observed
      (btGenBob P fa' fb' r coin).observed _ _ :=
    .leftToRight <| .leftToRight <| .leftToRight <| .rightToLeft <| .leftToRight <|
      .leftToRight <| .leftToRight <| .ret _ _
  simp only [hP.dec _ _ hb, hv, ht] at h
  exact ⟨_, h⟩

/-- A 64-bit number is far below the modulus. -/
theorem lt_pub {x : Nat} (hpub : 2 ^ 3000 < pub) (hx : x < 2 ^ 64) : x < pub :=
  hx.trans ((Nat.pow_lt_pow_right (by decide) (by decide)).trans hpub)

variable {fa' fb' : Nat}

/-- Nothing is reduced on ALICE's side. -/
theorem aliceT_eq (hpub : 2 ^ 3000 < pub) (hfa : fa < 2 ^ 64) (hfb : fb < 2 ^ 64)
    (hfa' : fa' < 2 ^ 64) (hfb' : fb' < 2 ^ 64) (hr : r < 2 ^ 64) :
    aliceT pub fa fb fa' fb' r = fa * fb + fa * fb' + fb * fa' + r := by
  have hmul : ∀ {x y : Nat}, x < 2 ^ 64 → y < 2 ^ 64 → x * y < 2 ^ 128 := fun hx hy =>
    (Nat.mul_lt_mul'' hx hy).trans_eq (by decide)
  have hroom : (2 : Nat) ^ 131 < pub :=
    (Nat.pow_lt_pow_right (by decide) (by decide)).trans hpub
  have h1 := hmul hfa hfb
  have h2 := hmul hfa hfb'
  have h3 := hmul hfb hfa'
  exact Nat.mod_eq_of_lt (by omega)

/-- The two numbers add up to the product of the sums, or to that and the
modulus when `r` does not fit into BOB's product. -/
theorem aliceT_add_bobT (hpub : 2 ^ 3000 < pub) (hfa : fa < 2 ^ 64) (hfb : fb < 2 ^ 64)
    (hfa' : fa' < 2 ^ 64) (hfb' : fb' < 2 ^ 64) (hr : r < 2 ^ 64) :
    aliceT pub fa fb fa' fb' r + bobT pub fa' fb' r
      = (fa + fa') * (fb + fb') + if r ≤ fa' * fb' then 0 else pub := by
  have hexpand : (fa + fa') * (fb + fb') = fa * fb + fa * fb' + fb * fa' + fa' * fb' := by ring
  have hlt : fa' * fb' < pub :=
    (Nat.mul_lt_mul'' hfa' hfb').trans
      ((Nat.pow_add 2 64 64).symm.trans_lt
        ((Nat.pow_lt_pow_right (by decide) (by decide)).trans hpub))
  rw [aliceT_eq hpub hfa hfb hfa' hfb' hr, hexpand, bobT, bnMod_natCast, Nat.mod_eq_of_lt hlt]
  by_cases hle : r ≤ fa' * fb'
  · rw [if_pos hle, ← Int.ofNat_sub hle, bnMod_natCast,
      Nat.mod_eq_of_lt ((Nat.sub_le _ _).trans_lt hlt)]
    omega
  · have hr' := lt_pub hpub hr
    rw [if_neg hle, bnMod_sub (Nat.lt_of_not_le hle) hr'.le]
    omega

/-- The blocks are a triple in the low lane when the modulus, which is odd, has
not been added. -/
theorem btBlocks_valid_iff (hodd : Odd pub) (hpub : 2 ^ 3000 < pub) (hfa : fa < 2 ^ 64)
    (hfb : fb < 2 ^ 64) (hfa' : fa' < 2 ^ 64) (hfb' : fb' < 2 ^ 64) (hr : r < 2 ^ 64) :
    let rA := btBlocks fa fb (aliceT pub fa fb fa' fb' r)
    let rB := btBlocks fa' fb' (bobT pub fa' fb' r)
    (rA.aa.1 + rB.aa.1) * (rA.bb.1 + rB.bb.1) = rA.ccl.1 + rB.ccl.1 ↔ r ≤ fa' * fb' := by
  have hsum := aliceT_add_bobT hpub hfa hfb hfa' hfb' hr
  simp only [btBlocks, bn2Block128_eq, bn2Block256_eq, ← BitVec.ofNat_add, ← BitVec.ofNat_mul,
    hsum]
  by_cases hle : r ≤ fa' * fb'
  · rw [if_pos hle, Nat.add_zero]
    exact iff_of_true rfl hle
  · rw [if_neg hle, BitVec.ofNat_add]
    refine iff_of_false (fun h => ?_) hle
    have hzero := congrArg BitVec.toNat (left_eq_add.mp h)
    rw [BitVec.toNat_ofNat] at hzero
    exact Nat.not_even_iff_odd.mpr hodd
      (even_iff_two_dvd.mpr ((by decide : 2 ∣ 2 ^ 64).trans (Nat.dvd_of_mod_eq_zero hzero)))

end

/-! ## A key pair to run the protocol with

`Paillier.Correct` can be met: an instance without randomness but with the
right algebra, over a modulus as large as the theorems ask for. -/

/-- Paillier with generator `1 + n` and random factor 1; `n` is also the
private key. -/
def samplePaillier : Paillier Nat where
  enc pub m _ := (1 + m * pub) % (pub * pub)
  dec prv c := (c - 1) / prv
  add c d pub := c * d % (pub * pub)

/-- Modulo `n ^ 2` the number `1 + x n` depends on `x` modulo `n`. -/
theorem one_add_mul_mod {n : Nat} (hn : 1 < n) (x : Nat) :
    (1 + x * n) % (n * n) = 1 + x % n * n := by
  have hlt : 1 + x % n * n < n * n := by
    have hle : (x % n + 1) * n ≤ n * n :=
      Nat.mul_le_mul_right n (Nat.mod_lt x (Nat.lt_of_succ_lt hn))
    rw [Nat.succ_mul] at hle
    omega
  have hx : 1 + x * n = 1 + x % n * n + n * n * (x / n) := by
    conv_lhs => rw [← Nat.mod_add_div x n]
    ring
  rw [hx, Nat.add_mul_mod_self_left, Nat.mod_eq_of_lt hlt]

theorem one_add_mul_mul_mod {n : Nat} (hn : 1 < n) (m m' : Nat) :
    (1 + m * n) * (1 + m' * n) % (n * n) = 1 + (m + m') % n * n := by
  have hx : (1 + m * n) * (1 + m' * n) = 1 + (m + m' + n * (m * m')) * n := by ring
  rw [hx, one_add_mul_mod hn, Nat.add_mul_mod_self_left]

theorem samplePaillier_correct {n : Nat} (hn : 1 < n) :
    samplePaillier.Correct n n fun c m => m < n ∧ c = 1 + m * n where
  enc m coin hm := by
    refine ⟨hm, ?_⟩
    simp only [samplePaillier]
    rw [one_add_mul_mod hn, Nat.mod_eq_of_lt hm]
  dec c m h := by
    simp only [samplePaillier]
    rw [h.2, Nat.add_sub_cancel_left, Nat.mul_div_cancel _ (Nat.lt_of_succ_lt hn)]
  add c d m m' h h' := by
    refine ⟨Nat.mod_lt _ (Nat.lt_of_succ_lt hn), ?_⟩
    simp only [samplePaillier]
    rw [h.2, h'.2, one_add_mul_mul_mod hn]
  mxp c m k h := by
    refine ⟨Nat.mod_lt _ (Nat.lt_of_succ_lt hn), ?_⟩
    rw [h.2, bnMxp]
    induction k with
    | zero =>
        rw [Nat.pow_zero, Nat.zero_mul, Nat.zero_mod, Nat.zero_mul]
        exact Nat.mod_eq_of_lt (hn.trans (Nat.lt_mul_self_iff.mpr hn))
    | succ k ih =>
        rw [Nat.pow_succ, ← Nat.mod_mul_mod, ih, one_add_mul_mul_mod hn, Nat.mod_add_mod,
          Nat.succ_mul]

/-- An odd modulus above `2 ^ 3000`. -/
def sampleModulus : Nat := 2 * 2 ^ 3000 + 1

theorem odd_sampleModulus : Odd sampleModulus := ⟨2 ^ 3000, by rw [sampleModulus]⟩

theorem lt_sampleModulus : 2 ^ 3000 < sampleModulus := by
  have hlt : ∀ x : Nat, x < 2 * x + 1 := fun x => by omega
  exact hlt (2 ^ 3000)

theorem samplePaillier_correct_sampleModulus :
    samplePaillier.Correct sampleModulus sampleModulus
      fun c m => m < sampleModulus ∧ c = 1 + m * sampleModulus :=
  samplePaillier_correct (lt_pub lt_sampleModulus (by decide))

/-! ## The triple

BOB subtracts his mask from his product before the remainder is taken.  When
the difference is negative the modulus is added, and being odd it does not
vanish in 64 bits. -/

/-- The triple is valid in the low lane exactly when BOB's `r` is at most the
product of his factors. -/
theorem btGen_valid_iff (P : Paillier κ) (pub : Nat) (prv : κ) (Encrypts : Nat → Nat → Prop)
    (fa fb fa' fb' r coinA coinB coin : Nat) (hP : P.Correct pub prv Encrypts)
    (hodd : Odd pub) (hpub : 2 ^ 3000 < pub) (hfa : fa < 2 ^ 64) (hfb : fb < 2 ^ 64)
    (hfa' : fa' < 2 ^ 64) (hfb' : fb' < 2 ^ 64) (hr : r < 2 ^ 64) :
    ∃ rA rB, Completes (btGenAlice P pub prv fa fb coinA coinB) (btGenBob P fa' fb' r coin) rA rB ∧
      ((rA.aa.1 + rB.aa.1) * (rA.bb.1 + rB.bb.1) = rA.ccl.1 + rB.ccl.1 ↔ r ≤ fa' * fb') := by
  obtain ⟨Ev, hrun⟩ := paired_observed_btGen hP (lt_pub hpub hfa) (lt_pub hpub hfb)
    (lt_pub hpub hr) fa' fb' coinA coinB coin
  exact ⟨_, _, hrun.of_observed.completes, btBlocks_valid_iff hodd hpub hfa hfb hfa' hfb' hr⟩

/-- `(3 + 7) * (5 + 2)`, with a mask below 14. -/
theorem btGen_valid_iff_sample :
    ∃ rA rB, Completes (btGenAlice samplePaillier sampleModulus sampleModulus 3 5 0 0)
        (btGenBob samplePaillier 7 2 4 0) rA rB ∧
      (rA.aa.1 + rB.aa.1) * (rA.bb.1 + rB.bb.1) = rA.ccl.1 + rB.ccl.1 := by
  obtain ⟨rA, rB, h, hiff⟩ := btGen_valid_iff samplePaillier sampleModulus sampleModulus _ 3 5 7 2 4
    0 0 0 samplePaillier_correct_sampleModulus odd_sampleModulus lt_sampleModulus (by decide)
    (by decide) (by decide) (by decide) (by decide)
  exact ⟨rA, rB, h, hiff.mpr (by decide)⟩

/-- BOB's factors 0 and mask 1: the modulus is left in the sum. -/
theorem btGen_not_valid :
    ∃ rA rB, Completes (btGenAlice samplePaillier sampleModulus sampleModulus 0 0 0 0)
        (btGenBob samplePaillier 0 0 1 0) rA rB ∧
      (rA.aa.1 + rB.aa.1) * (rA.bb.1 + rB.bb.1) ≠ rA.ccl.1 + rB.ccl.1 := by
  have h0 : 0 < 2 ^ 64 := by decide
  have h1 : 1 < 2 ^ 64 := by decide
  have hlt : ∀ {x : Nat}, x < 2 ^ 64 → x < sampleModulus := lt_pub lt_sampleModulus
  obtain ⟨Ev, hrun⟩ := paired_observed_btGen samplePaillier_correct_sampleModulus (hlt h0) (hlt h0)
    (hlt h1) 0 0 0 0 0
  refine ⟨_, _, hrun.of_observed.completes, fun h => ?_⟩
  exact absurd ((btBlocks_valid_iff odd_sampleModulus lt_sampleModulus h0 h0 h0 h0 h1).mp h)
    (by decide)

/-! ## What BOB is told

A transcript is compared without its ciphertexts, which a semantically secure
scheme would hide.  What stays is in clear. -/

/-- The frames that hold a ciphertext. -/
def Frame.isCipher : Frame → Bool
  | .Efa => true
  | .Efb => true
  | .v => true
  | _ => false

/-- The numbers of a transcript that are not ciphertexts. -/
def plaintexts (l : List (Frame × Nat)) : List Nat :=
  (l.filter fun m => !m.1.isCipher).map Prod.snd

/-- BOB's plaintexts are the modulus and ALICE's three numbers. -/
theorem plaintexts_bob (Efa Efb pub fa fb t : Nat) :
    plaintexts [(.Efa, Efa), (.Efb, Efb), (.pub, pub), (.fa, fa), (.fb, fb), (.t, t)]
      = [pub, fa, fb, t] := rfl

/-- Two runs that differ in ALICE's factors (and in what encryption draws) look
alike to BOB exactly when they do not differ in the factors. -/
theorem btGen_hides_iff (P : Paillier κ) (pub : Nat) (prv : κ) (Encrypts : Nat → Nat → Prop)
    (fa fb fa₁ fb₁ fa' fb' r coinA coinB coin coinA₁ coinB₁ coin₁ : Nat)
    (hP : P.Correct pub prv Encrypts) (hpub : 2 ^ 3000 < pub) (hfa : fa < 2 ^ 64)
    (hfb : fb < 2 ^ 64) (hfa₁ : fa₁ < 2 ^ 64) (hfb₁ : fb₁ < 2 ^ 64) (hr : r < 2 ^ 64) :
    ∃ sA sB sA₁ sB₁,
      Completes (btGenAlice P pub prv fa fb coinA coinB).observed
        (btGenBob P fa' fb' r coin).observed sA sB ∧
      Completes (btGenAlice P pub prv fa₁ fb₁ coinA₁ coinB₁).observed
        (btGenBob P fa' fb' r coin₁).observed sA₁ sB₁ ∧
      (plaintexts sB.2 = plaintexts sB₁.2 ↔ fa = fa₁ ∧ fb = fb₁) := by
  obtain ⟨Ev, hrun⟩ := paired_observed_btGen hP (lt_pub hpub hfa) (lt_pub hpub hfb)
    (lt_pub hpub hr) fa' fb' coinA coinB coin
  obtain ⟨Ev₁, hrun₁⟩ := paired_observed_btGen hP (lt_pub hpub hfa₁) (lt_pub hpub hfb₁)
    (lt_pub hpub hr) fa' fb' coinA₁ coinB₁ coin₁
  refine ⟨_, _, _, _, hrun.completes, hrun₁.completes, ?_⟩
  rw [plaintexts_bob, plaintexts_bob]
  constructor
  · intro h
    injection h with _ h
    injection h with hfa h
    injection h with hfb _
    exact ⟨hfa, hfb⟩
  · rintro ⟨rfl, rfl⟩
    rfl

/-- Equal factors, equal plaintexts, whatever encryption draws. -/
theorem btGen_hides_iff_sample :
    ∃ sA sB sA₁ sB₁,
      Completes (btGenAlice samplePaillier sampleModulus sampleModulus 3 5 0 0).observed
        (btGenBob samplePaillier 7 2 4 0).observed sA sB ∧
      Completes (btGenAlice samplePaillier sampleModulus sampleModulus 3 5 1 1).observed
        (btGenBob samplePaillier 7 2 4 1).observed sA₁ sB₁ ∧
      plaintexts sB.2 = plaintexts sB₁.2 := by
  obtain ⟨sA, sB, sA₁, sB₁, h, h₁, hiff⟩ := btGen_hides_iff samplePaillier sampleModulus
    sampleModulus _ 3 5 3 5 7 2 4 0 0 0 1 1 1 samplePaillier_correct_sampleModulus
    lt_sampleModulus (by decide) (by decide) (by decide) (by decide) (by decide)
  exact ⟨sA, sB, sA₁, sB₁, h, h₁, hiff.mpr ⟨rfl, rfl⟩⟩

/-- ALICE's `fa` is 0 in one run and 1 in the other: BOB is told which. -/
theorem btGen_not_hides :
    ∃ sA sB sA₁ sB₁,
      Completes (btGenAlice samplePaillier sampleModulus sampleModulus 0 0 0 0).observed
        (btGenBob samplePaillier 0 0 0 0).observed sA sB ∧
      Completes (btGenAlice samplePaillier sampleModulus sampleModulus 1 0 0 0).observed
        (btGenBob samplePaillier 0 0 0 0).observed sA₁ sB₁ ∧
      plaintexts sB.2 ≠ plaintexts sB₁.2 := by
  have h0 : 0 < sampleModulus := lt_pub lt_sampleModulus (by decide)
  have h1 : 1 < sampleModulus := lt_pub lt_sampleModulus (by decide)
  obtain ⟨Ev, hrun⟩ := paired_observed_btGen samplePaillier_correct_sampleModulus h0 h0 h0 0 0 0 0 0
  obtain ⟨Ev₁, hrun₁⟩ :=
    paired_observed_btGen samplePaillier_correct_sampleModulus h1 h0 h0 0 0 0 0 0
  refine ⟨_, _, _, _, hrun.completes, hrun₁.completes, fun h => ?_⟩
  rw [plaintexts_bob, plaintexts_bob] at h
  injection h with _ h
  injection h with h _
  cases h

end PSVFSS

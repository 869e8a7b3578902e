/-
# `Lib.PowerSums` — sums of powers over a finite set

    sum_indicator        the polynomial whose coefficients are the power sums of
                         a set tells the set from the rest of the field
    cast_ne_zero         many power sums at once, none of them zero
-/
import Mathlib.Algebra.Field.GeomSum
import Mathlib.FieldTheory.Finite.Basic
import Mathlib.Algebra.Order.Ring.GeomSum

namespace PowerSums

/-! ## The polynomial of a set

In a field of `q` elements the power `q - 1` is one except at zero.  A
geometric sum in two numbers therefore tells whether they are equal, and
summed over a set whether the set contains one of them. -/

section

variable {K : Type} [Field K] [Fintype K]

/-- What one number of the set contributes. -/
theorem sum_pow_mul_pow [DecidableEq K] {x : K} (hx : x ≠ 0) (s : K) :
    ∑ k ∈ Finset.range (Fintype.card K - 1), s ^ (Fintype.card K - 1 - 1 - k) * x ^ (k + 1)
      = (if s = 0 then 1 else 0) - if s = x then 1 else 0 := by
  have hcard : 1 < Fintype.card K := Fintype.one_lt_card
  have hpow : x ^ (Fintype.card K - 1) = 1 := FiniteField.pow_card_sub_one_eq_one x hx
  have hfactor : ∑ k ∈ Finset.range (Fintype.card K - 1),
      s ^ (Fintype.card K - 1 - 1 - k) * x ^ (k + 1)
        = x * ∑ k ∈ Finset.range (Fintype.card K - 1),
          x ^ k * s ^ (Fintype.card K - 1 - 1 - k) := by
    rw [Finset.mul_sum]
    refine Finset.sum_congr rfl fun k _ => ?_
    ring
  have hgeom := geom_sum₂_mul x s (Fintype.card K - 1)
  rw [hfactor]
  by_cases hs : s = x
  · -- as many equal terms as there are numbers other than zero
    have hone : x * x ^ (Fintype.card K - 1 - 1) = 1 := by
      rw [← pow_succ', Nat.sub_add_cancel (by omega), hpow]
    have hterm : ∀ k ∈ Finset.range (Fintype.card K - 1),
        x ^ k * s ^ (Fintype.card K - 1 - 1 - k) = x ^ (Fintype.card K - 1 - 1) := by
      intro k hk
      have hk := Finset.mem_range.mp hk
      rw [hs, ← pow_add]
      exact congrArg _ (by omega)
    rw [Finset.sum_congr rfl hterm, Finset.sum_const, Finset.card_range, nsmul_eq_mul,
      mul_left_comm, hone, mul_one, Nat.cast_sub hcard.le, Nat.cast_one,
      FiniteField.cast_card_eq_zero, if_pos hs, if_neg (hs ▸ hx)]
  · have hne : x - s ≠ 0 := sub_ne_zero.mpr (Ne.symm hs)
    rw [if_neg hs, sub_zero]
    refine mul_right_cancel₀ hne ?_
    rw [mul_assoc, hgeom, hpow]
    by_cases hzero : s = 0
    · rw [if_pos hzero, hzero, zero_pow (by omega), sub_zero, sub_zero, mul_one, one_mul]
    · rw [if_neg hzero, FiniteField.pow_card_sub_one_eq_one s hzero, sub_self, mul_zero, zero_mul]

/-- The polynomial of a set that has zero: it vanishes on the set and is one
everywhere else. -/
theorem sum_indicator [DecidableEq K] {S : Finset K} (hzero : 0 ∈ S) (x : K) :
    ∑ k ∈ Finset.range (Fintype.card K - 1),
        (∑ s ∈ S, s ^ (Fintype.card K - 1 - 1 - k)) * x ^ (k + 1)
      = if x ∈ S then 0 else 1 := by
  by_cases hx : x = 0
  · rw [hx, if_pos hzero]
    exact Finset.sum_eq_zero fun k _ => by rw [zero_pow (Nat.succ_ne_zero k), mul_zero]
  · have hswap : ∑ k ∈ Finset.range (Fintype.card K - 1),
        (∑ s ∈ S, s ^ (Fintype.card K - 1 - 1 - k)) * x ^ (k + 1)
          = ∑ s ∈ S, ((if s = 0 then 1 else 0) - if s = x then 1 else 0) := by
      rw [Finset.sum_congr rfl fun k _ => Finset.sum_mul S _ _, Finset.sum_comm]
      exact Finset.sum_congr rfl fun s _ => sum_pow_mul_pow hx s
    rw [hswap, Finset.sum_sub_distrib, Finset.sum_ite_eq', Finset.sum_ite_eq', if_pos hzero]
    split
    · exact sub_self 1
    · exact sub_zero 1

end

/-! ## Many power sums in one number

One evaluation decides all `n` sums: in a base above every one of them they
are the digits of one number, and each number of the set adds a geometric sum
to it. -/

/-- `n` numbers in base `X`, the first one lowest. -/
def pack (X : ℕ) (p : ℕ → ℕ) (n : ℕ) : ℕ := ∑ t ∈ Finset.range n, p t * X ^ t

theorem pack_succ (X : ℕ) (p : ℕ → ℕ) (n : ℕ) :
    pack X p (n + 1) = p 0 + X * pack X (fun t => p (t + 1)) n := by
  rw [pack, Finset.sum_range_succ', pow_zero, mul_one, add_comm, pack, Finset.mul_sum]
  refine congrArg _ (Finset.sum_congr rfl fun t _ => ?_)
  ring

/-- None of `n` packed numbers is divisible by `q`. -/
def nonzero (X q : ℕ) : ℕ → ℕ → Bool
  | 0, _ => true
  | n + 1, packed => (packed % X % q != 0) && nonzero X q n (packed / X)

theorem ne_zero_of_nonzero {X q : ℕ} : ∀ {n : ℕ} {p : ℕ → ℕ}, (∀ t < n, p t < X) →
    nonzero X q n (pack X p n) = true → ∀ t < n, p t % q ≠ 0 := by
  intro n
  induction n with
  | zero => exact fun _ _ t ht => absurd ht (Nat.not_lt_zero t)
  | succ n ih =>
    intro p hp h t ht
    have hpos : 0 < X := Nat.zero_lt_of_lt (hp t ht)
    have hfirst : p 0 < X := hp 0 (Nat.succ_pos n)
    rw [nonzero, pack_succ, Nat.add_mul_mod_self_left, Nat.mod_eq_of_lt hfirst,
      Nat.add_mul_div_left _ _ hpos, Nat.div_eq_of_lt hfirst, Nat.zero_add,
      Bool.and_eq_true] at h
    cases t with
    | zero => exact bne_iff_ne.mp h.1
    | succ t =>
      have ht : t < n := Nat.lt_of_succ_lt_succ ht
      exact ih (fun t ht => hp (t + 1) (Nat.succ_lt_succ ht)) h.2 t ht

/-- The power sums `∑ u s ^ t` for `t < n`, packed: each number of the set is a
geometric sum. -/
def packPowers (X : ℕ) (u : ℕ → ℕ) (n : ℕ) : ℕ → ℕ
  | 0 => 0
  | s + 1 => packPowers X u n s + ((u s * X) ^ n - 1) / (u s * X - 1)

theorem packPowers_eq {X : ℕ} {u : ℕ → ℕ} {n N : ℕ} (hX : 1 < X) (hu : ∀ s < N, 0 < u s) :
    packPowers X u n N = pack X (fun t => ∑ s ∈ Finset.range N, u s ^ t) n := by
  induction N with
  | zero => exact (Finset.sum_eq_zero fun t _ => Nat.zero_mul _).symm
  | succ N ih =>
    have hbase : 2 ≤ u N * X :=
      Nat.le_trans hX (Nat.le_mul_of_pos_left X (hu N (Nat.lt_succ_self N)))
    rw [packPowers, ih fun s hs => hu s (Nat.lt_succ_of_lt hs), ← Nat.geomSum_eq hbase, pack,
      pack, ← Finset.sum_add_distrib]
    refine Finset.sum_congr rfl fun t _ => ?_
    rw [Finset.sum_range_succ, Nat.add_mul, mul_pow]

end PowerSums

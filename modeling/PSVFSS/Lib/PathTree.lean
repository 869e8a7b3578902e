/-
# `Lib.PathTree` — a binary tree of states, by path and in heap order

A tree is given by its root and by `child L s right`, the state below `s`
(at level `L`) on one side.  Two ways to reach a state:

    walk i      go down `i` levels, turning by the bits of a path
    node L o    the `o`-th state of level `L`, counted from the left

`walk_eq_node` says they agree when the path spells the offset from its
most significant bit.  In heap order level `L` begins at `2^L - 1`, and
`heapIndex` places `node L o` there.

`walk_pair` compares two trees that differ along one marked path only: a
walk that keeps to the path meets the two marked states, a walk that leaves
it meets the same state in both trees from there on.
-/
import Mathlib.Algebra.Ring.Nat
import Mathlib.Data.Nat.Bitwise
import Mathlib.Tactic.Ring

namespace PathTree

variable {σ : Type} (child : Nat → σ → Bool → σ) (root : σ)

/-- The state after `i` turns. -/
def walk (turn : Nat → Bool) : Nat → σ
  | 0 => root
  | i + 1 => child i (walk turn i) (turn i)

/-- The `o`-th state of a level. -/
def node : Nat → Nat → σ
  | 0, _ => root
  | L + 1, o => child L (node L (o / 2)) (decide (o % 2 = 1))

/-- The position of the `o`-th state of level `L` in heap order. -/
def heapIndex (L o : Nat) : Nat := 2 ^ L - 1 + o

variable {child root}

theorem node_child (L o : Nat) (r : Bool) :
    node child root (L + 1) (2 * o + r.toNat) = child L (node child root L o) r := by
  have hdiv : (2 * o + r.toNat) / 2 = o := by
    have := Bool.toNat_le r
    omega
  have hside : decide ((2 * o + r.toNat) % 2 = 1) = r := by cases r <;> simp
  rw [node, hdiv, hside]

/-- Turning by the bits of `x` from bit `size - 1` down leads to the node the
high bits of `x` count. -/
theorem walk_eq_node (size x : Nat) :
    ∀ i ≤ size, walk child root (fun j => x.testBit (size - (j + 1))) i
      = node child root i (x / 2 ^ (size - i)) := by
  intro i hi
  induction i with
  | zero => rfl
  | succ i ih =>
      have hsub : size - i = size - (i + 1) + 1 := by omega
      have hdiv : x / 2 ^ (size - i) = x / 2 ^ (size - (i + 1)) / 2 := by
        rw [hsub, Nat.pow_succ, Nat.div_div_eq_div_mul]
      have hbit : x.testBit (size - (i + 1))
          = decide (x / 2 ^ (size - (i + 1)) % 2 = 1) := by
        rw [Nat.testBit_eq_decide_div_mod_eq]
      rw [walk, node, ih (Nat.le_of_succ_le hi), hdiv, hbit]

/-- A full path leads to the leaf it names. -/
theorem walk_leaf (size x : Nat) :
    walk child root (fun j => x.testBit (size - (j + 1))) size = node child root size x := by
  rw [walk_eq_node size x size (Nat.le_refl size), Nat.sub_self, Nat.pow_zero, Nat.div_one]

/-! ## Two trees that agree off a marked path

The two parties of a tree construction hold trees of this kind.  The walk
lemma is one induction with two cases: still on the path, or off it with equal
states. -/

section Pair
variable {child₀ child₁ : Nat → σ → Bool → σ} {p₀ p₁ : Nat → σ} {mark : Nat → Bool} {n : Nat}

/-- `p₀` and `p₁` run down the two trees along `mark`; one turn off the mark,
or from equal states, the trees agree. -/
structure AgreeOff (child₀ child₁ : Nat → σ → Bool → σ) (p₀ p₁ : Nat → σ) (mark : Nat → Bool)
    (n : Nat) : Prop where
  keep₀ : ∀ i < n, child₀ i (p₀ i) (mark i) = p₀ (i + 1)
  keep₁ : ∀ i < n, child₁ i (p₁ i) (mark i) = p₁ (i + 1)
  lose : ∀ i < n, child₀ i (p₀ i) (!mark i) = child₁ i (p₁ i) (!mark i)
  same : ∀ i < n, ∀ s r, child₀ i s r = child₁ i s r

theorem AgreeOff.walk_pair (h : AgreeOff child₀ child₁ p₀ p₁ mark n) (turn : Nat → Bool) :
    ∀ i ≤ n,
      ((∀ j < i, turn j = mark j) ∧
        walk child₀ (p₀ 0) turn i = p₀ i ∧ walk child₁ (p₁ 0) turn i = p₁ i) ∨
      ((∃ j < i, turn j ≠ mark j) ∧
        walk child₀ (p₀ 0) turn i = walk child₁ (p₁ 0) turn i) := by
  intro i hi
  induction i with
  | zero => exact .inl ⟨fun j hj => absurd hj (Nat.not_lt_zero j), rfl, rfl⟩
  | succ i ih =>
      have hin : i < n := hi
      rcases ih (Nat.le_of_lt hin) with ⟨hon, h₀, h₁⟩ | ⟨⟨j, hj, hne⟩, heq⟩
      · by_cases hturn : turn i = mark i
        · refine .inl ⟨?_, ?_, ?_⟩
          · intro j hj
            rcases Nat.lt_succ_iff_lt_or_eq.mp hj with hj | rfl
            · exact hon j hj
            · exact hturn
          · rw [walk, h₀, hturn, h.keep₀ i hin]
          · rw [walk, h₁, hturn, h.keep₁ i hin]
        · -- this turn leaves the marked path
          have hflip : turn i = !mark i := Bool.eq_not_of_ne hturn
          refine .inr ⟨⟨i, Nat.lt_succ_self i, hturn⟩, ?_⟩
          rw [walk, walk, h₀, h₁, hflip, h.lose i hin]
      · refine .inr ⟨⟨j, Nat.lt_succ_of_lt hj, hne⟩, ?_⟩
        rw [walk, walk, heq, h.same i hin]

end Pair

/-! ## Heap order -/

theorem heapIndex_injective {L o L' o' : Nat} (ho : o < 2 ^ L) (ho' : o' < 2 ^ L')
    (h : heapIndex L o = heapIndex L' o') : L = L' ∧ o = o' := by
  have hpos : 0 < 2 ^ L := Nat.two_pow_pos L
  have hpos' : 0 < 2 ^ L' := Nat.two_pow_pos L'
  simp only [heapIndex] at h
  have hL : L = L' := by
    rcases Nat.lt_trichotomy L L' with hlt | heq | hgt
    · have := Nat.pow_le_pow_right Nat.two_pos (Nat.succ_le_of_lt hlt)
      rw [Nat.pow_succ] at this
      omega
    · exact heq
    · have := Nat.pow_le_pow_right Nat.two_pos (Nat.succ_le_of_lt hgt)
      rw [Nat.pow_succ] at this
      omega
  subst hL
  exact ⟨rfl, by omega⟩

end PathTree

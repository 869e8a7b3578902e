/-
# `Vdpf.FullDomain` — `fullDomainVDPF` is `batchEvalVDPF` on `0, 1, …, 2^size - 1`

The fast path fills the whole tree in heap order, finding each parent from a
level counter and an offset, and then reads the leaves off the end of the
array.  `Filled` is the loop invariant of the fill: before pass `j`
the counters name the node `(L, o)` at heap position `j`, and every position
below `2 j + 1` holds its node.

The leaf loop hashes the tree position of a leaf where the plain path hashes
the input.  Neither hash function looks at its input (`mmoHash2to4_eq`), so
the proofs agree all the same.
-/
import PSVFSS.Vdpf.Correct

namespace PSVFSS

open ByteBuffer CipherMode PathTree Loop

variable {δ : Type}

/-! ## Filling the tree

The loop keeps the level, how many nodes of the next level it has written and
how many there are.  The parent's index is worked out from the last two. -/

/-- The state of the fill: the node arrays and the three counters. -/
structure FillState where
  tree : Nat → Node
  currLevel : Nat
  levelIndex : Nat
  numIndexesInLevel : Nat

/-- One pass, at `i = 1, 3, 5, …`. -/
def fillPair (C : Crypto δ) (ctx : Ecb Uint128) (key : ParsedKey) (i : Nat) (s : FillState) :
    FillState :=
  let parentIndex :=
    if i > 1 then i - s.levelIndex - ((s.numIndexesInLevel - s.levelIndex) / 2) else 0
  let p := expandNode C ctx key s.currLevel (s.tree parentIndex)
  let lIndex := i
  let rIndex := i + 1
  let tree := Function.update (Function.update s.tree lIndex (p.side false)) rIndex (p.side true)
  let levelIndex := s.levelIndex + 2
  if levelIndex = s.numIndexesInLevel then
    { tree := tree
      currLevel := s.currLevel + 1
      levelIndex := 0
      numIndexesInLevel := s.numIndexesInLevel * 2 }
  else
    { tree := tree
      currLevel := s.currLevel
      levelIndex := levelIndex
      numIndexesInLevel := s.numIndexesInLevel }

/-- The fill: `i` runs over the odd numbers below `treeSize`. -/
def fillTree (C : Crypto δ) (ctx : Ecb Uint128) (key : ParsedKey) (treeSize : Nat) (root : Node) :
    FillState :=
  forLoop (treeSize / 2) (fun j s => fillPair C ctx key (2 * j + 1) s)
    { tree := fun _ => root, currLevel := 0, levelIndex := 0, numIndexesInLevel := 2 }

/-! ## `fullDomainVDPF` -/

/-- The body of the leaf loop. -/
def fullDomainLeaf (C : Crypto δ) (key : ParsedKey) (b : Bool) (tree : Nat → Node)
    (treeSize numLeaves i : Nat) (s : Verify Hash Hash × List Uint128) :
    Verify Hash Hash × List Uint128 :=
  let index := treeSize - numLeaves + i
  let out := s.2 ++ [(leafValue key b (tree index)).setWidth 128]
  (verifyStep (mmoHash2to4 C) (mmoHash4to4 C) key.cs (BitVec.ofNat 128 index) (tree index).seed s.1,
    out)

def fullDomainVDPF (C : Crypto δ) (ctx : Ecb Uint128) (mmoHash1 mmoHash2 : Hash) (size : Nat)
    (b : Bool) (k : List Byte) : EvalResult δ :=
  let key := parseKey size mmoHash1.outblocks k
  let numLeaves := 1 <<< size
  let treeSize := 2 * numLeaves - 1
  let filled := fillTree C ctx key treeSize (rootNode key b)
  let s := forLoop numLeaves (fullDomainLeaf C key b filled.tree treeSize numLeaves)
    ({ hash1 := mmoHash1, hash2 := mmoHash2, pi := key.cs }, [])
  { hash1 := s.1.hash1
    hash2 := s.1.hash2
    out := s.2
    proof := C.sha256 (piBytes s.1.pi) }

/-! ## The fill computes the tree

The invariant says where the counters are and what has been filled; a pass is
split into what it does to the one and to the other. -/

/-- Before pass `j` the counters name heap position `j`, and all positions
below `2 j + 1` are filled. -/
structure Filled (child : Nat → Node → Bool → Node) (root : Node) (j : Nat) (s : FillState) :
    Prop where
  counters : ∃ o, o < 2 ^ s.currLevel ∧ j = heapIndex s.currLevel o ∧
    s.levelIndex = 2 * o ∧ s.numIndexesInLevel = 2 ^ (s.currLevel + 1)
  nodes : ∀ l q, q < 2 ^ l → heapIndex l q < 2 * j + 1 →
    s.tree (heapIndex l q) = node child root l q

/-- The children of heap position `j` are `2 j + 1` and `2 j + 2`. -/
theorem heapIndex_child {L o j : Nat} (hj : j = heapIndex L o) :
    2 * j + 1 = heapIndex (L + 1) (2 * o) ∧ 2 * j + 2 = heapIndex (L + 1) (2 * o + 1) := by
  have hpos := Nat.two_pow_pos L
  simp only [heapIndex, Nat.pow_succ] at hj ⊢
  omega

/-- Before the first pass only the root is in place. -/
theorem Filled.init (child : Nat → Node → Bool → Node) (root : Node) :
    Filled child root 0 ⟨fun _ => root, 0, 0, 2⟩ := by
  refine ⟨⟨0, Nat.one_pos, rfl, rfl, rfl⟩, ?_⟩
  intro l q hq hlt
  have hzero : heapIndex l q = heapIndex 0 0 := by
    simp only [heapIndex] at hlt ⊢
    omega
  obtain ⟨rfl, rfl⟩ := heapIndex_injective hq Nat.one_pos hzero
  rfl

section
variable {C : Crypto δ} {ctx : Ecb Uint128} {key : ParsedKey} {root : Node} {j : Nat}
  {s : FillState} (h : Filled (childNode C ctx key) root j s)
include h

/-- The hand-derived parent index of pass `j` is `j`. -/
theorem Filled.parentIndex :
    (if 2 * j + 1 > 1 then
      2 * j + 1 - s.levelIndex - ((s.numIndexesInLevel - s.levelIndex) / 2) else 0) = j := by
  obtain ⟨o, ho, hj, hli, hnum⟩ := h.counters
  simp only [heapIndex] at hj
  rw [hli, hnum, Nat.pow_succ]
  split <;> omega

/-- A pass moves the counters to the next heap position. -/
theorem Filled.step_counters :
    ∃ o, o < 2 ^ (fillPair C ctx key (2 * j + 1) s).currLevel ∧
      j + 1 = heapIndex (fillPair C ctx key (2 * j + 1) s).currLevel o ∧
      (fillPair C ctx key (2 * j + 1) s).levelIndex = 2 * o ∧
      (fillPair C ctx key (2 * j + 1) s).numIndexesInLevel
        = 2 ^ ((fillPair C ctx key (2 * j + 1) s).currLevel + 1) := by
  obtain ⟨o, ho, hj, hli, hnum⟩ := h.counters
  have hpos := Nat.two_pow_pos s.currLevel
  by_cases hlast : s.levelIndex + 2 = s.numIndexesInLevel
  · -- the level is full: the next one starts
    refine ⟨0, Nat.two_pow_pos _, ?_, ?_, ?_⟩ <;> simp only [fillPair, if_pos hlast]
    · simp only [heapIndex, Nat.pow_succ] at *
      omega
    · rw [hnum, Nat.pow_succ _ (s.currLevel + 1)]
  · refine ⟨o + 1, ?_, ?_, ?_, ?_⟩ <;> simp only [fillPair, if_neg hlast]
    · rw [hli, hnum, Nat.pow_succ] at hlast
      omega
    · simp only [heapIndex] at *
      omega
    · omega
    · exact hnum

/-- A pass puts the two children of position `j` in their places. -/
theorem Filled.step_tree {o : Nat} (ho : o < 2 ^ s.currLevel) (hj : j = heapIndex s.currLevel o) :
    (fillPair C ctx key (2 * j + 1) s).tree
      = Function.update (Function.update s.tree (2 * j + 1)
          (node (childNode C ctx key) root (s.currLevel + 1) (2 * o))) (2 * j + 2)
          (node (childNode C ctx key) root (s.currLevel + 1) (2 * o + 1)) := by
  have htree : s.tree j = node (childNode C ctx key) root s.currLevel o := by
    rw [hj]
    exact h.nodes _ _ ho (by omega)
  have hchild : ∀ r, (expandNode C ctx key s.currLevel (s.tree j)).side r
      = childNode C ctx key s.currLevel (node (childNode C ctx key) root s.currLevel o) r := by
    intro r
    rw [htree]
    rfl
  have hleft : node (childNode C ctx key) root (s.currLevel + 1) (2 * o) = _ := node_child _ o false
  have hright : node (childNode C ctx key) root (s.currLevel + 1) (2 * o + 1) = _ :=
    node_child _ o true
  rw [hleft, hright, ← hchild, ← hchild]
  simp only [fillPair, h.parentIndex]
  split <;> rfl

/-- The step lemma. -/
theorem Filled.step :
    Filled (childNode C ctx key) root (j + 1) (fillPair C ctx key (2 * j + 1) s) := by
  refine ⟨h.step_counters, ?_⟩
  intro l q hq hlt
  obtain ⟨o, ho, hj, _, _⟩ := h.counters
  obtain ⟨hleft, hright⟩ := heapIndex_child hj
  rw [h.step_tree ho hj]
  by_cases hr : heapIndex l q = 2 * j + 2
  · obtain ⟨rfl, rfl⟩ := heapIndex_injective hq (by rw [Nat.pow_succ]; omega) (hr.trans hright)
    rw [hr, Function.update_self]
  · rw [Function.update_of_ne hr]
    by_cases hl : heapIndex l q = 2 * j + 1
    · obtain ⟨rfl, rfl⟩ := heapIndex_injective hq (by rw [Nat.pow_succ]; omega) (hl.trans hleft)
      rw [hl, Function.update_self]
    · rw [Function.update_of_ne hl]
      exact h.nodes l q hq (by omega)

end

/-- After the fill every leaf is in place. -/
theorem fillTree_leaf (C : Crypto δ) (ctx : Ecb Uint128) (key : ParsedKey) (size : Nat)
    (root : Node) {i : Nat} (hi : i < 2 ^ size) :
    (fillTree C ctx key (2 * 2 ^ size - 1) root).tree (heapIndex size i)
      = node (childNode C ctx key) root size i := by
  have h : Filled (childNode C ctx key) root ((2 * 2 ^ size - 1) / 2)
      (fillTree C ctx key (2 * 2 ^ size - 1) root) := forLoop_induction
    (P := fun j s => Filled (childNode C ctx key) root j s)
    (Filled.init _ root) fun j _ s hs => hs.step
  refine h.nodes size i hi ?_
  have hpos := Nat.two_pow_pos size
  simp only [heapIndex]
  omega

/-! ## The leaf loop

The leaves lie side by side at the end of the heap, from left to right, so
input `i` reads leaf `i`.  Its hash input differs from the batch evaluator's,
its hash values do not. -/

/-- The leaf of the `i`-th input is the `i`-th node of the last level. -/
theorem leafNode_ofNat (C : Crypto δ) (ctx : Ecb Uint128) (key : ParsedKey) {size i : Nat}
    (b : Bool) (hi : i < 2 ^ 64) :
    leafNode C ctx key size b (BitVec.ofNat 64 i)
      = node (childNode C ctx key) (rootNode key b) size i := by
  have hturn : turnOf size (BitVec.ofNat 64 i) = fun j => i.testBit (size - (j + 1)) := by
    funext j
    rw [turnOf, BitVec.toNat_ofNat, Nat.mod_eq_of_lt hi]
  rw [leafNode, hturn]
  exact walk_leaf size i

/-- The leaf loop writes the leaves in order and folds one verification pass
each. -/
theorem fullDomainLeaf_loop (C : Crypto δ) (key : ParsedKey) (b : Bool) (tree : Nat → Node)
    (treeSize numLeaves : Nat) (h₁ h₂ : Hash) (pi : Fin 4 → Uint128) (n : Nat) :
    forLoop n (fullDomainLeaf C key b tree treeSize numLeaves) (⟨h₁, h₂, pi⟩, [])
      = (⟨h₁.advance (4 * n), h₂.advance (4 * n), fun i => pi i ^^^ keystreamFold C h₂ i n⟩,
          (List.range n).map fun i =>
            (leafValue key b (tree (treeSize - numLeaves + i))).setWidth 128) := by
  induction n with
  | zero => simp [keystreamFold]
  | succ n ih =>
      rw [forLoop_succ, ih]
      simp only [fullDomainLeaf, verifyStep_mmo, Hash.advance_advance, Hash.keystream_advance,
        List.range_succ, List.map_append, List.map_cons, List.map_nil, keystreamFold,
        BitVec.xor_assoc]
      rfl

/-- Both evaluators write the same blocks in the same order and the same
proof, for any key bytes and any hash contexts they both start from. -/
theorem fullDomainVDPF_eq_batch (C : Crypto δ) (ctx : Ecb Uint128) (h₁ h₂ : Hash) (size : Nat)
    (b : Bool) (k : List Byte) (hint : 2 ^ (size + 1) ≤ 2147483647) :
    (fullDomainVDPF C ctx h₁ h₂ size b k).out
        = (batchEvalVDPF C ctx h₁ h₂ size b k
            ((List.range (2 ^ size)).map (BitVec.ofNat 64))).out ∧
      (fullDomainVDPF C ctx h₁ h₂ size b k).proof
        = (batchEvalVDPF C ctx h₁ h₂ size b k
            ((List.range (2 ^ size)).map (BitVec.ofNat 64))).proof := by
  have hpos := Nat.two_pow_pos size
  have hleaves : 1 <<< size = 2 ^ size := Nat.one_shiftLeft size
  constructor
  · rw [batchEvalVDPF_out, List.map_map]
    simp only [fullDomainVDPF, hleaves, fullDomainLeaf_loop]
    refine List.map_congr_left ?_
    intro i hi
    have hi : i < 2 ^ size := List.mem_range.mp hi
    have hindex : 2 * 2 ^ size - 1 - 2 ^ size + i = heapIndex size i := by
      simp only [heapIndex]
      omega
    rw [hindex, fillTree_leaf C ctx _ size _ hi, Function.comp_apply,
      leafNode_ofNat C ctx _ b (by rw [Nat.pow_succ] at hint; omega)]
  · rw [batchEvalVDPF_proof, List.length_map, List.length_range]
    simp only [fullDomainVDPF, hleaves, fullDomainLeaf_loop]
    rfl

/-- The bound is met at every size up to 29. -/
theorem fullDomainVDPF_eq_batch_sample :
    (fullDomainVDPF sampleCrypto ⟨1⟩ (initMMOHash 2 4) (initMMOHash 3 4) 2 true
        (List.replicate 134 5)).proof
      = (batchEvalVDPF sampleCrypto ⟨1⟩ (initMMOHash 2 4) (initMMOHash 3 4) 2 true
          (List.replicate 134 5) [0, 1, 2, 3]).proof :=
  (fullDomainVDPF_eq_batch sampleCrypto ⟨1⟩ (initMMOHash 2 4) (initMMOHash 3 4) 2 true
    (List.replicate 134 5) (by decide)).2

end PSVFSS

/-
# `Shuffle.Opv` — oblivious punctured vectors

ALICE holds the root of a tree of seeds and expands all its leaves.  BOB gets,
over one oblivious transfer a level, the XOR of all nodes on one side of that
level, the side his path leaves (`OblivSetup`).  Going down level by level he
knows every node off his path but the new sibling, and the XOR of the others
corrects what he received to just that (`PunctureExpand`).

    prepareCorrelation_spec   what ALICE offers for a level
    simpleExpand_spec         her leaves
    Punctured.step            one level of BOB's queue
    punctureExpand_spec       his leaves

`DLenPRG` is any function from a seed to two, and the transfer any that
delivers the chosen strings (`Ote.Correct`).
-/
import Mathlib.Data.List.Basic
import PSVFSS.Lib.Loop
import PSVFSS.Lib.PathTree
import PSVFSS.Server.Cprs

namespace PSVFSS

open Loop PathTree TwoParty

/-! ## Blocks

A block is a pair of 64-bit words, and the seeds are combined by exclusive or,
word by word. -/

def zeroBlock : Block := (0, 0)

def xorBlock (x y : Block) : Block := (x.1 ^^^ y.1, x.2 ^^^ y.2)

theorem xorBlock_assoc (x y z : Block) : xorBlock (xorBlock x y) z = xorBlock x (xorBlock y z) :=
  Prod.ext (BitVec.xor_assoc x.1 y.1 z.1) (BitVec.xor_assoc x.2 y.2 z.2)

theorem xorBlock_comm (x y : Block) : xorBlock x y = xorBlock y x :=
  Prod.ext (BitVec.xor_comm x.1 y.1) (BitVec.xor_comm x.2 y.2)

theorem xorBlock_zero (x : Block) : xorBlock x zeroBlock = x :=
  Prod.ext BitVec.xor_zero BitVec.xor_zero

theorem zero_xorBlock (x : Block) : xorBlock zeroBlock x = x :=
  Prod.ext BitVec.zero_xor BitVec.zero_xor

theorem xorBlock_self (x : Block) : xorBlock x x = zeroBlock :=
  Prod.ext BitVec.xor_self BitVec.xor_self

def checkOnPath (x y : Block) : Bool := x.1 == y.1 && x.2 == y.2

theorem checkOnPath_iff (x y : Block) : checkOnPath x y = true ↔ x = y := by
  rw [checkOnPath, Bool.and_eq_true, beq_iff_eq, beq_iff_eq, Prod.ext_iff]

/-! ## The code

ALICE's side recurses on the tree, BOB's goes through a queue level by level.
Seeds come from a generator that is a parameter, transfers from `Ote`. -/

/-- `str0` at `false` and `str1` at `true`. -/
abbrev OtStrings := Bool → Nat → Block

/-- What `recv` delivers where the peer called `send`: the strings, the chosen
bits and the count. -/
structure Ote where
  recv : OtStrings → (Nat → Bool) → Nat → Nat → Block

/-- For every index the string of the chosen bit. -/
def Ote.Correct (ote : Ote) : Prop :=
  ∀ str chosen count, ∀ i < count, ote.recv str chosen count i = str (chosen i) i

section
variable (DLenPRG : Block → Bool → Block)

/-- The first argument is `depth - cur_depth`. -/
def prepareCorrelation : Nat → Nat → Block → OtStrings → OtStrings
  | 0, _, _, str => str
  | left + 1, curDepth, seed, str =>
      let nextSeeds := DLenPRG seed
      let str := fun b =>
        Function.update (str b) curDepth (xorBlock (str b curDepth) (nextSeeds b))
      let str := prepareCorrelation left (curDepth + 1) (nextSeeds false) str
      prepareCorrelation left (curDepth + 1) (nextSeeds true) str

/-- The loop that parses `x`, highest bit first, every bit turned over. -/
def chosenBits (depth x : Nat) : Nat → Bool :=
  (forLoop depth (fun k s =>
    (Function.update s.1 (depth - 1 - k) (decide ((s.2 &&& 1) ^^^ 1 = 1)), s.2 >>> 1))
    (fun _ => false, x)).1

/-- `root` is what the generator fills in at ALICE, and `i` names the call. -/
def oblivSetup (ote : Ote) (i length x : Nat) (party : Party) (root : Block) :
    Proc Nat OtStrings (Nat → Block) :=
  let depth := Nat.log2 length
  match party with
  | .alice => do
      sendMsg i (prepareCorrelation DLenPRG depth 0 root fun _ _ => zeroBlock)
      return fun _ => root
  | .bob => do
      let str ← recvMsg i
      return ote.recv str (chosenBits depth x) depth

/-- The first argument is `depth - cur_depth - 1`. -/
def simpleExpand : Nat → Nat → Block → (Nat → Block) → Nat → Block
  | 0, index, seed, v =>
      let nextSeeds := DLenPRG seed
      Function.update (Function.update v index (nextSeeds false)) (index + 1) (nextSeeds true)
  | left + 1, index, seed, v =>
      let nextSeeds := DLenPRG seed
      let offset := 1 <<< (left + 1)
      let v := simpleExpand left index (nextSeeds false) v
      simpleExpand left (index + offset) (nextSeeds true) v

/-- One turn of the queue, with the mask that is aggregated. -/
def puncturePass (bit : Bool) (seedAt : Block) : List Block × Block → List Block × Block
  | ([], aggMask) => ([], aggMask)
  | (seed :: q, aggMask) =>
      if !checkOnPath seed zeroBlock then
        let nextSeeds := DLenPRG seed
        (q ++ [nextSeeds false, nextSeeds true], xorBlock aggMask (nextSeeds bit))
      else if bit then (q ++ [zeroBlock, seedAt], aggMask)
      else (q ++ [seedAt, zeroBlock], aggMask)

structure PunctureState where
  q : List Block
  path : Nat

/-- One level. -/
def punctureLevel (bits : Nat → Bool) (seeds : Nat → Block) (curDepth : Nat)
    (s : PunctureState) : PunctureState :=
  let size := s.q.length
  let r := forLoop size (fun _ r => puncturePass DLenPRG (bits curDepth) (seeds curDepth) r)
    (s.q, zeroBlock)
  let path := ((s.path ^^^ 1) <<< 1) ^^^ (bits curDepth).toNat
  { q := r.1.modify path fun seed => xorBlock seed r.2
    path := path }

def punctureExpand (depth x : Nat) (seeds v : Nat → Block) : Nat → Block :=
  let bits := chosenBits depth x
  let path := (bits 0).toNat
  let q := if bits 0 then [zeroBlock, seeds 0] else [seeds 0, zeroBlock]
  let s := forLoop (depth - 1) (fun i s => punctureLevel DLenPRG bits seeds (i + 1) s)
    { q := q, path := path }
  forLoop s.q.length (fun i v => Function.update v i (s.q.getD i zeroBlock)) v

def expand (length x : Nat) (seeds : Nat → Block) (party : Party) (v : Nat → Block) :
    Nat → Block :=
  let depth := Nat.log2 length
  match party with
  | .alice => simpleExpand DLenPRG (depth - 1) 0 (seeds 0) v
  | .bob => punctureExpand DLenPRG depth x seeds v

/-- The `o`-th seed of a level below `root`. -/
def seedNode (root : Block) : Nat → Nat → Block := node (fun _ => DLenPRG) root

end

/-! ## The bits of the path

BOB's choices are the bits of his path turned over, so what he is sent belongs
to the sibling of the path at each level. -/

/-- The first `L` bits of a path of `depth`. -/
def onPath (depth x L : Nat) : Nat := x / 2 ^ (depth - L)

theorem chosenBits_eq (depth x : Nat) :
    ∀ i < depth, chosenBits depth x i = !x.testBit (depth - 1 - i) := by
  have h := forLoop_induction (n := depth)
    (f := fun k s => (Function.update s.1 (depth - 1 - k) (decide ((s.2 &&& 1) ^^^ 1 = 1)),
      s.2 >>> 1))
    (s := (fun _ => false, x))
    (P := fun k (s : (Nat → Bool) × Nat) =>
      s.2 = x >>> k ∧ ∀ i < depth, depth ≤ i + k → s.1 i = !x.testBit (depth - 1 - i))
    ⟨rfl, fun i hi hlow => absurd hlow (by omega)⟩ fun k hk s hs => ?_
  · exact fun i hi => h.2 i hi (Nat.le_add_left depth i)
  · have hshift : s.2 >>> 1 = x >>> (k + 1) := by rw [hs.1, ← Nat.shiftRight_add]
    refine ⟨hshift, fun i hi hlow => ?_⟩
    show Function.update s.1 (depth - 1 - k) _ i = _
    by_cases hik : i = depth - 1 - k
    · subst hik
      have hlast : depth - 1 - (depth - 1 - k) = k := by omega
      have hbit : decide ((s.2 &&& 1) ^^^ 1 = 1) = !s.2.testBit 0 := by
        rw [Nat.and_one_is_mod, Nat.testBit_zero]
        rcases Nat.mod_two_eq_zero_or_one s.2 with h | h <;> rw [h] <;> rfl
      rw [Function.update_self, hbit, hs.1, hlast, Nat.testBit_shiftRight, Nat.add_zero]
    · rw [Function.update_of_ne hik]
      exact hs.2 i hi (by omega)

theorem onPath_succ {depth L : Nat} (hL : L < depth) (x : Nat) :
    onPath depth x (L + 1) = 2 * onPath depth x L + (!chosenBits depth x L).toNat := by
  have hsub : depth - L = depth - 1 - L + 1 := by omega
  have hsub' : depth - (L + 1) = depth - 1 - L := by omega
  rw [chosenBits_eq depth x L hL, Bool.not_not, Nat.testBit_eq_decide_div_mod_eq, onPath, onPath,
    hsub, hsub', Nat.pow_succ, ← Nat.div_div_eq_div_mul]
  rcases Nat.mod_two_eq_zero_or_one (x / 2 ^ (depth - 1 - L)) with h | h
  · rw [h]
    show _ = 2 * (x / 2 ^ (depth - 1 - L) / 2) + 0
    omega
  · rw [h]
    show _ = 2 * (x / 2 ^ (depth - 1 - L) / 2) + 1
    omega

/-- An even number and a bit, turned over by another. -/
theorem two_mul_xor (p : Nat) (b c : Bool) :
    (2 * p + b.toNat) ^^^ c.toNat = 2 * p + (b ^^ c).toNat := by
  have hdouble : ∀ d : Bool, 2 * p + d.toNat = Nat.bit d p := fun d => (Nat.bit_val d p).symm
  have hbit : c.toNat = Nat.bit c 0 := by cases c <;> rfl
  rw [hdouble, hbit, hdouble, Nat.xor_bit, Nat.xor_zero]

section
variable {DLenPRG : Block → Bool → Block} {root : Block}

theorem nextSeeds_seedNode (DLenPRG : Block → Bool → Block) (root : Block) (L o : Nat) (r : Bool) :
    DLenPRG (seedNode DLenPRG root L o) r = seedNode DLenPRG root (L + 1) (2 * o + r.toNat) :=
  (node_child L o r).symm

/-! ## At ALICE

The recursion visits every node and adds it to the string of its level and
side.  What has been added below a node is the exclusive or of the nodes
there. -/

/-- The XOR of the nodes on one side, `d + 1` levels below node `o` of level
`L`. -/
def sideTotal (DLenPRG : Block → Bool → Block) (root : Block) (L o d : Nat) (b : Bool) : Block :=
  total xorBlock zeroBlock (2 ^ d) fun j =>
    seedNode DLenPRG root (L + d + 1) (2 * (o * 2 ^ d + j) + b.toNat)

theorem sideTotal_zero (L o : Nat) (b : Bool) :
    sideTotal DLenPRG root L o 0 b = seedNode DLenPRG root (L + 1) (2 * o + b.toNat) := by
  show xorBlock zeroBlock (seedNode DLenPRG root (L + 1) (2 * (o * 1 + 0) + b.toNat)) = _
  rw [zero_xorBlock, Nat.mul_one, Nat.add_zero o]

theorem sideTotal_root (d : Nat) (b : Bool) :
    sideTotal DLenPRG root 0 0 d b
      = total xorBlock zeroBlock (2 ^ d) fun j =>
          seedNode DLenPRG root (d + 1) (2 * j + b.toNat) := by
  simp only [sideTotal, Nat.zero_mul, Nat.zero_add]

/-- The nodes below `o` are those below its two children. -/
theorem sideTotal_succ (L o d : Nat) (b : Bool) :
    sideTotal DLenPRG root L o (d + 1) b
      = xorBlock (sideTotal DLenPRG root (L + 1) (2 * o) d b)
          (sideTotal DLenPRG root (L + 1) (2 * o + 1) d b) := by
  have hlevel : L + (d + 1) + 1 = L + 1 + d + 1 := by omega
  have hleft : ∀ j, o * 2 ^ (d + 1) + j = 2 * o * 2 ^ d + j := by
    intro j
    ring
  have hright : ∀ j, 2 * o * 2 ^ d + (2 ^ d + j) = (2 * o + 1) * 2 ^ d + j := by
    intro j
    ring
  simp only [sideTotal, hlevel, hleft]
  rw [Nat.pow_succ, Nat.mul_two, total_add xorBlock_assoc xorBlock_zero]
  simp only [hright]

theorem prepareCorrelation_below (left : Nat) :
    ∀ {L i : Nat} (seed : Block) (str : OtStrings) (b : Bool), i < L →
      prepareCorrelation DLenPRG left L seed str b i = str b i := by
  induction left with
  | zero => exact fun _ _ _ _ => rfl
  | succ left ih =>
      intro L i seed str b hi
      rw [prepareCorrelation, ih _ _ _ (Nat.lt_succ_of_lt hi), ih _ _ _ (Nat.lt_succ_of_lt hi),
        Function.update_of_ne (Nat.ne_of_lt hi)]

variable (DLenPRG root) in
/-- What the call at node `o` of a level adds to the strings. -/
theorem prepareCorrelation_spec (left : Nat) :
    ∀ (L o : Nat) (str : OtStrings) (b : Bool), ∀ d < left,
      prepareCorrelation DLenPRG left L (seedNode DLenPRG root L o) str b (L + d)
        = xorBlock (str b (L + d)) (sideTotal DLenPRG root L o d b) := by
  induction left with
  | zero => exact fun _ _ _ _ d hd => absurd hd (Nat.not_lt_zero d)
  | succ left ih =>
      intro L o str b d hd
      simp only [prepareCorrelation, nextSeeds_seedNode]
      cases d with
      | zero =>
          rw [Nat.add_zero L, prepareCorrelation_below left _ _ _ (Nat.lt_succ_self L),
            prepareCorrelation_below left _ _ _ (Nat.lt_succ_self L), Function.update_self,
            sideTotal_zero]
      | succ d =>
          have hlevel : L + (d + 1) = L + 1 + d := by omega
          have hlater : L + 1 + d ≠ L := by omega
          have hd : d < left := Nat.lt_of_succ_lt_succ hd
          rw [hlevel, ih _ _ _ _ d hd, ih _ _ _ _ d hd, Function.update_of_ne hlater,
            sideTotal_succ, xorBlock_assoc]
          rfl

variable (DLenPRG root) in
/-- The call at node `o` of a level fills the leaves below it. -/
theorem simpleExpand_spec (left : Nat) :
    ∀ (L o index : Nat) (v : Nat → Block),
      (∀ j < 2 ^ (left + 1),
        simpleExpand DLenPRG left index (seedNode DLenPRG root L o) v (index + j)
          = seedNode DLenPRG root (L + left + 1) (o * 2 ^ (left + 1) + j)) ∧
      ∀ i, i < index ∨ index + 2 ^ (left + 1) ≤ i →
        simpleExpand DLenPRG left index (seedNode DLenPRG root L o) v i = v i := by
  induction left with
  | zero =>
      intro L o index v
      simp only [simpleExpand, nextSeeds_seedNode]
      refine ⟨fun j hj => ?_, fun i hi => ?_⟩
      · cases j with
        | zero =>
            rw [Function.update_of_ne (by omega), Nat.add_zero index, Function.update_self,
              Nat.mul_comm 2]
            rfl
        | succ j =>
            obtain rfl : j = 0 := by omega
            rw [Function.update_self, Nat.mul_comm 2]
            rfl
      · rw [Function.update_of_ne (by omega), Function.update_of_ne (by omega)]
  | succ left ih =>
      intro L o index v
      have hoffset : 1 <<< (left + 1) = 2 ^ (left + 1) := Nat.one_shiftLeft _
      have hsize : 2 ^ (left + 1 + 1) = 2 ^ (left + 1) + 2 ^ (left + 1) := by
        rw [Nat.pow_succ, Nat.mul_two]
      have hlevel : L + (left + 1) + 1 = L + 1 + left + 1 := by omega
      simp only [simpleExpand, nextSeeds_seedNode, hoffset, hsize, hlevel]
      obtain ⟨hfirst, hkeep⟩ := ih (L + 1) (2 * o + false.toNat) index v
      obtain ⟨hsecond, hkeep'⟩ := ih (L + 1) (2 * o + true.toNat) (index + 2 ^ (left + 1))
        (simpleExpand DLenPRG left index (seedNode DLenPRG root (L + 1) (2 * o + false.toNat)) v)
      refine ⟨fun j hj => ?_, fun i hi => ?_⟩
      · by_cases hlow : j < 2 ^ (left + 1)
        · rw [hkeep' _ (.inl (by omega)), hfirst j hlow]
          congr 1
          show (2 * o + 0) * 2 ^ (left + 1) + j = _
          ring
        · obtain ⟨j, rfl⟩ := Nat.exists_eq_add_of_le (Nat.le_of_not_lt hlow)
          rw [← Nat.add_assoc, hsecond j (by omega)]
          congr 1
          show (2 * o + 1) * 2 ^ (left + 1) + j = _
          ring
      · rw [hkeep' i (by omega), hkeep i (by omega)]

/-! ## At BOB

At every level he lacks one node, the one on his path, for which the queue
holds a placeholder.  The masks he aggregates skip it. -/

/-- The queue at a level holds every node but the one on the path, and `path`
names its sibling. -/
structure Punctured (DLenPRG : Block → Bool → Block) (root : Block) (depth x L : Nat)
    (s : PunctureState) : Prop where
  q : s.q = (List.range (2 ^ L)).map fun j =>
    if j = onPath depth x L then zeroBlock else seedNode DLenPRG root L j
  path : s.path ^^^ 1 = onPath depth x L

/-- What takes the place of a seed in the queue. -/
def pushed (DLenPRG : Block → Bool → Block) (bit : Bool) (seedAt seed : Block) : List Block :=
  if seed = zeroBlock then if bit then [zeroBlock, seedAt] else [seedAt, zeroBlock]
  else [DLenPRG seed false, DLenPRG seed true]

theorem puncturePass_cons (bit : Bool) (seedAt seed : Block) (q : List Block) (aggMask : Block) :
    puncturePass DLenPRG bit seedAt (seed :: q, aggMask)
      = (q ++ pushed DLenPRG bit seedAt seed,
          xorBlock aggMask (if seed = zeroBlock then zeroBlock else DLenPRG seed bit)) := by
  by_cases hseed : seed = zeroBlock
  · have hon : checkOnPath seed zeroBlock = true := (checkOnPath_iff _ _).mpr hseed
    rw [if_pos hseed, xorBlock_zero, pushed, if_pos hseed]
    cases bit <;> simp [puncturePass, hon]
  · have hoff : checkOnPath seed zeroBlock = false :=
      Bool.eq_false_iff.mpr (mt (checkOnPath_iff _ _).mp hseed)
    rw [if_neg hseed, pushed, if_neg hseed]
    simp [puncturePass, hoff]

section
variable {depth x : Nat} {seeds : Nat → Block}

/-- A turn of the whole queue: BOB's node and the placeholder below the path,
the children of the others, and the XOR of the others on the side he chose. -/
theorem puncture_rotate {L : Nat}
    (hnode : ∀ o < 2 ^ L, seedNode DLenPRG root L o ≠ zeroBlock) (bit : Bool) (seedAt : Block)
    (p : Nat) :
    forLoop (2 ^ L) (fun _ r => puncturePass DLenPRG bit seedAt r)
        ((List.range (2 ^ L)).map fun j => if j = p then zeroBlock else seedNode DLenPRG root L j,
          zeroBlock)
      = ((List.range (2 ^ (L + 1))).map fun m => if m = 2 * p + bit.toNat then seedAt
            else if m = 2 * p + (!bit).toNat then zeroBlock else seedNode DLenPRG root (L + 1) m,
          total xorBlock zeroBlock (2 ^ L) fun j => if j = p then zeroBlock
            else seedNode DLenPRG root (L + 1) (2 * j + bit.toNat)) := by
  rw [forLoop_rotate (puncturePass_cons bit seedAt), Nat.pow_succ, Nat.mul_comm (2 ^ L),
    ← flatMap_pairs]
  refine Prod.ext (List.flatMap_congr fun j hj => ?_) (forLoop_congr fun j hj agg => ?_)
  · show pushed DLenPRG bit seedAt (if j = p then zeroBlock else seedNode DLenPRG root L j) = _
    by_cases hjp : j = p
    · subst hjp
      rw [if_pos rfl, pushed, if_pos rfl]
      cases bit <;> simp
    · have h0 : ∀ b : Bool, 2 * j ≠ 2 * p + b.toNat := fun b => by
        have := Bool.toNat_le b
        omega
      have h1 : ∀ b : Bool, 2 * j + 1 ≠ 2 * p + b.toNat := fun b => by
        have := Bool.toNat_le b
        omega
      rw [if_neg hjp, pushed, if_neg (hnode j (List.mem_range.mp hj)), if_neg (h0 _), if_neg (h0 _),
        if_neg (h1 _), if_neg (h1 _), nextSeeds_seedNode DLenPRG, nextSeeds_seedNode DLenPRG]
      rfl
  · refine congrArg (xorBlock agg) ?_
    by_cases hjp : j = p
    · simp only [if_pos hjp, if_true]
    · simp only [if_neg hjp, if_neg (hnode j hj), nextSeeds_seedNode]

/-- The step lemma: the XOR of the others corrects what BOB received for the
level to the sibling of the path. -/
theorem Punctured.step {L : Nat} (hL : L < depth)
    (hnode : ∀ o < 2 ^ L, seedNode DLenPRG root L o ≠ zeroBlock) (hx : x < 2 ^ depth)
    (hseeds : seeds L = sideTotal DLenPRG root 0 0 L (chosenBits depth x L)) {s : PunctureState}
    (h : Punctured DLenPRG root depth x L s) :
    Punctured DLenPRG root depth x (L + 1)
      (punctureLevel DLenPRG (chosenBits depth x) seeds L s) := by
  have hp : onPath depth x L < 2 ^ L := by
    refine Nat.div_lt_of_lt_mul ?_
    rwa [← Nat.pow_add, Nat.sub_add_cancel (Nat.le_of_lt hL)]
  have hpath : ((s.path ^^^ 1) <<< 1) ^^^ (chosenBits depth x L).toNat
      = 2 * onPath depth x L + (chosenBits depth x L).toNat := by
    have h2 := two_mul_xor (onPath depth x L) false (chosenBits depth x L)
    rw [h.path, Nat.shiftLeft_eq, Nat.pow_one, Nat.mul_comm]
    simpa using h2
  have hsize : s.q.length = 2 ^ L := by rw [h.q, List.length_map, List.length_range]
  simp only [punctureLevel, hsize, hpath]
  rw [h.q, puncture_rotate hnode]
  constructor
  · rw [modify_map_range]
    refine List.map_congr_left fun m _ => ?_
    rw [onPath_succ hL]
    by_cases hsib : m = 2 * onPath depth x L + (chosenBits depth x L).toNat
    · have hne : m ≠ 2 * onPath depth x L + (!chosenBits depth x L).toNat := by
        rw [hsib]
        cases chosenBits depth x L <;> simp
      rw [if_pos hsib, if_pos hsib, if_neg hne, hseeds, sideTotal_root,
        total_off xorBlock_assoc xorBlock_zero xorBlock_comm xorBlock_self hp, hsib]
    · rw [if_neg hsib, if_neg hsib]
  · show (2 * onPath depth x L + (chosenBits depth x L).toNat) ^^^ true.toNat = _
    rw [two_mul_xor, Bool.xor_true, onPath_succ hL]

/-- At the first level BOB holds the sibling as it was sent. -/
theorem Punctured.init (hdepth : 0 < depth) (hx : x < 2 ^ depth)
    (hseeds : seeds 0 = sideTotal DLenPRG root 0 0 0 (chosenBits depth x 0)) :
    Punctured DLenPRG root depth x 1
      { q := if chosenBits depth x 0 then [zeroBlock, seeds 0] else [seeds 0, zeroBlock]
        path := (chosenBits depth x 0).toNat } := by
  have hroot : onPath depth x 0 = 0 := Nat.div_eq_of_lt hx
  have hp : onPath depth x 1 = (!chosenBits depth x 0).toNat := by
    rw [onPath_succ hdepth, hroot, Nat.mul_zero, Nat.zero_add]
  rw [hseeds, sideTotal_zero, Nat.mul_zero, Nat.zero_add]
  constructor
  · rw [hp]
    cases chosenBits depth x 0 <;> rfl
  · show (chosenBits depth x 0).toNat ^^^ 1 = _
    rw [hp]
    cases chosenBits depth x 0 <;> decide

/-- BOB's leaves: all of ALICE's but the one on his path. -/
theorem punctureExpand_spec (hdepth : 0 < depth) (hx : x < 2 ^ depth)
    (hseeds : ∀ d < depth, seeds d = sideTotal DLenPRG root 0 0 d (chosenBits depth x d))
    (hnode : ∀ L, 1 ≤ L → L < depth → ∀ o < 2 ^ L, seedNode DLenPRG root L o ≠ zeroBlock)
    (v : Nat → Block) {j : Nat} (hj : j < 2 ^ depth) :
    punctureExpand DLenPRG depth x seeds v j
      = if j = x then zeroBlock else seedNode DLenPRG root depth j := by
  have h := forLoop_induction (n := depth - 1)
    (f := fun i s => punctureLevel DLenPRG (chosenBits depth x) seeds (i + 1) s)
    (P := fun i s => Punctured DLenPRG root depth x (i + 1) s)
    (Punctured.init hdepth hx (hseeds 0 hdepth)) fun i hi s hs =>
      hs.step (by omega) (hnode _ (Nat.succ_pos i) (by omega)) hx (hseeds _ (by omega))
  rw [Nat.sub_add_cancel hdepth] at h
  have hleaf : onPath depth x depth = x := by
    rw [onPath, Nat.sub_self, Nat.pow_zero, Nat.div_one]
  have hq := h.q
  rw [hleaf] at hq
  rw [punctureExpand]
  simp only [hq, List.length_map, List.length_range]
  rw [forLoop_scatter (f := fun i => i) (fun _ _ _ _ h => h) hj]
  simp [hj]

end

end

end PSVFSS

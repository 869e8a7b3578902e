/-
# `Vdpf.Gen` — `genVDPF`

Key generation walks both parties' trees down the secret index, choosing
each level's correction word so that the child it leaves becomes the same in
both trees (`LevelSpec.lose`) while the child it keeps does not
(`genPath_bits`).  An attempt whose two leaf seeds agree in bit 1 is thrown
away and repeated with fresh roots; the hash context is *not* reset between
attempts.

`genVDPF` takes the random blocks it would draw as a list of root pairs, one
pair an attempt; `none` means the list ran out before an attempt succeeded.
-/
import PSVFSS.Vdpf.Eval

namespace PSVFSS

open ByteBuffer CipherMode PathTree Loop

variable {δ : Type}

/-! ## The path of the secret index

Both parties' nodes are computed together, a level at a time.  A correction
word is what makes the children off the path equal, and it is the same for
both parties. -/

/-- The arrays `genVDPF` fills: both parties' nodes along the index, and the
correction words.  Correction word `i` belongs to level `i + 1`. -/
structure GenPath where
  path0 : Nat → Node
  path1 : Nat → Node
  sCW : Nat → Uint128
  tCW0 : Nat → CInt
  tCW1 : Nat → CInt

/-- `seeds[i]`, `bits[i]` of one party: the kept child, corrected when the
parent's bit is 1. -/
def keepNode (child : Node) (parentBit : CInt) (sCW : Uint128) (tCW : CInt) : Node :=
  if parentBit = 1 then ⟨child.seed ^^^ sCW, child.bit ^^^ tCW⟩ else child

@[simp] theorem keepNode_zero (n : Node) (s : Uint128) (t : CInt) : keepNode n 0 s t = n := rfl

@[simp] theorem keepNode_one (n : Node) (s : Uint128) (t : CInt) :
    keepNode n 1 s t = ⟨n.seed ^^^ s, n.bit ^^^ t⟩ := rfl

/-- One level of key generation, `i = 1 .. size`. -/
def genLevel (C : Crypto δ) (ctx : Ecb Uint128) (size : Nat) (index : Uint64) (i : Nat)
    (g : GenPath) : GenPath :=
  let p0 := dpfPRG C ctx (g.path0 (i - 1)).seed
  let p1 := dpfPRG C ctx (g.path1 (i - 1)).seed
  let indexBit := getbit (index.setWidth 128) size i
  -- `keep` is RIGHT exactly when the index bit is not 0
  let keep : Bool := decide (indexBit ≠ 0)
  let lose : Bool := !keep
  let sCW := (p0.side lose).seed ^^^ (p1.side lose).seed
  let tCW0 := p0.bit1 ^^^ p1.bit1 ^^^ indexBit ^^^ 1
  let tCW1 := p0.bit2 ^^^ p1.bit2 ^^^ indexBit
  let tCW := if keep then tCW1 else tCW0
  { path0 := Function.update g.path0 i (keepNode (p0.side keep) (g.path0 (i - 1)).bit sCW tCW)
    path1 := Function.update g.path1 i (keepNode (p1.side keep) (g.path1 (i - 1)).bit sCW tCW)
    sCW := Function.update g.sCW (i - 1) sCW
    tCW0 := Function.update g.tCW0 (i - 1) tCW0
    tCW1 := Function.update g.tCW1 (i - 1) tCW1 }

/-- The arrays before the loop. -/
def genRoots (seed0 seed1 : Uint128) : GenPath where
  path0 := fun _ => ⟨seed0, 0⟩
  path1 := fun _ => ⟨seed1, 1⟩
  sCW := fun _ => 0
  tCW0 := fun _ => 0
  tCW1 := fun _ => 0

def genPath (C : Crypto δ) (ctx : Ecb Uint128) (size : Nat) (index : Uint64)
    (seed0 seed1 : Uint128) : GenPath :=
  forLoop size (fun j g => genLevel C ctx size index (j + 1) g) (genRoots seed0 seed1)

/-! ## Writing the keys

The first key is written field by field, the second as a copy with three
fields written over.  Offsets are those of `vdpf.c`, in bytes. -/

/-- The bytes of one level. -/
def storeLevel (g : GenPath) (i : Nat) (k : List Byte) : List Byte :=
  let k := memcpy k (18 * i) (storeLE (g.sCW (i - 1)))
  let k := memcpy k (cwSize * i + cwSize - 2) [(g.tCW0 (i - 1)).setWidth 8]
  memcpy k (cwSize * i + cwSize - 1) [(g.tCW1 (i - 1)).setWidth 8]

def storeKey0 (g : GenPath) (size outblocks : Nat) (lastCW : Uint64) (cs : Fin 4 → Uint128)
    (k0 : List Byte) : List Byte :=
  let k0 := memcpy k0 0 [0]
  let k0 := memcpy k0 1 (storeLE (g.path0 0).seed)
  let k0 := memcpy k0 17 [(g.path0 0).bit.setWidth 8]
  let k0 := forLoop size (fun j k => storeLevel g (j + 1) k) k0
  let k0 := memset k0 (indexLastCW size) 0 16
  let k0 := memcpy k0 (indexLastCW size) (storeLE lastCW)
  memcpy k0 (indexLastCW size + 16) ((piBytes cs).take (16 * outblocks))

/-- `k1` is a copy of `k0` but for the party, the root seed and the root bit. -/
def storeKey1 (g : GenPath) (size outblocks : Nat) (k0 k1 : List Byte) : List Byte :=
  let k1 := memcpy k1 0 (slice k0 0 (keySize size outblocks))
  let k1 := memcpy k1 1 (storeLE (g.path1 0).seed)
  let k1 := memcpy k1 0 [1]
  memcpy k1 17 [(g.path1 0).bit.setWidth 8]

/-! ## `genVDPF`

The random blocks are drawn in pairs, one for each attempt.  Which attempt
succeeds is decided by bit 1 of the two leaf seeds, and the hash context goes
from one attempt to the next. -/

/-- The last correction word, from both leaves. -/
def lastCorrection (beta : Uint64) (leaf0 leaf1 : Node) : Uint64 :=
  let sFinal0 := field61FromU128 (convert leaf0.seed)
  let sFinal1 := field61FromU128 (convert leaf1.seed)
  let baseCW := field61Add beta (field61Sub sFinal1 sFinal0)
  if leaf1.bit = 0 then baseCW else field61Neg baseCW

/-- What `genVDPF` leaves behind: the hash context, both keys, and the random
blocks not drawn. -/
structure GenResult where
  hash : Hash
  k0 : List Byte
  k1 : List Byte
  rest : List (Uint128 × Uint128)

def genVDPF (C : Crypto δ) (ctx : Ecb Uint128) (hash : Hash) (size : Nat) (index beta : Uint64)
    (k0 k1 : List Byte) : List (Uint128 × Uint128) → Option GenResult
  | [] => none
  | (seed0, seed1) :: rand =>
      let g := genPath C ctx size index seed0 seed1
      let leaf0 := g.path0 size
      let leaf1 := g.path1 size
      let pi0 := mmoHash2to4 C hash ![index.setWidth 128, leaf0.seed]
      let pi1 := mmoHash2to4 C pi0.1 ![index.setWidth 128, leaf1.seed]
      let cs : Fin 4 → Uint128 := fun i => pi0.2 i ^^^ pi1.2 i
      if seedLsb leaf0.seed ≠ seedLsb leaf1.seed then
        let lastCW := lastCorrection beta leaf0 leaf1
        let k0 := storeKey0 g size hash.outblocks lastCW cs k0
        let k1 := storeKey1 g size hash.outblocks k0 k1
        some { hash := pi1.1, k0 := k0, k1 := k1, rest := rand }
      else
        genVDPF C ctx pi1.1 size index beta k0 k1 rand

/-! ## The successful attempt

The loop is a recursion on the random blocks.  Whatever it returned, an
attempt stored the keys, on a hash context that may have been used by attempts
before it. -/

/-- Some attempt succeeded, on some hash context of the same size, and the
keys are what that attempt stored. -/
theorem genVDPF_attempt {C : Crypto δ} {ctx : Ecb Uint128} {size : Nat} {index beta : Uint64}
    {k0 k1 : List Byte} {r : GenResult} :
    ∀ {rand : List (Uint128 × Uint128)} {hash : Hash},
      genVDPF C ctx hash size index beta k0 k1 rand = some r →
      ∃ seed0 seed1 cs,
        r.k0 = storeKey0 (genPath C ctx size index seed0 seed1) size hash.outblocks
          (lastCorrection beta ((genPath C ctx size index seed0 seed1).path0 size)
            ((genPath C ctx size index seed0 seed1).path1 size)) cs k0 ∧
        r.k1 = storeKey1 (genPath C ctx size index seed0 seed1) size hash.outblocks r.k0 k1
  | [], _, h => nomatch h
  | (seed0, seed1) :: rand, hash, h => by
      rw [genVDPF] at h
      simp only [mmoHash2to4_eq] at h
      split at h
      · cases h
        exact ⟨seed0, seed1, _, rfl, rfl⟩
      · obtain ⟨s0, s1, cs, h0, h1⟩ := genVDPF_attempt h
        exact ⟨s0, s1, cs, h0, h1⟩

/-! ## What the path satisfies

The equations of one level, and from them by induction the two facts that
carry correctness: on the path the control bits differ, one turn off it the
nodes are equal. -/

/-- Level `i` of the path, as equations between its entries. -/
structure LevelSpec (C : Crypto δ) (ctx : Ecb Uint128) (size : Nat) (index : Uint64)
    (g : GenPath) (i : Nat) : Prop where
  sCW : g.sCW i = ((dpfPRG C ctx (g.path0 i).seed).side (!turnOf size index i)).seed ^^^
    ((dpfPRG C ctx (g.path1 i).seed).side (!turnOf size index i)).seed
  tCW0 : g.tCW0 i = (dpfPRG C ctx (g.path0 i).seed).bit1 ^^^
    (dpfPRG C ctx (g.path1 i).seed).bit1 ^^^ (if turnOf size index i then 1 else 0) ^^^ 1
  tCW1 : g.tCW1 i = (dpfPRG C ctx (g.path0 i).seed).bit2 ^^^
    (dpfPRG C ctx (g.path1 i).seed).bit2 ^^^ (if turnOf size index i then 1 else 0)
  path0 : g.path0 (i + 1) = keepNode ((dpfPRG C ctx (g.path0 i).seed).side (turnOf size index i))
    (g.path0 i).bit (g.sCW i) (if turnOf size index i then g.tCW1 i else g.tCW0 i)
  path1 : g.path1 (i + 1) = keepNode ((dpfPRG C ctx (g.path1 i).seed).side (turnOf size index i))
    (g.path1 i).bit (g.sCW i) (if turnOf size index i then g.tCW1 i else g.tCW0 i)

/-- The level just computed meets its equations. -/
theorem genLevel_self (C : Crypto δ) (ctx : Ecb Uint128) (size : Nat) (index : Uint64) (j : Nat)
    (g : GenPath) : LevelSpec C ctx size index (genLevel C ctx size index (j + 1) g) j := by
  have hbit : getbit (index.setWidth 128) size (j + 1) = if turnOf size index j then 1 else 0 := by
    rw [getbit_eq, toNat_widen]
    rfl
  have hkeep : decide ((if turnOf size index j then (1 : CInt) else 0) ≠ 0)
      = turnOf size index j := by
    cases turnOf size index j <;> rfl
  have hj : j ≠ j + 1 := Nat.ne_of_lt (Nat.lt_succ_self j)
  constructor <;>
    simp only [genLevel, Nat.add_sub_cancel, Function.update_self, Function.update_of_ne hj, hbit,
      hkeep]

/-- Later levels leave an earlier one alone. -/
theorem genLevel_of_lt {C : Crypto δ} {ctx : Ecb Uint128} {size : Nat} {index : Uint64}
    {i j : Nat} {g : GenPath} (hij : i < j) (h : LevelSpec C ctx size index g i) :
    LevelSpec C ctx size index (genLevel C ctx size index (j + 1) g) i := by
  have h₀ : i ≠ j + 1 := by omega
  have h₁ : i + 1 ≠ j + 1 := by omega
  have h₂ : i ≠ j := Nat.ne_of_lt hij
  obtain ⟨hs, ht0, ht1, hp0, hp1⟩ := h
  constructor <;>
    simp only [genLevel, Nat.add_sub_cancel, Function.update_of_ne h₀, Function.update_of_ne h₁,
      Function.update_of_ne h₂] <;> assumption

/-- Every level of a finished path meets its equations, and the roots are the
drawn seeds with bits 0 and 1. -/
theorem genPath_spec (C : Crypto δ) (ctx : Ecb Uint128) (size : Nat) (index : Uint64)
    (seed0 seed1 : Uint128) :
    (genPath C ctx size index seed0 seed1).path0 0 = ⟨seed0, 0⟩ ∧
    (genPath C ctx size index seed0 seed1).path1 0 = ⟨seed1, 1⟩ ∧
    ∀ i < size, LevelSpec C ctx size index (genPath C ctx size index seed0 seed1) i := by
  refine forLoop_induction (P := fun n g => g.path0 0 = ⟨seed0, 0⟩ ∧ g.path1 0 = ⟨seed1, 1⟩ ∧
    ∀ i < n, LevelSpec C ctx size index g i) ?_ ?_
  · exact ⟨rfl, rfl, fun i hi => absurd hi (Nat.not_lt_zero i)⟩
  · rintro j _ g ⟨h0, h1, hlev⟩
    refine ⟨?_, ?_, ?_⟩
    · simp only [genLevel, Function.update_of_ne (Nat.succ_ne_zero j).symm, h0]
    · simp only [genLevel, Function.update_of_ne (Nat.succ_ne_zero j).symm, h1]
    · intro i hi
      rcases Nat.lt_succ_iff_lt_or_eq.mp hi with hi | rfl
      · exact genLevel_of_lt hi (hlev i hi)
      · exact genLevel_self C ctx size index i g

section
variable {C : Crypto δ} {ctx : Ecb Uint128} {size : Nat} {index : Uint64} {g : GenPath} {i : Nat}

theorem isBit_side (C : Crypto δ) (ctx : Ecb Uint128) (s : Uint128) (r : Bool) :
    IsBit ((dpfPRG C ctx s).side r).bit := by
  cases r with
  | false => exact dpfPRG_bit1 C ctx s
  | true => exact dpfPRG_bit2 C ctx s

/-- The bit correction on the kept side makes the two children's bits differ. -/
theorem LevelSpec.tCW_keep (h : LevelSpec C ctx size index g i) :
    (if turnOf size index i then g.tCW1 i else g.tCW0 i)
      = ((dpfPRG C ctx (g.path0 i).seed).side (turnOf size index i)).bit ^^^
        ((dpfPRG C ctx (g.path1 i).seed).side (turnOf size index i)).bit ^^^ 1 := by
  cases ht : turnOf size index i with
  | false => simp [h.tCW0, ht, PrgOutput.side]
  | true => simp [h.tCW1, ht, PrgOutput.side]

/-- The bit correction on the lost side makes them equal. -/
theorem LevelSpec.tCW_lose (h : LevelSpec C ctx size index g i) :
    (if !turnOf size index i then g.tCW1 i else g.tCW0 i)
      = ((dpfPRG C ctx (g.path0 i).seed).side (!turnOf size index i)).bit ^^^
        ((dpfPRG C ctx (g.path1 i).seed).side (!turnOf size index i)).bit := by
  cases ht : turnOf size index i with
  | false => simp [h.tCW1, ht, PrgOutput.side]
  | true => simp [h.tCW0, ht, PrgOutput.side, BitVec.xor_assoc]

/-- Exactly one of two control bits is set. -/
def BitsDiffer (s t : CInt) : Prop := (s = 0 ∧ t = 1) ∨ (s = 1 ∧ t = 0)

theorem bitsDiffer_xor_one {s t : CInt} (hs : IsBit s) (ht : IsBit t) :
    BitsDiffer s (t ^^^ (s ^^^ t ^^^ 1)) ∧ BitsDiffer (s ^^^ (s ^^^ t ^^^ 1)) t := by
  rcases hs with rfl | rfl <;> rcases ht with rfl | rfl <;> simp [BitsDiffer]

/-- Along the path the two control bits differ. -/
theorem LevelSpec.bits (h : LevelSpec C ctx size index g i)
    (hbits : BitsDiffer (g.path0 i).bit (g.path1 i).bit) :
    BitsDiffer (g.path0 (i + 1)).bit (g.path1 (i + 1)).bit := by
  have hx := bitsDiffer_xor_one (isBit_side C ctx (g.path0 i).seed (turnOf size index i))
    (isBit_side C ctx (g.path1 i).seed (turnOf size index i))
  rw [h.path0, h.path1, h.tCW_keep]
  rcases hbits with ⟨h0, h1⟩ | ⟨h0, h1⟩
  · rw [h0, h1, keepNode_zero, keepNode_one]
    exact hx.1
  · rw [h0, h1, keepNode_zero, keepNode_one]
    exact hx.2

/-- One turn off the path, both parties reach the same node. -/
theorem LevelSpec.lose (h : LevelSpec C ctx size index g i)
    (hbits : BitsDiffer (g.path0 i).bit (g.path1 i).bit) :
    keepNode ((dpfPRG C ctx (g.path0 i).seed).side (!turnOf size index i)) (g.path0 i).bit
        (g.sCW i) (if !turnOf size index i then g.tCW1 i else g.tCW0 i)
      = keepNode ((dpfPRG C ctx (g.path1 i).seed).side (!turnOf size index i)) (g.path1 i).bit
          (g.sCW i) (if !turnOf size index i then g.tCW1 i else g.tCW0 i) := by
  rw [h.tCW_lose, h.sCW]
  rcases hbits with ⟨h0, h1⟩ | ⟨h0, h1⟩
  · rw [h0, h1, keepNode_zero, keepNode_one, xor_cancel_right, xor_cancel_right]
  · rw [h0, h1, keepNode_zero, keepNode_one, xor_cancel_left, xor_cancel_left]

end

/-- Along a finished path the control bits differ at every level. -/
theorem genPath_bits (C : Crypto δ) (ctx : Ecb Uint128) (size : Nat) (index : Uint64)
    (seed0 seed1 : Uint128) : ∀ i ≤ size,
    BitsDiffer ((genPath C ctx size index seed0 seed1).path0 i).bit
      ((genPath C ctx size index seed0 seed1).path1 i).bit := by
  obtain ⟨h0, h1, hlev⟩ := genPath_spec C ctx size index seed0 seed1
  intro i hi
  induction i with
  | zero =>
      rw [h0, h1]
      exact .inl ⟨rfl, rfl⟩
  | succ i ih => exact (hlev i hi).bits (ih (Nat.le_of_lt hi))

/-! ## Trees with the path's correction words

From here on a key is known by the correction words it holds.  Any two keys
that hold those of one path agree off it, which is what `Lib.PathTree` asks
for. -/

/-- A key that holds the correction words of a path. -/
structure Carries (key : ParsedKey) (g : GenPath) (size : Nat) : Prop where
  sCW : ∀ i < size, key.sCW i = g.sCW i
  tCW0 : ∀ i < size, key.tCW0 i = g.tCW0 i
  tCW1 : ∀ i < size, key.tCW1 i = g.tCW1 i

theorem childNode_eq (C : Crypto δ) (ctx : Ecb Uint128) (key : ParsedKey) (i : Nat) (n : Node)
    (r : Bool) :
    childNode C ctx key i n r = keepNode ((dpfPRG C ctx n.seed).side r) n.bit (key.sCW i)
      (if r then key.tCW1 i else key.tCW0 i) := by
  by_cases hb : n.bit = 1
  · simp only [PSVFSS.childNode, expandNode, keepNode, if_pos hb]
    cases r <;> rfl
  · simp only [PSVFSS.childNode, expandNode, keepNode, if_neg hb]

theorem Carries.childNode {key : ParsedKey} {g : GenPath} {size : Nat} (h : Carries key g size)
    (C : Crypto δ) (ctx : Ecb Uint128) {i : Nat} (hi : i < size) (n : Node) (r : Bool) :
    childNode C ctx key i n r = keepNode ((dpfPRG C ctx n.seed).side r) n.bit (g.sCW i)
      (if r then g.tCW1 i else g.tCW0 i) := by
  rw [childNode_eq, h.sCW i hi, h.tCW0 i hi, h.tCW1 i hi]

/-- Two keys with the correction words of one path describe trees that agree
off that path. -/
theorem agreeOff_genPath (C : Crypto δ) (ctx : Ecb Uint128) (size : Nat) (index : Uint64)
    (seed0 seed1 : Uint128) {key0 key1 : ParsedKey}
    (h0 : Carries key0 (genPath C ctx size index seed0 seed1) size)
    (h1 : Carries key1 (genPath C ctx size index seed0 seed1) size) :
    AgreeOff (PSVFSS.childNode C ctx key0) (PSVFSS.childNode C ctx key1)
      (genPath C ctx size index seed0 seed1).path0 (genPath C ctx size index seed0 seed1).path1
      (turnOf size index) size := by
  have hspec := (genPath_spec C ctx size index seed0 seed1).2.2
  refine ⟨?_, ?_, ?_, ?_⟩
  · intro i hi
    rw [h0.childNode C ctx hi, (hspec i hi).path0]
  · intro i hi
    rw [h1.childNode C ctx hi, (hspec i hi).path1]
  · intro i hi
    rw [h0.childNode C ctx hi, h1.childNode C ctx hi]
    exact (hspec i hi).lose (genPath_bits C ctx size index seed0 seed1 i (Nat.le_of_lt hi))
  · intro i hi s r
    rw [h0.childNode C ctx hi, h1.childNode C ctx hi]

end PSVFSS

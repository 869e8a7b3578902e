/-
# `Vdpf.Key` — key bytes, and one level of the tree they describe

A key is a byte string:

    0                      party
    1 .. 16                root seed
    17                     root bit
    18 i .. 18 i + 15      sCW of level i        (1 ≤ i ≤ size)
    18 i + 16, 18 i + 17   tCW0, tCW1 of level i
    18 size + 18 ..        last correction word, 16 bytes of which 8 are used
    18 size + 34 ..        correction words cs of the proof, 4 blocks

`parseKey` reads it as both evaluators do, from any bytes at all; nothing
here assumes that `genVDPF` wrote them.
-/
import PSVFSS.Common
import PSVFSS.Field61
import PSVFSS.Lib.PathTree

namespace PSVFSS

open ByteBuffer CipherMode PathTree

variable {δ : Type}

/-- `CWSIZE`. -/
def cwSize : Nat := 18

/-- `INDEX_LASTCW`. -/
def indexLastCW (size : Nat) : Nat := 18 * size + 18

/-- The bytes of a key with `outblocks` proof correction words. -/
def keySize (size outblocks : Nat) : Nat := indexLastCW size + 16 + 16 * outblocks

/-- The arrays the evaluators fill from a key; entry `i` belongs to level
`i + 1` of the source. -/
structure ParsedKey where
  seed : Uint128
  sCW : Nat → Uint128
  tCW0 : Nat → CInt
  tCW1 : Nat → CInt
  lastCW : Uint64
  cs : Fin 4 → Uint128

def parseKey (size outblocks : Nat) (k : List Byte) : ParsedKey where
  seed := loadLE 128 (slice k 1 16)
  sCW i := loadLE 128 (slice k (18 * (i + 1)) 16)
  tCW0 i := (byteAt k (cwSize * (i + 1) + cwSize - 2)).setWidth 32
  tCW1 i := (byteAt k (cwSize * (i + 1) + cwSize - 1)).setWidth 32
  lastCW := loadLE 64 (slice k (indexLastCW size) 8)
  -- `cs` has room for four blocks and `16 * outblocks` bytes are copied in
  cs j := if j < outblocks then loadLE 128 (slice k (indexLastCW size + 16 + 16 * j) 16) else 0

/-- A seed and its control bit. -/
structure Node where
  seed : Uint128
  bit : CInt
  deriving DecidableEq

/-- Where an evaluation starts: the key's root seed and the party bit. -/
def rootNode (key : ParsedKey) (b : Bool) : Node := ⟨key.seed, if b then 1 else 0⟩

/-- Both children of a node at a level: `dpfPRG`, corrected when the control
bit is 1. -/
def expandNode (C : Crypto δ) (ctx : Ecb Uint128) (key : ParsedKey) (level : Nat) (n : Node) :
    PrgOutput :=
  let p := dpfPRG C ctx n.seed
  if n.bit = 1 then
    { output1 := p.output1 ^^^ key.sCW level
      output2 := p.output2 ^^^ key.sCW level
      bit1 := p.bit1 ^^^ key.tCW0 level
      bit2 := p.bit2 ^^^ key.tCW1 level }
  else p

/-- One child, `right` or left. -/
def PrgOutput.side (p : PrgOutput) (right : Bool) : Node :=
  if right then ⟨p.output2, p.bit2⟩ else ⟨p.output1, p.bit1⟩

/-- `seeds[i] = (1 - xbit) * sL + xbit * sR`, and the same for the bits. -/
def PrgOutput.select (p : PrgOutput) (xbit : CInt) : Node where
  seed := (1 - xbit).signExtend 128 * p.output1 + xbit.signExtend 128 * p.output2
  bit := (1 - xbit) * p.bit1 + xbit * p.bit2

/-- The arithmetic selection picks a side. -/
theorem PrgOutput.select_getbit (p : PrgOutput) (x : Uint128) (size b : Nat) :
    p.select (getbit x size b) = p.side (x.toNat.testBit (size - b)) := by
  rw [getbit_eq]
  cases x.toNat.testBit (size - b) with
  | false => simp [select, side]
  | true => simp [select, side]

/-- The tree of nodes a key describes. -/
def childNode (C : Crypto δ) (ctx : Ecb Uint128) (key : ParsedKey) (level : Nat) (n : Node)
    (right : Bool) : Node := (expandNode C ctx key level n).side right

/-- The turn an input takes below level `i`: its `i + 1`-st bit from the top. -/
def turnOf (size : Nat) (x : Uint64) (i : Nat) : Bool := x.toNat.testBit (size - (i + 1))

/-- The leaf an input leads to. -/
def leafNode (C : Crypto δ) (ctx : Ecb Uint128) (key : ParsedKey) (size : Nat) (b : Bool)
    (x : Uint64) : Node := walk (childNode C ctx key) (rootNode key b) (turnOf size x) size

/-- The output share at a leaf: its seed as a field element, the last
correction word added when the bit is 1, negated at server 1. -/
def leafValue (key : ParsedKey) (b : Bool) (leaf : Node) : Uint64 :=
  let res := field61FromU128 (convert leaf.seed)
  let res := if leaf.bit = 1 then field61Add res key.lastCW else res
  if b then field61Neg res else res

theorem canonical_leafValue (key : ParsedKey) (b : Bool) (leaf : Node) :
    Canonical (leafValue key b leaf) := by
  have h : Canonical (if leaf.bit = 1 then field61Add (field61FromU128 (convert leaf.seed))
      key.lastCW else field61FromU128 (convert leaf.seed)) := by
    split
    · exact canonical_add _ _
    · exact canonical_fromU128 _
  cases b with
  | false =>
      simp only [leafValue, Bool.false_eq_true, if_false]
      exact h
  | true =>
      simp only [leafValue, if_true]
      exact canonical_neg h

end PSVFSS

/-
# `Fmd.Garble` — garbling a circuit

`GarbleCircuit` gives every wire two labels and every gate a table of encrypted
labels; who holds one label of every input can walk through the tables and ends
with one label of every output.  The labels of an exclusive or are combined from
those of its inputs and need no table, which works because the two labels of a
wire differ by one and the same `FreeXORDelta`.

Blake2b is a parameter: nothing is assumed of it.

The labels are assigned along the wires (`Assigned`), so that the last bit of a
label tells the bit up to a mask of the wire (`selBit_get`), and the row which
this bit selects is the one that was encrypted for it (`garbleGate_unary`,
`garbleGate_binary`).
-/
import PSVFSS.Lib.Bytes
import PSVFSS.Fmd.Circuit

namespace PSVFSS

open ByteBuffer MemoDag

/-! ## Labels

Sixteen bytes.  The last bit selects a row, the rest is a key. -/

/-- `Label_t`, of `LABEL_LEN_BYTES`. -/
abbrev Label := Vector Byte 16

namespace Label

def xor (a b : Label) : Label := Vector.zipWith (· ^^^ ·) a b

def zero : Label := Vector.replicate 16 0

/-- `label[:LABEL_LEN_BYTES-1]`. -/
def key (a : Label) : List Byte := a.toList.take 15

/-- `label[LABEL_LEN_BYTES-1] & 0x01`. -/
def selector (a : Label) : Nat := (a[15] &&& 1).toNat

/-- The first five bytes are cleared. -/
def clear (a : Label) : Label := ((((a.set 0 0).set 1 0).set 2 0).set 3 0).set 4 0

end Label

structure SimpleWireLabelSet where
  label0 : Label
  label1 : Label
  deriving DecidableEq

/-- `WireLabelPair[b]`. -/
def SimpleWireLabelSet.get (p : SimpleWireLabelSet) (b : Bool) : Label :=
  if b then p.label1 else p.label0

/-! ## `assignWireLabelsRecurs`

A gate is labelled after the gates it reads, and only once.  The labels of an
exclusive or are computed, those of the others drawn. -/

/-- The labels given so far, and the reads made from the random source. -/
structure Labelling where
  wireLabels : Nat → Option SimpleWireLabelSet
  draws : Nat

def Labelling.assign (garb : Labelling) (gateID : Nat) (p : SimpleWireLabelSet) : Labelling :=
  { garb with wireLabels := Function.update garb.wireLabels gateID (some p) }

/-- A new label and the same one with `FreeXORDelta` added. -/
def Labelling.draw (garb : Labelling) (rand : Nat → Label) (delta : Label) (gateID : Nat) :
    Labelling :=
  let label := (rand garb.draws).clear
  { garb.assign gateID ⟨label, label.xor delta⟩ with draws := garb.draws + 1 }

/-- The labels of an output gate: zeros, and 0x01 in every byte. -/
def structuredLabels : SimpleWireLabelSet := ⟨Label.zero, Vector.replicate 16 1⟩

/-- On a loop the source recurses without end: it runs out of any fuel. -/
def assignWireLabelsRecurs (circ : Circuit) (rand : Nat → Label) (delta : Label) :
    Nat → Nat → Labelling → Option Labelling
  | 0, _, _ => none
  | fuel + 1, gateID, garb =>
      match garb.wireLabels gateID with
      | some _ => some garb
      | none => do
          let gate ← circ.gates[gateID]?
          let inFrom := if gate.gateType = .input then [] else gate.inFrom
          let garb ← inFrom.foldlM
            (fun garb g => assignWireLabelsRecurs circ rand delta fuel g garb) garb
          match gate.gateType with
          | .xor =>
              let left ← garb.wireLabels (← gate.inFrom[0]?)
              let right ← garb.wireLabels (← gate.inFrom[1]?)
              return garb.assign gateID
                ⟨left.label0.xor right.label0, left.label0.xor right.label1⟩
          | .output => return garb.assign gateID structuredLabels
          | _ => return garb.draw rand delta gateID

/-! ## `garbleGate`

A table has a row for each combination of the inputs' bits, at the place to
which the masks of the inputs move it. -/

def GateType.tableSize : GateType → Nat
  | not | output => 2
  | const => 1
  | xor => 0
  | _ => 4

/-- `none` where the source returns false. -/
def getGatePermutation (tableSize : Nat) (masks : List Nat) : Option (List Nat) :=
  let result := [0, 1, 2, 3]
  let mask0 := masks.getD 0 0
  let mask1 := masks.getD 1 0
  if tableSize = 0 then some result
  else if tableSize ≠ 4 ∧ tableSize ≠ 2 then none
  else if tableSize = 2 then some ((result.set mask0 0).set (1 - mask0) 1)
  else some ((List.range 4).foldl
    (fun result i => result.set (2 * ((i >>> 1) ^^^ mask0) + ((i &&& 1) ^^^ mask1)) i) result)

/-- `getLabelBits`. -/
def getLabelBits (tableRow : Nat) : Bool × Bool := (tableRow.testBit 1, tableRow.testBit 0)

/-- The bit of row `i`; `none` for an unknown gate type. -/
def GateType.rowBit (gateType : GateType) (i : Nat) : Option Bool :=
  let (first, second) := getLabelBits i
  match gateType with
  | and => some (first && second)
  | or => some (first || second)
  | xor => some (first != second)
  | not => some (i == 0)
  | output => some (i == 1)
  | _ => none

section
variable (hash : List Byte → Label)

/-- `encryptTableEntry`; `hash` is Blake2b with a digest of 16 bytes. -/
def encryptTableEntry (rowNum : Nat) (inLabel1 : List Byte) (inLabel2 : Option (List Byte))
    (outLabel : Label) : Label :=
  (hash (BitVec.ofNat 8 rowNum :: (inLabel1 ++ inLabel2.getD []))).xor outLabel

/-- `decryptTableEntry`. -/
def decryptTableEntry (rowNum : Nat) (inLabel1 : List Byte) (inLabel2 : Option (List Byte))
    (ciphertext : Label) : Label :=
  (hash (BitVec.ofNat 8 rowNum :: (inLabel1 ++ inLabel2.getD []))).xor ciphertext

/-- The entry that row `i` gives rise to, at its place in the table. -/
def garbleEntry (labels : Nat → Option SimpleWireLabelSet) (gateID : Nat) (gate : Gate)
    (loc i : Nat) : Option Label := do
  let b ← gate.gateType.rowBit i
  let (firstLabelBit, secondLabelBit) := getLabelBits i
  let outLabel := (← labels gateID).get b
  let in1 ← labels (← gate.inFrom[0]?)
  if gate.gateType.tableSize = 4 then
    let in2 ← labels (← gate.inFrom[1]?)
    return encryptTableEntry hash loc (in1.get firstLabelBit).key
      (some (in2.get secondLabelBit).key) outLabel
  else return encryptTableEntry hash loc (in1.get secondLabelBit).key none outLabel

/-- `none` for a run-time error and where the source returns false.  A table of
one row is refused before it is filled. -/
def garbleGate (circ : Circuit) (labels : Nat → Option SimpleWireLabelSet) (gateID : Nat) :
    Option (List Label) := do
  let gate ← circ.gates[gateID]?
  let tableSize := gate.gateType.tableSize
  let inputs := if tableSize = 4 then 2 else if tableSize = 2 then 1 else 0
  let maskBits ← (List.range inputs).mapM fun k => do
    return (← labels (← gate.inFrom[k]?)).label0.selector
  let gateLocs ← getGatePermutation tableSize maskBits
  (List.range tableSize).foldlM (fun table i => do
    let loc := gateLocs.getD i 0
    return table.set loc (← garbleEntry hash labels gateID gate loc i))
    (List.replicate tableSize Label.zero)

end

/-! ## `GarbleCircuit`

All gates are labelled first; then tables are made for all gates that are not
inputs. -/

structure SimpleGarbledCircuit where
  numInputWires : Nat
  numOutputWires : Nat
  garbledGates : List (List Label)
  wireLabels : List SimpleWireLabelSet
  freeXORDelta : Label
  deriving DecidableEq

/-- The last bit is set. -/
def setFinalBit (delta : Label) : Label := delta.set 15 (delta[15] ||| 1)

/-- `none` for a run-time error and where the source returns false. -/
def garbleCircuit (hash : List Byte → Label) (circ : Circuit) (rand : Nat → Label) :
    Option SimpleGarbledCircuit := do
  let gates := List.range circ.gates.length
  if circ.validCircuit then
    let delta := setFinalBit (rand 0)
    let garb ← gates.foldlM
      (fun garb i => assignWireLabelsRecurs circ rand delta (circ.gates.length + 1) i garb)
      ⟨fun _ => none, 1⟩
    let wireLabels ← gates.mapM garb.wireLabels
    let garbledGates ← gates.mapM fun i => do
      let gate ← circ.gates[i]?
      if gate.gateType = .input then return [] else garbleGate hash circ garb.wireLabels i
    return {
      numInputWires := circ.numInputWires
      numOutputWires := circ.numOutputWires
      garbledGates := garbledGates
      wireLabels := wireLabels
      freeXORDelta := delta }
  else none

/-! ## Evaluation

The same walk as `evaluateGate`, over labels.  It does not know what bits they
stand for; the last bit of a label is enough to find the row. -/

namespace SimpleGarbledCircuit

/-- `GetInputLabelsFromBools`. -/
def getInputLabelsFromBools (garb : SimpleGarbledCircuit) (inputs : List Bool) :
    Option (List Label) :=
  if inputs.length ≠ garb.numInputWires then none
  else (List.range garb.numInputWires).mapM fun i => do
    return (← garb.wireLabels[i]?).get (← inputs[i]?)

/-- The check on the size of the table; an exclusive or has none. -/
def tableFits (gate : Gate) (table : List Label) : Bool :=
  table.length = 1 <<< gate.inFrom.length || gate.gateType = .xor

/-- The gates `evaluateGarbledGate` recurses on. -/
def garbledReads (garb : SimpleGarbledCircuit) (circ : Circuit) (gateID : Nat) :
    Option (List Nat) := do
  let gate ← circ.gates[gateID]?
  if gate.gateType = .input ∨ gate.gateType = .const then return []
  let table ← garb.garbledGates[gateID]?
  if tableFits gate table then
    match gate.inFrom with
    | [] => none
    | [in0, in1] => return [in0, in1]
    | in0 :: _ => return [in0]
  else return []

/-- The switch of `evaluateGarbledGate`. -/
def garbledSwitch (hash : List Byte → Label) (garb : SimpleGarbledCircuit)
    (inputLabels : List Label) (circ : Circuit) (gateID : Nat) (rs : List (Bool × Label)) :
    Option (Bool × Label) := do
  let gate ← circ.gates[gateID]?
  match gate.gateType with
  | .input => return (true, ← inputLabels[gateID]?)
  | .const =>
      if gate.inFrom.length = 0 then return (true, ← (← garb.garbledGates[gateID]?)[0]?)
      else return (false, Label.zero)
  | _ =>
      let table ← garb.garbledGates[gateID]?
      if tableFits gate table then
        let (success1, label1) := rs.getD 0 (false, Label.zero)
        let (success2, label2) := rs.getD 1 (false, Label.zero)
        if success1 && (success2 || gate.inFrom.length ≠ 2) then
          if gate.gateType = .xor then
            if rs.length = 2 then return (true, label1.xor label2) else none
          else if gate.inFrom.length = 2 then
            let row := 2 * label1.selector + label2.selector
            return (true, decryptTableEntry hash row label1.key (some label2.key) (← table[row]?))
          else if gate.inFrom.length = 1 then
            let row := label1.selector
            return (true, decryptTableEntry hash row label1.key none (← table[row]?))
          else return (true, Label.zero)
        else return (false, Label.zero)
      else return (false, Label.zero)

def evaluateGarbledGate (hash : List Byte → Label) (garb : SimpleGarbledCircuit) (circ : Circuit)
    (inputLabels : List Label) : Nat → Scratch Label → Option ((Bool × Label) × Scratch Label) :=
  visit (garb.garbledReads circ) (garb.garbledSwitch hash inputLabels circ) Label.zero
    (circ.gates.length + 1)

/-- `EvaluateCircuit` of a garbled circuit. -/
def evaluateCircuit (hash : List Byte → Label) (garb : SimpleGarbledCircuit) (circ : Circuit)
    (inputLabels : List Label) : Option (Bool × List Label) :=
  if inputLabels.length ≠ circ.numInputWires ∨ circ.numOutputWires < 1 then some (false, [])
  else visitOutputs (garb.evaluateGarbledGate hash circ inputLabels) circ.outputGates
    ⟨fun _ => false, fun _ => none⟩

end SimpleGarbledCircuit

/-- `DecodePlaintextOutputLabels`: the last output wire comes first. -/
def decodePlaintextOutputLabels (outLabels : List Label) : String :=
  outLabels.foldl (fun out label => toString label.selector ++ out) ""

/-! ## Labels and their last bit

Exclusive or is a group operation on labels, and their last bits follow it. -/

namespace Label

theorem getElem_xor (a b : Label) (i : Nat) (hi : i < 16) : (a.xor b)[i] = a[i] ^^^ b[i] := by
  simp only [xor, Vector.getElem_zipWith]

theorem xor_cancel (a b : Label) : a.xor (a.xor b) = b := by
  apply Vector.ext
  intro i hi
  rw [getElem_xor _ _ i hi, getElem_xor _ _ i hi, ← BitVec.xor_assoc, BitVec.xor_self,
    BitVec.zero_xor]

theorem xor_right_comm (a b c : Label) : (a.xor b).xor c = (a.xor c).xor b := by
  apply Vector.ext
  intro i hi
  simp only [getElem_xor _ _ i hi]
  rw [BitVec.xor_assoc, BitVec.xor_comm b[i], BitVec.xor_assoc]

theorem xor_assoc (a b c : Label) : (a.xor b).xor c = a.xor (b.xor c) := by
  apply Vector.ext
  intro i hi
  simp only [getElem_xor _ _ i hi, BitVec.xor_assoc]

theorem xor_xor_cancel (a b : Label) : (a.xor b).xor b = a := by
  apply Vector.ext
  intro i hi
  rw [getElem_xor _ _ i hi, getElem_xor _ _ i hi, BitVec.xor_assoc, BitVec.xor_self,
    BitVec.xor_zero]

/-- The bit that selects a row. -/
def selBit (a : Label) : Bool := a[15].getLsbD 0

theorem selector_eq (a : Label) : a.selector = a.selBit.toNat := by
  have hone : a[15] &&& 1#8 = BitVec.setWidth 8 (BitVec.ofBool (a[15].getLsbD 0)) :=
    BitVec.and_one_eq_setWidth_ofBool_getLsbD
  rw [selector, selBit]
  refine (congrArg BitVec.toNat hone).trans ?_
  cases a[15].getLsbD 0 <;> rfl

theorem selBit_xor (a b : Label) : (a.xor b).selBit = (a.selBit ^^ b.selBit) := by
  rw [selBit, getElem_xor _ _ 15 (by decide), BitVec.getLsbD_xor]
  rfl

end Label

theorem selBit_setFinalBit (delta : Label) : (setFinalBit delta).selBit = true := by
  rw [Label.selBit, setFinalBit, Vector.getElem_set_self, BitVec.getLsbD_or]
  exact Bool.or_true _

theorem selBit_structured (b : Bool) : (structuredLabels.get b).selBit = b := by
  cases b <;> decide

/-! ## The labels that are assigned

The invariant of the recursion: what is labelled is labelled as its gate asks
for, and so is all it reads. -/

/-- The two labels differ by `delta`. -/
def SimpleWireLabelSet.Offset (delta : Label) (p : SimpleWireLabelSet) : Prop :=
  p.label1 = p.label0.xor delta

/-- What the labels of a gate are, given those of the gates it reads. -/
inductive Assigned (circ : Circuit) (delta : Label) (labels : Nat → Option SimpleWireLabelSet)
    (g : Nat) (p : SimpleWireLabelSet) : Prop
  | drawn {gate : Gate} : circ.gates[g]? = some gate → gate.gateType ≠ .xor →
      gate.gateType ≠ .output → p.Offset delta → Assigned circ delta labels g p
  | output {gate : Gate} : circ.gates[g]? = some gate → gate.gateType = .output →
      p = structuredLabels → Assigned circ delta labels g p
  | xor {gate : Gate} {a b : Nat} {left right : SimpleWireLabelSet} :
      circ.gates[g]? = some gate → gate.gateType = .xor → gate.inFrom = [a, b] →
      labels a = some left → labels b = some right →
      p = ⟨left.label0.xor right.label0, left.label0.xor right.label1⟩ →
      Assigned circ delta labels g p

/-- Every label is as it should be, no labelled gate is above a loop, and what a
labelled gate reads is labelled. -/
def Labelled (circ : Circuit) (delta : Label) (labels : Nat → Option SimpleWireLabelSet) : Prop :=
  ∀ g p, labels g = some p → Assigned circ delta labels g p ∧ Acc circ.Feeds g ∧
    ∀ a, circ.Feeds a g → ∃ q, labels a = some q

/-- No label is changed. -/
def Extends (labels labels' : Nat → Option SimpleWireLabelSet) : Prop :=
  ∀ g p, labels g = some p → labels' g = some p

/-- Only gates of the circuit have labels. -/
theorem Assigned.exists_gate {circ : Circuit} {delta : Label}
    {labels : Nat → Option SimpleWireLabelSet} {g : Nat} {p : SimpleWireLabelSet}
    (h : Assigned circ delta labels g p) : ∃ gate, circ.gates[g]? = some gate := by
  cases h with
  | drawn hgate _ _ _ => exact ⟨_, hgate⟩
  | output hgate _ _ => exact ⟨_, hgate⟩
  | xor hgate _ _ _ _ _ => exact ⟨_, hgate⟩

theorem Assigned.extends {circ : Circuit} {delta : Label}
    {labels labels' : Nat → Option SimpleWireLabelSet} {g : Nat} {p : SimpleWireLabelSet}
    (h : Assigned circ delta labels g p) (hext : Extends labels labels') :
    Assigned circ delta labels' g p := by
  cases h with
  | drawn hgate hxor houtput hp => exact Assigned.drawn hgate hxor houtput hp
  | output hgate htype hp => exact Assigned.output hgate htype hp
  | xor hgate htype hin hleft hright hp =>
      exact Assigned.xor hgate htype hin (hext _ _ hleft) (hext _ _ hright) hp

/-- What a call for `g` does to the labels. -/
structure Labels (circ : Circuit) (delta : Label) (gs : List Nat) (garb garb' : Labelling) :
    Prop where
  labelled : Labelled circ delta garb'.wireLabels
  extends_ : Extends garb.wireLabels garb'.wireLabels
  done : ∀ g ∈ gs, ∃ p, garb'.wireLabels g = some p
  below : ∀ x, garb.wireLabels x = none → garb'.wireLabels x ≠ none →
    ∃ g ∈ gs, Relation.ReflTransGen circ.Feeds x g

theorem labels_foldlM {circ : Circuit} {delta : Label} {f : Labelling → Nat → Option Labelling}
    (hf : ∀ garb g garb', Labelled circ delta garb.wireLabels → f garb g = some garb' →
      Labels circ delta [g] garb garb')
    {gs : List Nat} {garb garb' : Labelling} (hlabelled : Labelled circ delta garb.wireLabels)
    (h : gs.foldlM f garb = some garb') : Labels circ delta gs garb garb' := by
  induction gs generalizing garb with
  | nil =>
      cases h
      exact ⟨hlabelled, fun _ _ hp => hp, fun g hg => absurd hg List.not_mem_nil,
        fun x hx hx' => absurd hx hx'⟩
  | cons g gs ih =>
      rw [List.foldlM_cons] at h
      obtain ⟨garb₁, hg, h⟩ := Option.bind_eq_some_iff.mp h
      have hfirst := hf garb g garb₁ hlabelled hg
      have hrest := ih hfirst.labelled h
      refine ⟨hrest.labelled, fun x p hp => hrest.extends_ x p (hfirst.extends_ x p hp), ?_, ?_⟩
      · intro x hx
        rcases List.mem_cons.mp hx with rfl | hx
        · obtain ⟨p, hp⟩ := hfirst.done x List.mem_cons_self
          exact ⟨p, hrest.extends_ x p hp⟩
        · exact hrest.done x hx
      · intro x hx hx'
        cases hmid : garb₁.wireLabels x with
        | none =>
            obtain ⟨y, hy, hpath⟩ := hrest.below x hmid hx'
            exact ⟨y, List.mem_cons_of_mem g hy, hpath⟩
        | some p =>
            obtain ⟨y, hy, hpath⟩ := hfirst.below x hx (hmid ▸ nofun)
            exact ⟨y, List.mem_singleton.mp hy ▸ List.mem_cons_self, hpath⟩

section
variable {circ : Circuit} {rand : Nat → Label} {delta : Label}

/-- A gate is labelled after what it reads; the recursion has not come back to
it, since it would have been below itself. -/
theorem labels_assign {g : Nat} {gate : Gate} {garb garb₁ garb' : Labelling}
    {p : SimpleWireLabelSet} (hgate : circ.gates[g]? = some gate)
    (hnone : garb.wireLabels g = none) (h : Labels circ delta gate.inFrom garb garb₁)
    (hp : Assigned circ delta garb₁.wireLabels g p)
    (hg : garb'.wireLabels = Function.update garb₁.wireLabels g (some p)) :
    Labels circ delta [g] garb garb' := by
  have hself : garb'.wireLabels g = some p := by rw [hg, Function.update_self]
  have hother : ∀ x, x ≠ g → garb'.wireLabels x = garb₁.wireLabels x := by
    intro x hx
    rw [hg, Function.update_of_ne hx]
  have hfeeds : ∀ a ∈ gate.inFrom, circ.Feeds a g := fun a ha => ⟨gate, hgate, ha⟩
  have hnone₁ : garb₁.wireLabels g = none := by
    cases hlabel : garb₁.wireLabels g with
    | none => rfl
    | some q =>
        obtain ⟨a, ha, hpath⟩ := h.below g hnone (hlabel ▸ nofun)
        have hloop : Relation.TransGen circ.Feeds g g :=
          Relation.TransGen.tail' hpath (hfeeds a ha)
        exact absurd hloop (Acc.not_self (h.labelled g q hlabel).2.1.transGen)
  have hext : Extends garb₁.wireLabels garb'.wireLabels := by
    intro x q hq
    have hx : x ≠ g := by
      rintro rfl
      rw [hnone₁] at hq
      cases hq
    rw [hother x hx, hq]
  refine ⟨fun x q hq => ?_, fun x q hq => hext x q (h.extends_ x q hq), fun x hx => ?_,
    fun x hx hx' => ⟨g, List.mem_singleton_self g, ?_⟩⟩
  · by_cases hx : x = g
    · subst hx
      obtain rfl : p = q := Option.some.inj (hself.symm.trans hq)
      have hbelow : ∀ a, circ.Feeds a x → ∃ q, garb₁.wireLabels a = some q := by
        rintro a ⟨gate', hgate', ha⟩
        obtain rfl : gate = gate' := Option.some.inj (hgate.symm.trans hgate')
        exact h.done a ha
      refine ⟨hp.extends hext, Acc.intro x fun a ha => ?_, fun a ha => ?_⟩
      · obtain ⟨q, hq⟩ := hbelow a ha
        exact (h.labelled a q hq).2.1
      · obtain ⟨q, hq⟩ := hbelow a ha
        exact ⟨q, hext a q hq⟩
    · rw [hother x hx] at hq
      obtain ⟨hassigned, hacc, hbelow⟩ := h.labelled x q hq
      refine ⟨hassigned.extends hext, hacc, fun a ha => ?_⟩
      obtain ⟨q', hq'⟩ := hbelow a ha
      exact ⟨q', hext a q' hq'⟩
  · exact ⟨p, List.mem_singleton.mp hx ▸ hself⟩
  · by_cases hxg : x = g
    · exact hxg ▸ Relation.ReflTransGen.refl
    · rw [hother x hxg] at hx'
      obtain ⟨a, ha, hpath⟩ := h.below x hx hx'
      exact hpath.tail (hfeeds a ha)

/-- An input gate of a valid circuit reads nothing. -/
theorem inFrom_of_input (hvalid : circ.validCircuit = true) {g : Nat} {gate : Gate}
    (hgate : circ.gates[g]? = some gate) (htype : gate.gateType = .input) : gate.inFrom = [] := by
  have hgates := (Bool.and_eq_true_iff.mp hvalid).2
  have hbounds := List.all_eq_true.mp hgates gate (List.mem_of_getElem? hgate)
  rw [Circuit.validGate, htype, Bool.and_eq_true, decide_eq_true_eq, decide_eq_true_eq] at hbounds
  exact List.eq_nil_of_length_eq_zero (Nat.le_zero.mp hbounds.2)

/-- An exclusive or of a valid circuit reads two gates. -/
theorem inFrom_of_xor (hvalid : circ.validCircuit = true) {g : Nat} {gate : Gate}
    (hgate : circ.gates[g]? = some gate) (htype : gate.gateType = .xor) :
    ∃ a b, gate.inFrom = [a, b] := by
  have hgates := (Bool.and_eq_true_iff.mp hvalid).2
  have hbounds := List.all_eq_true.mp hgates gate (List.mem_of_getElem? hgate)
  rw [Circuit.validGate, htype, Bool.and_eq_true, decide_eq_true_eq, decide_eq_true_eq] at hbounds
  exact List.length_eq_two.mp (Nat.le_antisymm hbounds.2 hbounds.1)

theorem assignWireLabelsRecurs_labels (hvalid : circ.validCircuit = true) {fuel g : Nat}
    {garb garb' : Labelling} (hlabelled : Labelled circ delta garb.wireLabels)
    (h : assignWireLabelsRecurs circ rand delta fuel g garb = some garb') :
    Labels circ delta [g] garb garb' := by
  induction fuel generalizing g garb garb' with
  | zero => cases h
  | succ fuel ih =>
      rw [assignWireLabelsRecurs] at h
      split at h
      next p hp =>
        cases h
        refine ⟨hlabelled, fun _ _ hq => hq, fun x hx => ⟨p, List.mem_singleton.mp hx ▸ hp⟩,
          fun x hx hx' => absurd hx hx'⟩
      next hnone =>
        obtain ⟨gate, hgate, h⟩ := Option.bind_eq_some_iff.mp h
        obtain ⟨garb₁, hinputs, h⟩ := Option.bind_eq_some_iff.mp h
        have hin : (if gate.gateType = .input then [] else gate.inFrom) = gate.inFrom := by
          split
          next htype => exact (inFrom_of_input hvalid hgate htype).symm
          next => rfl
        rw [hin] at hinputs
        have hlabels := labels_foldlM (fun _ _ _ hl hf => ih hl hf) hlabelled hinputs
        have hdraw : gate.gateType ≠ .xor → gate.gateType ≠ .output →
            some (garb₁.draw rand delta g) = some garb' → Labels circ delta [g] garb garb' := by
          intro hxor houtput heq
          cases heq
          have hoffset : (⟨(rand garb₁.draws).clear, (rand garb₁.draws).clear.xor delta⟩ :
              SimpleWireLabelSet).Offset delta := rfl
          exact labels_assign hgate hnone hlabels (Assigned.drawn hgate hxor houtput hoffset) rfl
        cases htype : gate.gateType with
        | xor =>
            obtain ⟨a, b, hab⟩ := inFrom_of_xor hvalid hgate htype
            rw [htype, hab] at h
            obtain ⟨a', ha, h⟩ := Option.bind_eq_some_iff.mp h
            obtain rfl : a = a' := Option.some.inj ha
            obtain ⟨left, hleft, h⟩ := Option.bind_eq_some_iff.mp h
            obtain ⟨b', hb, h⟩ := Option.bind_eq_some_iff.mp h
            obtain rfl : b = b' := Option.some.inj hb
            obtain ⟨right, hright, h⟩ := Option.bind_eq_some_iff.mp h
            cases h
            exact labels_assign hgate hnone hlabels
              (Assigned.xor hgate htype hab hleft hright rfl) rfl
        | output =>
            rw [htype] at h
            cases h
            exact labels_assign hgate hnone hlabels (Assigned.output hgate htype rfl) rfl
        | input | and | or | not | const | copy =>
            rw [htype] at h
            exact hdraw (htype ▸ nofun) (htype ▸ nofun) h

end

end PSVFSS

/-
# `Fmd.Evaluation` — evaluating a garbled circuit

The labels that a garbling hands out for the inputs lead, gate by gate, to the
labels of what the wires carry (`Garbling.value_label`), and the labels of the
outputs show their bit (`garbled_evaluation`).  That garbling has ended is all
that is needed to know that no gate is above a loop.

Labels of an exclusive or add up only because no gate reads an output gate
(`OutputsLast`): the labels of an output gate do not differ by `FreeXORDelta`.
-/
import PSVFSS.Fmd.Garble

namespace PSVFSS

open ByteBuffer MemoDag

section
variable {circ : Circuit} {delta : Label} {labels : Nat → Option SimpleWireLabelSet}

/-- The last bit of a label is the bit it stands for, masked. -/
theorem selBit_get (hlabelled : Labelled circ delta labels) (hdelta : delta.selBit = true) {g : Nat}
    {p : SimpleWireLabelSet} (hp : labels g = some p) (b : Bool) :
    (p.get b).selBit = (p.label0.selBit ^^ b) := by
  have hacc := (hlabelled g p hp).2.1
  induction hacc generalizing p b with
  | intro g _ ih =>
      cases b with
      | false => exact (Bool.xor_false _).symm
      | true =>
          cases (hlabelled g p hp).1 with
          | drawn _ _ _ hoffset =>
              show p.label1.selBit = _
              rw [hoffset, Label.selBit_xor, hdelta]
          | output _ _ heq =>
              rw [heq]
              exact (selBit_structured true).trans (by decide)
          | @xor gate a b left right hgate _ hin _ hright heq =>
              have hbelow : circ.Feeds b g :=
                ⟨gate, hgate, hin ▸ List.mem_cons_of_mem a List.mem_cons_self⟩
              have hbit : right.label1.selBit = (right.label0.selBit ^^ true) :=
                ih b hbelow hright true
              rw [heq]
              show (left.label0.xor right.label1).selBit
                = ((left.label0.xor right.label0).selBit ^^ true)
              rw [Label.selBit_xor, Label.selBit_xor, hbit, Bool.xor_assoc]

/-- No gate reads an output gate. -/
def OutputsLast (circ : Circuit) : Prop :=
  ∀ gate ∈ circ.gates, ∀ a ∈ gate.inFrom, (circ.gates[a]?).map Gate.gateType ≠ some .output

instance : Decidable (OutputsLast circ) := inferInstanceAs (Decidable (∀ gate ∈ circ.gates,
  ∀ a ∈ gate.inFrom, (circ.gates[a]?).map Gate.gateType ≠ some .output))

theorem OutputsLast.ne_output (hlast : OutputsLast circ) {a g : Nat} (hfeeds : circ.Feeds a g)
    {gate : Gate} (hgate : circ.gates[a]? = some gate) : gate.gateType ≠ .output := by
  obtain ⟨gate', hgate', ha⟩ := hfeeds
  have hne := hlast gate' (List.mem_of_getElem? hgate') a ha
  rw [hgate] at hne
  exact fun htype => hne (congrArg some htype)

theorem offset_of_labelled (hlabelled : Labelled circ delta labels) (hlast : OutputsLast circ)
    {g : Nat} {p : SimpleWireLabelSet} (hp : labels g = some p) {gate : Gate}
    (hgate : circ.gates[g]? = some gate) (htype : gate.gateType ≠ .output) : p.Offset delta := by
  have hacc := (hlabelled g p hp).2.1
  induction hacc generalizing p gate with
  | intro g _ ih =>
      cases (hlabelled g p hp).1 with
      | drawn _ _ _ hoffset => exact hoffset
      | output hgate' htype' _ =>
          obtain rfl := Option.some.inj (hgate.symm.trans hgate')
          exact absurd htype' htype
      | @xor gate' a b left right hgate' _ hin _ hright heq =>
          have hbelow : circ.Feeds b g :=
            ⟨gate', hgate', hin ▸ List.mem_cons_of_mem a List.mem_cons_self⟩
          obtain ⟨gateb, hb⟩ := (hlabelled b right hright).1.exists_gate
          have hright' : right.label1 = right.label0.xor delta :=
            ih b hbelow hright hb (hlast.ne_output hbelow hb)
          rw [heq]
          show left.label0.xor right.label1 = (left.label0.xor right.label0).xor delta
          rw [hright', Label.xor_assoc]

/-- Labels that differ by `delta` add up. -/
theorem xor_get {p q : SimpleWireLabelSet} (hp : p.Offset delta) (hq : q.Offset delta)
    (v w : Bool) : (p.get v).xor (q.get w)
      = (⟨p.label0.xor q.label0, p.label0.xor q.label1⟩ : SimpleWireLabelSet).get (v ^^ w) := by
  have hp' : p.label1 = p.label0.xor delta := hp
  have hq' : q.label1 = q.label0.xor delta := hq
  cases v with
  | false => cases w <;> rfl
  | true =>
      cases w with
      | false =>
          show p.label1.xor q.label0 = p.label0.xor q.label1
          rw [hp', hq', Label.xor_right_comm, Label.xor_assoc]
      | true =>
          show p.label1.xor q.label1 = p.label0.xor q.label0
          rw [hp', hq', Label.xor_right_comm, ← Label.xor_assoc, Label.xor_xor_cancel]

end

/-! ## The tables

The row of a table that belongs to given bits of the inputs, masked as the
labels' last bits are. -/

section
variable {hash : List Byte → Label} {circ : Circuit} {labels : Nat → Option SimpleWireLabelSet}
  {g : Nat} {gate : Gate} (hgate : circ.gates[g]? = some gate)
include hgate

/-- Row `r` of a table with one input. -/
def unaryRow (hash : List Byte → Label) (f : Bool → Bool) (p q : SimpleWireLabelSet) (r : Bool) :
    Label :=
  encryptTableEntry hash r.toNat (p.get (p.label0.selBit ^^ r)).key none
    (q.get (f (p.label0.selBit ^^ r)))

theorem garbleGate_unary {f : Bool → Bool} {a : Nat} {p q : SimpleWireLabelSet}
    (hf : gate.gateType.unary = some f) (hcopy : gate.gateType ≠ .copy) (hin : gate.inFrom = [a])
    (hp : labels a = some p) (hq : labels g = some q) :
    garbleGate hash circ labels g = some [unaryRow hash f p q false, unaryRow hash f p q true] := by
  have hmask := p.label0.selector_eq
  cases htype : gate.gateType with
  | output | not =>
      rw [htype] at hf
      cases hf
      cases hbit : p.label0.selBit <;> rw [hbit] at hmask <;>
      simp [garbleGate, hgate, htype, GateType.tableSize, hin, hp, hq, hmask, getGatePermutation,
        garbleEntry, GateType.rowBit, getLabelBits, unaryRow, hbit, List.range_succ]
  | copy => exact absurd htype hcopy
  | input | and | or | xor | const =>
      rw [htype] at hf
      cases hf

/-- Row `2 * r + s` of a table with two inputs. -/
def binaryRow (hash : List Byte → Label) (f : Bool → Bool → Bool) (p p' q : SimpleWireLabelSet)
    (r s : Bool) : Label :=
  encryptTableEntry hash (2 * r.toNat + s.toNat) (p.get (p.label0.selBit ^^ r)).key
    (some (p'.get (p'.label0.selBit ^^ s)).key)
    (q.get (f (p.label0.selBit ^^ r) (p'.label0.selBit ^^ s)))

theorem garbleGate_binary {f : Bool → Bool → Bool} {a b : Nat} {p p' q : SimpleWireLabelSet}
    (hf : gate.gateType.binary = some f) (hxor : gate.gateType ≠ .xor)
    (hin : gate.inFrom = [a, b]) (hp : labels a = some p) (hp' : labels b = some p')
    (hq : labels g = some q) :
    garbleGate hash circ labels g
      = some [binaryRow hash f p p' q false false, binaryRow hash f p p' q false true,
          binaryRow hash f p p' q true false, binaryRow hash f p p' q true true] := by
  have hmask := p.label0.selector_eq
  have hmask' := p'.label0.selector_eq
  have h0 : getLabelBits 0 = (false, false) := rfl
  have h1 : getLabelBits 1 = (false, true) := rfl
  have h2 : getLabelBits 2 = (true, false) := rfl
  have h3 : getLabelBits 3 = (true, true) := rfl
  cases htype : gate.gateType with
  | and | or =>
      rw [htype] at hf
      cases hf
      cases hbit : p.label0.selBit <;> rw [hbit] at hmask <;>
      cases hbit' : p'.label0.selBit <;> rw [hbit'] at hmask' <;>
      simp [garbleGate, hgate, htype, GateType.tableSize, hin, hp, hp', hq, hmask, hmask',
        getGatePermutation, garbleEntry, GateType.rowBit, h0, h1, h2, h3, binaryRow, hbit, hbit',
        List.range_succ]
  | xor => exact absurd htype hxor
  | input | output | not | copy | const =>
      rw [htype] at hf
      cases hf

end

/-! ## The garbled gates

What has to be known of a garbled circuit to evaluate it.  Everything below
uses this structure and not the way it was made. -/

/-- What `GarbleCircuit` leaves behind: labels for all gates, and a table for
every gate that is not an input. -/
structure Garbling (hash : List Byte → Label) (circ : Circuit) (delta : Label)
    (labels : Nat → Option SimpleWireLabelSet) (garb : SimpleGarbledCircuit) : Prop where
  final : delta.selBit = true
  labelled : Labelled circ delta labels
  all : ∀ g < circ.gates.length, ∃ p, labels g = some p
  table : ∀ g gate, circ.gates[g]? = some gate → gate.gateType ≠ .input →
    ∃ table, garb.garbledGates[g]? = some table ∧ garbleGate hash circ labels g = some table
  inputs : garb.numInputWires = circ.numInputWires
  wires : ∀ g < circ.gates.length, garb.wireLabels[g]? = labels g

/-- The label of gate `g` for the bit `v`. -/
def labelOf (labels : Nat → Option SimpleWireLabelSet) (g : Nat) (v : Bool) : Label :=
  ((labels g).getD structuredLabels).get v

theorem labelOf_eq {labels : Nat → Option SimpleWireLabelSet} {g : Nat} {p : SimpleWireLabelSet}
    (hp : labels g = some p) (v : Bool) : labelOf labels g v = p.get v := by
  rw [labelOf, hp, Option.getD_some]

/-- A copy is refused: it has one input where the table needs two. -/
theorem garbleGate_copy {hash : List Byte → Label} {circ : Circuit}
    {labels : Nat → Option SimpleWireLabelSet} {g a : Nat} {gate : Gate}
    (hgate : circ.gates[g]? = some gate) (htype : gate.gateType = .copy) (hin : gate.inFrom = [a]) :
    garbleGate hash circ labels g = none := by
  cases hp : labels a <;>
  simp [garbleGate, hgate, htype, GateType.tableSize, hin, hp, List.range_succ]

namespace Garbling

open Circuit SimpleGarbledCircuit

variable {hash : List Byte → Label} {circ : Circuit} {delta : Label}
  {labels : Nat → Option SimpleWireLabelSet} {garb : SimpleGarbledCircuit}
  (h : Garbling hash circ delta labels garb)
include h

/-- The row which a label selects is the one encrypted for its bit. -/
theorem selector_get {g : Nat} {p : SimpleWireLabelSet} (hp : labels g = some p) (v : Bool) :
    (p.get v).selector = (p.label0.selBit ^^ v).toNat := by
  rw [Label.selector_eq, selBit_get h.labelled h.final hp]

theorem unary_table {g a : Nat} {gate : Gate} {f : Bool → Bool}
    (hgate : circ.gates[g]? = some gate) (hf : gate.gateType.unary = some f)
    (hin : gate.inFrom = [a]) (ha : a < circ.gates.length) :
    ∃ p q, labels a = some p ∧ labels g = some q ∧
      garb.garbledGates[g]? = some [unaryRow hash f p q false, unaryRow hash f p q true] := by
  obtain ⟨p, hp⟩ := h.all a ha
  obtain ⟨q, hq⟩ := h.all g (List.getElem?_eq_some_iff.mp hgate).1
  have htype : gate.gateType ≠ .input := by
    intro htype
    rw [htype] at hf
    cases hf
  obtain ⟨table, htable, hgarble⟩ := h.table g gate hgate htype
  have hcopy : gate.gateType ≠ .copy := by
    intro hcopy
    rw [garbleGate_copy hgate hcopy hin] at hgarble
    cases hgarble
  rw [garbleGate_unary hgate hf hcopy hin hp hq] at hgarble
  cases hgarble
  exact ⟨p, q, hp, hq, htable⟩

theorem binary_table {g a b : Nat} {gate : Gate} {f : Bool → Bool → Bool}
    (hgate : circ.gates[g]? = some gate) (hf : gate.gateType.binary = some f)
    (hxor : gate.gateType ≠ .xor) (hin : gate.inFrom = [a, b]) (ha : a < circ.gates.length)
    (hb : b < circ.gates.length) :
    ∃ p p' q, labels a = some p ∧ labels b = some p' ∧ labels g = some q ∧
      garb.garbledGates[g]?
        = some [binaryRow hash f p p' q false false, binaryRow hash f p p' q false true,
            binaryRow hash f p p' q true false, binaryRow hash f p p' q true true] := by
  obtain ⟨p, hp⟩ := h.all a ha
  obtain ⟨p', hp'⟩ := h.all b hb
  obtain ⟨q, hq⟩ := h.all g (List.getElem?_eq_some_iff.mp hgate).1
  have htype : gate.gateType ≠ .input := by
    intro htype
    rw [htype] at hf
    cases hf
  obtain ⟨table, htable, hgarble⟩ := h.table g gate hgate htype
  rw [garbleGate_binary hgate hf hxor hin hp hp' hq] at hgarble
  cases hgarble
  exact ⟨p, p', q, hp, hp', hq, htable⟩

theorem xor_table {g : Nat} {gate : Gate} (hgate : circ.gates[g]? = some gate)
    (htype : gate.gateType = .xor) : ∃ table, garb.garbledGates[g]? = some table := by
  obtain ⟨table, htable, -⟩ := h.table g gate hgate (htype ▸ nofun)
  exact ⟨table, htable⟩

/-! ### One gate

Given labels for the bits `v` and `w`, the row they select is the one
encrypted under them, and it holds the label for the gate's value. -/

omit h in
theorem garbledReads_input {g : Nat} {gate : Gate} (hgate : circ.gates[g]? = some gate)
    (htype : gate.gateType = .input) : garb.garbledReads circ g = some [] := by
  rw [garbledReads, hgate]
  exact if_pos (Or.inl htype)

omit h in
theorem garbledReads_gate {g : Nat} {gate : Gate} {table : List Label}
    (hgate : circ.gates[g]? = some gate) (hinput : gate.gateType ≠ .input)
    (hconst : gate.gateType ≠ .const) (htable : garb.garbledGates[g]? = some table)
    (hfits : tableFits gate table = true) :
    garb.garbledReads circ g = circ.evaluateReads g := by
  have hnot : ¬ (gate.gateType = .input ∨ gate.gateType = .const) := by
    rintro (heq | heq)
    · exact hinput heq
    · exact hconst heq
  rw [garbledReads, evaluateReads, hgate]
  refine (if_neg hnot).trans ?_
  rw [htable]
  refine (if_pos hfits).trans ?_
  exact (if_neg hinput).symm

omit h in
theorem garbledSwitch_input {g : Nat} {gate : Gate} (hgate : circ.gates[g]? = some gate)
    (htype : gate.gateType = .input) (inputLabels : List Label) (rs : List (Bool × Label)) :
    garb.garbledSwitch hash inputLabels circ g rs = (inputLabels[g]?).map fun l => (true, l) := by
  rw [garbledSwitch, hgate, Option.bind_eq_bind, Option.bind_some, htype]
  cases inputLabels[g]? <;> rfl

omit h in
theorem decrypt_unaryRow (f : Bool → Bool) (p q : SimpleWireLabelSet) (v : Bool) :
    decryptTableEntry hash (p.label0.selBit ^^ v).toNat (p.get v).key none
      (unaryRow hash f p q (p.label0.selBit ^^ v)) = q.get (f v) := by
  have hv : (p.label0.selBit ^^ (p.label0.selBit ^^ v)) = v := by
    cases p.label0.selBit <;> cases v <;> rfl
  rw [decryptTableEntry, unaryRow, encryptTableEntry, hv, Label.xor_cancel]

omit h in
theorem decrypt_binaryRow (f : Bool → Bool → Bool) (p p' q : SimpleWireLabelSet) (v w : Bool) :
    decryptTableEntry hash (2 * (p.label0.selBit ^^ v).toNat + (p'.label0.selBit ^^ w).toNat)
      (p.get v).key (some (p'.get w).key)
      (binaryRow hash f p p' q (p.label0.selBit ^^ v) (p'.label0.selBit ^^ w))
      = q.get (f v w) := by
  have hv : (p.label0.selBit ^^ (p.label0.selBit ^^ v)) = v := by
    cases p.label0.selBit <;> cases v <;> rfl
  have hw : (p'.label0.selBit ^^ (p'.label0.selBit ^^ w)) = w := by
    cases p'.label0.selBit <;> cases w <;> rfl
  rw [decryptTableEntry, binaryRow, encryptTableEntry, hv, hw, Label.xor_cancel]

/-- A table with two rows is walked through. -/
theorem garbledSwitch_unary {g a : Nat} {gate : Gate} {f : Bool → Bool}
    (hgate : circ.gates[g]? = some gate) (hf : gate.gateType.unary = some f)
    (hin : gate.inFrom = [a]) (ha : a < circ.gates.length) (inputLabels : List Label) :
    (∀ r, ∃ r', garb.garbledSwitch hash inputLabels circ g [r] = some r') ∧
      ∀ v, garb.garbledSwitch hash inputLabels circ g [(true, labelOf labels a v)]
        = some (true, labelOf labels g (f v)) := by
  obtain ⟨p, q, hp, hq, htable⟩ := h.unary_table hgate hf hin ha
  have htype : gate.gateType ≠ .input ∧ gate.gateType ≠ .const ∧ gate.gateType ≠ .xor := by
    refine ⟨?_, ?_, ?_⟩ <;>
    · intro htype
      rw [htype] at hf
      cases hf
  have hrow : ∀ r : Bool, [unaryRow hash f p q false, unaryRow hash f p q true][r.toNat]?
      = some (unaryRow hash f p q r) := by
    intro r
    cases r <;> rfl
  have hfits : tableFits gate [unaryRow hash f p q false, unaryRow hash f p q true] = true := by
    simp [tableFits, hin]
  have hswitch : ∀ r : Bool × Label, garb.garbledSwitch hash inputLabels circ g [r]
      = some (if r.1 then (true, decryptTableEntry hash r.2.selector r.2.key none
          (unaryRow hash f p q r.2.selBit)) else (false, Label.zero)) := by
    rintro ⟨success, label⟩
    rw [garbledSwitch, hgate, Option.bind_eq_bind, Option.bind_some]
    split
    next heq => exact absurd heq htype.1
    next heq => exact absurd heq htype.2.1
    next =>
      rw [htable]
      refine (if_pos hfits).trans ?_
      rw [hin]
      cases success with
      | false => rfl
      | true =>
          refine (if_pos rfl).trans ((if_neg htype.2.2).trans ?_)
          show ([unaryRow hash f p q false, unaryRow hash f p q true][label.selector]?).bind _ = _
          rw [Label.selector_eq, hrow, if_pos rfl]
          rfl
  refine ⟨fun r => ⟨_, hswitch r⟩, fun v => ?_⟩
  rw [hswitch, labelOf_eq hp, labelOf_eq hq, if_pos rfl, h.selector_get hp,
    selBit_get h.labelled h.final hp, decrypt_unaryRow]

/-- A table with four rows is walked through. -/
theorem garbledSwitch_binary {g a b : Nat} {gate : Gate} {f : Bool → Bool → Bool}
    (hgate : circ.gates[g]? = some gate) (hf : gate.gateType.binary = some f)
    (hxor : gate.gateType ≠ .xor) (hin : gate.inFrom = [a, b]) (ha : a < circ.gates.length)
    (hb : b < circ.gates.length) (inputLabels : List Label) :
    (∀ r r', ∃ r'', garb.garbledSwitch hash inputLabels circ g [r, r'] = some r'') ∧
      ∀ v w, garb.garbledSwitch hash inputLabels circ g
        [(true, labelOf labels a v), (true, labelOf labels b w)]
          = some (true, labelOf labels g (f v w)) := by
  obtain ⟨p, p', q, hp, hp', hq, htable⟩ := h.binary_table hgate hf hxor hin ha hb
  have htype : gate.gateType ≠ .input ∧ gate.gateType ≠ .const := by
    refine ⟨?_, ?_⟩ <;>
    · intro htype
      rw [htype] at hf
      cases hf
  let table : List Label := [binaryRow hash f p p' q false false,
    binaryRow hash f p p' q false true, binaryRow hash f p p' q true false,
    binaryRow hash f p p' q true true]
  have hrow : ∀ r s : Bool, table[2 * r.toNat + s.toNat]? = some (binaryRow hash f p p' q r s) := by
    intro r s
    cases r <;> cases s <;> rfl
  have hfits : tableFits gate table = true := by
    simp [tableFits, hin, table]
  have hswitch : ∀ r r' : Bool × Label, garb.garbledSwitch hash inputLabels circ g [r, r']
      = some (if r.1 && r'.1 then (true, decryptTableEntry hash
          (2 * r.2.selector + r'.2.selector) r.2.key (some r'.2.key)
          (binaryRow hash f p p' q r.2.selBit r'.2.selBit)) else (false, Label.zero)) := by
    rintro ⟨success, label⟩ ⟨success', label'⟩
    rw [garbledSwitch, hgate, Option.bind_eq_bind, Option.bind_some]
    split
    next heq => exact absurd heq htype.1
    next heq => exact absurd heq htype.2
    next =>
      rw [htable]
      refine (if_pos hfits).trans ?_
      rw [hin]
      cases success with
      | false => rfl
      | true =>
          cases success' with
          | false => rfl
          | true =>
              refine (if_pos rfl).trans ((if_neg hxor).trans ?_)
              show (table[2 * label.selector + label'.selector]?).bind _ = _
              rw [Label.selector_eq, Label.selector_eq, hrow]
              rfl
  refine ⟨fun r r' => ⟨_, hswitch r r'⟩, fun v w => ?_⟩
  rw [hswitch, labelOf_eq hp, labelOf_eq hp', labelOf_eq hq]
  refine congrArg some ((if_pos rfl).trans ?_)
  rw [h.selector_get hp, h.selector_get hp', selBit_get h.labelled h.final hp,
    selBit_get h.labelled h.final hp', decrypt_binaryRow]

/-- Labels of an exclusive or are added. -/
theorem garbledSwitch_xor {g a b : Nat} {gate : Gate} (hlast : OutputsLast circ)
    (hconnected : circ.Connected) (hgate : circ.gates[g]? = some gate)
    (htype : gate.gateType = .xor) (hin : gate.inFrom = [a, b]) (inputLabels : List Label) :
    (∀ r r', ∃ r'', garb.garbledSwitch hash inputLabels circ g [r, r'] = some r'') ∧
      ∀ v w, garb.garbledSwitch hash inputLabels circ g
        [(true, labelOf labels a v), (true, labelOf labels b w)]
          = some (true, labelOf labels g (v ^^ w)) := by
  obtain ⟨table, htable⟩ := h.xor_table hgate htype
  have hfits : tableFits gate table = true := by
    rw [tableFits, htype]
    exact Bool.or_true _
  have hswitch : ∀ r r' : Bool × Label, garb.garbledSwitch hash inputLabels circ g [r, r']
      = some (if r.1 && r'.1 then (true, r.2.xor r'.2) else (false, Label.zero)) := by
    rintro ⟨success, label⟩ ⟨success', label'⟩
    rw [garbledSwitch, hgate, Option.bind_eq_bind, Option.bind_some]
    split
    next heq => exact absurd (htype.symm.trans heq) nofun
    next heq => exact absurd (htype.symm.trans heq) nofun
    next =>
      rw [htable]
      refine (if_pos hfits).trans ?_
      rw [hin]
      cases success with
      | false => rfl
      | true =>
          cases success' with
          | false => rfl
          | true => exact (if_pos rfl).trans (if_pos htype)
  refine ⟨fun r r' => ⟨_, hswitch r r'⟩, fun v w => ?_⟩
  obtain ⟨q, hq⟩ := h.all g (List.getElem?_eq_some_iff.mp hgate).1
  cases (h.labelled g q hq).1 with
  | drawn hgate' hxor _ _ =>
      obtain rfl := Option.some.inj (hgate.symm.trans hgate')
      exact absurd htype hxor
  | output hgate' houtput _ =>
      obtain rfl := Option.some.inj (hgate.symm.trans hgate')
      exact absurd (htype.symm.trans houtput) nofun
  | @xor gate' a' b' left right hgate' _ hin' hleft hright heq =>
      obtain rfl := Option.some.inj (hgate.symm.trans hgate')
      obtain ⟨rfl, htail⟩ := List.cons.inj (hin.symm.trans hin')
      obtain ⟨rfl, -⟩ := List.cons.inj htail
      have hoffset : ∀ x p, x ∈ gate.inFrom → labels x = some p → p.Offset delta := by
        intro x p hx hp
        have hfeeds : circ.Feeds x g := ⟨gate, hgate, hx⟩
        have hlt := hconnected.within gate (List.mem_of_getElem? hgate) x hx
        have hgatex := List.getElem?_eq_getElem hlt
        exact offset_of_labelled h.labelled hlast hp hgatex (hlast.ne_output hfeeds hgatex)
      rw [hswitch, labelOf_eq hleft, labelOf_eq hright, labelOf_eq hq, heq]
      refine congrArg some ((if_pos rfl).trans ?_)
      exact congrArg (true, ·) (xor_get (hoffset a left (hin ▸ List.mem_cons_self) hleft)
        (hoffset b right (hin ▸ List.mem_cons_of_mem a List.mem_cons_self) hright) v w)

/-! ### The evaluation

The plain and the garbled walk go through one graph.  `MemoDag.Value.map`
takes the values of the first to labels in the second. -/

section
variable (hconnected : circ.Connected)
include hconnected

/-- The garbled circuit reads what the circuit reads. -/
theorem garbledReads_eq {g : Nat} (hg : g < circ.gates.length) :
    garb.garbledReads circ g = circ.evaluateReads g := by
  have hgate := List.getElem?_eq_getElem hg
  cases hconnected.shape hgate with
  | input htype _ _ =>
      rw [garbledReads_input hgate htype, evaluateReads_input hgate htype]
  | unary hf hin ha =>
      obtain ⟨p, q, -, -, htable⟩ := h.unary_table hgate hf hin ha
      refine garbledReads_gate hgate ?_ ?_ htable ?_
      · intro htype
        rw [htype] at hf
        cases hf
      · exact hconnected.noConst _ (List.getElem_mem hg)
      · simp [tableFits, hin]
  | binary hf hin ha hb =>
      have hinput : circ.gates[g].gateType ≠ .input := by
        intro htype
        rw [htype] at hf
        cases hf
      have hconst := hconnected.noConst _ (List.getElem_mem hg)
      by_cases hxor : circ.gates[g].gateType = .xor
      · obtain ⟨table, htable⟩ := h.xor_table hgate hxor
        refine garbledReads_gate hgate hinput hconst htable ?_
        simp [tableFits, hxor]
      · obtain ⟨p, p', q, -, -, -, htable⟩ := h.binary_table hgate hf hxor hin ha hb
        refine garbledReads_gate hgate hinput hconst htable ?_
        simp [tableFits, hin]

theorem closed (hlast : OutputsLast circ) {inputLabels : List Label}
    (hinputs : inputLabels.length = circ.numInputWires) :
    Closed (garb.garbledReads circ) (garb.garbledSwitch hash inputLabels circ)
      circ.gates.length where
  within := by
    intro g hg
    rw [h.garbledReads_eq hconnected hg]
    exact hconnected.reads_within hg
  total := by
    intro g hg ins rs hins hlen
    rw [h.garbledReads_eq hconnected hg] at hins
    have hgate := List.getElem?_eq_getElem hg
    cases hconnected.shape hgate with
    | input htype _ hinput =>
        refine ⟨(true, inputLabels[g]), ?_⟩
        rw [garbledSwitch_input hgate htype,
          List.getElem?_eq_getElem (hinputs.symm ▸ hinput)]
        rfl
    | unary hf hin ha =>
        rw [evaluateReads_unary hgate hf hin] at hins
        cases hins
        obtain ⟨r, rfl⟩ := List.length_eq_one_iff.mp hlen
        exact (h.garbledSwitch_unary hgate hf hin ha inputLabels).1 r
    | binary hf hin ha hb =>
        rw [evaluateReads_binary hgate hf hin] at hins
        cases hins
        obtain ⟨r, r', rfl⟩ := List.length_eq_two.mp hlen
        by_cases hxor : circ.gates[g].gateType = .xor
        · exact (h.garbledSwitch_xor hlast hconnected hgate hxor hin inputLabels).1 r r'
        · exact (h.garbledSwitch_binary hgate hf hxor hin ha hb inputLabels).1 r r'

/-- The labels of the inputs, of one of which each is known. -/
theorem getInputLabelsFromBools_eq {inputs : List Bool}
    (hinputs : inputs.length = circ.numInputWires) :
    ∃ inputLabels, garb.getInputLabelsFromBools inputs = some inputLabels ∧
      inputLabels.length = circ.numInputWires ∧
      ∀ i v, inputs[i]? = some v → inputLabels[i]? = some (labelOf labels i v) := by
  have hbound : circ.numInputWires ≤ circ.gates.length := by
    have hvalid := of_decide_eq_true (Bool.and_eq_true_iff.mp hconnected.valid).1
    omega
  have hlabel : ∀ i v, inputs[i]? = some v →
      (garb.wireLabels[i]?).bind (fun p => (inputs[i]?).bind fun b => some (p.get b))
        = some (labelOf labels i v) := by
    intro i v hv
    have hi : i < circ.gates.length :=
      ((List.getElem?_eq_some_iff.mp hv).1.trans_eq hinputs).trans_le hbound
    obtain ⟨p, hp⟩ := h.all i hi
    rw [h.wires i hi, hp, labelOf_eq hp, hv]
    rfl
  have hlen : ¬ inputs.length ≠ garb.numInputWires :=
    fun hne => hne (hinputs.trans h.inputs.symm)
  obtain ⟨inputLabels, hall⟩ := exists_forall₂ (l := List.range circ.numInputWires)
    (R := fun i l => (garb.wireLabels[i]?).bind
      (fun p => (inputs[i]?).bind fun b => some (p.get b)) = some l) (by
    intro i hi
    have hi' : i < inputs.length := (List.mem_range.mp hi).trans_eq hinputs.symm
    exact ⟨_, hlabel i inputs[i] (List.getElem?_eq_getElem hi')⟩)
  have hlength : inputLabels.length = circ.numInputWires :=
    hall.length_eq.symm.trans List.length_range
  have hmapM := mapM_eq_some_iff.mpr hall
  refine ⟨inputLabels, ?_, hlength, fun i v hv => ?_⟩
  · rw [getInputLabelsFromBools, if_neg hlen, h.inputs]
    exact hmapM
  · have hi : i < circ.numInputWires := (List.getElem?_eq_some_iff.mp hv).1.trans_eq hinputs
    obtain ⟨l, hl, hget⟩ := getElem?_mapM_range hmapM hi
    exact hget.trans (hl.symm.trans (hlabel i v hv))

/-- A wire that carries `v` ends with the label for `v`. -/
theorem value_label (hlast : OutputsLast circ) {inputs : List Bool} {inputLabels : List Label}
    (hlabels : ∀ i v, inputs[i]? = some v → inputLabels[i]? = some (labelOf labels i v))
    {g : Nat} {v : Bool} (hv : circ.Wire inputs g v) :
    Value (garb.garbledReads circ) (garb.garbledSwitch hash inputLabels circ) g
      (labelOf labels g v) := by
  refine Value.map (labelOf labels) (fun g ins vs v hins hvs hnode => ?_)
    ((hconnected.wire_iff inputs g v).mp hv)
  have hg : g < circ.gates.length := by
    obtain ⟨gate, hgate, -⟩ := Option.bind_eq_some_iff.mp hins
    exact (List.getElem?_eq_some_iff.mp hgate).1
  have hgate := List.getElem?_eq_getElem hg
  refine ⟨(h.garbledReads_eq hconnected hg).trans hins, ?_⟩
  cases hconnected.shape hgate with
  | input htype _ _ =>
      rw [evaluateSwitch_input hgate inputs htype] at hnode
      obtain ⟨w, hw, heq⟩ := Option.map_eq_some_iff.mp hnode
      cases heq
      rw [garbledSwitch_input hgate htype, hlabels g v hw]
      rfl
  | @unary f a hf hin ha =>
      rw [evaluateReads_unary hgate hf hin] at hins
      cases hins
      obtain ⟨x, _, -, hnil, rfl⟩ := List.forall₂_cons_left_iff.mp hvs
      cases hnil
      obtain ⟨w, hw, heq⟩ := evaluateSwitch_unary hgate inputs hf hin (true, x)
      have hpair := Option.some.inj (hnode.symm.trans hw)
      rw [(Prod.mk.inj hpair).2, heq rfl]
      exact (h.garbledSwitch_unary hgate hf hin ha inputLabels).2 x
  | @binary f a b hf hin ha hb =>
      rw [evaluateReads_binary hgate hf hin] at hins
      cases hins
      obtain ⟨x, _, -, htail, rfl⟩ := List.forall₂_cons_left_iff.mp hvs
      obtain ⟨y, _, -, hnil, rfl⟩ := List.forall₂_cons_left_iff.mp htail
      cases hnil
      obtain ⟨w, hw, heq⟩ := evaluateSwitch_binary hgate inputs hf hin (true, x) (true, y)
      have hpair := Option.some.inj (hnode.symm.trans hw)
      rw [(Prod.mk.inj hpair).2, heq rfl rfl]
      by_cases hxor : circ.gates[g].gateType = .xor
      · rw [hxor] at hf
        cases hf
        exact (h.garbledSwitch_xor hlast hconnected hgate hxor hin inputLabels).2 x y
      · exact (h.garbledSwitch_binary hgate hf hxor hin ha hb inputLabels).2 x y

/-- Evaluating with the labels of some inputs ends with the labels of the
outputs on these inputs. -/
theorem evaluateCircuit_eq (hlast : OutputsLast circ) {inputs outs : List Bool}
    {inputLabels : List Label} (hlen : inputLabels.length = circ.numInputWires)
    (houtputs : 1 ≤ circ.numOutputWires)
    (hlabels : ∀ i v, inputs[i]? = some v → inputLabels[i]? = some (labelOf labels i v))
    (houts : List.Forall₂ (circ.Wire inputs) circ.outputGates outs) :
    garb.evaluateCircuit hash circ inputLabels
      = some (true, List.zipWith (labelOf labels) circ.outputGates outs) := by
  have hchecks : ¬ (inputLabels.length ≠ circ.numInputWires ∨ circ.numOutputWires < 1) := by
    rintro (hne | hlt)
    · exact hne hlen
    · exact Nat.not_lt_of_le houtputs hlt
  have hvalues : List.Forall₂ (Value (garb.garbledReads circ)
      (garb.garbledSwitch hash inputLabels circ)) circ.outputGates
      (List.zipWith (labelOf labels) circ.outputGates outs) :=
    forall₂_zipWith (f := labelOf labels)
      (fun _ _ hwire => h.value_label hconnected hlast hlabels hwire) houts
  rw [SimpleGarbledCircuit.evaluateCircuit, if_neg hchecks]
  exact visitOutputs_values (d := Label.zero) (h.closed hconnected hlast hlen)
    (Nat.lt_succ_self circ.gates.length) (fun g hg => hconnected.outputGates_lt hg)
    (s := ⟨fun _ => false, fun _ => none⟩) nofun hvalues

/-- No gate is above a loop: garbling has ended. -/
theorem exists_outs {inputs : List Bool} (hinputs : inputs.length = circ.numInputWires) :
    ∃ outs, List.Forall₂ (circ.Wire inputs) circ.outputGates outs := by
  refine exists_forall₂ fun g hg => ?_
  have hlt := hconnected.outputGates_lt hg
  obtain ⟨p, hp⟩ := h.all g hlt
  have hwithin : ∀ x y, circ.Feeds x y → x < circ.gates.length := by
    rintro x y ⟨gate, hgate, hx⟩
    exact hconnected.within gate (List.mem_of_getElem? hgate) x hx
  exact (hconnected.exists_wire_iff hinputs hlt).mpr
    ((acc_iff_no_loop hwithin g).mp (h.labelled g p hp).2.1)

end

end Garbling

/-! ## `GarbleCircuit` and back

That garbling has ended is a success of all its loops, from which the
structure above is read off. -/

theorem labelled_nil (circ : Circuit) (delta : Label) : Labelled circ delta fun _ => none := nofun

/-- A circuit that has been garbled is a garbling. -/
theorem garbleCircuit_garbling {hash : List Byte → Label} {circ : Circuit} {rand : Nat → Label}
    {garb : SimpleGarbledCircuit} (h : garbleCircuit hash circ rand = some garb) :
    ∃ labels, Garbling hash circ (setFinalBit (rand 0)) labels garb := by
  rw [garbleCircuit] at h
  split at h
  next hvalid =>
    obtain ⟨state, hassign, h⟩ := Option.bind_eq_some_iff.mp h
    obtain ⟨wireLabels, hwires, h⟩ := Option.bind_eq_some_iff.mp h
    obtain ⟨garbledGates, hgates, h⟩ := Option.bind_eq_some_iff.mp h
    cases h
    have hlabels := labels_foldlM
      (fun _ _ _ hl hf => assignWireLabelsRecurs_labels hvalid hl hf)
      (labelled_nil circ _) hassign
    have hall : ∀ g < circ.gates.length, ∃ p, state.wireLabels g = some p :=
      fun g hg => hlabels.done g (List.mem_range.mpr hg)
    refine ⟨state.wireLabels, selBit_setFinalBit _, hlabels.labelled, hall, ?_, rfl, ?_⟩
    · intro g gate hgate htype
      obtain ⟨table, htable, hget⟩ :=
        getElem?_mapM_range hgates (List.getElem?_eq_some_iff.mp hgate).1
      refine ⟨table, hget, ?_⟩
      rw [hgate] at htable
      exact (if_neg htype).symm.trans htable
    · intro g hg
      obtain ⟨p, hp, hget⟩ := getElem?_mapM_range hwires hg
      exact hget.trans hp.symm
  next => cases h

/-! ## Garbling succeeds

The only recursion is that of the labels.  It ends when the gates can be
ordered so that none reads a later one. -/

section
variable {hash : List Byte → Label} {circ : Circuit} {rand : Nat → Label} {delta : Label}
  (hconnected : circ.Connected) {rank : Nat → Nat}
  (hrank : ∀ a g, circ.Feeds a g → rank a < rank g)
include hconnected hrank

variable (rand) in
/-- Labels are assigned to a circuit whose gates can be ordered. -/
theorem assignWireLabelsRecurs_total {fuel g : Nat} {garb : Labelling}
    (hg : g < circ.gates.length) (hfuel : rank g < fuel)
    (hlabelled : Labelled circ delta garb.wireLabels) :
    ∃ garb', assignWireLabelsRecurs circ rand delta fuel g garb = some garb' := by
  induction fuel generalizing g garb with
  | zero => exact absurd hfuel (Nat.not_lt_zero _)
  | succ fuel ih =>
      rw [assignWireLabelsRecurs]
      split
      next p _ => exact ⟨garb, rfl⟩
      next =>
        have hgate := List.getElem?_eq_getElem hg
        have hin : (if circ.gates[g].gateType = .input then [] else circ.gates[g].inFrom)
            = circ.gates[g].inFrom := by
          split
          next htype => exact (inFrom_of_input hconnected.valid hgate htype).symm
          next => rfl
        have hinputs : ∀ gs : List Nat, (∀ a ∈ gs, circ.Feeds a g) → ∀ garb : Labelling,
            Labelled circ delta garb.wireLabels → ∃ garb',
              gs.foldlM (fun garb a => assignWireLabelsRecurs circ rand delta fuel a garb) garb
                = some garb' := by
          intro gs
          induction gs with
          | nil => exact fun _ garb _ => ⟨garb, rfl⟩
          | cons a gs ihl =>
              intro hgs garb hlabelled
              have ha := hgs a List.mem_cons_self
              have halt : a < circ.gates.length := by
                obtain ⟨gate, hgate, ha⟩ := ha
                exact hconnected.within gate (List.mem_of_getElem? hgate) a ha
              obtain ⟨garb₁, hfirst⟩ := ih halt
                (Nat.lt_of_lt_of_le (hrank a g ha) (Nat.le_of_lt_succ hfuel)) hlabelled
              have hlabels := assignWireLabelsRecurs_labels hconnected.valid hlabelled hfirst
              obtain ⟨garb₂, hrest⟩ := ihl (fun x hx => hgs x (List.mem_cons_of_mem a hx)) garb₁
                hlabels.labelled
              refine ⟨garb₂, ?_⟩
              rw [List.foldlM_cons, hfirst]
              exact hrest
        obtain ⟨garb₁, hfold⟩ := hinputs circ.gates[g].inFrom
          (fun a ha => ⟨circ.gates[g], hgate, ha⟩) garb hlabelled
        have hlabels := labels_foldlM
          (fun _ _ _ hl hf => assignWireLabelsRecurs_labels hconnected.valid hl hf) hlabelled hfold
        simp only [hgate, hin, hfold, Option.bind_eq_bind, Option.bind_some]
        cases htype : circ.gates[g].gateType with
        | xor =>
            obtain ⟨a, b, hab⟩ := inFrom_of_xor hconnected.valid hgate htype
            rw [hab] at hlabels
            obtain ⟨left, hleft⟩ := hlabels.done a List.mem_cons_self
            obtain ⟨right, hright⟩ := hlabels.done b (List.mem_cons_of_mem a List.mem_cons_self)
            refine ⟨garb₁.assign g ⟨left.label0.xor right.label0, left.label0.xor right.label1⟩, ?_⟩
            rw [hab]
            show (garb₁.wireLabels a).bind _ = _
            rw [hleft, Option.bind_some]
            show (garb₁.wireLabels b).bind _ = _
            rw [hright]
            rfl
        | output => exact ⟨_, rfl⟩
        | input | and | or | not | const | copy => exact ⟨_, rfl⟩

omit hrank in
variable (hash) in
theorem garbleGate_total {labels : Nat → Option SimpleWireLabelSet}
    (hall : ∀ g < circ.gates.length, ∃ p, labels g = some p) {g : Nat} {gate : Gate}
    (hgate : circ.gates[g]? = some gate) (hinput : gate.gateType ≠ .input)
    (hcopy : gate.gateType ≠ .copy) : ∃ table, garbleGate hash circ labels g = some table := by
  obtain ⟨q, hq⟩ := hall g (List.getElem?_eq_some_iff.mp hgate).1
  cases hconnected.shape hgate with
  | input htype _ _ => exact absurd htype hinput
  | @unary f a hf hin ha =>
      obtain ⟨p, hp⟩ := hall a ha
      exact ⟨_, garbleGate_unary hgate hf hcopy hin hp hq⟩
  | @binary f a b hf hin ha hb =>
      by_cases hxor : gate.gateType = .xor
      · refine ⟨[], ?_⟩
        simp [garbleGate, hgate, hxor, GateType.tableSize, getGatePermutation]
      · obtain ⟨p, hp⟩ := hall a ha
        obtain ⟨p', hp'⟩ := hall b hb
        exact ⟨_, garbleGate_binary hgate hf hxor hin hp hp' hq⟩

theorem garbleCircuit_total (hbound : ∀ g, rank g ≤ circ.gates.length)
    (hcopy : ∀ gate ∈ circ.gates, gate.gateType ≠ .copy) :
    ∃ garb, garbleCircuit hash circ rand = some garb := by
  have hassign : ∀ n ≤ circ.gates.length, ∃ garb, (List.range n).foldlM
      (fun garb i => assignWireLabelsRecurs circ rand (setFinalBit (rand 0))
        (circ.gates.length + 1) i garb) ⟨fun _ => none, 1⟩ = some garb ∧
      Labels circ (setFinalBit (rand 0)) (List.range n) ⟨fun _ => none, 1⟩ garb := by
    intro n hn
    induction n with
    | zero =>
        exact ⟨_, rfl, labelled_nil circ _, fun _ _ hp => hp,
          fun g hg => absurd hg List.not_mem_nil, fun x hx hx' => absurd hx hx'⟩
    | succ n ih =>
        obtain ⟨garb, hgarb, hlabels⟩ := ih (Nat.le_of_succ_le hn)
        obtain ⟨garb', hgarb'⟩ := assignWireLabelsRecurs_total rand hconnected hrank
          hn (Nat.lt_succ_of_le (hbound n)) hlabels.labelled
        have hfold : (List.range (n + 1)).foldlM
            (fun garb i => assignWireLabelsRecurs circ rand (setFinalBit (rand 0))
              (circ.gates.length + 1) i garb) ⟨fun _ => none, 1⟩ = some garb' := by
          rw [List.range_succ, List.foldlM_append, hgarb, Option.bind_eq_bind, Option.bind_some,
            List.foldlM_cons, hgarb']
          rfl
        exact ⟨garb', hfold, labels_foldlM
          (fun _ _ _ hl hf => assignWireLabelsRecurs_labels hconnected.valid hl hf)
          (labelled_nil circ _) hfold⟩
  obtain ⟨state, hfold, hlabels⟩ := hassign circ.gates.length (Nat.le_refl _)
  have hall : ∀ g < circ.gates.length, ∃ p, state.wireLabels g = some p :=
    fun g hg => hlabels.done g (List.mem_range.mpr hg)
  obtain ⟨wireLabels, hwires⟩ := exists_forall₂ (l := List.range circ.gates.length)
    fun g hg => hall g (List.mem_range.mp hg)
  obtain ⟨garbledGates, hgates⟩ := exists_forall₂ (l := List.range circ.gates.length)
    (R := fun i table => (circ.gates[i]?).bind (fun gate => if gate.gateType = .input then some []
      else garbleGate hash circ state.wireLabels i) = some table) (by
    intro g hg
    have hlt := List.mem_range.mp hg
    have hgate := List.getElem?_eq_getElem hlt
    by_cases hinput : circ.gates[g].gateType = .input
    · refine ⟨[], ?_⟩
      rw [hgate, Option.bind_some, if_pos hinput]
    · obtain ⟨table, htable⟩ := garbleGate_total hash hconnected hall hgate hinput
        (hcopy _ (List.getElem_mem _))
      refine ⟨table, ?_⟩
      rw [hgate, Option.bind_some, if_neg hinput, htable])
  have hwires' := mapM_eq_some_iff.mpr hwires
  have hgates' := mapM_eq_some_iff.mpr hgates
  refine ⟨⟨circ.numInputWires, circ.numOutputWires, garbledGates, wireLabels,
    setFinalBit (rand 0)⟩, ?_⟩
  simp only [garbleCircuit, hconnected.valid, if_true, hfold, Option.bind_eq_bind,
    Option.bind_some, hwires']
  exact (congrArg (Option.bind · _) hgates').trans rfl

end

/-- The output gates are where `getOutputGate` looks for them. -/
def OutputsPlaced (circ : Circuit) : Prop :=
  ∀ g ∈ circ.outputGates, (circ.gates[g]?).map Gate.gateType = some .output

instance (circ : Circuit) : Decidable (OutputsPlaced circ) := inferInstanceAs
  (Decidable (∀ g ∈ circ.outputGates, (circ.gates[g]?).map Gate.gateType = some .output))

def bitChar (b : Bool) : Char := if b then '1' else '0'

theorem Garbling.selector_output {hash : List Byte → Label} {circ : Circuit} {delta : Label}
    {labels : Nat → Option SimpleWireLabelSet} {garb : SimpleGarbledCircuit}
    (h : Garbling hash circ delta labels garb) (hplaced : OutputsPlaced circ) {g : Nat}
    (hg : g ∈ circ.outputGates) (v : Bool) : (labelOf labels g v).selector = v.toNat := by
  obtain ⟨gate, hgate, htype⟩ := Option.map_eq_some_iff.mp (hplaced g hg)
  obtain ⟨p, hp⟩ := h.all g (List.getElem?_eq_some_iff.mp hgate).1
  have heq : p = structuredLabels := by
    cases (h.labelled g p hp).1 with
    | drawn hgate' _ houtput _ =>
        obtain rfl := Option.some.inj (hgate.symm.trans hgate')
        exact absurd htype houtput
    | output _ _ heq => exact heq
    | xor hgate' hxor _ _ _ _ =>
        obtain rfl := Option.some.inj (hgate.symm.trans hgate')
        exact absurd (htype.symm.trans hxor) nofun
  rw [labelOf_eq hp, heq, Label.selector_eq, selBit_structured]

theorem decodePlaintextOutputLabels_eq {gs : List Nat} {f : Nat → Bool → Label}
    (hf : ∀ g ∈ gs, ∀ v, (f g v).selector = v.toNat) {outs : List Bool}
    (hlen : gs.length = outs.length) :
    decodePlaintextOutputLabels (List.zipWith f gs outs)
      = String.ofList (outs.map bitChar).reverse := by
  have hfold : ∀ out : String,
      (List.zipWith f gs outs).foldl (fun out label => toString label.selector ++ out) out
        = String.ofList (outs.map bitChar).reverse ++ out := by
    induction gs generalizing outs with
    | nil =>
        cases outs with
        | nil => exact fun out => rfl
        | cons _ _ => cases hlen
    | cons g gs ih =>
        cases outs with
        | nil => cases hlen
        | cons v outs =>
            intro out
            have hdigit : toString (f g v).selector = String.ofList [bitChar v] := by
              rw [hf g List.mem_cons_self v]
              cases v <;> rfl
            rw [List.zipWith_cons_cons, List.foldl_cons,
              ih (fun x hx => hf x (List.mem_cons_of_mem g hx)) (Nat.succ.inj hlen), hdigit,
              List.map_cons, List.reverse_cons, String.ofList_append, String.append_assoc]
  rw [decodePlaintextOutputLabels, hfold, String.append_empty]

/-- The labels of the inputs lead to the labels of the outputs, and these are
decoded. -/
theorem Garbling.decodes {hash : List Byte → Label} {circ : Circuit} {delta : Label}
    {labels : Nat → Option SimpleWireLabelSet} {garb : SimpleGarbledCircuit}
    (h : Garbling hash circ delta labels garb) (hconnected : circ.Connected)
    (hlast : OutputsLast circ) (hplaced : OutputsPlaced circ) (houtputs : 1 ≤ circ.numOutputWires)
    {inputs : List Bool} (hinputs : inputs.length = circ.numInputWires) :
    ∃ outs inputLabels outLabels, outs.length = circ.numOutputWires ∧
      circ.evaluateCircuit inputs = some (true, outs) ∧
      garb.getInputLabelsFromBools inputs = some inputLabels ∧
      garb.evaluateCircuit hash circ inputLabels = some (true, outLabels) ∧
      decodePlaintextOutputLabels outLabels = String.ofList (outs.map bitChar).reverse := by
  obtain ⟨outs, houts⟩ := h.exists_outs hconnected hinputs
  obtain ⟨inputLabels, hget, hlen, hlabels⟩ := h.getInputLabelsFromBools_eq hconnected hinputs
  have hcount : outs.length = circ.numOutputWires := by
    rw [← houts.length_eq, Circuit.outputGates, List.length_map, List.length_range]
  refine ⟨outs, inputLabels, _, hcount, ?_, hget,
    h.evaluateCircuit_eq hconnected hlast hlen houtputs hlabels houts,
    decodePlaintextOutputLabels_eq (fun g hg v => h.selector_output hplaced hg v)
      houts.length_eq⟩
  rcases hconnected.evaluateCircuit_cases hinputs houtputs with ⟨outs', hwires, heq⟩ | ⟨hnone, -⟩
  · rw [heq, List.right_unique_forall₂' (hconnected.wire_unique inputs) hwires houts]
  · obtain ⟨g, hg, hnone⟩ := hnone
    obtain ⟨v, hv⟩ := exists_of_forall₂ houts g hg
    exact absurd hv (hnone v)

/-- Garbling keeps the meaning of a circuit: with the labels of any inputs the
garbled circuit is walked through to the end, and what is decoded are the
outputs of the circuit, the last one first. -/
theorem garbled_evaluation (hash : List Byte → Label) (circ : Circuit) (rand : Nat → Label)
    (garb : SimpleGarbledCircuit) (hconnected : circ.Connected) (hlast : OutputsLast circ)
    (hplaced : OutputsPlaced circ) (houtputs : 1 ≤ circ.numOutputWires)
    (hgarb : garbleCircuit hash circ rand = some garb) (inputs : List Bool)
    (hinputs : inputs.length = circ.numInputWires) :
    ∃ outs inputLabels outLabels, circ.evaluateCircuit inputs = some (true, outs) ∧
      garb.getInputLabelsFromBools inputs = some inputLabels ∧
      garb.evaluateCircuit hash circ inputLabels = some (true, outLabels) ∧
      decodePlaintextOutputLabels outLabels = String.ofList (outs.map bitChar).reverse := by
  obtain ⟨labels, h⟩ := garbleCircuit_garbling hgarb
  obtain ⟨outs, inputLabels, outLabels, -, hdecodes⟩ :=
    h.decodes hconnected hlast hplaced houtputs hinputs
  exact ⟨outs, inputLabels, outLabels, hdecodes⟩

/-- Labels and a hash to run the definitions with. -/
def sampleLabels (n : Nat) : Label := Vector.ofFn fun i => BitVec.ofNat 8 (n * n * 37 + i * 13 + n)

def sampleHash (l : List Byte) : Label :=
  Vector.ofFn fun i => l.foldl (fun a b => a * 31 + b + BitVec.ofNat 8 i) 5

theorem garbled_evaluation_sample :
    ∃ garb outs inputLabels outLabels,
      Circuit.sampleCircuit.evaluateCircuit [true, false] = some (true, outs) ∧
      SimpleGarbledCircuit.getInputLabelsFromBools garb [true, false] = some inputLabels ∧
      garb.evaluateCircuit sampleHash Circuit.sampleCircuit inputLabels
        = some (true, outLabels) ∧
      decodePlaintextOutputLabels outLabels = String.ofList (outs.map bitChar).reverse := by
  have hsome : (garbleCircuit sampleHash Circuit.sampleCircuit sampleLabels).isSome = true := by
    decide
  exact ⟨_, garbled_evaluation sampleHash Circuit.sampleCircuit sampleLabels _
    Circuit.sampleCircuit_connected (by decide) (by decide) (by decide)
    (Option.some_get hsome).symm [true, false] rfl⟩

end PSVFSS

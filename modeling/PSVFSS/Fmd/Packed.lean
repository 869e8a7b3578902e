/-
# `Fmd.Packed` — the packed form of a garbled circuit

Both labels of every input wire, then the rows of every table.  How many there
are follows from the circuit, so nothing is framed: `packed_bijection` says that
`PackedUnmarshal` accepts the byte strings of one length and no others, that it
delivers what was packed, and that packing what it delivers gives the same
bytes.
-/
import PSVFSS.Lib.Framing
import PSVFSS.Lib.Loop
import PSVFSS.Fmd.Evaluation

namespace PSVFSS

open ByteBuffer MemoDag Framing

/-! ## `PackedMarshal` and `PackedUnmarshal`

Nothing is framed: the reader knows the circuit, and takes from it how many
labels and rows there are. -/

def Label.bytes (a : Label) : List Byte := a.toList

/-- The two labels of an input wire. -/
def SimpleWireLabelSet.bytes (p : SimpleWireLabelSet) : List Byte :=
  p.label0.bytes ++ p.label1.bytes

def packTable (table : List Label) : List Byte := table.flatMap Label.bytes

/-- `none` when there are fewer labels than input wires. -/
def packedMarshal (garb : SimpleGarbledCircuit) : Option (List Byte) := do
  let wires ← (List.range garb.numInputWires).mapM fun i => garb.wireLabels[i]?
  return wires.flatMap SimpleWireLabelSet.bytes ++ garb.garbledGates.flatMap packTable

/-- `packedGC.Read` of a label or of a row, which have to be there in full. -/
def readLabel (packedGC : List Byte) : Option (Label × List Byte) :=
  if h : 16 ≤ packedGC.length then
    some (⟨(packedGC.take 16).toArray, by simpa using h⟩, packedGC.drop 16)
  else none

def readWire (packedGC : List Byte) : Option (SimpleWireLabelSet × List Byte) :=
  (decodePair readLabel readLabel packedGC).map fun r => (⟨r.1.1, r.1.2⟩, r.2)

/-- The rows that are expected of a gate. -/
def Gate.rows (gate : Gate) : Nat :=
  if gate.gateType = .input then 0 else gate.gateType.tableSize

def readTables : List Gate → List Byte → Option (List (List Label) × List Byte)
  | [], packedGC => some ([], packedGC)
  | gate :: gates, packedGC => do
      let (table, packedGC) ← decodeMany readLabel gate.rows packedGC
      let (tables, packedGC) ← readTables gates packedGC
      return (table :: tables, packedGC)

/-- `none` where the source returns an error or runs into one. -/
def packedUnmarshal (g : SimpleGarbledCircuit) (b : List Byte) (c : Circuit) :
    Option SimpleGarbledCircuit := do
  let (wireLabels, packedGC) ← decodeMany readWire c.numInputWires b
  let (garbledGates, packedGC) ← readTables c.gates packedGC
  match packedGC with
  | [] =>
      return { g with
        numInputWires := c.numInputWires
        numOutputWires := c.numOutputWires
        garbledGates := garbledGates
        wireLabels := wireLabels }
  | _ :: _ => none

/-! ## Codes

Labels, pairs, rows and tables are codes of fixed width, put together by the
rules of `Lib.Framing`. -/

theorem fixed_label : Fixed (fun _ => True) 16 Label.bytes readLabel where
  delimiting := by
    intro a _ rest
    have hlen : a.toList.length = 16 := Vector.length_toList
    have hle : 16 ≤ (a.toList ++ rest).length := by
      rw [List.length_append]
      omega
    rw [readLabel, Label.bytes, dif_pos hle]
    refine congrArg some (Prod.ext ?_ (List.drop_left' hlen))
    apply Vector.toList_inj.mp
    show (a.toList ++ rest).take 16 = a.toList
    exact List.take_left' hlen
  exact := by
    intro s a rest ha
    rw [readLabel] at ha
    split at ha
    next hle =>
      cases ha
      exact ⟨trivial, (List.take_append_drop 16 s).symm⟩
    next => cases ha
  width := fun a _ => Vector.length_toList
  reads := by
    intro s hs
    exact ⟨_, dif_pos hs⟩

theorem fixed_wire : Fixed (fun _ => True) 32 SimpleWireLabelSet.bytes readWire :=
  (fixed_label.pair fixed_label).map (fun x => (⟨x.1, x.2⟩ : SimpleWireLabelSet))
    (fun p => (p.label0, p.label1)) (fun _ _ => trivial) (fun _ _ => ⟨trivial, trivial⟩)
    (fun _ _ => rfl) (fun _ _ => rfl)

/-- As many rows as the gates ask for. -/
def Tabled (gates : List Gate) (tables : List (List Label)) : Prop :=
  List.Forall₂ (fun gate table => table.length = gate.rows) gates tables

theorem fixed_tables (gates : List Gate) :
    Fixed (Tabled gates) ((gates.map Gate.rows).sum * 16) (·.flatMap packTable)
      (readTables gates) := by
  induction gates with
  | nil =>
      refine ⟨?_, ?_, ?_, fun s _ => ⟨_, rfl⟩⟩
      · intro tables htables rest
        cases htables
        rfl
      · intro s tables rest h
        cases h
        exact ⟨List.Forall₂.nil, rfl⟩
      · intro tables htables
        cases htables
        exact (Nat.zero_mul 16).symm
  | cons gate gates ih =>
      have hpair := (fixed_label.many gate.rows).pair ih
      have hcons : Fixed (Tabled (gate :: gates)) _ _ _ :=
        hpair.map (fun x => x.1 :: x.2)
          (fun tables : List (List Label) => (tables.headD [], tables.tail))
          (fun _ h => List.Forall₂.cons h.1.1 h.2)
          (by
            rintro _ (_ | ⟨htable, htables⟩)
            exact ⟨⟨htable, fun _ _ => trivial⟩, htables⟩)
          (by
            rintro _ (_ | ⟨_, _⟩)
            rfl)
          (fun _ _ => rfl)
      have hwidth : ((gate :: gates).map Gate.rows).sum * 16
          = gate.rows * 16 + (gates.map Gate.rows).sum * 16 := by
        rw [List.map_cons, List.sum_cons, Nat.add_mul]
      have hencode : (fun tables : List (List Label) => tables.flatMap packTable)
          = fun tables => packTable (tables.headD []) ++ tables.tail.flatMap packTable := by
        funext tables
        cases tables <;> rfl
      have hdecode : readTables (gate :: gates) = fun s =>
          (decodePair (decodeMany readLabel gate.rows) (readTables gates) s).map
            fun r => (r.1.1 :: r.1.2, r.2) := by
        funext s
        show (decodeMany readLabel gate.rows s).bind _ = ((decodeMany _ _ s).bind _).map _
        cases decodeMany readLabel gate.rows s with
        | none => rfl
        | some r =>
            show (readTables gates r.2).bind _ = ((readTables gates r.2).bind _).map _
            cases readTables gates r.2 <;> rfl
      rw [hwidth, hencode, hdecode]
      exact hcons

/-! ## Packing and unpacking

The packed form as one code.  Its width is `packedLength`, so a byte string is
refused for its length or not at all. -/

/-- The length of the packed form. -/
def packedLength (c : Circuit) : Nat :=
  c.numInputWires * 32 + (c.gates.map Gate.rows).sum * 16

/-- What a packed form has room for: labels of the inputs, and the tables. -/
structure Packable (garb : SimpleGarbledCircuit) (c : Circuit) : Prop where
  inputs : garb.numInputWires = c.numInputWires
  wires : c.numInputWires ≤ garb.wireLabels.length
  tabled : Tabled c.gates garb.garbledGates

theorem fixed_packed (c : Circuit) :
    Fixed (fun x : List SimpleWireLabelSet × List (List Label) =>
        (x.1.length = c.numInputWires ∧ ∀ p ∈ x.1, True) ∧ Tabled c.gates x.2)
      (packedLength c)
      (fun x => x.1.flatMap SimpleWireLabelSet.bytes ++ x.2.flatMap packTable)
      (decodePair (decodeMany readWire c.numInputWires) (readTables c.gates)) :=
  (fixed_wire.many c.numInputWires).pair (fixed_tables c.gates)

theorem packedUnmarshal_eq_some {g g' : SimpleGarbledCircuit} {b : List Byte} {c : Circuit} :
    packedUnmarshal g b c = some g' ↔ ∃ wireLabels garbledGates,
      decodePair (decodeMany readWire c.numInputWires) (readTables c.gates) b
        = some ((wireLabels, garbledGates), []) ∧
      g' = { g with
        numInputWires := c.numInputWires
        numOutputWires := c.numOutputWires
        garbledGates := garbledGates
        wireLabels := wireLabels } := by
  constructor
  · intro h
    obtain ⟨⟨wireLabels, s₁⟩, hwires, h⟩ := Option.bind_eq_some_iff.mp h
    obtain ⟨⟨garbledGates, s₂⟩, htables, h⟩ := Option.bind_eq_some_iff.mp h
    cases s₂ with
    | nil =>
        cases h
        exact ⟨wireLabels, garbledGates, decodePair_eq hwires htables, rfl⟩
    | cons _ _ => cases h
  · rintro ⟨wireLabels, garbledGates, h, rfl⟩
    obtain ⟨⟨wireLabels', s₁⟩, hwires, h⟩ := Option.bind_eq_some_iff.mp h
    obtain ⟨⟨garbledGates', s₂⟩, htables, h⟩ := Option.bind_eq_some_iff.mp h
    cases h
    show (decodeMany readWire c.numInputWires b).bind _ = _
    rw [hwires, Option.bind_some]
    show (readTables c.gates s₁).bind _ = _
    rw [htables]
    rfl

theorem mapM_getElem?_range {α : Type} {l : List α} {n : Nat} (hn : n ≤ l.length) :
    (List.range n).mapM (fun i => l[i]?) = some (l.take n) := by
  refine mapM_eq_some_iff.mpr (List.forall₂_iff_get.mpr ⟨?_, fun i hi hi' => ?_⟩)
  · rw [List.length_range, List.length_take_of_le hn]
  · rw [List.get_eq_getElem, List.get_eq_getElem, List.getElem_range, List.getElem_take]
    rw [List.length_range] at hi
    exact List.getElem?_eq_getElem (hi.trans_le hn)

theorem Packable.marshal {garb : SimpleGarbledCircuit} {c : Circuit} (h : Packable garb c) :
    packedMarshal garb = some ((garb.wireLabels.take c.numInputWires).flatMap
      SimpleWireLabelSet.bytes ++ garb.garbledGates.flatMap packTable) := by
  rw [packedMarshal, h.inputs, mapM_getElem?_range h.wires]
  rfl

/-- Unpacking delivers the labels of the inputs and the tables. -/
theorem Packable.unmarshal {garb : SimpleGarbledCircuit} {c : Circuit} (h : Packable garb c)
    (g : SimpleGarbledCircuit) :
    ∃ b, packedMarshal garb = some b ∧ packedUnmarshal g b c = some { g with
      numInputWires := c.numInputWires
      numOutputWires := c.numOutputWires
      garbledGates := garb.garbledGates
      wireLabels := garb.wireLabels.take c.numInputWires } := by
  refine ⟨_, h.marshal, packedUnmarshal_eq_some.mpr ⟨_, _, ?_, rfl⟩⟩
  have hread := (fixed_packed c).delimiting
    (garb.wireLabels.take c.numInputWires, garb.garbledGates)
    ⟨⟨List.length_take_of_le h.wires, fun _ _ => trivial⟩, h.tabled⟩ []
  rwa [List.append_nil] at hread

/-- A table has as many rows as its gate asks for. -/
theorem garbleGate_length {hash : List Byte → Label} {circ : Circuit}
    {labels : Nat → Option SimpleWireLabelSet} {g : Nat} {gate : Gate} {table : List Label}
    (hgate : circ.gates[g]? = some gate) (h : garbleGate hash circ labels g = some table) :
    table.length = gate.gateType.tableSize := by
  obtain ⟨gate', hgate', h⟩ := Option.bind_eq_some_iff.mp h
  obtain rfl := Option.some.inj (hgate.symm.trans hgate')
  obtain ⟨masks, -, h⟩ := Option.bind_eq_some_iff.mp h
  obtain ⟨locs, -, h⟩ := Option.bind_eq_some_iff.mp h
  refine Loop.foldlM_range_of_eq
    (P := fun (_ : Nat) (table : List Label) => table.length = gate.gateType.tableSize) ?_ ?_ h
  · exact List.length_replicate
  · intro i _ table table' hlen hpass
    obtain ⟨entry, -, hpass⟩ := Option.bind_eq_some_iff.mp hpass
    cases hpass
    exact (List.length_set).trans hlen

/-- A garbled circuit can be packed. -/
theorem garbleCircuit_packable {hash : List Byte → Label} {circ : Circuit} {rand : Nat → Label}
    {garb : SimpleGarbledCircuit} (h : garbleCircuit hash circ rand = some garb) :
    Packable garb circ := by
  rw [garbleCircuit] at h
  split at h
  next hvalid =>
    obtain ⟨state, -, h⟩ := Option.bind_eq_some_iff.mp h
    obtain ⟨wireLabels, hwires, h⟩ := Option.bind_eq_some_iff.mp h
    obtain ⟨garbledGates, hgates, h⟩ := Option.bind_eq_some_iff.mp h
    cases h
    have hlen : wireLabels.length = circ.gates.length :=
      (mapM_eq_some_iff.mp hwires).length_eq.symm.trans List.length_range
    have hbound := of_decide_eq_true (Bool.and_eq_true_iff.mp hvalid).1
    have hinputs : circ.numInputWires ≤ wireLabels.length := by omega
    refine ⟨rfl, hinputs, List.forall₂_iff_get.mpr ⟨?_, fun i hi hi' => ?_⟩⟩
    · exact (List.length_range.symm.trans (mapM_eq_some_iff.mp hgates).length_eq)
    · obtain ⟨table, htable, hget⟩ := getElem?_mapM_range hgates hi
      have hgate := List.getElem?_eq_getElem hi
      rw [hgate] at htable
      rw [List.getElem?_eq_getElem hi'] at hget
      rw [List.get_eq_getElem, List.get_eq_getElem, Option.some.inj hget, Gate.rows]
      split
      next hinput =>
        have hempty := (if_pos hinput).symm.trans htable
        rw [← Option.some.inj hempty]
        rfl
      next hinput => exact garbleGate_length hgate ((if_neg hinput).symm.trans htable)
  next => cases h

/-- Evaluation looks at the tables only. -/
theorem evaluateCircuit_congr {hash : List Byte → Label} {garb garb' : SimpleGarbledCircuit}
    (h : garb.garbledGates = garb'.garbledGates) (circ : Circuit) (inputLabels : List Label) :
    garb.evaluateCircuit hash circ inputLabels = garb'.evaluateCircuit hash circ inputLabels := by
  have hreads : garb.garbledReads circ = garb'.garbledReads circ := by
    funext g
    simp only [SimpleGarbledCircuit.garbledReads, h]
  have hswitch : garb.garbledSwitch hash inputLabels circ
      = garb'.garbledSwitch hash inputLabels circ := by
    funext g rs
    simp only [SimpleGarbledCircuit.garbledSwitch, h]
  have hgate : garb.evaluateGarbledGate hash circ inputLabels
      = garb'.evaluateGarbledGate hash circ inputLabels := by
    simp only [SimpleGarbledCircuit.evaluateGarbledGate, hreads, hswitch]
  simp only [SimpleGarbledCircuit.evaluateCircuit, hgate]

/-- The packed form of garbled circuits: which byte strings are accepted, what
they stand for, and that nothing else stands for the same. -/
theorem packed_bijection (c : Circuit) (g : SimpleGarbledCircuit) :
    (∀ garb, Packable garb c → ∃ b, packedMarshal garb = some b ∧
      packedUnmarshal g b c = some { g with
        numInputWires := c.numInputWires
        numOutputWires := c.numOutputWires
        garbledGates := garb.garbledGates
        wireLabels := garb.wireLabels.take c.numInputWires }) ∧
    (∀ b g', packedUnmarshal g b c = some g' → Packable g' c ∧ packedMarshal g' = some b) ∧
    (∀ b, (packedUnmarshal g b c).isSome ↔ b.length = packedLength c) := by
  have hfixed := fixed_packed c
  refine ⟨fun garb h => h.unmarshal g, fun b g' hg' => ?_, fun b => ?_⟩
  · obtain ⟨wireLabels, garbledGates, hread, rfl⟩ := packedUnmarshal_eq_some.mp hg'
    obtain ⟨⟨⟨hlen, -⟩, htabled⟩, rfl⟩ := hfixed.exact b _ [] hread
    have hpackable : Packable { g with
        numInputWires := c.numInputWires
        numOutputWires := c.numOutputWires
        garbledGates := garbledGates
        wireLabels := wireLabels } c := ⟨rfl, hlen.ge, htabled⟩
    refine ⟨hpackable, ?_⟩
    rw [hpackable.marshal, ← hlen, List.take_length, List.append_nil]
  · rw [← hfixed.accepts, Option.isSome_iff_exists]
    constructor
    · rintro ⟨g', hg'⟩
      obtain ⟨wireLabels, garbledGates, hread, -⟩ := packedUnmarshal_eq_some.mp hg'
      exact ⟨_, hread⟩
    · rintro ⟨⟨wireLabels, garbledGates⟩, hread⟩
      exact ⟨_, packedUnmarshal_eq_some.mpr ⟨_, _, hread, rfl⟩⟩

end PSVFSS

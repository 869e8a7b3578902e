/-
# `Fmd.Circuit` — boolean circuits and their evaluation

The circuits of `toygarble`: input and output wires are gates of their own, and
every gate names the gates it reads.  `EvaluateCircuit` walks back from every
output, keeps what it has calculated and takes a gate that is visited twice
without a result for a loop.

`Wire` says what a gate carries, by rules; `evaluateCircuit_spec` is that the
walk delivers exactly this for every circuit that is put together correctly,
and that it refuses a circuit when some output is fed by a loop and at no other
time.
-/
import PSVFSS.Lib.MemoDag

namespace PSVFSS

open MemoDag

/-! ## `circuit.go`

The recursion is that of `Lib.MemoDag`, with the arrays of the source for its
scratch; what is read and what is computed is decided by the type of the gate. -/

inductive GateType
  | input | output | and | or | not | xor | const | copy
  deriving DecidableEq

def GateType.minInputWires : GateType → Nat
  | input => 0 | output => 0 | and => 2 | or => 2 | not => 1 | xor => 2 | const => 0 | copy => 1

def GateType.maxInputWires : GateType → Nat
  | input => 0 | output => 1 | and => 2 | or => 2 | not => 1 | xor => 2 | const => 0 | copy => 1

/-- What a gate with one wire into it computes. -/
def GateType.unary : GateType → Option (Bool → Bool)
  | .output | .copy => some id
  | .not => some Bool.not
  | _ => none

/-- What a gate with two wires into it computes. -/
def GateType.binary : GateType → Option (Bool → Bool → Bool)
  | .and => some Bool.and
  | .or => some Bool.or
  | .xor => some Bool.xor
  | _ => none

structure Gate where
  gateType : GateType
  constVal : Bool
  inFrom : List Nat
  deriving DecidableEq

structure Circuit where
  numInputWires : Nat
  numOutputWires : Nat
  numInputVars : Int
  numWiresIV : List Int
  numOutputVars : Int
  numWiresOV : List Int
  gates : List Gate
  deriving DecidableEq

namespace Circuit

def getOutputGate (circ : Circuit) (outputWireNo : Nat) : Nat := circ.numInputWires + outputWireNo

/-- The number of wires into a gate is within the bounds of its type. -/
def validGate (gate : Gate) : Bool :=
  gate.gateType.minInputWires ≤ gate.inFrom.length &&
    gate.inFrom.length ≤ gate.gateType.maxInputWires

def validCircuit (circ : Circuit) : Bool :=
  circ.numInputWires + circ.numOutputWires ≤ circ.gates.length && circ.gates.all validGate

/-- The gates `evaluateGate` recurses on; `InFrom[0]` of an empty list is a
run-time error. -/
def evaluateReads (circ : Circuit) (gateID : Nat) : Option (List Nat) := do
  let gate ← circ.gates[gateID]?
  if gate.gateType = .input then return []
  match gate.inFrom with
  | [] => none
  | [in0, in1] => return [in0, in1]
  | in0 :: _ => return [in0]

/-- The switch of `evaluateGate`. -/
def evaluateSwitch (inputs : List Bool) (circ : Circuit) (gateID : Nat) (rs : List (Bool × Bool)) :
    Option (Bool × Bool) := do
  let gate ← circ.gates[gateID]?
  let (success1, result1) := rs.getD 0 (false, false)
  let (success2, result2) := rs.getD 1 (false, false)
  match gate.gateType with
  | .input => return (true, ← inputs[gateID]?)
  | .output | .copy =>
      return if gate.inFrom.length = 1 then (success1, result1) else (false, false)
  | .and =>
      return if gate.inFrom.length = 2 && (success1 && success2) then (true, result1 && result2)
        else (false, false)
  | .xor =>
      return if gate.inFrom.length = 2 && (success1 && success2) then (true, result1 != result2)
        else (false, false)
  | .const => return (true, if gate.inFrom.length = 0 then gate.constVal else false)
  | .or =>
      return if gate.inFrom.length = 2 && (success1 && success2) then (true, result1 || result2)
        else (false, false)
  | .not =>
      return if gate.inFrom.length = 1 && success1 then (true, !result1) else (false, false)

/-- A gate visited twice on one path is an error, so the depth of the recursion
is bounded by the number of gates. -/
def evaluateGate (circ : Circuit) (inputs : List Bool) :
    Nat → Scratch Bool → Option ((Bool × Bool) × Scratch Bool) :=
  visit circ.evaluateReads (evaluateSwitch inputs circ) false (circ.gates.length + 1)

def outputGates (circ : Circuit) : List Nat :=
  (List.range circ.numOutputWires).map circ.getOutputGate

/-- `EvaluateCircuit`. -/
def evaluateCircuit (circ : Circuit) (inputBits : List Bool) : Option (Bool × List Bool) :=
  if inputBits.length ≠ circ.numInputWires ∨ circ.numOutputWires < 1 then some (false, [])
  else visitOutputs (circ.evaluateGate inputBits) circ.outputGates
    ⟨fun _ => false, fun _ => none⟩

/-! ## What the wires carry

The meaning of a circuit without a walk.  A wire on a loop carries nothing,
and `Connected` is what a circuit has to satisfy for the rules to say
everything. -/

/-- Gate `g` carries `v` on the given inputs. -/
inductive Wire (circ : Circuit) (inputs : List Bool) : Nat → Bool → Prop
  | input {g : Nat} {v : Bool} {gate : Gate} : circ.gates[g]? = some gate →
      gate.gateType = .input → inputs[g]? = some v → Wire circ inputs g v
  | unary {g a : Nat} {v : Bool} {gate : Gate} {f : Bool → Bool} : circ.gates[g]? = some gate →
      gate.gateType.unary = some f → gate.inFrom = [a] → Wire circ inputs a v →
      Wire circ inputs g (f v)
  | binary {g a b : Nat} {v w : Bool} {gate : Gate} {f : Bool → Bool → Bool} :
      circ.gates[g]? = some gate → gate.gateType.binary = some f → gate.inFrom = [a, b] →
      Wire circ inputs a v → Wire circ inputs b w → Wire circ inputs g (f v w)

/-- Gate `g` has a wire from gate `a`. -/
def Feeds (circ : Circuit) (a g : Nat) : Prop :=
  ∃ gate, circ.gates[g]? = some gate ∧ a ∈ gate.inFrom

/-- A circuit as it is put together: the bounds of `validCircuit`, every wire
from a gate of the circuit, inputs in front, an input for every output, and no
constants. -/
structure Connected (circ : Circuit) : Prop where
  valid : circ.validCircuit = true
  within : ∀ gate ∈ circ.gates, ∀ a ∈ gate.inFrom, a < circ.gates.length
  input : ∀ g (hg : g < circ.gates.length), circ.gates[g].gateType = .input →
    g < circ.numInputWires
  output : ∀ gate ∈ circ.gates, gate.gateType = .output → gate.inFrom ≠ []
  noConst : ∀ gate ∈ circ.gates, gate.gateType ≠ .const

/-- What a gate can be. -/
inductive Shape (circ : Circuit) (g : Nat) (gate : Gate) : Prop
  | input : gate.gateType = .input → gate.inFrom = [] → g < circ.numInputWires → Shape circ g gate
  | unary {f : Bool → Bool} {a : Nat} : gate.gateType.unary = some f → gate.inFrom = [a] →
      a < circ.gates.length → Shape circ g gate
  | binary {f : Bool → Bool → Bool} {a b : Nat} : gate.gateType.binary = some f →
      gate.inFrom = [a, b] → a < circ.gates.length → b < circ.gates.length → Shape circ g gate

theorem Connected.shape {circ : Circuit} (h : circ.Connected) {g : Nat} {gate : Gate}
    (hgate : circ.gates[g]? = some gate) : Shape circ g gate := by
  have hmem : gate ∈ circ.gates := List.mem_of_getElem? hgate
  obtain ⟨hlt, hget⟩ := List.getElem?_eq_some_iff.mp hgate
  have hwithin := h.within gate hmem
  have hvalid : validGate gate = true :=
    List.all_eq_true.mp (Bool.and_eq_true_iff.mp h.valid).2 gate hmem
  rw [validGate, Bool.and_eq_true, decide_eq_true_eq, decide_eq_true_eq] at hvalid
  have hunary : ∀ f, gate.gateType.unary = some f → gate.inFrom.length = 1 → Shape circ g gate := by
    intro f hf hlen
    obtain ⟨a, ha⟩ := List.length_eq_one_iff.mp hlen
    exact Shape.unary hf ha (hwithin a (ha ▸ List.mem_singleton_self a))
  have hbinary : ∀ f, gate.gateType.binary = some f → gate.inFrom.length = 2 →
      Shape circ g gate := by
    intro f hf hlen
    obtain ⟨a, b, hab⟩ := List.length_eq_two.mp hlen
    exact Shape.binary hf hab (hwithin a (hab ▸ List.mem_cons_self))
      (hwithin b (hab ▸ List.mem_cons_of_mem a List.mem_cons_self))
  cases htype : gate.gateType with
  | input =>
      rw [htype] at hvalid
      exact Shape.input htype (List.eq_nil_of_length_eq_zero (Nat.le_zero.mp hvalid.2))
        (h.input g hlt (hget ▸ htype))
  | output =>
      rw [htype] at hvalid
      have hpos := List.length_pos_iff.mpr (h.output gate hmem htype)
      exact hunary id (htype ▸ rfl) (Nat.le_antisymm hvalid.2 hpos)
  | const => exact absurd htype (h.noConst gate hmem)
  | not =>
      rw [htype] at hvalid
      exact hunary Bool.not (htype ▸ rfl) (Nat.le_antisymm hvalid.2 hvalid.1)
  | copy =>
      rw [htype] at hvalid
      exact hunary id (htype ▸ rfl) (Nat.le_antisymm hvalid.2 hvalid.1)
  | and =>
      rw [htype] at hvalid
      exact hbinary Bool.and (htype ▸ rfl) (Nat.le_antisymm hvalid.2 hvalid.1)
  | or =>
      rw [htype] at hvalid
      exact hbinary Bool.or (htype ▸ rfl) (Nat.le_antisymm hvalid.2 hvalid.1)
  | xor =>
      rw [htype] at hvalid
      exact hbinary Bool.xor (htype ▸ rfl) (Nat.le_antisymm hvalid.2 hvalid.1)

/-! ## One gate

What `evaluateGate` does at a gate, by the number of wires into it. -/

section
variable {circ : Circuit} {g : Nat} {gate : Gate} (hgate : circ.gates[g]? = some gate)
include hgate

theorem evaluateReads_input (htype : gate.gateType = .input) : circ.evaluateReads g = some [] := by
  rw [evaluateReads, hgate]
  exact if_pos htype

theorem evaluateReads_unary {f : Bool → Bool} {a : Nat} (hf : gate.gateType.unary = some f)
    (hin : gate.inFrom = [a]) : circ.evaluateReads g = some [a] := by
  have htype : gate.gateType ≠ .input := by
    intro htype
    rw [htype] at hf
    cases hf
  rw [evaluateReads, hgate]
  refine (if_neg htype).trans ?_
  rw [hin]
  rfl

theorem evaluateReads_binary {f : Bool → Bool → Bool} {a b : Nat}
    (hf : gate.gateType.binary = some f) (hin : gate.inFrom = [a, b]) :
    circ.evaluateReads g = some [a, b] := by
  have htype : gate.gateType ≠ .input := by
    intro htype
    rw [htype] at hf
    cases hf
  rw [evaluateReads, hgate]
  refine (if_neg htype).trans ?_
  rw [hin]
  rfl

theorem evaluateSwitch_input (inputs : List Bool) (htype : gate.gateType = .input)
    (rs : List (Bool × Bool)) :
    evaluateSwitch inputs circ g rs = (inputs[g]?).map fun v => (true, v) := by
  rw [evaluateSwitch, hgate, Option.bind_eq_bind, Option.bind_some, htype]
  cases inputs[g]? <;> rfl

/-- A gate with one wire into it succeeds exactly when the wire does. -/
theorem evaluateSwitch_unary (inputs : List Bool) {f : Bool → Bool} {a : Nat}
    (hf : gate.gateType.unary = some f) (hin : gate.inFrom = [a]) (r : Bool × Bool) :
    ∃ v, evaluateSwitch inputs circ g [r] = some (r.1, v) ∧ (r.1 = true → v = f r.2) := by
  obtain ⟨success, v⟩ := r
  rw [evaluateSwitch, hgate, Option.bind_eq_bind, Option.bind_some, hin]
  cases htype : gate.gateType with
  | output | copy =>
      rw [htype] at hf
      cases hf
      exact ⟨v, rfl, fun _ => rfl⟩
  | not =>
      rw [htype] at hf
      cases hf
      cases success with
      | true => exact ⟨!v, rfl, fun _ => rfl⟩
      | false => exact ⟨false, rfl, nofun⟩
  | input | and | or | xor | const =>
      rw [htype] at hf
      cases hf

theorem evaluateSwitch_binary (inputs : List Bool) {f : Bool → Bool → Bool} {a b : Nat}
    (hf : gate.gateType.binary = some f) (hin : gate.inFrom = [a, b]) (r r' : Bool × Bool) :
    ∃ v, evaluateSwitch inputs circ g [r, r'] = some (r.1 && r'.1, v) ∧
      (r.1 = true → r'.1 = true → v = f r.2 r'.2) := by
  obtain ⟨success, v⟩ := r
  obtain ⟨success', w⟩ := r'
  rw [evaluateSwitch, hgate, Option.bind_eq_bind, Option.bind_some, hin]
  cases htype : gate.gateType with
  | and | or | xor =>
      rw [htype] at hf
      cases hf
      cases success <;> cases success'
      · exact ⟨false, rfl, nofun⟩
      · exact ⟨false, rfl, nofun⟩
      · exact ⟨false, rfl, fun _ => nofun⟩
      · exact ⟨_, rfl, fun _ _ => rfl⟩
  | input | output | not | copy | const =>
      rw [htype] at hf
      cases hf

end

/-! ## The evaluation of a connected circuit

The hypotheses of `Lib.MemoDag` hold of such circuits, so its results are read
off: values for gates that have one, a refusal where a loop keeps an output
from having one. -/

section
variable {circ : Circuit} (h : circ.Connected)
include h

theorem Connected.strict (inputs : List Bool) :
    Strict circ.evaluateReads (evaluateSwitch inputs circ) := by
  intro g ins rs v hins hlen hv
  obtain ⟨gate, hgate⟩ : ∃ gate, circ.gates[g]? = some gate := by
    obtain ⟨gate, hgate, -⟩ := Option.bind_eq_some_iff.mp hins
    exact ⟨gate, hgate⟩
  cases h.shape hgate with
  | input htype _ _ =>
      rw [evaluateReads_input hgate htype] at hins
      cases hins
      rw [List.eq_nil_of_length_eq_zero hlen]
      exact fun r hr => absurd hr List.not_mem_nil
  | unary hf hin _ =>
      rw [evaluateReads_unary hgate hf hin] at hins
      cases hins
      obtain ⟨r, rfl⟩ := List.length_eq_one_iff.mp hlen
      obtain ⟨w, hw, -⟩ := evaluateSwitch_unary hgate inputs hf hin r
      rw [hw] at hv
      intro r' hr'
      rw [List.mem_singleton.mp hr']
      exact (Prod.mk.inj (Option.some.inj hv)).1
  | binary hf hin _ _ =>
      rw [evaluateReads_binary hgate hf hin] at hins
      cases hins
      obtain ⟨r, r', rfl⟩ := List.length_eq_two.mp hlen
      obtain ⟨w, hw, -⟩ := evaluateSwitch_binary hgate inputs hf hin r r'
      rw [hw] at hv
      obtain ⟨hr, hr'⟩ := Bool.and_eq_true_iff.mp (Prod.mk.inj (Option.some.inj hv)).1
      intro r'' hr''
      rcases List.mem_pair.mp hr'' with rfl | rfl
      · exact hr
      · exact hr'

theorem Connected.reads_within {g : Nat} (hg : g < circ.gates.length) :
    ∃ ins, circ.evaluateReads g = some ins ∧ ∀ x ∈ ins, x < circ.gates.length := by
  have hgate := List.getElem?_eq_getElem hg
  cases h.shape hgate with
  | input htype _ _ =>
      exact ⟨[], evaluateReads_input hgate htype, fun x hx => absurd hx List.not_mem_nil⟩
  | unary hf hin ha =>
      refine ⟨_, evaluateReads_unary hgate hf hin, fun x hx => ?_⟩
      exact List.mem_singleton.mp hx ▸ ha
  | binary hf hin ha hb =>
      refine ⟨_, evaluateReads_binary hgate hf hin, fun x hx => ?_⟩
      rcases List.mem_pair.mp hx with rfl | rfl
      · exact ha
      · exact hb

theorem Connected.closed {inputs : List Bool} (hinputs : inputs.length = circ.numInputWires) :
    Closed circ.evaluateReads (evaluateSwitch inputs circ) circ.gates.length where
  within := fun _ hg => h.reads_within hg
  total := by
    intro g hg ins rs hins hlen
    have hgate := List.getElem?_eq_getElem hg
    cases h.shape hgate with
    | input htype _ hinput =>
        refine ⟨(true, inputs[g]), ?_⟩
        rw [evaluateSwitch_input hgate inputs htype,
          List.getElem?_eq_getElem (hinputs.symm ▸ hinput)]
        rfl
    | unary hf hin _ =>
        rw [evaluateReads_unary hgate hf hin] at hins
        cases hins
        obtain ⟨r, rfl⟩ := List.length_eq_one_iff.mp hlen
        obtain ⟨w, hw, -⟩ := evaluateSwitch_unary hgate inputs hf hin r
        exact ⟨_, hw⟩
    | binary hf hin _ _ =>
        rw [evaluateReads_binary hgate hf hin] at hins
        cases hins
        obtain ⟨r, r', rfl⟩ := List.length_eq_two.mp hlen
        obtain ⟨w, hw, -⟩ := evaluateSwitch_binary hgate inputs hf hin r r'
        exact ⟨_, hw⟩

/-- The rules and the recursion agree. -/
theorem Connected.wire_iff (inputs : List Bool) (g : Nat) (v : Bool) :
    circ.Wire inputs g v ↔ Value circ.evaluateReads (evaluateSwitch inputs circ) g v := by
  constructor
  · intro hwire
    induction hwire with
    | input hgate htype hv =>
        refine Value.of_reads (evaluateReads_input hgate htype) List.Forall₂.nil ?_
        rw [evaluateSwitch_input hgate inputs htype, hv]
        rfl
    | @unary g a v gate f hgate hf hin _ ih =>
        obtain ⟨w, hw, heq⟩ := evaluateSwitch_unary hgate inputs hf hin (true, v)
        rw [heq rfl] at hw
        exact Value.of_reads (evaluateReads_unary hgate hf hin)
          (List.Forall₂.cons ih List.Forall₂.nil) hw
    | @binary g a b v w gate f hgate hf hin _ _ ih ih' =>
        obtain ⟨u, hu, heq⟩ := evaluateSwitch_binary hgate inputs hf hin (true, v) (true, w)
        rw [heq rfl rfl] at hu
        exact Value.of_reads (evaluateReads_binary hgate hf hin)
          (List.Forall₂.cons ih (List.Forall₂.cons ih' List.Forall₂.nil)) hu
  · intro hvalue
    have hacc := hvalue.acc
    induction hacc generalizing v with
    | intro g _ ih =>
        obtain ⟨ins, vs, hins, hvs, hv⟩ := hvalue.inversion
        obtain ⟨gate, hgate⟩ : ∃ gate, circ.gates[g]? = some gate := by
          obtain ⟨gate, hgate, -⟩ := Option.bind_eq_some_iff.mp hins
          exact ⟨gate, hgate⟩
        cases h.shape hgate with
        | input htype _ _ =>
            rw [evaluateSwitch_input hgate inputs htype] at hv
            obtain ⟨w, hw, heq⟩ := Option.map_eq_some_iff.mp hv
            cases heq
            exact Wire.input hgate htype hw
        | @unary f a hf hin _ =>
            have hreads := evaluateReads_unary hgate hf hin
            obtain rfl : ins = [a] := Option.some.inj (hins.symm.trans hreads)
            obtain ⟨x, _, hx, hnil, rfl⟩ := List.forall₂_cons_left_iff.mp hvs
            cases hnil
            obtain ⟨w, hw, heq⟩ := evaluateSwitch_unary hgate inputs hf hin (true, x)
            have hpair := Option.some.inj (hv.symm.trans hw)
            rw [(Prod.mk.inj hpair).2, heq rfl]
            exact Wire.unary hgate hf hin (ih a ⟨[a], hreads, List.mem_singleton_self a⟩ x hx)
        | @binary f a b hf hin _ _ =>
            have hreads := evaluateReads_binary hgate hf hin
            obtain rfl : ins = [a, b] := Option.some.inj (hins.symm.trans hreads)
            obtain ⟨x, _, hx, htail, rfl⟩ := List.forall₂_cons_left_iff.mp hvs
            obtain ⟨y, _, hy, hnil, rfl⟩ := List.forall₂_cons_left_iff.mp htail
            cases hnil
            obtain ⟨w, hw, heq⟩ := evaluateSwitch_binary hgate inputs hf hin (true, x) (true, y)
            have hpair := Option.some.inj (hv.symm.trans hw)
            rw [(Prod.mk.inj hpair).2, heq rfl rfl]
            exact Wire.binary hgate hf hin
              (ih a ⟨[a, b], hreads, List.mem_cons_self⟩ x hx)
              (ih b ⟨[a, b], hreads, List.mem_cons_of_mem a List.mem_cons_self⟩ y hy)

theorem Connected.readBy_iff (a g : Nat) : ReadBy circ.evaluateReads a g ↔ circ.Feeds a g := by
  constructor
  · rintro ⟨ins, hins, ha⟩
    obtain ⟨gate, hgate, -⟩ := Option.bind_eq_some_iff.mp hins
    refine ⟨gate, hgate, ?_⟩
    cases h.shape hgate with
    | input htype _ _ =>
        rw [evaluateReads_input hgate htype] at hins
        cases hins
        exact absurd ha List.not_mem_nil
    | unary hf hin _ =>
        rw [evaluateReads_unary hgate hf hin] at hins
        rwa [hin, Option.some.inj hins]
    | binary hf hin _ _ =>
        rw [evaluateReads_binary hgate hf hin] at hins
        rwa [hin, Option.some.inj hins]
  · rintro ⟨gate, hgate, ha⟩
    cases h.shape hgate with
    | input _ hin _ => exact absurd (hin ▸ ha) List.not_mem_nil
    | unary hf hin _ => exact ⟨_, evaluateReads_unary hgate hf hin, hin ▸ ha⟩
    | binary hf hin _ _ => exact ⟨_, evaluateReads_binary hgate hf hin, hin ▸ ha⟩

theorem Connected.outputGates_lt {g : Nat} (hg : g ∈ circ.outputGates) :
    g < circ.gates.length := by
  obtain ⟨i, hi, rfl⟩ := List.mem_map.mp hg
  have hbound := of_decide_eq_true (Bool.and_eq_true_iff.mp h.valid).1
  rw [getOutputGate]
  have hi' := List.mem_range.mp hi
  omega

/-- Below a gate without a value is a loop. -/
theorem Connected.exists_wire_iff {inputs : List Bool}
    (hinputs : inputs.length = circ.numInputWires) {g : Nat} (hg : g < circ.gates.length) :
    (∃ v, circ.Wire inputs g v) ↔
      ¬ ∃ x, Relation.ReflTransGen circ.Feeds x g ∧ Relation.TransGen circ.Feeds x x := by
  have hfeeds : ReadBy circ.evaluateReads = circ.Feeds := by
    funext a g
    exact propext (h.readBy_iff a g)
  have hlt : ∀ x y, circ.Feeds x y → x < circ.gates.length := by
    rintro x y ⟨gate, hgate, hx⟩
    exact h.within gate (List.mem_of_getElem? hgate) x hx
  rw [← acc_iff_no_loop hlt, ← hfeeds]
  constructor
  · rintro ⟨v, hv⟩
    exact ((h.wire_iff inputs g v).mp hv).acc
  · intro hacc
    obtain ⟨v, hv⟩ := exists_value (h.closed hinputs) (fun g hg ins vs hins hlen => by
      obtain ⟨r, hr⟩ := (h.closed hinputs).total g hg ins (vs.map (true, ·)) hins
        ((List.length_map _).trans hlen)
      have hgate := List.getElem?_eq_getElem hg
      cases h.shape hgate with
      | input htype _ _ =>
          rw [evaluateSwitch_input hgate inputs htype] at hr ⊢
          obtain ⟨w, hw, -⟩ := Option.map_eq_some_iff.mp hr
          exact ⟨w, hw ▸ rfl⟩
      | unary hf hin _ =>
          rw [evaluateReads_unary hgate hf hin] at hins
          cases hins
          obtain ⟨v, rfl⟩ := List.length_eq_one_iff.mp hlen
          obtain ⟨w, hw, -⟩ := evaluateSwitch_unary hgate inputs hf hin (true, v)
          exact ⟨w, hw⟩
      | binary hf hin _ _ =>
          rw [evaluateReads_binary hgate hf hin] at hins
          cases hins
          obtain ⟨v, w, rfl⟩ := List.length_eq_two.mp hlen
          obtain ⟨u, hu, -⟩ := evaluateSwitch_binary hgate inputs hf hin (true, v) (true, w)
          exact ⟨u, hu⟩) hacc hg
    exact ⟨v, (h.wire_iff inputs g v).mpr hv⟩

theorem Connected.wire_unique (inputs : List Bool) : Relator.RightUnique (circ.Wire inputs) :=
  fun g v w hv hw => ((h.wire_iff inputs g v).mp hv).unique ((h.wire_iff inputs g w).mp hw)

/-- The walk ends with the wires of the outputs, or with a refusal. -/
theorem Connected.evaluateCircuit_cases {inputs : List Bool}
    (hinputs : inputs.length = circ.numInputWires) (houtputs : 1 ≤ circ.numOutputWires) :
    (∃ outs, List.Forall₂ (circ.Wire inputs) circ.outputGates outs ∧
        circ.evaluateCircuit inputs = some (true, outs)) ∨
      ((∃ g ∈ circ.outputGates, ∀ v, ¬ circ.Wire inputs g v) ∧
        circ.evaluateCircuit inputs = some (false, [])) := by
  have hchecks : ¬ (inputs.length ≠ circ.numInputWires ∨ circ.numOutputWires < 1) := by
    rintro (hne | hlt)
    · exact hne hinputs
    · exact Nat.not_lt_of_le houtputs hlt
  rw [evaluateCircuit, if_neg hchecks]
  have hspec := visitOutputs_spec (d := false) (h.closed hinputs) (h.strict inputs)
    (Nat.lt_succ_self circ.gates.length) (fun g hg => h.outputGates_lt hg)
    (s := ⟨fun _ => false, fun _ => none⟩) nofun
  have hwire : Value circ.evaluateReads (evaluateSwitch inputs circ) = circ.Wire inputs := by
    funext g v
    exact propext (h.wire_iff inputs g v).symm
  rw [hwire] at hspec
  exact hspec

end

/-- A connected circuit is never a run-time error: the outputs are what the wires
carry, and a refusal means that a loop feeds an output. -/
theorem evaluateCircuit_spec (circ : Circuit) (h : circ.Connected) (inputs : List Bool)
    (hinputs : inputs.length = circ.numInputWires) (houtputs : 1 ≤ circ.numOutputWires) :
    (∀ outs, circ.evaluateCircuit inputs = some (true, outs) ↔
        List.Forall₂ (circ.Wire inputs) circ.outputGates outs) ∧
      (circ.evaluateCircuit inputs = some (false, []) ↔ ∃ g ∈ circ.outputGates, ∃ x,
        Relation.ReflTransGen circ.Feeds x g ∧ Relation.TransGen circ.Feeds x x) ∧
      ((∃ outs, circ.evaluateCircuit inputs = some (true, outs)) ∨
        circ.evaluateCircuit inputs = some (false, [])) := by
  have hloop : (∃ g ∈ circ.outputGates, ∀ v, ¬ circ.Wire inputs g v) ↔
      ∃ g ∈ circ.outputGates, ∃ x,
        Relation.ReflTransGen circ.Feeds x g ∧ Relation.TransGen circ.Feeds x x := by
    refine exists_congr fun g => and_congr_right fun hg => ?_
    rw [← not_exists, h.exists_wire_iff hinputs (h.outputGates_lt hg), not_not]
  rw [← hloop]
  rcases h.evaluateCircuit_cases hinputs houtputs with ⟨outs, hwires, heq⟩ | ⟨hnone, heq⟩
  · rw [heq]
    refine ⟨fun outs' => ⟨fun h' => ?_, fun h' => ?_⟩, ⟨nofun, ?_⟩, Or.inl ⟨outs, rfl⟩⟩
    · cases h'
      exact hwires
    · have hsame : outs = outs' :=
        List.right_unique_forall₂' (h.wire_unique inputs) hwires h'
      rw [hsame]
    · rintro ⟨g, hg, hnone⟩
      obtain ⟨v, hv⟩ := exists_of_forall₂ hwires g hg
      exact absurd hv (hnone v)
  · rw [heq]
    refine ⟨fun outs => ⟨nofun, fun h' => ?_⟩, ⟨fun _ => hnone, fun _ => rfl⟩, Or.inr rfl⟩
    obtain ⟨g, hg, hnone⟩ := hnone
    obtain ⟨v, hv⟩ := exists_of_forall₂ h' g hg
    exact absurd hv (hnone v)

/-- Two inputs and their exclusive or. -/
def sampleCircuit : Circuit where
  numInputWires := 2
  numOutputWires := 1
  numInputVars := 2
  numWiresIV := [1, 1]
  numOutputVars := 1
  numWiresOV := [1]
  gates := [⟨.input, false, []⟩, ⟨.input, false, []⟩, ⟨.output, false, [3]⟩, ⟨.xor, false, [0, 1]⟩]

theorem sampleCircuit_connected : sampleCircuit.Connected where
  valid := by decide
  within := by decide
  input := by decide
  output := by decide
  noConst := by decide

theorem evaluateCircuit_spec_sample :
    (∀ outs, sampleCircuit.evaluateCircuit [true, false] = some (true, outs) ↔
        List.Forall₂ (sampleCircuit.Wire [true, false]) sampleCircuit.outputGates outs) ∧
      (sampleCircuit.evaluateCircuit [true, false] = some (false, []) ↔
        ∃ g ∈ sampleCircuit.outputGates, ∃ x, Relation.ReflTransGen sampleCircuit.Feeds x g ∧
          Relation.TransGen sampleCircuit.Feeds x x) ∧
      ((∃ outs, sampleCircuit.evaluateCircuit [true, false] = some (true, outs)) ∨
        sampleCircuit.evaluateCircuit [true, false] = some (false, [])) :=
  evaluateCircuit_spec sampleCircuit sampleCircuit_connected [true, false] rfl (by decide)

end Circuit

end PSVFSS

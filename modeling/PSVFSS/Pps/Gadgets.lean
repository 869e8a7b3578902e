/-
# `Pps.Gadgets` — wires, and bundles of them that stand for bytes

The circuits are written once and run by a garbler, by an evaluator, or in the
clear by `Dummy`; this is their meaning in the clear.  A wire has a value and a
modulus, and gates refuse wires that do not fit.  A bundle holds the bits of a
byte array, the most significant first, and on bundles that encode words the
gadgets compute the operation on the words (`bytesXor_word`, `bytesMux_word`,
`bytesEq_word`, `bytesAdd_word`, `bytesOutput_word`).
-/
import Mathlib.Data.BitVec
import PSVFSS.Lib.Loop

namespace PSVFSS

namespace Fancy

open Loop

/-! ## `Fancy`, in the clear

Wires carry their modulus, and the gates check it.  Bits are wires of modulus
2. -/

/-- `DummyVal`. -/
structure Wire where
  val : Nat
  modulus : Nat
  deriving DecidableEq

/-- The wire of a bit. -/
def bit (b : Bool) : Wire := ⟨b.toNat, 2⟩

def constant (x q : Nat) : Wire := ⟨x, q⟩

def add (x y : Wire) : Option Wire :=
  if x.modulus ≠ y.modulus then none else some ⟨(x.val + y.val) % x.modulus, x.modulus⟩

def sub (x y : Wire) : Option Wire :=
  if x.modulus ≠ y.modulus then none
  else some ⟨(x.modulus + x.val - y.val) % x.modulus, x.modulus⟩

def mul (x y : Wire) : Wire := ⟨x.val * y.val % x.modulus, x.modulus⟩

/-- The truth table has to cover the modulus and to keep to the new one. -/
def proj (x : Wire) (q : Nat) (tt : List Nat) : Option Wire := do
  if tt.length < x.modulus ∨ ¬ tt.all (· < q) then none
  else return ⟨← tt[x.val]?, q⟩

def addMany : List Wire → Option Wire
  | x :: y :: args => (y :: args).foldlM add x
  | _ => none

def xor (x y : Wire) : Option Wire :=
  if x.modulus ≠ 2 ∨ y.modulus ≠ 2 then none else add x y

def negate (x : Wire) : Option Wire :=
  if x.modulus ≠ 2 then none else xor x (constant 1 2)

def and (x y : Wire) : Option Wire :=
  if x.modulus ≠ 2 ∨ y.modulus ≠ 2 then none else some (mul x y)

/-- By De Morgan's rule. -/
def or (x y : Wire) : Option Wire := do
  if x.modulus ≠ 2 ∨ y.modulus ≠ 2 then none
  else negate (← and (← negate x) (← negate y))

def andMany : List Wire → Option Wire
  | x :: y :: args => (y :: args).foldlM and x
  | _ => none

/-- The sum and the carry. -/
def adder (x y : Wire) (carryIn : Option Wire) : Option (Wire × Wire) := do
  if x.modulus ≠ 2 ∨ y.modulus ≠ 2 then none
  else
    match carryIn with
    | some c =>
        let z1 ← xor x y
        let z2 ← xor z1 c
        let z3 ← xor x c
        let z4 ← and z1 z3
        return (z2, ← xor z4 x)
    | none => return (← xor x y, ← and x y)

/-- If `b = 0` returns `x` else `y`. -/
def mux (b x y : Wire) : Option Wire := do
  let notb ← negate b
  add (mul notb x) (mul b y)

section
variable (a b c : Bool)

@[simp] theorem xor_bit : xor (bit a) (bit b) = some (bit (a ^^ b)) := by
  cases a <;> cases b <;> rfl

@[simp] theorem negate_bit : negate (bit a) = some (bit !a) := by cases a <;> rfl

@[simp] theorem and_bit : and (bit a) (bit b) = some (bit (a && b)) := by
  cases a <;> cases b <;> rfl

@[simp] theorem or_bit : or (bit a) (bit b) = some (bit (a || b)) := by
  cases a <;> cases b <;> rfl

@[simp] theorem mux_bit : mux (bit c) (bit a) (bit b) = some (bit (bif c then b else a)) := by
  cases c <;> cases a <;> cases b <;> rfl

@[simp] theorem adder_none : adder (bit a) (bit b) none = some (bit (a ^^ b), bit (a && b)) := by
  cases a <;> cases b <;> rfl

@[simp] theorem adder_some :
    adder (bit a) (bit b) (some (bit c))
      = some (bit (a ^^ (b ^^ c)), bit (Bool.atLeastTwo a b c)) := by
  cases a <;> cases b <;> cases c <;> rfl

@[simp] theorem modulus_bit : (bit a).modulus = 2 := rfl

end

@[simp] theorem andMany_bit (a b c d : Bool) :
    andMany [bit a, bit b, bit c, bit d] = some (bit (a && b && c && d)) := by
  simp [andMany, List.foldlM]

/-! ## Bundles

Two gadgets go through bundles wire by wire: equality counts the places that
agree, addition carries from the low end. -/

/-- `eq_bundles`: the places that agree are counted. -/
def eqBundles (x y : List Wire) : Option Wire := do
  if x.map Wire.modulus ≠ y.map Wire.modulus then none
  else
    let zs ← (x.zip y).mapM fun p => do
      let z ← sub p.1 p.2
      proj z (x.length + 1) (1 :: List.replicate (p.1.modulus - 1) 0)
    let z ← addMany zs
    proj z 2 (List.replicate zs.length 0 ++ [1])

/-- The body of the loop of `bin_addition`. -/
def addPlace (xs ys : List Wire) (s : List Wire × Wire) (k : Nat) :
    Option (List Wire × Wire) := do
  let (z, c) ← adder (← xs[k + 1]?) (← ys[k + 1]?) (some s.2)
  return (s.1 ++ [z], c)

/-- `bin_addition`, the least significant wire first. -/
def binAddition (xs ys : List Wire) : Option (List Wire × Wire) := do
  if xs.map Wire.modulus ≠ ys.map Wire.modulus then none
  else
    let (z, c) ← adder (← xs[0]?) (← ys[0]?) none
    (List.range (xs.length - 1)).foldlM (addPlace xs ys) ([z], c)

/-! ## `BytesGadgets`

A word is a bundle of its bits, the most significant first.  These are the
operations the circuits are written in. -/

/-- `from_wires`, for a bundle of `w` wires. -/
def fromWires (w : Nat) (wires : List Wire) : Option (List Wire) :=
  if wires.length = w then some wires else none

/-- The wires of a word, the most significant bit first. -/
def word {w : Nat} (x : BitVec w) : List Wire := (List.range w).map fun i => bit (x.getMsbD i)

/-- `bytes_constant`. -/
def bytesConstant {w : Nat} (x : BitVec w) : List Wire :=
  (List.range w).map fun i => constant (x.getMsbD i).toNat 2

def bytesXor (w : Nat) (x y : List Wire) : Option (List Wire) := do
  fromWires w (← (x.zip y).mapM fun p => xor p.1 p.2)

/-- If `x = 0` returns `a`, else `b`. -/
def bytesMux (w : Nat) (x : Wire) (a b : List Wire) : Option (List Wire) := do
  fromWires w (← (a.zip b).mapM fun p => mux x p.1 p.2)

def bytesEq (a b : List Wire) : Option Wire := eqBundles a b

def bytesAdd (w : Nat) (a b : List Wire) : Option (List Wire × Wire) := do
  let (result, c) ← binAddition a.reverse b.reverse
  return (← fromWires w result.reverse, c)

/-- `bytes_output` and `byte_array_from_bits`. -/
def bytesOutput (w : Nat) (x : List Wire) : Option (BitVec w) :=
  if x.length = w then
    some (BitVec.ofNat w ((x.map fun b => decide (b.val ≠ 0)).foldl (fun n b => 2 * n + b.toNat) 0))
  else none

/-! ## Gadgets on words

Place by place: on bits that encode words the gates compute the bits of the
result. -/

variable {w : Nat} (x y : BitVec w)

@[simp] theorem length_word : (word x).length = w := by
  rw [word, List.length_map, List.length_range]

@[simp] theorem bytesConstant_word : bytesConstant x = word x := rfl

theorem mapM_zip (op : Wire → Wire → Option Wire) {l : List Nat} {f g h : Nat → Wire}
    (hop : ∀ i, op (f i) (g i) = some (h i)) :
    ((l.map f).zip (l.map g)).mapM (fun p => op p.1 p.2) = some (l.map h) := by
  rw [List.zip_map', List.mapM_map]
  exact mapM_of_forall fun i _ => hop i

@[simp] theorem bytesXor_word : bytesXor w (word x) (word y) = some (word (x ^^^ y)) := by
  have hbits : ((word x).zip (word y)).mapM (fun p => xor p.1 p.2) = some (word (x ^^^ y)) := by
    refine mapM_zip xor fun i => ?_
    rw [xor_bit, BitVec.getMsbD_xor]
  rw [bytesXor, hbits]
  exact if_pos (length_word _)

@[simp] theorem bytesMux_word (c : Bool) :
    bytesMux w (bit c) (word x) (word y) = some (word (if c then y else x)) := by
  have hbits : ((word x).zip (word y)).mapM (fun p => mux (bit c) p.1 p.2)
      = some (word (if c then y else x)) := by
    refine mapM_zip (mux (bit c)) fun i => ?_
    rw [mux_bit]
    cases c <;> rfl
  rw [bytesMux, hbits]
  exact if_pos (length_word _)

/-! ## Equality

The bits that agree are added on wires of a modulus above the width, so the
count cannot wrap around. -/

theorem foldlM_add {q : Nat} (ns : List Nat) (n : Nat) :
    (ns.map fun k => (⟨k, q⟩ : Wire)).foldlM add ⟨n % q, q⟩ = some ⟨(n + ns.sum) % q, q⟩ := by
  induction ns generalizing n with
  | nil => rfl
  | cons k ns ih =>
      have hadd : add ⟨n % q, q⟩ ⟨k, q⟩ = some ⟨(n + k) % q, q⟩ := by
        simp [add, Nat.mod_add_mod]
      rw [List.map_cons, List.foldlM_cons, hadd, List.sum_cons, ← Nat.add_assoc]
      exact ih (n + k)

theorem addMany_map {q : Nat} {ns : List Nat} (hlen : 2 ≤ ns.length) (hlt : ∀ n ∈ ns, n < q) :
    addMany (ns.map fun k => (⟨k, q⟩ : Wire)) = some ⟨ns.sum % q, q⟩ := by
  match ns, hlen with
  | a :: b :: ns, _ =>
      have ha : a % q = a := Nat.mod_eq_of_lt (hlt a List.mem_cons_self)
      have hfold := foldlM_add (q := q) (b :: ns) a
      rw [ha] at hfold
      exact hfold

/-- One place of `eq_bundles`: `1` if the bits agree. -/
theorem place_bit (q : Nat) (hq : 1 < q) (a b : Bool) :
    (do
      let z ← sub (bit a) (bit b)
      proj z q (1 :: List.replicate ((bit a).modulus - 1) 0))
      = some (⟨(decide (a = b)).toNat, q⟩ : Wire) := by
  cases a <;> cases b <;> simp [bit, sub, proj, hq, Nat.zero_lt_of_lt hq]

theorem sum_toNat (p : Nat → Bool) (l : List Nat) :
    (l.map fun i => (p i).toNat).sum = l.countP p := by
  induction l with
  | nil => rfl
  | cons i l ih =>
      rw [List.map_cons, List.sum_cons, ih, List.countP_cons]
      cases p i <;> simp [Nat.add_comm]

/-- The count is `w` at most, and the table sends `w` alone to `1`. -/
theorem proj_last {n : Nat} (hn : n ≤ w) :
    proj ⟨n, w + 1⟩ 2 (List.replicate w 0 ++ [1]) = some (bit (decide (n = w))) := by
  have hget : (List.replicate w 0 ++ [1])[n]? = some (decide (n = w)).toNat := by
    rcases hn.lt_or_eq with hlt | rfl
    · simp [List.getElem?_append_left, hlt, hlt.ne]
    · simp
  simp [proj, hget, bit]

/-- `bytes_eq` needs a bundle of two wires at least. -/
theorem bytesEq_word (hw : 2 ≤ w) : bytesEq (word x) (word y) = some (bit (decide (x = y))) := by
  set agree : Nat → Bool := fun i => decide (x.getMsbD i = y.getMsbD i) with hagree
  have hmod : (word x).map Wire.modulus = (word y).map Wire.modulus := by
    simp [word]
  have hplaces : ((word x).zip (word y)).mapM (fun p => do
      let z ← sub p.1 p.2
      proj z ((word x).length + 1) (1 :: List.replicate (p.1.modulus - 1) 0))
        = some (((List.range w).map fun i => (agree i).toNat).map fun k => ⟨k, w + 1⟩) := by
    rw [length_word, List.map_map]
    refine mapM_zip (fun a b => do
      let z ← sub a b
      proj z (w + 1) (1 :: List.replicate (a.modulus - 1) 0)) fun i => ?_
    exact place_bit (w + 1) (by omega) _ _
  have hsum : addMany (((List.range w).map fun i => (agree i).toNat).map fun k => ⟨k, w + 1⟩)
      = some ⟨(List.range w).countP agree, w + 1⟩ := by
    have hle : (List.range w).countP agree ≤ w := by
      simpa using List.countP_le_length (p := agree) (l := List.range w)
    rw [addMany_map (by simpa using hw), sum_toNat, Nat.mod_eq_of_lt (Nat.lt_succ_of_le hle)]
    intro n hn
    obtain ⟨i, -, rfl⟩ := List.mem_map.mp hn
    exact (Bool.toNat_le _).trans_lt (by omega)
  have hall : (List.range w).countP agree = w ↔ x = y := by
    have hcount := List.countP_eq_length (p := agree) (l := List.range w)
    rw [List.length_range] at hcount
    rw [hcount]
    constructor
    · intro h
      exact BitVec.eq_of_getMsbD_eq fun i hi => of_decide_eq_true (h i (List.mem_range.mpr hi))
    · rintro rfl i -
      exact decide_eq_true rfl
  have hdecide : decide (x = y) = decide ((List.range w).countP agree = w) :=
    decide_eq_decide.mpr hall.symm
  rw [bytesEq, eqBundles, if_neg (not_not_intro hmod), hplaces]
  show (addMany _).bind _ = _
  rw [hsum, hdecide, List.length_map, List.length_map, List.length_range]
  exact proj_last (by simpa using List.countP_le_length (p := agree) (l := List.range w))

/-! ## Addition

The ripple of the carry is an induction over the places, from the lowest on. -/

theorem reverse_word : (word x).reverse = (List.range w).map fun i => bit (x.getLsbD i) := by
  rw [word, List.range_eq_range', ← List.map_reverse, List.reverse_range', List.map_map,
    ← List.range_eq_range']
  refine List.map_congr_left fun i hi => ?_
  have hi := List.mem_range.mp hi
  show bit (x.getMsbD (0 + w - 1 - i)) = _
  rw [BitVec.getMsbD_eq_getLsbD, show w - 1 - (0 + w - 1 - i) = i by omega,
    decide_eq_true (show 0 + w - 1 - i < w by omega), Bool.true_and]

/-- The sums so far and the next carry. -/
def RippleInv (k : Nat) (s : List Wire × Wire) : Prop :=
  s = ((List.range (k + 1)).map fun i => bit ((x + y).getLsbD i),
    bit (BitVec.carry (k + 1) x y false))

theorem binAddition_word (hw : 0 < w) :
    ∃ c, binAddition (word x).reverse (word y).reverse = some ((word (x + y)).reverse, c) := by
  have hget : ∀ (z : BitVec w) {i : Nat}, i < w →
      (word z).reverse[i]? = some (bit (z.getLsbD i)) := by
    intro z i hi
    simp [reverse_word, hi]
  have hmod : (word x).reverse.map Wire.modulus = (word y).reverse.map Wire.modulus := by
    simp [word]
  have h₀ : RippleInv x y 0
      ([bit (x.getLsbD 0 ^^ y.getLsbD 0)], bit (x.getLsbD 0 && y.getLsbD 0)) := by
    simp [RippleInv, BitVec.getLsbD_add hw, BitVec.carry_succ]
  have hplace : ∀ k < w - 1, ∀ s, RippleInv x y k s →
      ∃ s', addPlace (word x).reverse (word y).reverse s k = some s' ∧
        RippleInv x y (k + 1) s' := by
    intro k hk s hs
    have hk : k + 1 < w := by omega
    refine ⟨_, ?_, rfl⟩
    rw [addPlace, hget x hk, hget y hk, hs]
    simp only [Option.bind_eq_bind, Option.bind_some, adder_some]
    rw [← BitVec.getLsbD_add hk, ← BitVec.carry_succ, List.range_succ (n := k + 1), List.map_append]
    rfl
  obtain ⟨s, hs, hinv⟩ := foldlM_range h₀ hplace
  have hlen : (word x).reverse.length - 1 = w - 1 := by rw [List.length_reverse, length_word]
  refine ⟨s.2, ?_⟩
  rw [binAddition, if_neg (not_not_intro hmod), hget x hw, hget y hw, hlen]
  simp only [Option.bind_eq_bind, Option.bind_some, adder_none]
  refine hs.trans ?_
  rw [hinv, reverse_word, Nat.sub_add_cancel hw]

/-- Without the carry out, which the circuits drop. -/
theorem bytesAdd_word (hw : 0 < w) :
    ∃ c, bytesAdd w (word x) (word y) = some (word (x + y), c) := by
  obtain ⟨c, hc⟩ := binAddition_word x y hw
  refine ⟨c, ?_⟩
  rw [bytesAdd, hc]
  show (fromWires w (word (x + y)).reverse.reverse).bind _ = _
  rw [List.reverse_reverse, fromWires, if_pos (length_word _)]
  rfl

/-! ## Output -/

theorem foldl_msb {k : Nat} (hk : k ≤ w) :
    ((List.range k).map x.getMsbD).foldl (fun n b => 2 * n + b.toNat) 0 = x.toNat >>> (w - k) := by
  induction k with
  | zero =>
      rw [Nat.sub_zero, Nat.shiftRight_eq_div_pow, Nat.div_eq_of_lt x.isLt]
      rfl
  | succ k ih =>
      have hsub : w - k = (w - (k + 1)) + 1 := by omega
      have hbit : x.getMsbD k = x.toNat.testBit (w - (k + 1)) := by
        rw [BitVec.getMsbD_eq_getLsbD, decide_eq_true (show k < w by omega), Bool.true_and,
          Nat.sub_right_comm w 1 k, Nat.sub_sub]
        rfl
      rw [List.range_succ, List.map_append, List.foldl_append, ih (Nat.le_of_succ_le hk), hsub]
      show 2 * (x.toNat >>> (w - (k + 1) + 1)) + (x.getMsbD k).toNat = _
      rw [hbit, Nat.shiftRight_succ, Nat.testBit_eq_decide_div_mod_eq, ← Nat.shiftRight_eq_div_pow]
      rcases Nat.mod_two_eq_zero_or_one (x.toNat >>> (w - (k + 1))) with h | h
      · rw [h]; simp; omega
      · rw [h]; simp; omega

/-- What a bundle encodes is what comes out of it. -/
theorem bytesOutput_word : bytesOutput w (word x) = some x := by
  have hbits : (word x).map (fun b => decide (b.val ≠ 0)) = (List.range w).map x.getMsbD := by
    rw [word, List.map_map]
    refine List.map_congr_left fun i _ => ?_
    show decide ((x.getMsbD i).toNat ≠ 0) = _
    cases x.getMsbD i <;> rfl
  rw [bytesOutput, if_pos (length_word x), hbits, foldl_msb x le_rfl, Nat.sub_self]
  simp

end Fancy

end PSVFSS

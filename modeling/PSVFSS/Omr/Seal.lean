/-
# `Omr.Seal` — batched ciphertexts

The detector of the oblivious message retrieval baseline works on ciphertexts of
a library.  What it uses of them (`Evaluator.Lawful`): a ciphertext decrypts and
decodes to two rows of `half` numbers modulo 65537, plaintexts are such vectors
too, the operations act slot by slot, and two rotations move the slots.

The library refuses to make a ciphertext that anybody can read: multiplying with
a plaintext of zeros throws.  Relinearisation, the switches of modulus and the
changes to and from NTT form leave the slots alone and are left out.  The noise
and the levels of the modulus are idealised: no product is too deep, and no
other result is transparent.
-/
import Mathlib.Algebra.BigOperators.Ring.Finset
import Mathlib.Algebra.Field.ZMod
import Mathlib.Data.Nat.Log
import Mathlib.Tactic.NormNum.Prime
import Mathlib.Tactic.Ring
import PSVFSS.Lib.Loop

namespace PSVFSS.Omr

open Loop

/-- What a slot holds. -/
abbrev Slot := ZMod 65537

instance prime_plainModulus : Fact (Nat.Prime 65537) := ⟨by norm_num⟩

/-- A vector as the batch encoder reads it: missing slots are zero. -/
def plain (m : List ℕ) (i : ℕ) : Slot := (m.getD i 0 : ℕ)

/-- A vector that the batch encoder takes. -/
def Encodable (half : ℕ) (m : List ℕ) : Prop := m.length ≤ 2 * half ∧ ∀ v ∈ m, v < 65537

/-- A vector that encodes the plaintext zero. -/
def Zeros (m : List ℕ) : Prop := ∀ v ∈ m, v = 0

instance decidableZeros (m : List ℕ) : Decidable (Zeros m) :=
  inferInstanceAs (Decidable (∀ v ∈ m, v = 0))

/-- A vector of zeros with one entry set. -/
def single (degree k v : ℕ) : List ℕ := (List.replicate degree 0).set k v

theorem encodable_single {half k v : ℕ} (hv : v < 65537) :
    Encodable half (single (2 * half) k v) := by
  refine ⟨by simp [single], fun w hw => ?_⟩
  rcases List.mem_or_eq_of_mem_set hw with hw | rfl
  · rw [List.eq_of_mem_replicate hw]
    decide
  · exact hv

theorem not_zeros_single {degree k v : ℕ} (hk : k < degree) (hv : v ≠ 0) :
    ¬ Zeros (single degree k v) := by
  have hmem : v ∈ single degree k v :=
    List.mem_set (by rwa [List.length_replicate]) v
  exact fun hzeros => hv (hzeros v hmem)

theorem plain_single {degree k : ℕ} (hk : k < degree) (v i : ℕ) :
    plain (single degree k v) i = if i = k then (v : Slot) else 0 := by
  rw [plain, single, List.getD_eq_getElem?_getD]
  by_cases hi : i = k
  · rw [hi, List.getElem?_set_self (by rw [List.length_replicate]; exact hk), if_pos rfl]
    rfl
  · rw [List.getElem?_set_ne (Ne.symm hi), if_neg hi, List.getElem?_replicate]
    split <;> simp

/-- `BatchEncoder`, `Encryptor`, `Evaluator` and `Decryptor`, each plaintext
given by the vector it is encoded from; `multiplyPlain` gives `none` where
`multiply_plain` throws. -/
structure Evaluator (Ct : Type) where
  encrypt : List ℕ → Ct
  multiplyPlain : Ct → List ℕ → Option Ct
  addPlain : Ct → List ℕ → Ct
  add : Ct → Ct → Ct
  multiply : Ct → Ct → Ct
  square : Ct → Ct
  negate : Ct → Ct
  rotateRows : Ct → ℕ → Ct
  rotateColumns : Ct → Ct
  decode : Ct → List ℕ

namespace Evaluator

variable {Ct : Type}

def slot (ev : Evaluator Ct) (c : Ct) (i : ℕ) : Slot := ((ev.decode c).getD i 0 : ℕ)

/-- The operations on slots.  Slot `r * half + j` is column `j` of row `r`. -/
structure Lawful (ev : Evaluator Ct) (half : ℕ) : Prop where
  half_pos : 0 < half
  length_decode : ∀ c, (ev.decode c).length = 2 * half
  decode_lt : ∀ c, ∀ v ∈ ev.decode c, v < 65537
  encrypt : ∀ m, Encodable half m → ∀ i < 2 * half, ev.slot (ev.encrypt m) i = plain m i
  multiplyPlain : ∀ c m, Encodable half m → ¬ Zeros m →
    ∃ d, ev.multiplyPlain c m = some d ∧ ∀ i < 2 * half, ev.slot d i = ev.slot c i * plain m i
  transparent : ∀ c m, Zeros m → ev.multiplyPlain c m = none
  addPlain : ∀ c m, Encodable half m → ∀ i < 2 * half,
    ev.slot (ev.addPlain c m) i = ev.slot c i + plain m i
  add : ∀ c d, ∀ i < 2 * half, ev.slot (ev.add c d) i = ev.slot c i + ev.slot d i
  multiply : ∀ c d, ∀ i < 2 * half, ev.slot (ev.multiply c d) i = ev.slot c i * ev.slot d i
  square : ∀ c, ∀ i < 2 * half, ev.slot (ev.square c) i = ev.slot c i ^ 2
  negate : ∀ c, ∀ i < 2 * half, ev.slot (ev.negate c) i = - ev.slot c i
  rotateRows : ∀ c k, ∀ r < 2, ∀ j < half,
    ev.slot (ev.rotateRows c k) (r * half + j) = ev.slot c (r * half + (j + k) % half)
  rotateColumns : ∀ c, ∀ r < 2, ∀ j < half,
    ev.slot (ev.rotateColumns c) (r * half + j) = ev.slot c ((1 - r) * half + j)

/-- Ciphertexts in the clear. -/
def clear (half : ℕ) : Evaluator (ℕ → Slot) where
  encrypt m := plain m
  multiplyPlain c m := if Zeros m then none else some fun i => c i * plain m i
  addPlain c m i := c i + plain m i
  add c d i := c i + d i
  multiply c d i := c i * d i
  square c i := c i ^ 2
  negate c i := - c i
  rotateRows c k i := c (i / half * half + (i % half + k) % half)
  rotateColumns c i := c ((1 - i / half) * half + i % half)
  decode c := (List.range (2 * half)).map fun i => (c i).val

theorem slot_clear {half i : ℕ} (hi : i < 2 * half) (c : ℕ → Slot) :
    (clear half).slot c i = c i := by
  have hval : ((clear half).decode c).getD i 0 = (c i).val := by
    simp [clear, List.getD_eq_getElem?_getD, hi]
  rw [slot, hval, ZMod.natCast_val, ZMod.cast_id]

theorem cell_lt {half r j : ℕ} (hr : r < 2) (hj : j < half) : r * half + j < 2 * half := by
  have : r * half ≤ 1 * half := Nat.mul_le_mul_right _ (Nat.le_of_lt_succ hr)
  omega

theorem lawful_clear {half : ℕ} (hpos : 0 < half) : (clear half).Lawful half where
  half_pos := hpos
  length_decode c := by simp [clear]
  decode_lt c v hv := by
    obtain ⟨i, -, rfl⟩ := List.mem_map.mp hv
    exact ZMod.val_lt _
  encrypt m _ i hi := slot_clear hi _
  multiplyPlain c m _ hm := by
    refine ⟨_, if_neg hm, fun i hi => ?_⟩
    rw [slot_clear hi, slot_clear hi]
  transparent c m hm := if_pos hm
  addPlain c m _ i hi := by
    rw [slot_clear hi, slot_clear hi]
    rfl
  add c d i hi := by
    rw [slot_clear hi, slot_clear hi, slot_clear hi]
    rfl
  multiply c d i hi := by
    rw [slot_clear hi, slot_clear hi, slot_clear hi]
    rfl
  square c i hi := by
    rw [slot_clear hi, slot_clear hi]
    rfl
  negate c i hi := by
    rw [slot_clear hi, slot_clear hi]
    rfl
  rotateRows c k r hr j hj := by
    rw [slot_clear (cell_lt hr hj), slot_clear (cell_lt hr (Nat.mod_lt _ hpos))]
    simp only [clear, block_div r hj, block_mod r hj]
  rotateColumns c r hr j hj := by
    rw [slot_clear (cell_lt hr hj), slot_clear (cell_lt (by omega) hj)]
    simp only [clear, block_div r hj, block_mod r hj]

end Evaluator

end PSVFSS.Omr

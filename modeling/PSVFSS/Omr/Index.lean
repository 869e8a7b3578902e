/-
# `Omr.Index` — which messages are pertinent

The recipient decrypts `lhs` and reads the bits off, sixteen to a slot: it finds
the pertinent messages of all batches, and numbers them.
-/
import Mathlib.Data.Nat.Count
import PSVFSS.Omr.Payload

namespace PSVFSS.Omr

variable {Ct : Type}

/-! ## Reading the bits

The map is filled in the order of the bits and numbers them as it goes.  An
entry that is there already is kept. -/

/-- `insert` of a map, which keeps the entry that a key has. -/
def insertNew (m : ℤ → Option ℕ) (i : ℤ) (v : ℕ) : ℤ → Option ℕ :=
  if (m i).isSome then m else Function.update m i (some v)

/-- The loop of `decodeIndices`; the first slot of the list is the one at `idx`,
shifted as far as it has been read. -/
def decodeLoop (num : ℤ) : List ℕ → ℤ → ℤ → ℕ → (ℤ → Option ℕ) → ℤ → Option ℕ
  | [], _, _, _, pertinentIndices => pertinentIndices
  | w :: words, i, backcounter, counter, pertinentIndices =>
    if num ≤ i then pertinentIndices
    else if w = 0 then decodeLoop num words (i + backcounter) 16 counter pertinentIndices
    else if w % 2 = 1 then
      decodeLoop num (w / 2 :: words) (i + 1) (backcounter - 1) (counter + 1)
        (insertNew pertinentIndices i counter)
    else decodeLoop num (w / 2 :: words) (i + 1) (backcounter - 1) counter pertinentIndices
termination_by words _ _ _ _ => (words.length, words.headD 0)
decreasing_by
  · exact Prod.Lex.left _ _ (Nat.lt_succ_self _)
  · exact Prod.Lex.right _ (Nat.div_lt_self (Nat.pos_of_ne_zero ‹_›) Nat.one_lt_two)
  · exact Prod.Lex.right _ (Nat.div_lt_self (Nat.pos_of_ne_zero ‹_›) Nat.one_lt_two)

/-- `decodeIndices`. -/
def decodeIndices (ev : Evaluator Ct) (indexPack : Ct) (numOfTransactions : ℕ) : ℤ → Option ℕ :=
  decodeLoop numOfTransactions (ev.decode indexPack) 0 16 0 fun _ => none

section

variable (bit : ℕ → Bool)

/-- The bits set before `n`, in order. -/
def numbered (n : ℕ) (j : ℤ) : Option ℕ :=
  if 0 ≤ j ∧ j < n ∧ bit j.toNat = true then some (Nat.count (fun k => bit k = true) j.toNat)
  else none

/-- The slots from number `p` on hold sixteen bits each. -/
def Packs (p : ℕ) (words : List ℕ) : Prop :=
  ∀ q t, (words.getD q 0).testBit t = (decide (t < 16) && bit (16 * (p + q) + t))

variable {bit}

theorem numbered_congr {n m : ℕ} (h : ∀ k, bit k = true → (k < n ↔ k < m)) :
    numbered bit n = numbered bit m := by
  funext j
  have hcond : (0 ≤ j ∧ j < n ∧ bit j.toNat = true) ↔ (0 ≤ j ∧ j < m ∧ bit j.toNat = true) := by
    constructor
    · rintro ⟨hj, hlt, hbit⟩
      have hiff := h j.toNat hbit
      exact ⟨hj, by omega, hbit⟩
    · rintro ⟨hj, hlt, hbit⟩
      have hiff := h j.toNat hbit
      exact ⟨hj, by omega, hbit⟩
  rw [numbered, numbered, if_congr hcond rfl rfl]

/-- A bit that is set gets the next number. -/
theorem insertNew_numbered {n : ℕ} (hbit : bit n = true) :
    insertNew (numbered bit n) n (Nat.count (fun k => bit k = true) n)
      = numbered bit (n + 1) := by
  have hfresh : numbered bit n n = none := if_neg fun hand => absurd hand.2.1 (lt_irrefl _)
  rw [insertNew, hfresh, Option.isSome_none, if_neg Bool.false_ne_true]
  funext j
  by_cases hj : j = n
  · rw [hj, Function.update_self, numbered, Int.toNat_natCast, if_pos ⟨by omega, by omega, hbit⟩]
  · have hcond : (0 ≤ j ∧ j < n ∧ bit j.toNat = true)
        ↔ (0 ≤ j ∧ j < (n + 1 : ℕ) ∧ bit j.toNat = true) := by
      constructor
      · rintro ⟨hpos, hlt, hbit⟩
        exact ⟨hpos, by omega, hbit⟩
      · rintro ⟨hpos, hlt, hbit⟩
        exact ⟨hpos, by omega, hbit⟩
    rw [Function.update_of_ne hj, numbered, numbered, if_congr hcond rfl rfl]

/-- Bits that are not set leave the count as it is. -/
theorem count_skip {i k : ℕ} (h : ∀ t < k, bit (i + t) = false) :
    Nat.count (fun k => bit k = true) (i + k) = Nat.count (fun k => bit k = true) i := by
  have hnone : Nat.count (fun t => bit (i + t) = true) k = 0 := by
    refine Nat.count_iff_forall_not.mpr fun t ht hset => ?_
    rw [h t ht] at hset
    exact Bool.false_ne_true hset
  rw [Nat.count_add, hnone, Nat.add_zero]

variable {num : ℕ} (hnum : ∀ k, bit k = true → k < num)
include hnum

/-- A slot from bit `s` on, if the slots after it are read. -/
theorem decodeLoop_slot {words : List ℕ} {p : ℕ}
    (hnext : decodeLoop num words (16 * (p + 1) : ℕ) 16
        (Nat.count (fun k => bit k = true) (16 * (p + 1))) (numbered bit (16 * (p + 1)))
      = numbered bit num) (w : ℕ) :
    ∀ s ≤ 16, (∀ t, w.testBit t = (decide (s + t < 16) && bit (16 * p + s + t))) →
      decodeLoop num (w :: words) (16 * p + s : ℕ) (16 - s)
          (Nat.count (fun k => bit k = true) (16 * p + s)) (numbered bit (16 * p + s))
        = numbered bit num := by
  induction w using Nat.strong_induction_on with
  | _ w ih =>
    intro s hs hw
    rw [decodeLoop]
    by_cases hend : (num : ℤ) ≤ (16 * p + s : ℕ)
    · rw [if_pos hend]
      refine numbered_congr fun k hk => ?_
      have hlt := hnum k hk
      omega
    rw [if_neg hend]
    by_cases hzero : w = 0
    · have hclear : ∀ t < 16 - s, bit (16 * p + s + t) = false := by
        intro t ht
        have hbit := hw t
        rwa [hzero, Nat.zero_testBit, decide_eq_true (by omega), Bool.true_and, eq_comm] at hbit
      have hskip : 16 * (p + 1) = 16 * p + s + (16 - s) := by omega
      have hplace : ((16 * p + s : ℕ) : ℤ) + (16 - s) = (16 * (p + 1) : ℕ) := by omega
      have hkeep : numbered bit (16 * p + s) = numbered bit (16 * (p + 1)) := by
        refine numbered_congr fun k hk => ⟨fun hlt => by omega, fun hlt => ?_⟩
        by_contra hge
        have hk' := hclear (k - (16 * p + s)) (by omega)
        rw [Nat.add_sub_cancel' (Nat.le_of_not_lt hge), hk] at hk'
        exact Bool.noConfusion hk'
      rw [if_pos hzero, hplace, hkeep, ← count_skip hclear, ← hskip]
      exact hnext
    · -- something is left, so the slot is not read to its end
      have hopen : s < 16 := by
        by_contra hfull
        refine hzero (Nat.eq_of_testBit_eq fun t => ?_)
        rw [hw t, decide_eq_false (by omega), Bool.false_and, Nat.zero_testBit]
      have hhead : bit (16 * p + s) = decide (w % 2 = 1) := by
        rw [← Nat.testBit_zero, hw 0, decide_eq_true (by omega), Bool.true_and, Nat.add_zero]
      have htail : ∀ t, (w / 2).testBit t
          = (decide (s + 1 + t < 16) && bit (16 * p + (s + 1) + t)) := by
        intro t
        have hbit := hw (t + 1)
        rwa [Nat.testBit_add_one, show s + (t + 1) = s + 1 + t by omega,
          show 16 * p + s + (t + 1) = 16 * p + (s + 1) + t by omega] at hbit
      have hplace : ((16 * p + s : ℕ) : ℤ) + 1 = (16 * p + (s + 1) : ℕ) := by omega
      have hback : (16 : ℤ) - s - 1 = 16 - (s + 1 : ℕ) := by omega
      have hrest := ih (w / 2) (Nat.div_lt_self (Nat.pos_of_ne_zero hzero) Nat.one_lt_two)
        (s + 1) hopen htail
      have hcount := Nat.count_succ (fun k => bit k = true) (16 * p + s)
      rw [if_neg hzero]
      by_cases hodd : w % 2 = 1
      · rw [decide_eq_true hodd] at hhead
        rw [if_pos hhead] at hcount
        rw [if_pos hodd, insertNew_numbered hhead, hplace, hback, ← hcount]
        exact hrest
      · rw [decide_eq_false hodd] at hhead
        rw [if_neg (by rw [hhead]; exact Bool.false_ne_true)] at hcount
        have hsame := hcount.trans (Nat.add_zero _)
        have hkeep : numbered bit (16 * p + s) = numbered bit (16 * p + s + 1) := by
          refine numbered_congr fun k hk => ?_
          have hne : k ≠ 16 * p + s := by
            rintro rfl
            rw [hhead] at hk
            exact Bool.false_ne_true hk
          omega
        rw [if_neg hodd, hplace, hback, ← hsame, hkeep]
        exact hrest

/-- The recipient numbers the bits in order. -/
theorem decodeLoop_spec (words : List ℕ) : ∀ p, Packs bit p words →
    decodeLoop num words (16 * p : ℕ) 16 (Nat.count (fun k => bit k = true) (16 * p))
        (numbered bit (16 * p))
      = numbered bit num := by
  induction words with
  | nil =>
    intro p hp
    rw [decodeLoop]
    refine numbered_congr fun k hk => ?_
    have hlt := hnum k hk
    have hdone : k < 16 * p := by
      by_contra hge
      have hbit := hp ((k - 16 * p) / 16) ((k - 16 * p) % 16)
      have hk' : 16 * (p + (k - 16 * p) / 16) + (k - 16 * p) % 16 = k := by omega
      rw [hk', hk, decide_eq_true (Nat.mod_lt _ (by decide)), List.getD_nil,
        Nat.zero_testBit] at hbit
      exact Bool.noConfusion hbit
    exact ⟨fun _ => hlt, fun _ => hdone⟩
  | cons w words ih =>
    intro p hp
    have hlater : Packs bit (p + 1) words := by
      intro q t
      have hbit := hp (q + 1) t
      rwa [List.getD_cons_succ, show p + (q + 1) = p + 1 + q by omega] at hbit
    have hfirst : ∀ t, w.testBit t = (decide (0 + t < 16) && bit (16 * p + 0 + t)) := by
      intro t
      rw [Nat.zero_add]
      exact hp 0 t
    exact decodeLoop_slot hnum (ih (p + 1) hlater) w 0 (Nat.zero_le _) hfirst

theorem decodeIndices_spec {ev : Evaluator Ct} {c : Ct} (hp : Packs bit 0 (ev.decode c)) :
    decodeIndices ev c num = numbered bit num := by
  have hstart : numbered bit 0 = fun _ => none :=
    funext fun j => if_neg fun hand => by omega
  have hrun := decodeLoop_spec hnum (ev.decode c) 0 hp
  rw [Nat.mul_zero, hstart, Nat.count_zero] at hrun
  exact hrun

end

/-! ## What the recipient finds

Each message has its own bit in the sum, so no carry disturbs another and the
slots stay below the modulus. -/

/-- The number in slot `p` after the first `n` messages. -/
def slotWord (bit : ℕ → Bool) (p n : ℕ) : ℕ :=
  ∑ j ∈ Finset.range n, if bit j = true ∧ p = j / 16 then 2 ^ (j % 16) else 0

theorem cast_slotWord (bit : ℕ → Bool) {half n : ℕ} (hn : n ≤ 16 * (2 * half)) (p : ℕ) :
    ((slotWord bit p n : ℕ) : Slot) = slotSum bit (indexPlain (2 * half)) p n := by
  rw [slotWord, slotSum, Nat.cast_sum]
  refine Finset.sum_congr rfl fun j hj => ?_
  have hplace : j / 16 < 2 * half := by
    have hlt := Finset.mem_range.mp hj
    omega
  rw [indexPlain, plain_single hplace]
  by_cases hbit : bit j = true <;> by_cases hp : p = j / 16 <;> simp [hbit, hp]

/-- The messages have a bit each, so nothing is carried. -/
theorem testBit_slotWord (bit : ℕ → Bool) (p n : ℕ) : ∀ t,
    (slotWord bit p n).testBit t
      = (decide (t < 16) && (decide (16 * p + t < n) && bit (16 * p + t))) := by
  induction n with
  | zero =>
    intro t
    rw [slotWord, Finset.sum_range_zero, Nat.zero_testBit, decide_eq_false (Nat.not_lt_zero _),
      Bool.false_and, Bool.and_false]
  | succ n ih =>
    intro t
    rw [slotWord, Finset.sum_range_succ, ← slotWord]
    by_cases hadd : bit n = true ∧ p = n / 16
    · have hbelow : slotWord bit p n < 2 ^ (n % 16) := by
        refine Nat.lt_pow_two_of_testBit _ fun i hi => ?_
        rw [ih i, decide_eq_false (p := 16 * p + i < n) (by omega), Bool.false_and,
          Bool.and_false]
      rw [if_pos hadd, Nat.add_comm]
      rcases lt_trichotomy t (n % 16) with hlt | heq | hgt
      · rw [Nat.testBit_two_pow_add_gt hlt, ih t, decide_eq_true (p := 16 * p + t < n) (by omega),
          decide_eq_true (p := 16 * p + t < n + 1) (by omega)]
      · have hplace : 16 * p + t = n := by omega
        rw [heq, Nat.testBit_two_pow_add_eq, Nat.testBit_lt_two_pow hbelow, ← heq, hplace, hadd.1,
          decide_eq_true (p := t < 16) (by omega), decide_eq_true (Nat.lt_succ_self n)]
        rfl
      · have hsum : 2 ^ (n % 16) + slotWord bit p n < 2 ^ t := by
          have hpow : 2 ^ (n % 16 + 1) ≤ 2 ^ t := Nat.pow_le_pow_right (by decide) hgt
          rw [pow_succ] at hpow
          omega
        rw [Nat.testBit_lt_two_pow hsum, decide_eq_false (p := 16 * p + t < n + 1) (by omega),
          Bool.false_and, Bool.and_false]
    · rw [if_neg hadd, Nat.add_zero, ih t]
      by_cases ht : t < 16
      · by_cases hplace : 16 * p + t = n
        · have hclear : bit n = false := by
            by_contra hset
            exact hadd ⟨Bool.eq_true_of_not_eq_false hset, by omega⟩
          simp only [hplace, hclear, Bool.and_false]
        · have hiff : 16 * p + t < n ↔ 16 * p + t < n + 1 := by omega
          rw [decide_eq_decide.mpr hiff]
      · rw [decide_eq_false ht, Bool.false_and, Bool.false_and]

theorem slotWord_lt (bit : ℕ → Bool) (p n : ℕ) : slotWord bit p n < 2 ^ 16 := by
  refine Nat.lt_pow_two_of_testBit _ fun i hi => ?_
  rw [testBit_slotWord, decide_eq_false (by omega), Bool.false_and]

theorem Board.pertinent_lt (board : Board) {regSk : List (List ℕ)} (k : ℕ)
    (hk : board.pertinent regSk k = true) : k < board.clues.length := by
  by_contra hge
  rw [Board.pertinent, List.getElem?_eq_none (Nat.le_of_not_lt hge)] at hk
  exact Bool.noConfusion hk

section

variable {ev : Evaluator Ct} {half : ℕ} (h : ev.Lawful half)
include h

theorem packs_of_slot {bit : ℕ → Bool} {n : ℕ} (hn : n ≤ 16 * (2 * half))
    (hbit : ∀ k, bit k = true → k < n) {c : Ct}
    (hslot : ∀ p < 2 * half, ev.slot c p = slotSum bit (indexPlain (2 * half)) p n) :
    Packs bit 0 (ev.decode c) := by
  have hlen := h.length_decode c
  intro q t
  rw [Nat.zero_add, List.getD_eq_getElem?_getD]
  by_cases hq : q < 2 * half
  · have hq' : q < (ev.decode c).length := by rwa [hlen]
    have hword : (ev.decode c)[q] = slotWord bit q n := by
      have hcast : ((ev.decode c)[q] : Slot) = (slotWord bit q n : ℕ) := by
        rw [cast_slotWord bit hn, ← hslot q hq, Evaluator.slot, List.getD_eq_getElem _ _ hq']
      have hmod := (ZMod.natCast_eq_natCast_iff' _ _ 65537).mp hcast
      have hlow := h.decode_lt c _ (List.getElem_mem hq')
      have hhigh := slotWord_lt bit q n
      rwa [Nat.mod_eq_of_lt hlow, Nat.mod_eq_of_lt (by omega)] at hmod
    rw [List.getElem?_eq_getElem hq', Option.getD_some, hword, testBit_slotWord]
    by_cases hset : bit (16 * q + t) = true
    · rw [decide_eq_true (hbit _ hset), Bool.true_and]
    · rw [Bool.eq_false_iff.mpr hset, Bool.and_false]
  · have hclear : bit (16 * q + t) = false := by
      by_contra hset
      have hlt := hbit _ (Bool.eq_true_of_not_eq_false hset)
      omega
    rw [List.getElem?_eq_none (by omega), Option.getD_none, Nat.zero_testBit, hclear,
      Bool.and_false]

/-- The recipient's map has the bits that the detector has put into `lhs`. -/
theorem Board.indices_spec {board : Board} {numOfBuckets : ℕ}
    (hv : board.Valid half numOfBuckets) {regSk : List (List ℕ)} {lhs : Ct}
    (hslot : ∀ p < 2 * half, ev.slot lhs p
      = slotSum (board.pertinent regSk) (indexPlain (2 * half)) p board.clues.length) :
    decodeIndices ev lhs board.clues.length
      = numbered (board.pertinent regSk) board.clues.length :=
  decodeIndices_spec board.pertinent_lt (packs_of_slot h hv.clues board.pertinent_lt hslot)

/-- From the clues to the recipient's map: it has the pertinent messages of all
batches and no other ones, numbered from zero in their order.  With a plaintext of
zeros among those of the detector there is no response. -/
theorem decoded_indices {d : ℕ} (hhalf : half = 2 ^ d) {board : Board} {numOfBuckets : ℕ}
    (hv : board.Valid half numOfBuckets) (hdvd : tempn board.param.n ∣ half)
    {regSk : List (List ℕ)} (hsk : regSk ≠ []) :
    (board.Nonzero (2 * half) → ∃ lhs rhs, board.digest ev (2 * half)
        (genSwitchingKeyPVWPacked ev (2 * half) board.param regSk) = some (lhs, rhs)
      ∧ decodeIndices ev lhs board.clues.length
        = numbered (board.pertinent regSk) board.clues.length)
      ∧ (¬ board.Nonzero (2 * half) → board.digest ev (2 * half)
        (genSwitchingKeyPVWPacked ev (2 * half) board.param regSk) = none) := by
  refine ⟨fun hnonzero => ?_, Board.digest_none h hsk⟩
  obtain ⟨c, hc, hslot⟩ := Board.digest_spec h hhalf hdvd hsk hv.clues hv.reduced hv.encodable
    hnonzero hv.some_clue
  exact ⟨c.1, c.2, hc, Board.indices_spec h hv fun p hp => (hslot p hp).1⟩

end

/-- Three messages in two batches. -/
def sampleBoard : Board where
  param := ⟨1, 1⟩
  graph := ⟨[[0], [0], [0]], [[1], [2], [3]]⟩
  clues := ⟨[2], [0]⟩ :: sampleClues
  payloads := [[5, 6], [7, 8], [9, 10]]
  payloadSize := 2

theorem valid_sample : sampleBoard.Valid 1 1 where
  some_clue := by decide
  clues := by decide
  reduced := by
    unfold sampleBoard sampleClues
    decide
  payloads := by
    unfold sampleBoard sampleClues
    decide
  graph := rfl
  buckets := by
    unfold sampleBoard sampleClues
    decide
  weights := by
    unfold sampleBoard sampleClues
    decide
  room := by decide

theorem nonzero_sample : sampleBoard.Nonzero 2 where
  rounds batch hbatch := by
    have htwo : batch = 0 ∨ batch = 1 := by
      have hlen : sampleBoard.clues.length = 3 := rfl
      omega
    rcases htwo with rfl | rfl
    · unfold sampleBoard sampleClues
      decide
    · unfold sampleBoard sampleClues
      decide
  payloads := by
    unfold sampleBoard sampleClues
    decide

theorem decoded_indices_sample :
    ∃ lhs rhs, sampleBoard.digest (Evaluator.clear 1) 2
        (genSwitchingKeyPVWPacked (Evaluator.clear 1) 2 sampleBoard.param [[3]]) = some (lhs, rhs)
      ∧ decodeIndices (Evaluator.clear 1) lhs 3 = numbered (sampleBoard.pertinent [[3]]) 3 := by
  have hdvd : tempn sampleBoard.param.n ∣ 1 := by
    change tempn 1 ∣ 1
    decide
  exact (decoded_indices (Evaluator.lawful_clear Nat.one_pos) (d := 0) rfl valid_sample hdvd
    (List.cons_ne_nil _ _)).1 nonzero_sample

end PSVFSS.Omr

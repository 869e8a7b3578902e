/-
# `Omr.Detector` — from clues to one ciphertext for each message

The first phase packs the bits of a batch; the second one expands them again, in
blocks of 32 messages, and each block goes on from where the block before left
the packed ciphertext.  Together: each message of the batch gets a ciphertext
that holds one in every slot if the message is pertinent and zero if it is not,
unless a round of the first phase has a plaintext of zeros.
-/
import PSVFSS.Omr.Clue

namespace PSVFSS.Omr

open Loop

variable {Ct : Type}

/-- `step` of the second phase. -/
def blockSize : ℕ := 32

/-- A block of `serverOperations2therest`: the messages from `32 * k` on, and no
more than there are.  What is expanded so far, and the packed ciphertext as it
is turned now. -/
def expandBlock (ev : Evaluator Ct) (degree numOfTransactions : ℕ) (s : List Ct × Ct) (k : ℕ) :
    Option (List Ct × Ct) := do
  let expanded ← expandSIC ev degree s.2
    (min blockSize (numOfTransactions - k * blockSize)) (k * blockSize)
  some (s.1 ++ expanded.1, expanded.2)

/-- The expanded ciphertexts of all the blocks. -/
def expandBatch (ev : Evaluator Ct) (degree numOfTransactions : ℕ) (packedSIC : Ct) :
    Option (List Ct) := do
  let s ← (List.range ((numOfTransactions + blockSize - 1) / blockSize)).foldlM
    (expandBlock ev degree numOfTransactions) ([], packedSIC)
  some s.1

/-- Both phases, up to the ciphertexts that the retrieval multiplies with. -/
def detect (ev : Evaluator Ct) (degree : ℕ) (param : PVWParam) (clues : List PVWCiphertext)
    (switchingKey : List Ct) : Option (List Ct) := do
  let packedSIC ← serverOperations1obtainPackedSIC ev degree param clues switchingKey
  expandBatch ev degree clues.length packedSIC

/-- Where a block begins and ends. -/
theorem block_bounds {n k : ℕ} (hk : k < (n + blockSize - 1) / blockSize) :
    k * blockSize ≤ n
      ∧ min n ((k + 1) * blockSize) = k * blockSize + min blockSize (n - k * blockSize) := by
  have hblock : k * blockSize ≤ n := by
    rw [blockSize] at hk ⊢
    omega
  refine ⟨hblock, ?_⟩
  rw [Nat.add_mul, Nat.one_mul]
  omega

section

variable {ev : Evaluator Ct} {half : ℕ} (h : ev.Lawful half)
include h

/-- After `k` blocks the messages before `32 * k` are expanded. -/
theorem expandBatch_spec {d : ℕ} (hhalf : half = 2 ^ d) {n : ℕ} (hn : n ≤ 2 * half) (packed : Ct) :
    ∃ expanded, expandBatch ev (2 * half) n packed = some expanded
      ∧ List.Forall₂ (fun i e => Constant ev (2 * half) (ev.slot packed i) e) (List.range n)
        expanded := by
  have hstep : ∀ k < (n + blockSize - 1) / blockSize, ∀ s : List Ct × Ct,
      (List.Forall₂ (fun i e => Constant ev (2 * half) (ev.slot packed i) e)
          (List.range (min n (k * blockSize))) s.1
        ∧ Turned ev half (min n (k * blockSize) - 1) packed s.2) →
      ∃ s', expandBlock ev (2 * half) n s k = some s'
        ∧ List.Forall₂ (fun i e => Constant ev (2 * half) (ev.slot packed i) e)
          (List.range (min n ((k + 1) * blockSize))) s'.1
        ∧ Turned ev half (min n ((k + 1) * blockSize) - 1) packed s'.2 := by
    rintro k hk s ⟨hbefore, hturn⟩
    obtain ⟨hblock, hnext⟩ := block_bounds hk
    rw [Nat.min_eq_right hblock] at hbefore hturn
    obtain ⟨e, he, hexp, hturn'⟩ := expandSIC_spec h hhalf (k * blockSize)
      (min blockSize (n - k * blockSize)) hturn (by omega)
    rw [hnext]
    refine ⟨(s.1 ++ e.1, e.2), by rw [expandBlock, he]; rfl, ?_, hturn'⟩
    rw [List.range_add]
    exact List.rel_append hbefore (List.forall₂_map_left_iff.mpr hexp)
  obtain ⟨s, hs, hexp, -⟩ := foldlM_range (s := (([] : List Ct), packed))
    ⟨by rw [Nat.zero_mul, Nat.min_zero]; exact .nil,
      by rw [Nat.zero_mul, Nat.min_zero]; exact turned_zero⟩ hstep
  have hall : min n ((n + blockSize - 1) / blockSize * blockSize) = n := by
    rw [blockSize]
    omega
  rw [hall] at hexp
  exact ⟨s.1, by rw [expandBatch, hs]; rfl, hexp⟩

/-- The detector: one for the messages that pass the range check, zero for the
others, in every slot of the message's own ciphertext.  It throws when a round has
a plaintext of zeros, as it does when the padding is as long as the batch. -/
theorem detect_bits {d : ℕ} (hhalf : half = 2 ^ d) {param : PVWParam}
    (hdvd : tempn param.n ∣ half) {regSk : List (List ℕ)} (hsk : regSk ≠ [])
    {clues : List PVWCiphertext} (hlen : clues.length ≤ 2 * half)
    (hred : ∀ clue ∈ clues, clue.Reduced) :
    (NonzeroRounds param clues → ∃ expanded, detect ev (2 * half) param clues
        (genSwitchingKeyPVWPacked ev (2 * half) param regSk) = some expanded
      ∧ List.Forall₂ (fun clue e => Constant ev (2 * half)
          (if Pertinent param regSk clue then 1 else 0) e) clues expanded)
      ∧ (¬ NonzeroRounds param clues → detect ev (2 * half) param clues
        (genSwitchingKeyPVWPacked ev (2 * half) param regSk) = none)
      ∧ (clues.length + param.n ≤ tempn param.n → ¬ NonzeroRounds param clues) := by
  have hkeys : genSwitchingKeyPVWPacked ev (2 * half) param regSk ≠ [] := fun hnil =>
    hsk (List.map_eq_nil_iff.mp hnil)
  refine ⟨fun hrounds => ?_, fun hrounds => ?_, not_nonzeroRounds_of_short⟩
  · obtain ⟨packed, hpacked, hslot⟩ := packedSIC_spec h hdvd hlen hred hrounds hsk
    obtain ⟨expanded, hexpanded, hall⟩ := expandBatch_spec h hhalf hlen packed
    refine ⟨expanded, ?_, ?_⟩
    · rw [detect, hpacked]
      exact hexpanded
    · obtain ⟨hsame, hexp⟩ := List.forall₂_iff_get.mp hall
      rw [List.length_range] at hsame
      refine List.forall₂_iff_get.mpr ⟨hsame, fun i hi hi' => ?_⟩
      have hconst := hexp i (by rw [List.length_range]; exact hi) hi'
      rw [List.get_eq_getElem, List.getElem_range, hslot i hi] at hconst
      exact hconst
  · rw [detect, packedSIC_none h hrounds hkeys]
    rfl

end

/-- Two clues in two slots: one for the holder of the key, one of anybody. -/
def sampleClues : List PVWCiphertext :=
  [clueFor ⟨1, 1⟩ [[3]] [(([5], [2]), true), (([7], [900]), false)], ⟨[1], [0]⟩]

theorem detect_bits_sample :
    (∃ expanded, detect (Evaluator.clear 1) 2 ⟨1, 1⟩ sampleClues
        (genSwitchingKeyPVWPacked (Evaluator.clear 1) 2 ⟨1, 1⟩ [[3]]) = some expanded
      ∧ List.Forall₂ (fun clue e => Constant (Evaluator.clear 1) 2
          (if Pertinent ⟨1, 1⟩ [[3]] clue then 1 else 0) e) sampleClues expanded)
      ∧ detect (Evaluator.clear 4) 8 ⟨3, 1⟩ [⟨[1, 2, 3], [0]⟩]
        (genSwitchingKeyPVWPacked (Evaluator.clear 4) 8 ⟨3, 1⟩ [[3, 4, 5]]) = none := by
  have hdvd : tempn 1 ∣ 1 := by decide
  have hred : ∀ clue ∈ sampleClues, clue.Reduced := by
    unfold sampleClues
    decide
  have hrounds : NonzeroRounds ⟨1, 1⟩ sampleClues := by
    unfold sampleClues
    decide
  have hfour : (Evaluator.clear 4).Lawful 4 := Evaluator.lawful_clear (by decide)
  have hdvd' : tempn (⟨3, 1⟩ : PVWParam).n ∣ 4 := by decide
  have hred' : ∀ clue ∈ [(⟨[1, 2, 3], [0]⟩ : PVWCiphertext)], clue.Reduced := by decide
  obtain ⟨-, hthrows, hshort⟩ := detect_bits hfour (d := 2) rfl hdvd'
    (List.cons_ne_nil [3, 4, 5] []) (by decide) hred'
  exact ⟨(detect_bits (Evaluator.lawful_clear Nat.one_pos) (d := 0) rfl hdvd
    (List.cons_ne_nil _ _) (by decide) hred).1 hrounds, hthrows (hshort (by decide))⟩

end PSVFSS.Omr

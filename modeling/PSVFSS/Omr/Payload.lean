/-
# `Omr.Payload` — the plaintext of a payload

`payloadPlain` writes into a list of zeros, bucket by bucket.  When the buckets
of a message are different and its payload fills a bucket, slot `t` of bucket
`b` holds part `t` of the payload times the weight of the message there.
-/
import Mathlib.Data.List.GetD
import PSVFSS.Omr.Retrieval

namespace PSVFSS.Omr

open Loop

/-! ## Writing

Every bucket of a message is a range of slots.  The loop adds to what is
there, so buckets that overlapped would add up. -/

theorem getD_modify {α : Type} {l : List α} {p : ℕ} (hp : p < l.length) (i : ℕ) (f : α → α)
    (d : α) : (l.modify i f).getD p d = if i = p then f (l.getD p d) else l.getD p d := by
  have hp' : p < (l.modify i f).length := by rwa [List.length_modify]
  rw [List.getD_eq_getElem _ _ hp', List.getElem_modify, List.getD_eq_getElem _ _ hp]

/-- A loop that adds to the entries of a list. -/
theorem getD_addLoop (place amount : ℕ → ℕ) (l : List ℕ) (n : ℕ) :
    (forLoop n (fun k l => l.modify (place k) (· + amount k)) l).length = l.length
      ∧ ∀ p < l.length, (forLoop n (fun k l => l.modify (place k) (· + amount k)) l).getD p 0
        = l.getD p 0 + ∑ k ∈ Finset.range n, if place k = p then amount k else 0 := by
  refine forLoop_induction (P := fun n (l' : List ℕ) => l'.length = l.length
    ∧ ∀ p < l.length, l'.getD p 0
      = l.getD p 0 + ∑ k ∈ Finset.range n, if place k = p then amount k else 0) ?_ ?_
  · exact ⟨rfl, fun p _ => by rw [Finset.sum_range_zero, Nat.add_zero]⟩
  · rintro k _ l' ⟨hlen, hval⟩
    refine ⟨by rw [List.length_modify, hlen], fun p hp => ?_⟩
    rw [getD_modify (by omega), hval p hp, Finset.sum_range_succ]
    split
    · rw [Nat.add_assoc]
    · rw [Nat.add_zero]

/-- A loop of such loops. -/
theorem getD_payloadPlain (degree payloadSize : ℕ) (buckets weights payload : List ℕ) :
    (payloadPlain degree payloadSize buckets weights payload).length = degree
      ∧ ∀ p < degree, (payloadPlain degree payloadSize buckets weights payload).getD p 0
        = ∑ j ∈ Finset.range buckets.length, ∑ k ∈ Finset.range payload.length,
          if k + buckets.getD j 0 * payloadSize = p
          then payload.getD k 0 * weights.getD j 0 % 65537 else 0 := by
  refine forLoop_induction (P := fun n (l : List ℕ) => l.length = degree
    ∧ ∀ p < degree, l.getD p 0
      = ∑ j ∈ Finset.range n, ∑ k ∈ Finset.range payload.length,
          if k + buckets.getD j 0 * payloadSize = p
          then payload.getD k 0 * weights.getD j 0 % 65537 else 0) ?_ ?_
  · refine ⟨List.length_replicate, fun p hp => ?_⟩
    rw [Finset.sum_range_zero, List.getD_eq_getElem?_getD, List.getElem?_replicate, if_pos hp]
    rfl
  · rintro j _ l ⟨hlen, hval⟩
    obtain ⟨hlen', hval'⟩ := getD_addLoop (fun k => k + buckets.getD j 0 * payloadSize)
      (fun k => payload.getD k 0 * weights.getD j 0 % 65537) l payload.length
    refine ⟨hlen'.trans hlen, fun p hp => ?_⟩
    rw [Finset.sum_range_succ, ← hval p hp]
    exact hval' p (by omega)

/-! ## Reading a bucket

The buckets of one message are different, so at most one of them contributes
to a slot. -/

/-- The weight of a message in bucket `b`, zero when it is not assigned to it. -/
def weightAt (buckets weights : List ℕ) (b : ℕ) : ℕ :=
  ∑ j ∈ Finset.range buckets.length, if buckets.getD j 0 = b then weights.getD j 0 else 0

theorem getD_inj {l : List ℕ} (hl : l.Nodup) {i j : ℕ} (hi : i < l.length) (hj : j < l.length)
    (heq : l.getD i 0 = l.getD j 0) : i = j := by
  rw [List.getD_eq_getElem _ _ hi, List.getD_eq_getElem _ _ hj] at heq
  exact (List.Nodup.getElem_inj_iff hl).mp heq

/-- Different buckets: one of them adds to a bucket, or none. -/
theorem sum_bucket {buckets : List ℕ} (hb : buckets.Nodup) (f : ℕ → ℕ) (b : ℕ) :
    (∃ j < buckets.length, buckets.getD j 0 = b
        ∧ (∑ j ∈ Finset.range buckets.length, if buckets.getD j 0 = b then f j else 0) = f j)
      ∨ (∑ j ∈ Finset.range buckets.length, if buckets.getD j 0 = b then f j else 0) = 0 := by
  by_cases hex : ∃ j < buckets.length, buckets.getD j 0 = b
  · obtain ⟨j, hj, rfl⟩ := hex
    refine .inl ⟨j, hj, rfl, ?_⟩
    rw [Finset.sum_eq_single j, if_pos rfl]
    · intro i hi hne
      exact if_neg fun heq => hne (getD_inj hb (Finset.mem_range.mp hi) hj heq)
    · exact fun hn => absurd (Finset.mem_range.mpr hj) hn
  · exact .inr (Finset.sum_eq_zero fun j hj =>
      if_neg fun heq => hex ⟨j, Finset.mem_range.mp hj, heq⟩)

/-- Slot `t` of bucket `b`. -/
theorem getD_bucket {degree payloadSize : ℕ} {buckets weights payload : List ℕ}
    (hsize : payload.length = payloadSize) {b t : ℕ} (ht : t < payloadSize)
    (hroom : b * payloadSize + t < degree) :
    (payloadPlain degree payloadSize buckets weights payload).getD (b * payloadSize + t) 0
      = ∑ j ∈ Finset.range buckets.length,
          if buckets.getD j 0 = b then payload.getD t 0 * weights.getD j 0 % 65537 else 0 := by
  rw [(getD_payloadPlain _ _ _ _ _).2 _ hroom, hsize]
  refine Finset.sum_congr rfl fun j _ => ?_
  split
  next heq =>
    rw [heq, Finset.sum_eq_single t, if_pos (Nat.add_comm _ _)]
    · intro k _ hne
      exact if_neg fun hplace => hne (by omega)
    · exact fun hn => absurd (Finset.mem_range.mpr ht) hn
  next hne =>
    refine Finset.sum_eq_zero fun k hk => if_neg fun hplace => hne ?_
    rw [Nat.add_comm] at hplace
    rw [← block_div (buckets.getD j 0) (Finset.mem_range.mp hk), hplace, block_div b ht]

theorem plain_bucket {degree payloadSize : ℕ} {buckets weights payload : List ℕ}
    (hsize : payload.length = payloadSize) {b t : ℕ} (ht : t < payloadSize)
    (hroom : b * payloadSize + t < degree) :
    plain (payloadPlain degree payloadSize buckets weights payload) (b * payloadSize + t)
      = (payload.getD t 0 : ℕ) * (weightAt buckets weights b : ℕ) := by
  rw [plain, getD_bucket hsize ht hroom, weightAt, Nat.cast_sum, Nat.cast_sum, Finset.mul_sum]
  refine Finset.sum_congr rfl fun j _ => ?_
  split
  · rw [ZMod.natCast_mod, Nat.cast_mul]
  · rw [Nat.cast_zero, mul_zero]

/-- No slot overflows. -/
theorem encodable_payloadPlain {half payloadSize : ℕ} {buckets weights payload : List ℕ}
    (hb : buckets.Nodup) (hsize : payload.length = payloadSize) :
    Encodable half (payloadPlain (2 * half) payloadSize buckets weights payload) := by
  obtain ⟨hlen, hval⟩ := getD_payloadPlain (2 * half) payloadSize buckets weights payload
  refine ⟨hlen.le, fun v hv => ?_⟩
  obtain ⟨p, hp, rfl⟩ := List.getElem_of_mem hv
  have hget : (payloadPlain (2 * half) payloadSize buckets weights payload)[p]
      = (payloadPlain (2 * half) payloadSize buckets weights payload).getD p 0 := by
    rw [List.getD_eq_getElem _ _ hp]
  rw [hlen] at hp
  rw [hget]
  by_cases hzero : payloadSize = 0
  · rw [hval p hp, hsize, hzero]
    simp only [Finset.range_zero, Finset.sum_empty, Finset.sum_const_zero]
    decide
  · have hpos := Nat.pos_of_ne_zero hzero
    have hplace : p = p / payloadSize * payloadSize + p % payloadSize :=
      (Nat.div_add_mod' p payloadSize).symm
    rw [hplace, getD_bucket hsize (Nat.mod_lt _ hpos) (by omega)]
    obtain ⟨j, -, -, hsum⟩ | hsum := sum_bucket hb
      (fun j => payload.getD (p % payloadSize) 0 * weights.getD j 0 % 65537) (p / payloadSize)
    · rw [hsum]
      exact Nat.mod_lt _ (by decide)
    · rw [hsum]
      decide

/-! ## Boards

What the sizes have to satisfy for every slot of every bucket to be a slot of
the ciphertext. -/

/-- The messages fit the ciphertexts, `numOfBuckets` being `OMRtwoM`. -/
structure Board.Valid (board : Board) (half numOfBuckets : ℕ) : Prop where
  some_clue : 0 < board.clues.length
  clues : board.clues.length ≤ 16 * (2 * half)
  reduced : ∀ clue ∈ board.clues, clue.Reduced
  payloads : ∀ j < board.clues.length, (board.payloads.getD j []).length = board.payloadSize
    ∧ ∀ v ∈ board.payloads.getD j [], v < 65537
  graph : board.graph.bipartiteMap.length = board.clues.length
  buckets : ∀ j < board.clues.length, (board.graph.bipartiteMap.getD j []).Nodup
    ∧ ∀ b ∈ board.graph.bipartiteMap.getD j [], b < numOfBuckets
  weights : ∀ j < board.clues.length, ∀ w ∈ board.graph.weights.getD j [], w < 65537
  room : numOfBuckets * board.payloadSize ≤ 2 * half

theorem Board.Valid.encodable {board : Board} {half numOfBuckets : ℕ}
    (hv : board.Valid half numOfBuckets) :
    ∀ j < board.clues.length, Encodable half (board.payloadOf (2 * half) j) :=
  fun j hj => encodable_payloadPlain (hv.buckets j hj).1 (hv.payloads j hj).1

end PSVFSS.Omr

/-
# `Omr.Recipient` — the payloads

The recipient knows from `lhs` which messages are pertinent, so it knows the
weights with which they went into the buckets; `rhs` has the sums.  It solves
for the payloads.  The message of number `e` is unknown `e` of the system.
-/
import PSVFSS.Omr.Index
import PSVFSS.Omr.Solver

namespace PSVFSS.Omr

open Loop

variable {Ct : Type}

/-! ## Forming the system

One row for each bucket: the weights of the messages in it, and the sums of
their payloads.  The map from messages to numbers gives the columns. -/

/-- `formRhs`. -/
def formRhs (ev : Evaluator Ct) (packedPayloads : Ct) (numOfBuckets payloadSlots : ℕ) :
    List (List ℤ) :=
  let rhsint := ev.decode packedPayloads
  (List.range numOfBuckets).map fun i =>
    (List.range payloadSlots).map fun j => (rhsint.getD (i * payloadSlots + j) 0 : ℤ)

/-- The weights of a message, in column `c`. -/
def setWeights (buckets weights : List ℕ) (c : ℕ) (lhs : List (List ℤ)) : List (List ℤ) :=
  forLoop buckets.length (fun j lhs =>
    lhs.modify (buckets.getD j 0) fun row => row.set c (weights.getD j 0 : ℕ)) lhs

/-- One key of the map after the other. -/
def formLhsStep (pertinentIndices : ℤ → Option ℕ) (graph : Graph) (i : ℕ)
    (lhs : List (List ℤ)) : List (List ℤ) :=
  match pertinentIndices i with
  | none => lhs
  | some c => setWeights (graph.bipartiteMap.getD i []) (graph.weights.getD i []) c lhs

/-- `formLhsWeights`; the keys are numbers of messages. -/
def formLhsWeights (pertinentIndices : ℤ → Option ℕ) (graph : Graph) (numOfBuckets : ℕ) :
    List (List ℤ) :=
  let pertinentTransactionNum := (List.range graph.bipartiteMap.length).countP
    fun i : ℕ => (pertinentIndices i).isSome
  forLoop graph.bipartiteMap.length (formLhsStep pertinentIndices graph)
    (List.replicate numOfBuckets (List.replicate pertinentTransactionNum 0))

/-- `receiverDecoding`: it takes 306 slots for a bucket, whatever the payloads'
size is. -/
def receiverDecoding (ev : Evaluator Ct) (lhsEnc rhsEnc : Ct) (graph : Graph)
    (numOfTransactions numOfBuckets payloadSize : ℕ) : List (List ℤ) :=
  let pertinentIndices := decodeIndices ev lhsEnc numOfTransactions
  let rhs := formRhs ev rhsEnc numOfBuckets 306
  let lhs := formLhsWeights pertinentIndices graph numOfBuckets
  equationSolving lhs rhs payloadSize

/-! ## The pertinent messages

The messages whose bit is set, as a list.  A message's number is its place
there, which is what the map says. -/

section

variable (bit : ℕ → Bool)

/-- The bits that are set, in order. -/
def marked (n : ℕ) : List ℕ := (List.range n).filter bit

theorem marked_succ (n : ℕ) : marked bit (n + 1) = marked bit n ++ if bit n then [n] else [] := by
  rw [marked, List.range_succ, List.filter_append, marked]
  cases hbit : bit n <;> simp [hbit]

theorem length_marked (n : ℕ) :
    (marked bit n).length = Nat.count (fun k => bit k = true) n := by
  induction n with
  | zero => rfl
  | succ n ih =>
    rw [marked_succ, List.length_append, ih, Nat.count_succ]
    split <;> rfl

theorem marked_spec {n e : ℕ} (he : e < (marked bit n).length) :
    bit ((marked bit n).getD e 0) = true ∧ (marked bit n).getD e 0 < n := by
  have hmem := List.mem_filter.mp (getD_mem he)
  exact ⟨hmem.2, List.mem_range.mp hmem.1⟩

/-- Their numbers are their places. -/
theorem count_marked {n e : ℕ} (he : e < (marked bit n).length) :
    Nat.count (fun k => bit k = true) ((marked bit n).getD e 0) = e := by
  induction n with
  | zero => exact absurd he (Nat.not_lt_zero _)
  | succ n ih =>
    rw [marked_succ] at he ⊢
    by_cases hlt : e < (marked bit n).length
    · rw [List.getD_append _ _ _ _ hlt]
      exact ih hlt
    · rw [List.length_append] at he
      split at he
      next hbit =>
        rw [List.length_singleton] at he
        have heq : e = (marked bit n).length := by omega
        rw [if_pos hbit, heq, List.getD_eq_getElem?_getD, List.getElem?_concat_length,
          Option.getD_some, length_marked]
      next => exact absurd he (by rw [List.length_nil]; omega)

theorem sum_marked (f : ℕ → Slot) (n : ℕ) :
    ∑ j ∈ Finset.range n, (if bit j then 1 else 0) * f j
      = ∑ e ∈ Finset.range (marked bit n).length, f ((marked bit n).getD e 0) := by
  induction n with
  | zero => rfl
  | succ n ih =>
    have hold : ∀ l : List ℕ, ∀ e ∈ Finset.range (marked bit n).length,
        f ((marked bit n ++ l).getD e 0) = f ((marked bit n).getD e 0) := by
      intro l e he
      rw [List.getD_append _ _ _ _ (Finset.mem_range.mp he)]
    rw [Finset.sum_range_succ, ih, marked_succ]
    split
    next hbit =>
      rw [List.length_append, List.length_singleton, Finset.sum_range_succ,
        Finset.sum_congr rfl (hold [n]), List.getD_eq_getElem?_getD, List.getElem?_concat_length,
        Option.getD_some, one_mul]
    next hbit => rw [List.append_nil, zero_mul, add_zero]

theorem numbered_marked {n e : ℕ} (he : e < (marked bit n).length) :
    numbered bit n ((marked bit n).getD e 0 : ℕ) = some e := by
  obtain ⟨hbit, hlt⟩ := marked_spec bit he
  rw [numbered, Int.toNat_natCast, if_pos ⟨by omega, by omega, hbit⟩, count_marked bit he]

/-- Two messages do not get one number. -/
theorem numbered_inj {n i j c : ℕ} (hi : numbered bit n i = some c)
    (hj : numbered bit n j = some c) : i = j := by
  rw [numbered, Int.toNat_natCast, Option.ite_none_right_eq_some] at hi hj
  have heq := (Option.some.inj hi.2).trans (Option.some.inj hj.2).symm
  exact Nat.count_injective hi.1.2.2 hj.1.2.2 heq

theorem countP_numbered (n : ℕ) :
    (List.range n).countP (fun i : ℕ => (numbered bit n i).isSome) = (marked bit n).length := by
  rw [marked, List.countP_eq_length_filter]
  refine congrArg List.length (List.filter_congr fun i hi => ?_)
  rw [numbered, Int.toNat_natCast]
  have hlt := List.mem_range.mp hi
  by_cases hbit : bit i = true
  · rw [if_pos ⟨by omega, by omega, hbit⟩, hbit]
    rfl
  · rw [if_neg fun hand => hbit hand.2.2, Bool.eq_false_iff.mpr hbit]
    rfl

end

/-! ## The weights

The rows are filled message by message, a column each; the order in which the
map is gone through does not matter. -/

/-- Rows of `n` weights each. -/
structure Grid (numOfBuckets n : ℕ) (lhs : List (List ℤ)) : Prop where
  length : lhs.length = numOfBuckets
  width : ∀ b < numOfBuckets, (lhs.getD b []).length = n

def cellAt (lhs : List (List ℤ)) (b c : ℕ) : ℤ := (lhs.getD b []).getD c 0

theorem getD_set_cell {row : List ℤ} {c : ℕ} (hc : c < row.length) (k : ℕ) (v : ℤ) :
    (row.set k v).getD c 0 = if k = c then v else row.getD c 0 := by
  have hc' : c < (row.set k v).length := by rwa [List.length_set]
  rw [List.getD_eq_getElem _ _ hc', List.getElem_set, List.getD_eq_getElem _ _ hc]

-- the number of buckets, and of pertinent messages
variable {M n : ℕ}

theorem Grid.modify {lhs : List (List ℤ)} (hg : Grid M n lhs) (i k : ℕ) (v : ℤ) :
    Grid M n (lhs.modify i fun row => row.set k v)
      ∧ ∀ b < M, ∀ c < n, cellAt (lhs.modify i fun row => row.set k v) b c
        = if i = b ∧ k = c then v else cellAt lhs b c := by
  have hrow : ∀ b < M, (lhs.modify i fun row => row.set k v).getD b []
      = if i = b then (lhs.getD b []).set k v else lhs.getD b [] := fun b hb =>
    getD_modify (hb.trans_eq hg.length.symm) i _ []
  refine ⟨⟨by rw [List.length_modify, hg.length], fun b hb => ?_⟩, fun b hb c hc => ?_⟩
  · rw [hrow b hb]
    split
    · rw [List.length_set, hg.width b hb]
    · exact hg.width b hb
  · have hwidth : c < (lhs.getD b []).length := by rwa [hg.width b hb]
    rw [cellAt, hrow b hb]
    by_cases hi : i = b
    · rw [if_pos hi, getD_set_cell hwidth]
      by_cases hk : k = c
      · rw [if_pos hk, if_pos ⟨hi, hk⟩]
      · rw [if_neg hk, if_neg fun hand => hk hand.2]
        rfl
    · rw [if_neg hi, if_neg fun hand => hi hand.1]
      rfl

theorem Grid.ext {lhs lhs' : List (List ℤ)} (hg : Grid M n lhs) (hg' : Grid M n lhs')
    (hcell : ∀ b < M, ∀ c < n, cellAt lhs b c = cellAt lhs' b c) : lhs = lhs' := by
  refine List.ext_getElem (hg.length.trans hg'.length.symm) fun b hb hb' => ?_
  have hbM : b < M := hb.trans_eq hg.length
  have hrow : lhs.getD b [] = lhs[b] := by rw [List.getD_eq_getElem _ _ hb]
  have hrow' : lhs'.getD b [] = lhs'[b] := by rw [List.getD_eq_getElem _ _ hb']
  have hwidth := hg.width b hbM
  have hwidth' := hg'.width b hbM
  rw [hrow] at hwidth
  rw [hrow'] at hwidth'
  refine List.ext_getElem (hwidth.trans hwidth'.symm) fun c hc hc' => ?_
  have hval := hcell b hbM c (hc.trans_eq hwidth)
  rwa [cellAt, cellAt, hrow, hrow', List.getD_eq_getElem _ _ hc,
    List.getD_eq_getElem _ _ hc'] at hval

/-- A message writes its column, which was clear. -/
theorem Grid.setWeights {lhs : List (List ℤ)} (hg : Grid M n lhs) {buckets : List ℕ}
    (hb : buckets.Nodup) (weights : List ℕ) (k : ℕ) (hclear : ∀ b < M, cellAt lhs b k = 0) :
    Grid M n (setWeights buckets weights k lhs)
      ∧ ∀ b < M, ∀ c < n, cellAt (setWeights buckets weights k lhs) b c
        = if k = c then (weightAt buckets weights b : ℤ) else cellAt lhs b c := by
  have hloop := forLoop_induction (n := buckets.length)
    (f := fun j (lhs : List (List ℤ)) =>
      lhs.modify (buckets.getD j 0) fun row => row.set k (weights.getD j 0 : ℕ)) (s := lhs)
    (P := fun j l => Grid M n l ∧ ∀ b < M, ∀ c < n, cellAt l b c
      = if k = c then ((∑ i ∈ Finset.range j,
          if buckets.getD i 0 = b then weights.getD i 0 else 0 : ℕ) : ℤ) else cellAt lhs b c) ?_ ?_
  · exact hloop
  · refine ⟨hg, fun b hbM c _ => ?_⟩
    split
    next heq => rw [← heq, hclear b hbM, Finset.sum_range_zero, Nat.cast_zero]
    next => rfl
  · rintro j hj l ⟨hl, hcell⟩
    obtain ⟨hl', hcell'⟩ := hl.modify (buckets.getD j 0) k (weights.getD j 0 : ℕ)
    refine ⟨hl', fun b hbM c hc => ?_⟩
    rw [hcell' b hbM c hc, hcell b hbM c hc, Finset.sum_range_succ]
    by_cases hk : k = c
    · rw [if_pos hk, if_pos hk]
      by_cases hbucket : buckets.getD j 0 = b
      · -- the buckets before are different ones
        have hbefore : (∑ i ∈ Finset.range j,
            if buckets.getD i 0 = b then weights.getD i 0 else 0) = 0 := by
          refine Finset.sum_eq_zero fun i hi => if_neg fun heq => ?_
          have hij := Finset.mem_range.mp hi
          have hsame := getD_inj hb (hij.trans hj) hj (heq.trans hbucket.symm)
          omega
        rw [if_pos ⟨hbucket, hk⟩, hbefore, if_pos hbucket, Nat.zero_add]
      · rw [if_neg fun hand => hbucket hand.1, if_neg hbucket, Nat.add_zero]
    · rw [if_neg fun hand => hk hand.2, if_neg hk, if_neg hk]

/-- All keys of a map that gives no number twice. -/
theorem formLhs_loop {m : ℤ → Option ℕ} {graph : Graph}
    (hinj : ∀ i j c : ℕ, m i = some c → m j = some c → i = j)
    (hb : ∀ i < graph.bipartiteMap.length, (graph.bipartiteMap.getD i []).Nodup)
    (hn : ∀ i c : ℕ, m i = some c → c < n) {lhs : List (List ℤ)} (hg : Grid M n lhs)
    (hclear : ∀ b < M, ∀ c < n, cellAt lhs b c = 0) :
    Grid M n (forLoop graph.bipartiteMap.length (formLhsStep m graph) lhs)
      ∧ ∀ b < M, ∀ c < n, ∀ i < graph.bipartiteMap.length, m i = some c →
        cellAt (forLoop graph.bipartiteMap.length (formLhsStep m graph) lhs) b c
          = (weightAt (graph.bipartiteMap.getD i []) (graph.weights.getD i []) b : ℕ) := by
  have hloop := forLoop_induction (n := graph.bipartiteMap.length) (f := formLhsStep m graph)
    (s := lhs)
    (P := fun k l => Grid M n l ∧ ∀ b < M, ∀ c < n,
      (∀ i < k, m i = some c → cellAt l b c
        = (weightAt (graph.bipartiteMap.getD i []) (graph.weights.getD i []) b : ℕ))
      ∧ ((∀ i < k, m i ≠ some c) → cellAt l b c = 0)) ?_ ?_
  · exact ⟨hloop.1, fun b hbM c hc => (hloop.2 b hbM c hc).1⟩
  · exact ⟨hg, fun b hbM c hc => ⟨fun i hi => absurd hi (Nat.not_lt_zero i),
      fun _ => hclear b hbM c hc⟩⟩
  · rintro k hk l ⟨hl, hcell⟩
    rw [formLhsStep]
    cases hm : m k with
    | none =>
      refine ⟨hl, fun b hbM c hc => ⟨fun i hi hmi => ?_, fun hnone => ?_⟩⟩
      · refine (hcell b hbM c hc).1 i (Nat.lt_of_le_of_ne (Nat.le_of_lt_succ hi) ?_) hmi
        rintro rfl
        rw [hm] at hmi
        cases hmi
      · exact (hcell b hbM c hc).2 fun i hi => hnone i (Nat.lt_succ_of_lt hi)
    | some d =>
      have hnew : ∀ i < k, m i ≠ some d := fun i hi hmi =>
        absurd (hinj i k d hmi hm) (Nat.ne_of_lt hi)
      obtain ⟨hl', hcell'⟩ := hl.setWeights (hb k hk) (graph.weights.getD k []) d
        fun b hbM => (hcell b hbM d (hn k d hm)).2 hnew
      refine ⟨hl', fun b hbM c hc => ⟨fun i hi hmi => ?_, fun hnone => ?_⟩⟩
      · rw [hcell' b hbM c hc]
        by_cases hd : d = c
        · have hik : i = k := hinj i k d (hd ▸ hmi) hm
          rw [if_pos hd, hik]
        · rw [if_neg hd]
          refine (hcell b hbM c hc).1 i (Nat.lt_of_le_of_ne (Nat.le_of_lt_succ hi) ?_) hmi
          rintro rfl
          exact hd (Option.some.inj (hm.symm.trans hmi))
      · have hd : d ≠ c := by
          rintro rfl
          exact hnone k (Nat.lt_succ_self k) hm
        rw [hcell' b hbM c hc, if_neg hd]
        exact (hcell b hbM c hc).2 fun i hi => hnone i (Nat.lt_succ_of_lt hi)

/-! ## The system is that of the pertinent messages

What the recipient forms from the two ciphertexts has the payloads for a
solution.  Whether it is found is up to the elimination. -/

theorem weightAt_lt {buckets weights : List ℕ} (hb : buckets.Nodup)
    (hw : ∀ w ∈ weights, w < 65537) (b : ℕ) : weightAt buckets weights b < 65537 := by
  obtain ⟨j, -, -, hsum⟩ | hsum := sum_bucket hb (fun j => weights.getD j 0) b
  · rw [weightAt, hsum, List.getD_eq_getElem?_getD]
    cases hj : weights[j]? with
    | none => decide
    | some w => exact hw w (List.mem_of_getElem? hj)
  · rw [weightAt, hsum]
    decide

/-- A message is in no other bucket than its own. -/
theorem weightAt_of_notMem {buckets weights : List ℕ} {b : ℕ} (hb : b ∉ buckets) :
    weightAt buckets weights b = 0 := by
  refine Finset.sum_eq_zero fun j hj => if_neg fun heq => hb ?_
  rw [← heq]
  exact getD_mem (Finset.mem_range.mp hj)

theorem headD_eq_getD (l : List (List ℤ)) : l.headD [] = l.getD 0 [] := by
  cases l <;> rfl

/-- Rows of known weights. -/
theorem Grid.reduced {lhs : List (List ℤ)} (hg : Grid M n lhs) {w : ℕ → ℕ → ℕ}
    (hcell : ∀ b < M, ∀ e < n, cellAt lhs b e = (w e b : ℕ)) (hw : ∀ e < n, ∀ b, w e b < 65537)
    {l : List ℤ} (hl : l ∈ lhs) : l.length = n ∧ Reduced l := by
  obtain ⟨b, hb, rfl⟩ := List.getElem_of_mem hl
  have hget : lhs.getD b [] = lhs[b] := by
    rw [List.getD_eq_getElem _ _ hb]
  have hbM : b < M := hb.trans_eq hg.length
  have hwidth := hg.width b hbM
  rw [hget] at hwidth
  refine ⟨hwidth, fun v hv => ?_⟩
  obtain ⟨e, he, rfl⟩ := List.getElem_of_mem hv
  have hval := hcell b hbM e (he.trans_eq hwidth)
  rw [cellAt, hget, List.getD_eq_getElem _ _ he] at hval
  have hlt := hw e (he.trans_eq hwidth) b
  omega

section

variable {Ct : Type} {ev : Evaluator Ct} {rhs : Ct} {numOfBuckets payloadSlots : ℕ}

theorem formRhs_row {half : ℕ} (h : ev.Lawful half) {r : List ℤ}
    (hr : r ∈ formRhs ev rhs numOfBuckets payloadSlots) :
    r.length = payloadSlots ∧ Reduced r := by
  obtain ⟨i, -, rfl⟩ := List.mem_map.mp hr
  refine ⟨by rw [List.length_map, List.length_range], fun v hv => ?_⟩
  obtain ⟨j, -, rfl⟩ := List.mem_map.mp hv
  have hlt : (ev.decode rhs).getD (i * payloadSlots + j) 0 < 65537 := by
    rw [List.getD_eq_getElem?_getD]
    cases hget : (ev.decode rhs)[i * payloadSlots + j]? with
    | none => decide
    | some v => exact h.decode_lt rhs v (List.mem_of_getElem? hget)
  exact ⟨Int.natCast_nonneg _, by exact_mod_cast hlt⟩

theorem entry_formRhs {i t : ℕ} (hi : i < numOfBuckets) (ht : t < payloadSlots) :
    entry ((formRhs ev rhs numOfBuckets payloadSlots).getD i []) t
      = ev.slot rhs (i * payloadSlots + t) := by
  have hrow : (formRhs ev rhs numOfBuckets payloadSlots).getD i []
      = (List.range payloadSlots).map fun j =>
        ((ev.decode rhs).getD (i * payloadSlots + j) 0 : ℤ) := by
    rw [formRhs, getD_map_range hi]
  rw [hrow, entry, getD_map_range ht, Int.cast_natCast]
  rfl

end

/-- The messages that are pertinent, their payloads and their weights. -/
def Board.marked (board : Board) (sk : List (List ℕ)) : List ℕ :=
  Omr.marked (board.pertinent sk) board.clues.length

def Board.expected (board : Board) (sk : List (List ℕ)) : List (List ℤ) :=
  (board.marked sk).map fun j => (board.payloads.getD j []).map Int.ofNat

def Board.weightOf (board : Board) (j b : ℕ) : ℕ :=
  weightAt (board.graph.bipartiteMap.getD j []) (board.graph.weights.getD j []) b

theorem Board.entry_expected (board : Board) (sk : List (List ℕ)) {e t : ℕ}
    (he : e < (board.marked sk).length) :
    entry ((board.expected sk).getD e []) t
      = ((board.payloads.getD ((board.marked sk).getD e 0) []).getD t 0 : ℕ) := by
  rw [Board.expected, List.getD_eq_getElem?_getD (i := e), List.getElem?_map,
    List.getElem?_eq_getElem he, Option.map_some, Option.getD_some,
    List.getD_eq_getElem _ _ he, entry,
    List.getD_eq_getElem?_getD, List.getElem?_map, List.getD_eq_getElem?_getD (i := t)]
  cases (board.payloads.getD (board.marked sk)[e] [])[t]? with
  | none => rfl
  | some v =>
    rw [Option.map_some, Option.getD_some, Option.getD_some]
    exact Int.cast_natCast v

/-- What the recipient forms from its map. -/
def Board.system (board : Board) (sk : List (List ℕ)) (numOfBuckets : ℕ) : List (List ℤ) :=
  formLhsWeights (numbered (board.pertinent sk) board.clues.length) board.graph numOfBuckets

section

variable {board : Board} {half numOfBuckets : ℕ} (hv : board.Valid half numOfBuckets)
  (regSk : List (List ℕ))
include hv

theorem Board.Valid.weightOf_lt {j : ℕ} (hj : j < board.clues.length) (b : ℕ) :
    board.weightOf j b < 65537 :=
  weightAt_lt (hv.buckets j hj).1 (hv.weights j hj) b

/-- A message has a plaintext that is not zero, if a part of it and one of its
weights are not. -/
theorem Board.Valid.not_zeros_payloadOf {j : ℕ} (hj : j < board.clues.length) {b t : ℕ}
    (hb : b < numOfBuckets) (ht : t < board.payloadSize)
    (hpart : (board.payloads.getD j []).getD t 0 ≠ 0) (hweight : board.weightOf j b ≠ 0) :
    ¬ Zeros (board.payloadOf (2 * half) j) := by
  have hne : ∀ v : ℕ, v < 65537 → v ≠ 0 → (v : Slot) ≠ 0 := fun v hlt hv hzero =>
    hv (Nat.eq_zero_of_dvd_of_lt ((ZMod.natCast_eq_zero_iff v 65537).mp hzero) hlt)
  have hpay := hv.payloads j hj
  have hroom : b * board.payloadSize + t < 2 * half := by
    have hle : (b + 1) * board.payloadSize ≤ numOfBuckets * board.payloadSize :=
      Nat.mul_le_mul_right _ hb
    have hfit := hv.room
    rw [Nat.add_mul, Nat.one_mul] at hle
    omega
  intro hzeros
  have hzero : plain (board.payloadOf (2 * half) j) (b * board.payloadSize + t) = 0 := by
    rw [plain, List.getD_eq_getElem?_getD]
    cases hget : (board.payloadOf (2 * half) j)[b * board.payloadSize + t]? with
    | none => rfl
    | some v => rw [Option.getD_some, hzeros v (List.mem_of_getElem? hget), Nat.cast_zero]
  rw [Board.payloadOf, plain_bucket hpay.1 ht hroom] at hzero
  rcases mul_eq_zero.mp hzero with hpart' | hweight'
  · exact hne _ (hpay.2 _ (getD_mem (by rwa [hpay.1]))) hpart hpart'
  · exact hne _ (hv.weightOf_lt hj b) hweight hweight'

theorem Board.Valid.system_spec :
    Grid numOfBuckets (board.marked regSk).length (board.system regSk numOfBuckets)
      ∧ ∀ b < numOfBuckets, ∀ e < (board.marked regSk).length,
        cellAt (board.system regSk numOfBuckets) b e
          = (board.weightOf ((board.marked regSk).getD e 0) b : ℕ) := by
  have hcount := countP_numbered (board.pertinent regSk) board.clues.length
  have hstart : Grid numOfBuckets (board.marked regSk).length
      (List.replicate numOfBuckets (List.replicate (board.marked regSk).length 0)) := by
    refine ⟨List.length_replicate, fun b hb => ?_⟩
    rw [List.getD_eq_getElem?_getD, List.getElem?_replicate, if_pos hb, Option.getD_some,
      List.length_replicate]
  have hclear : ∀ b < numOfBuckets, ∀ c < (board.marked regSk).length,
      cellAt (List.replicate numOfBuckets (List.replicate (board.marked regSk).length 0)) b c
        = 0 := by
    intro b hb c hc
    rw [cellAt, List.getD_eq_getElem?_getD (i := b), List.getElem?_replicate, if_pos hb,
      Option.getD_some, List.getD_eq_getElem?_getD, List.getElem?_replicate, if_pos hc,
      Option.getD_some]
  have hnum : ∀ i c : ℕ, numbered (board.pertinent regSk) board.clues.length i = some c →
      c < (board.marked regSk).length := by
    intro i c hic
    rw [numbered, Int.toNat_natCast, Option.ite_none_right_eq_some] at hic
    rw [Board.marked, length_marked, ← Option.some.inj hic.2]
    exact Nat.count_strict_mono hic.1.2.2 (by omega)
  have hnodup : ∀ i < board.graph.bipartiteMap.length,
      (board.graph.bipartiteMap.getD i []).Nodup := fun i hi =>
    (hv.buckets i (hi.trans_eq hv.graph)).1
  obtain ⟨hgrid, hcell⟩ := formLhs_loop (fun i j c hi hj => numbered_inj _ hi hj) hnodup hnum
    hstart hclear
  rw [hv.graph] at hgrid hcell
  rw [Board.system, formLhsWeights, hv.graph, hcount]
  refine ⟨hgrid, fun b hb e he => ?_⟩
  exact hcell b hb e he _ (marked_spec (board.pertinent regSk) he).2 (numbered_marked _ he)

/-- The system of the recipient has the payloads of the pertinent messages for
its solution. -/
theorem Board.Valid.bucketsOf {Ct : Type} {ev : Evaluator Ct} (h : ev.Lawful half) {rhs : Ct}
    (hpos : 0 < numOfBuckets) (hsize : board.payloadSize = 306)
    (hslot : ∀ p < 2 * half, ev.slot rhs p
      = slotSum (board.pertinent regSk) (board.payloadOf (2 * half)) p board.clues.length) :
    Buckets (board.system regSk numOfBuckets) (formRhs ev rhs numOfBuckets 306)
      (board.expected regSk) (board.marked regSk).length 306 306 := by
  obtain ⟨hgrid, hcell⟩ := hv.system_spec regSk
  have hlen : (formRhs ev rhs numOfBuckets 306).length = numOfBuckets := by
    rw [formRhs, List.length_map, List.length_range]
  have hmarked : ∀ e < (board.marked regSk).length,
      (board.marked regSk).getD e 0 < board.clues.length := fun e he =>
    (marked_spec (board.pertinent regSk) he).2
  exact
    { columns := by
        rw [headD_eq_getD]
        exact hgrid.width 0 hpos
      weights := fun l hl => hgrid.reduced (fun b hb e he => hcell b hb e he)
        (fun e he b => hv.weightOf_lt (hmarked e he) b) hl
      rows := by rw [hlen, hgrid.length]
      sums := fun r hr => formRhs_row h hr
      messages := by rw [Board.expected, List.length_map]
      payloads := fun x hx => by
        obtain ⟨j, hj, rfl⟩ := List.mem_map.mp hx
        have hlt := List.mem_range.mp (List.mem_filter.mp hj).1
        refine ⟨by rw [List.length_map, (hv.payloads j hlt).1, hsize], fun v hv' => ?_⟩
        obtain ⟨w, hw, rfl⟩ := List.mem_map.mp hv'
        have hbound := (hv.payloads j hlt).2 w hw
        change 0 ≤ (w : ℤ) ∧ (w : ℤ) < 65537
        omega
      within := le_rfl
      added := fun i hi t ht => by
        rw [hgrid.length] at hi
        have hroom : i * 306 + t < 2 * half := by
          have hfit := hv.room
          have hle : (i + 1) * 306 ≤ numOfBuckets * 306 := Nat.mul_le_mul_right _ hi
          rw [hsize] at hfit
          omega
        have hplain : ∀ j ∈ Finset.range board.clues.length,
            (if board.pertinent regSk j then 1 else 0)
                * plain (board.payloadOf (2 * half) j) (i * 306 + t)
              = (if board.pertinent regSk j then 1 else 0)
                * (((board.payloads.getD j []).getD t 0 : ℕ) * (board.weightOf j i : ℕ)) := by
          intro j hj
          have hpay := (hv.payloads j (Finset.mem_range.mp hj)).1
          rw [Board.payloadOf, hsize, plain_bucket (hpay.trans hsize) ht hroom]
          rfl
        rw [entry_formRhs hi ht, hslot _ hroom, slotSum, Finset.sum_congr rfl hplain,
          sum_marked (board.pertinent regSk)
            (fun j => ((board.payloads.getD j []).getD t 0 : ℕ) * (board.weightOf j i : ℕ)),
          ← Board.marked, Finset.sum_range]
        refine Finset.sum_congr rfl fun e _ => ?_
        have hcellAt := hcell i hi e e.isLt
        rw [cellAt] at hcellAt
        rw [board.entry_expected regSk e.isLt, entry, hcellAt, Int.cast_natCast] }

end

/-- The columns of the weights of the pertinent messages. -/
def Board.weightColumn (board : Board) (sk : List (List ℕ)) (e : ℕ) : ℕ → Slot :=
  fun b => (board.weightOf ((board.marked sk).getD e 0) b : ℕ)

theorem Board.Valid.bucketColumn_eq {board : Board} {half numOfBuckets : ℕ}
    (hv : board.Valid half numOfBuckets) (regSk : List (List ℕ)) {e : ℕ}
    (he : e < (board.marked regSk).length) :
    bucketColumn (board.system regSk numOfBuckets) e = board.weightColumn regSk e := by
  obtain ⟨hgrid, hcell⟩ := hv.system_spec regSk
  funext b
  rw [bucketColumn, Board.weightColumn]
  by_cases hb : b < numOfBuckets
  · have hval := hcell b hb e he
    rw [cellAt] at hval
    rw [entry, hval, Int.cast_natCast]
  · have hlt := (marked_spec (board.pertinent regSk) he).2
    have hout : b ∉ board.graph.bipartiteMap.getD ((board.marked regSk).getD e 0) [] :=
      fun hmem => hb ((hv.buckets _ hlt).2 b hmem)
    have hnil : (board.system regSk numOfBuckets).getD b [] = [] := by
      rw [List.getD_eq_default _ _ (by rw [hgrid.length]; omega)]
    rw [hnil, entry_of_le (Nat.zero_le e), Board.weightOf, weightAt_of_notMem hout, Nat.cast_zero]

/-- No row of the recipient's system has a pivot's entry; the sums do not matter. -/
structure Board.NoTies (board : Board) (sk : List (List ℕ)) (numOfBuckets : ℕ) : Prop where
  untied : Untied 306 (board.marked sk).length
    ((board.system sk numOfBuckets).map fun l => ⟨l, []⟩) []

/-- The whole of oblivious message retrieval: if no row of the system ties with a
pivot, the recipient has the payloads of the pertinent messages of all batches, in
their order, when their columns of weights are independent, and nothing when they
are not.  There is a response at all when no plaintext of the detector is zero. -/
theorem receiverDecoding_spec {ev : Evaluator Ct} {half : ℕ} (h : ev.Lawful half) {d : ℕ}
    (hhalf : half = 2 ^ d) {board : Board} {numOfBuckets : ℕ} (hpos : 0 < numOfBuckets)
    (hv : board.Valid half numOfBuckets) (hsize : board.payloadSize = 306)
    (hdvd : tempn board.param.n ∣ half) {regSk : List (List ℕ)} (hsk : regSk ≠ [])
    (hu : board.NoTies regSk numOfBuckets) :
    (board.Nonzero (2 * half) → ∃ lhs rhs, board.digest ev (2 * half)
        (genSwitchingKeyPVWPacked ev (2 * half) board.param regSk) = some (lhs, rhs)
      ∧ (LinearIndependent Slot
            (fun e : Fin (board.marked regSk).length => board.weightColumn regSk e) →
          (receiverDecoding ev lhs rhs board.graph board.clues.length numOfBuckets 306).map
            (List.take 306) = board.expected regSk)
      ∧ (¬ LinearIndependent Slot
            (fun e : Fin (board.marked regSk).length => board.weightColumn regSk e) →
          receiverDecoding ev lhs rhs board.graph board.clues.length numOfBuckets 306 = []))
      ∧ (¬ board.Nonzero (2 * half) → board.digest ev (2 * half)
        (genSwitchingKeyPVWPacked ev (2 * half) board.param regSk) = none) := by
  refine ⟨fun hnonzero => ?_, Board.digest_none h hsk⟩
  obtain ⟨c, hc, hslot⟩ := Board.digest_spec h hhalf hdvd hsk hv.clues hv.reduced hv.encodable
    hnonzero hv.some_clue
  have hbuckets := hv.bucketsOf regSk h hpos hsize fun p hp => (hslot p hp).2
  have hmap : (List.zipWith Equation.mk (board.system regSk numOfBuckets)
      (formRhs ev c.2 numOfBuckets 306)).map Equation.lhs
      = ((board.system regSk numOfBuckets).map fun l => (⟨l, []⟩ : Equation)).map
        Equation.lhs := by
    rw [List.map_zipWith, List.map_map]
    refine List.ext_getElem ?_ fun i hi hi' => ?_
    · rw [List.length_zipWith, List.length_map, hbuckets.rows, Nat.min_self]
    · rw [List.getElem_zipWith, List.getElem_map]
      rfl
  have hu' := untied_congr _ hmap.symm hu.untied
  have hcolumns : (fun e : Fin (board.marked regSk).length =>
      bucketColumn (board.system regSk numOfBuckets) e)
        = fun e : Fin (board.marked regSk).length => board.weightColumn regSk e :=
    funext fun e => hv.bucketColumn_eq regSk e.isLt
  have hdecoding : receiverDecoding ev c.1 c.2 board.graph board.clues.length numOfBuckets 306
      = equationSolving (board.system regSk numOfBuckets)
        (formRhs ev c.2 numOfBuckets 306) 306 := by
    rw [receiverDecoding, Board.indices_spec h hv fun p hp => (hslot p hp).1, ← Board.system]
  refine ⟨c.1, c.2, hc, fun hind => ?_, fun hdep => ?_⟩
  · rw [← hcolumns] at hind
    rw [hdecoding, hbuckets.solve hu' hind]
    refine List.map_congr_left (g := id) (fun x hx => ?_) |>.trans (List.map_id _)
    exact List.take_of_length_le (hbuckets.payloads x hx).1.le
  · rw [← hcolumns] at hdep
    rw [hdecoding]
    exact hbuckets.refuse hu' hdep

/-! ## Two letters among others

The first and the last of 1026 messages, which fill one batch and begin another,
are for the holder of the key.  Every message is in all three buckets.
-/

def letterClue (j : ℕ) : PVWCiphertext :=
  if j = 0 ∨ j = 1025 then clueFor ⟨1, 1⟩ [[3]] [(([5], [2]), true)] else ⟨[1], [0]⟩

def letterBoard : Board where
  param := ⟨1, 1⟩
  graph :=
    ⟨(List.range 1026).map fun _ => [0, 1, 2],
      (List.range 1026).map fun j => if j = 0 then [1, 2, 3] else [2, 5, 9]⟩
  clues := (List.range 1026).map letterClue
  payloads := (List.range 1026).map fun j => List.replicate 306 (if j = 0 then 5 else 6)
  payloadSize := 306

theorem length_letterBoard : letterBoard.clues.length = 1026 := by
  rw [letterBoard, List.length_map, List.length_range]

theorem mem_letterBoard {clue : PVWCiphertext} (hclue : clue ∈ letterBoard.clues) :
    ∃ j, letterClue j = clue := by
  simp only [letterBoard, List.mem_map] at hclue
  obtain ⟨j, -, hj⟩ := hclue
  exact ⟨j, hj⟩

theorem valid_letterBoard : letterBoard.Valid 512 3 where
  some_clue := by
    rw [length_letterBoard]
    decide
  clues := by
    rw [length_letterBoard]
    decide
  reduced clue hclue := by
    obtain ⟨j, rfl⟩ := mem_letterBoard hclue
    rw [letterClue]
    split
    · decide
    · decide
  payloads j hj := by
    rw [length_letterBoard] at hj
    rw [letterBoard, getD_map_range hj]
    refine ⟨List.length_replicate, fun v hv => ?_⟩
    rw [List.eq_of_mem_replicate hv]
    split
    · decide
    · decide
  graph := by
    rw [length_letterBoard, letterBoard, List.length_map, List.length_range]
  buckets j hj := by
    rw [length_letterBoard] at hj
    rw [letterBoard, getD_map_range hj]
    decide
  weights j hj := by
    rw [length_letterBoard] at hj
    rw [letterBoard, getD_map_range hj]
    split
    · decide
    · decide
  room := by decide

theorem weightOf_letterBoard {j : ℕ} (hj : j < 1026) (b : ℕ) :
    letterBoard.weightOf j b = weightAt [0, 1, 2] (if j = 0 then [1, 2, 3] else [2, 5, 9]) b := by
  rw [Board.weightOf, letterBoard, getD_map_range hj, getD_map_range hj]

theorem nonzero_letterBoard : letterBoard.Nonzero (2 * 512) where
  rounds batch hbatch i hi hzeros := by
    obtain rfl : i = 0 := Nat.lt_one_iff.mp hi
    have hpos : 0 < (letterBoard.batchClues (2 * 512) batch).length := by
      rw [Board.length_batchClues]
      omega
    have hmem : (letterBoard.batchClues (2 * 512) batch)[0] ∈ letterBoard.clues :=
      List.mem_of_mem_drop (List.mem_of_mem_take (List.getElem_mem hpos))
    have hzero := hzeros _ (List.mem_mapIdx.mpr ⟨0, hpos, rfl⟩)
    obtain ⟨j, hj⟩ := mem_letterBoard hmem
    rw [← hj, letterClue] at hzero
    split at hzero
    · exact absurd hzero (by decide)
    · exact absurd hzero (by decide)
  payloads j hj := by
    refine valid_letterBoard.not_zeros_payloadOf hj (b := 0) (t := 0) (by decide) (by decide) ?_ ?_
    · rw [length_letterBoard] at hj
      rw [letterBoard, getD_map_range hj]
      split
      · decide
      · decide
    · rw [length_letterBoard] at hj
      rw [weightOf_letterBoard hj]
      split
      · decide
      · decide

theorem marked_letterBoard : letterBoard.marked [[3]] = [0, 1025] := by
  have hsk : [[3]].length = (⟨1, 1⟩ : PVWParam).ell := rfl
  have hletter := pertinent_clueFor [(([5], [2]), true)] hsk (by decide)
  have hother : ¬ Pertinent ⟨1, 1⟩ [[3]] ⟨[1], [0]⟩ := by
    intro hpert
    obtain ⟨s, hlow, hhigh, hs⟩ := mem_rangeSet.mp (hpert 0 (by decide))
    have hreading : reading ⟨1, 1⟩ [[3]] ⟨[1], [0]⟩ 0 = ((49151 : ℤ) : Slot) := by decide +kernel
    have hmod : s ≡ 49151 [ZMOD 65537] :=
      (ZMod.intCast_eq_intCast_iff _ _ 65537).mp (hs.trans hreading)
    rw [Int.ModEq] at hmod
    omega
  have hbit : ∀ j ∈ List.range 1026,
      letterBoard.pertinent [[3]] j = decide (j = 0 ∨ j = 1025) := by
    intro j hj
    rw [Board.pertinent, letterBoard, List.getElem?_map,
      List.getElem?_range (List.mem_range.mp hj), Option.map_some, Option.any_some]
    by_cases hours : j = 0 ∨ j = 1025
    · rw [letterClue, if_pos hours, decide_eq_true hours]
      exact decide_eq_true hletter
    · rw [letterClue, if_neg hours, decide_eq_false hours]
      exact decide_eq_false hother
  rw [Board.marked, length_letterBoard, Omr.marked, List.filter_congr hbit]
  decide +kernel

theorem system_letterBoard : letterBoard.system [[3]] 3 = [[1, 2], [2, 5], [3, 9]] := by
  obtain ⟨hgrid, hcell⟩ := valid_letterBoard.system_spec [[3]]
  rw [marked_letterBoard] at hgrid hcell
  refine hgrid.ext ⟨rfl, by decide⟩ fun b hb e he => ?_
  rw [hcell b hb e he]
  have he : e = 0 ∨ e = 1 := by
    change e < 2 at he
    omega
  rcases he with rfl | rfl
  · rw [weightOf_letterBoard (by decide)]
    interval_cases b <;> rfl
  · rw [weightOf_letterBoard (by decide)]
    interval_cases b <;> rfl

theorem noTies_letterBoard : letterBoard.NoTies [[3]] 3 := by
  refine ⟨?_⟩
  rw [marked_letterBoard, system_letterBoard]
  have hinv : modInverse 1 65537 = 1 := by simp [modInverse, power]
  have hpass : List.map (eliminateRow 306 0 ⟨[1, 2], []⟩)
      [⟨[1, 2], []⟩, ⟨[2, 5], []⟩, ⟨[3, 9], []⟩]
      = [⟨[1, 2], []⟩, ⟨[0, 1], []⟩, ⟨[0, 3], []⟩] := by
    simp [eliminateRow, getRatioMultAndSubtract, divMod, hinv, multScalarVec,
      subtractTwoVecInplace, subtractEntry]
  have hlater : Untied 306 1 [⟨[1, 2], []⟩, ⟨[0, 1], []⟩, ⟨[0, 3], []⟩] [0] :=
    ⟨by decide, trivial⟩
  exact ⟨by decide, hpass.symm ▸ hlater⟩

theorem independent_letterBoard : LinearIndependent Slot
    (fun e : Fin (letterBoard.marked [[3]]).length => letterBoard.weightColumn [[3]] e) := by
  have hcolumns : (fun e : Fin (letterBoard.marked [[3]]).length =>
      letterBoard.weightColumn [[3]] e)
        = fun e : Fin (letterBoard.marked [[3]]).length =>
          bucketColumn [[1, 2], [2, 5], [3, 9]] e := by
    funext e
    rw [← valid_letterBoard.bucketColumn_eq [[3]] e.isLt, system_letterBoard]
  rw [hcolumns, marked_letterBoard]
  exact independent_sample

theorem receiverDecoding_spec_sample :
    ∃ lhs rhs, letterBoard.digest (Evaluator.clear 512) (2 * 512)
        (genSwitchingKeyPVWPacked (Evaluator.clear 512) (2 * 512) letterBoard.param [[3]])
          = some (lhs, rhs)
      ∧ (receiverDecoding (Evaluator.clear 512) lhs rhs letterBoard.graph letterBoard.clues.length 3
        306).map (List.take 306) = [List.replicate 306 5, List.replicate 306 6] := by
  have hdvd : tempn letterBoard.param.n ∣ 512 := by
    change tempn 1 ∣ 512
    decide
  obtain ⟨lhs, rhs, hdigest, hread, -⟩ := (receiverDecoding_spec
    (Evaluator.lawful_clear (by decide)) (d := 9) (by norm_num) (by decide) valid_letterBoard rfl
    hdvd (List.cons_ne_nil [3] []) noTies_letterBoard).1 nonzero_letterBoard
  refine ⟨lhs, rhs, hdigest, (hread independent_letterBoard).trans ?_⟩
  rw [Board.expected, marked_letterBoard, List.map_cons, List.map_singleton, letterBoard,
    getD_map_range (by decide), getD_map_range (by decide), List.map_replicate, List.map_replicate]
  rfl

end PSVFSS.Omr

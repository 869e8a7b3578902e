/-
# `Omr.Retrieval` — the two ciphertexts of the response

The second phase multiplies the ciphertext of a message with two plaintexts: one
that has a bit for the message, and one with the message's payload in the
buckets that it is assigned to, times its weight there.  Each kind is added up,
over all blocks and all batches: `lhs` and `rhs`.  A payload of zeros has a
plaintext of zeros, and the detector throws, whether the message is pertinent or
not.
-/
import Mathlib.Algebra.BigOperators.Fin
import PSVFSS.Omr.Detector

namespace PSVFSS.Omr

open Loop

variable {Ct : Type}

/-! ## A block of messages

Both retrievals make a plaintext for each message, multiply and add.  There is
nothing to add to at the very first message. -/

/-- `add_inplace`, or the copy that is made when there is nothing to add to. -/
def accumulate (ev : Evaluator Ct) (result : Option Ct) (temp : Ct) : Option Ct :=
  match result with
  | none => some temp
  | some result => some (ev.add result temp)

/-- The bit of message `j`: sixteen messages to a slot. -/
def indexPlain (degree j : ℕ) : List ℕ := single degree (j / 16) (2 ^ (j % 16))

def indexLoop (ev : Evaluator Ct) (degree start : ℕ) :
    ℕ → List Ct → Option Ct → Option (Option Ct)
  | _, [], indexIndicator => some indexIndicator
  | i, sic :: SIC, indexIndicator => do
    let temp ← ev.multiplyPlain sic (indexPlain degree (i + start))
    indexLoop ev degree start (i + 1) SIC (accumulate ev indexIndicator temp)

/-- `deterministicIndexRetrieval`, which does nothing if the slots are too few.
Only the first block finds nothing in `indexIndicator`. -/
def deterministicIndexRetrieval (ev : Evaluator Ct) (degree : ℕ) (indexIndicator : Option Ct)
    (SIC : List Ct) (start : ℕ) : Option (Option Ct) :=
  if start + SIC.length > 16 * degree then some indexIndicator
  else indexLoop ev degree start 0 SIC indexIndicator

/-- `bipartite_map_glb` and `weights_glb`: the buckets of each message, and its
weights there. -/
structure Graph where
  bipartiteMap : List (List ℕ)
  weights : List (List ℕ)

/-- The payload, times the weight, from slot `paddedStart` on. -/
def addPayload (payload : List ℕ) (paddedStart weight : ℕ) (padded : List ℕ) : List ℕ :=
  forLoop payload.length (fun k padded =>
    padded.modify (k + paddedStart) (· + payload.getD k 0 * weight % 65537)) padded

/-- The plaintext of a message: its payload in each of its buckets. -/
def payloadPlain (degree payloadSize : ℕ) (buckets weights payload : List ℕ) : List ℕ :=
  forLoop buckets.length (fun j padded =>
    addPayload payload (buckets.getD j 0 * payloadSize) (weights.getD j 0) padded)
    (List.replicate degree 0)

/-- `payloadRetrievalOptimizedwithWeights`. -/
def payloadRetrievalOptimizedwithWeights (ev : Evaluator Ct) (degree : ℕ)
    (payloads : List (List ℕ)) (graph : Graph) (SIC : List Ct) (start localStart payloadSize : ℕ) :
    Option (List Ct) :=
  SIC.zipIdx.mapM fun sic => ev.multiplyPlain sic.1 (payloadPlain degree payloadSize
    (graph.bipartiteMap.getD (sic.2 + start) []) (graph.weights.getD (sic.2 + start) [])
    (payloads.getD (sic.2 + localStart) []))

/-- `payloadPackingOptimized`. -/
def payloadPackingOptimized (ev : Evaluator Ct) (result : Option Ct) (payloads : List Ct) :
    Option Ct :=
  payloads.foldl (accumulate ev) result

/-- What the second phase has of a batch: `lhs`, `rhs`, and the packed ciphertext
as it is turned now. -/
structure Phase (Ct : Type) where
  lhs : Option Ct
  rhs : Option Ct
  packedSIC : Ct

/-- The messages of a batch, the first of which has number `counter`. -/
structure Batch where
  counter : ℕ
  payload : List (List ℕ)
  payloadSize : ℕ

/-- A block of `serverOperations2therest`. -/
def retrieveBlock (ev : Evaluator Ct) (degree : ℕ) (graph : Graph) (batch : Batch)
    (numOfTransactions : ℕ) (s : Phase Ct) (k : ℕ) : Option (Phase Ct) := do
  let expanded ← expandSIC ev degree s.packedSIC
    (min blockSize (numOfTransactions - k * blockSize)) (k * blockSize)
  let lhs ← deterministicIndexRetrieval ev degree s.lhs expanded.1 (batch.counter + k * blockSize)
  let payloadUnpacked ← payloadRetrievalOptimizedwithWeights ev degree batch.payload graph
    expanded.1 (batch.counter + k * blockSize) (k * blockSize) batch.payloadSize
  some ⟨lhs, payloadPackingOptimized ev s.rhs payloadUnpacked, expanded.2⟩

/-- `serverOperations2therest`. -/
def serverOperations2therest (ev : Evaluator Ct) (degree : ℕ) (graph : Graph) (batch : Batch)
    (numOfTransactions : ℕ) (s : Phase Ct) : Option (Phase Ct) :=
  (List.range ((numOfTransactions + blockSize - 1) / blockSize)).foldlM
    (retrieveBlock ev degree graph batch numOfTransactions) s

/-! ## What a block adds

Of the two sums only the plaintexts differ, so there is one lemma for both,
and one for the case that a plaintext is zero. -/

/-- The products of both retrievals: ciphertext `i` with the plaintext `m i`. -/
def terms (ev : Evaluator Ct) (m : ℕ → List ℕ) (SIC : List Ct) : Option (List Ct) :=
  SIC.zipIdx.mapM fun sic => ev.multiplyPlain sic.1 (m sic.2)

theorem indexLoop_eq {ev : Evaluator Ct} {degree start : ℕ} (SIC : List Ct) :
    ∀ (i : ℕ) (s : Option Ct), indexLoop ev degree start i SIC s
      = ((SIC.zipIdx i).mapM fun sic =>
          ev.multiplyPlain sic.1 (indexPlain degree (sic.2 + start))).map
        fun l => l.foldl (accumulate ev) s := by
  induction SIC with
  | nil =>
    intro i s
    rfl
  | cons sic SIC ih =>
    intro i s
    rw [indexLoop, List.zipIdx_cons, List.mapM_cons]
    cases ev.multiplyPlain sic (indexPlain degree (i + start)) with
    | none => rfl
    | some temp =>
      rw [Option.bind_eq_bind, Option.bind_some, ih]
      cases (SIC.zipIdx (i + 1)).mapM fun sic =>
        ev.multiplyPlain sic.1 (indexPlain degree (sic.2 + start)) <;> rfl

theorem isSome_foldl_accumulate {ev : Evaluator Ct} (l : List Ct) :
    ∀ s : Option Ct, s.isSome ∨ l ≠ [] → (l.foldl (accumulate ev) s).isSome := by
  induction l with
  | nil => exact fun s hs => hs.resolve_right fun hne => hne rfl
  | cons c l ih => exact fun s _ => ih _ (.inl (by cases s <;> rfl))

theorem encodable_indexPlain {half j : ℕ} : Encodable half (indexPlain (2 * half) j) := by
  refine encodable_single ?_
  have hle : 2 ^ (j % 16) ≤ 2 ^ 15 :=
    Nat.pow_le_pow_right (by decide) (Nat.le_of_lt_succ (Nat.mod_lt _ (by decide)))
  omega

theorem not_zeros_indexPlain {degree j : ℕ} (hj : j < 16 * degree) :
    ¬ Zeros (indexPlain degree j) :=
  not_zeros_single (Nat.div_lt_of_lt_mul hj) (Nat.ne_of_gt (Nat.two_pow_pos _))

/-- Messages that are there are so many times their plaintexts. -/
structure Holds (ev : Evaluator Ct) (half : ℕ) (v : ℕ → Slot) (m : ℕ → List ℕ) (n : ℕ)
    (s : Option Ct) : Prop where
  there : 0 < n → s.isSome
  slots : ∀ p < 2 * half, held ev s p = ∑ j ∈ Finset.range n, v j * plain (m j) p

theorem holds_none {ev : Evaluator Ct} {half : ℕ} {v : ℕ → Slot} {m : ℕ → List ℕ} :
    Holds ev half v m 0 none :=
  ⟨fun hlt => absurd hlt (lt_irrefl 0), fun _ _ => rfl⟩

section

variable {ev : Evaluator Ct} {half : ℕ} (h : ev.Lawful half)
include h

theorem held_accumulate (s : Option Ct) (c : Ct) {p : ℕ} (hp : p < 2 * half) :
    held ev (accumulate ev s c) p = held ev s p + ev.slot c p := by
  cases s with
  | none => exact (zero_add _).symm
  | some result => exact h.add result c p hp

theorem held_foldl_accumulate {p : ℕ} (hp : p < 2 * half) (l : List Ct) : ∀ s : Option Ct,
    held ev (l.foldl (accumulate ev) s) p = held ev s p + (l.map (ev.slot · p)).sum := by
  induction l with
  | nil => exact fun s => (add_zero _).symm
  | cons c l ih =>
    intro s
    rw [List.foldl_cons, ih, held_accumulate h s c hp, List.map_cons, List.sum_cons, add_assoc]

theorem terms_spec {v : ℕ → Slot} {m : ℕ → List ℕ} {SIC : List Ct}
    (hm : ∀ k < SIC.length, Encodable half (m k) ∧ ¬ Zeros (m k))
    (hSIC : ∀ k (hk : k < SIC.length), Constant ev (2 * half) (v k) SIC[k]) :
    ∃ l, terms ev m SIC = some l ∧ l.length = SIC.length
      ∧ ∀ k (hk : k < l.length), ∀ p < 2 * half, ev.slot l[k] p = v k * plain (m k) p := by
  obtain ⟨l, hl, hall⟩ := mapM_forall₂ (l := SIC.zipIdx)
    (f := fun sic => ev.multiplyPlain sic.1 (m sic.2))
    (R := fun sic c => ∀ p < 2 * half, ev.slot c p = v sic.2 * plain (m sic.2) p) (by
      rintro ⟨sic, k⟩ hsic
      obtain ⟨hk, hget⟩ := List.mem_zipIdx' hsic
      have hconst : Constant ev (2 * half) (v k) sic := hget ▸ hSIC k hk
      obtain ⟨c, hc, hslot⟩ := h.multiplyPlain sic (m k) (hm k hk).1 (hm k hk).2
      exact ⟨c, hc, fun p hp => by rw [hslot p hp, hconst p hp]⟩)
  obtain ⟨hlen, hget⟩ := List.forall₂_iff_get.mp hall
  rw [List.length_zipIdx] at hlen
  refine ⟨l, hl, hlen.symm, fun k hk p hp => ?_⟩
  have hslot := hget k (by rw [List.length_zipIdx, hlen]; exact hk) hk p hp
  rw [List.get_eq_getElem, List.get_eq_getElem, List.getElem_zipIdx, Nat.zero_add] at hslot
  exact hslot

theorem terms_none {m : ℕ → List ℕ} {SIC : List Ct} {k : ℕ} (hk : k < SIC.length)
    (hzeros : Zeros (m k)) : terms ev m SIC = none :=
  mapM_none (List.mk_mem_zipIdx_iff_getElem?.mpr (List.getElem?_eq_getElem hk))
    (h.transparent _ _ hzeros)

/-- A block of `n` messages goes on where the messages before it stopped. -/
theorem Holds.block {v : ℕ → Slot} {m : ℕ → List ℕ} {done n : ℕ} {s : Option Ct}
    (hs : Holds ev half v m done s) {SIC : List Ct}
    (hSIC : List.Forall₂ (fun k e => Constant ev (2 * half) (v (done + k)) e) (List.range n) SIC)
    (hm : ∀ k < n, Encodable half (m (done + k)) ∧ ¬ Zeros (m (done + k))) :
    ∃ l, terms ev (fun i => m (done + i)) SIC = some l
      ∧ Holds ev half v m (done + n) (l.foldl (accumulate ev) s) := by
  obtain ⟨hlen, hconst⟩ := List.forall₂_iff_get.mp hSIC
  rw [List.length_range] at hlen
  have hslots : ∀ k (hk : k < SIC.length), Constant ev (2 * half) (v (done + k)) SIC[k] := by
    intro k hk
    have hk' := hconst k (by rw [List.length_range, hlen]; exact hk) hk
    rwa [List.get_eq_getElem, List.getElem_range] at hk'
  obtain ⟨l, hl, hcount, hslot⟩ := terms_spec h (m := fun i => m (done + i))
    (v := fun i => v (done + i)) (by rw [← hlen]; exact hm) hslots
  refine ⟨l, hl, fun hpos => isSome_foldl_accumulate l s ?_, fun p hp => ?_⟩
  · rcases Nat.eq_zero_or_pos n with hn | hn
    · rw [hn, Nat.add_zero] at hpos
      exact .inl (hs.there hpos)
    · exact .inr (List.ne_nil_of_length_pos (by omega))
  · rw [held_foldl_accumulate h hp, hs.slots p hp, Finset.sum_range_add,
      ← Fin.sum_univ_fun_getElem, hlen, ← hcount, Finset.sum_range (n := l.length)]
    exact congrArg _ (Finset.sum_congr rfl fun k _ => hslot k k.isLt p hp)

end

/-! ## A batch

The blocks of a batch share one packed ciphertext, each going on where the
block before has turned it to. -/

/-- The plaintexts of the messages of a batch. -/
def Batch.index (batch : Batch) (degree j : ℕ) : List ℕ := indexPlain degree (batch.counter + j)

def Batch.payloadOf (batch : Batch) (graph : Graph) (degree j : ℕ) : List ℕ :=
  payloadPlain degree batch.payloadSize (graph.bipartiteMap.getD (batch.counter + j) [])
    (graph.weights.getD (batch.counter + j) []) (batch.payload.getD j [])

theorem deterministicIndexRetrieval_eq {ev : Evaluator Ct} {degree : ℕ} {batch : Batch}
    {SIC : List Ct} {done : ℕ} (hroom : batch.counter + done + SIC.length ≤ 16 * degree)
    (s : Option Ct) :
    deterministicIndexRetrieval ev degree s SIC (batch.counter + done)
      = (terms ev (fun i => batch.index degree (done + i)) SIC).map
        fun l => l.foldl (accumulate ev) s := by
  have hplain : ∀ i, indexPlain degree (i + (batch.counter + done))
      = batch.index degree (done + i) := fun i => by
    rw [Batch.index, Nat.add_comm i, Nat.add_assoc]
  rw [deterministicIndexRetrieval, if_neg (Nat.not_lt.mpr hroom), indexLoop_eq, terms]
  simp only [hplain]

theorem payloadRetrieval_eq {ev : Evaluator Ct} {degree : ℕ} {graph : Graph} {batch : Batch}
    {done : ℕ} (SIC : List Ct) :
    payloadRetrievalOptimizedwithWeights ev degree batch.payload graph SIC (batch.counter + done)
        done batch.payloadSize
      = terms ev (fun i => batch.payloadOf graph degree (done + i)) SIC := by
  have hplain : ∀ i, payloadPlain degree batch.payloadSize
      (graph.bipartiteMap.getD (i + (batch.counter + done)) [])
      (graph.weights.getD (i + (batch.counter + done)) [])
      (batch.payload.getD (i + done) []) = batch.payloadOf graph degree (done + i) := fun i => by
    rw [Batch.payloadOf, Nat.add_comm i, Nat.add_comm i done, Nat.add_assoc]
  rw [payloadRetrievalOptimizedwithWeights, terms]
  simp only [hplain]

section

variable {ev : Evaluator Ct} {half : ℕ} (h : ev.Lawful half)
include h

/-- A batch of at most `degree` messages. -/
theorem serverOperations2therest_spec {d : ℕ} (hhalf : half = 2 ^ d) (graph : Graph)
    (batch : Batch) {n : ℕ} (hn : n ≤ 2 * half) (hpos : 0 < n)
    (hroom : batch.counter + n ≤ 16 * (2 * half))
    (hpay : ∀ j < n, Encodable half (batch.payloadOf graph (2 * half) j)
      ∧ ¬ Zeros (batch.payloadOf graph (2 * half) j)) (packed : Ct) :
    ∃ lhs rhs packed',
      serverOperations2therest ev (2 * half) graph batch n ⟨none, none, packed⟩
        = some ⟨some lhs, some rhs, packed'⟩
      ∧ Holds ev half (ev.slot packed) (batch.index (2 * half)) n (some lhs)
      ∧ Holds ev half (ev.slot packed) (batch.payloadOf graph (2 * half)) n (some rhs) := by
  have hindex : ∀ j < n, Encodable half (batch.index (2 * half) j)
      ∧ ¬ Zeros (batch.index (2 * half) j) := fun j hj =>
    ⟨encodable_indexPlain, not_zeros_indexPlain (by omega)⟩
  have hstep : ∀ k < (n + blockSize - 1) / blockSize, ∀ s : Phase Ct,
      (Holds ev half (ev.slot packed) (batch.index (2 * half)) (min n (k * blockSize)) s.lhs
        ∧ Holds ev half (ev.slot packed) (batch.payloadOf graph (2 * half))
          (min n (k * blockSize)) s.rhs
        ∧ Turned ev half (min n (k * blockSize) - 1) packed s.packedSIC) →
      ∃ s', retrieveBlock ev (2 * half) graph batch n s k = some s'
        ∧ Holds ev half (ev.slot packed) (batch.index (2 * half))
          (min n ((k + 1) * blockSize)) s'.lhs
        ∧ Holds ev half (ev.slot packed) (batch.payloadOf graph (2 * half))
          (min n ((k + 1) * blockSize)) s'.rhs
        ∧ Turned ev half (min n ((k + 1) * blockSize) - 1) packed s'.packedSIC := by
    rintro k hk s ⟨hlhs, hrhs, hturn⟩
    obtain ⟨hblock, hnext⟩ := block_bounds hk
    rw [Nat.min_eq_right hblock] at hlhs hrhs hturn
    obtain ⟨e, he, hexp, hturn'⟩ := expandSIC_spec h hhalf (k * blockSize)
      (min blockSize (n - k * blockSize)) hturn (by omega)
    have hcount : e.1.length = min blockSize (n - k * blockSize) := length_expandSIC he
    obtain ⟨ls, hls, hlhs'⟩ := hlhs.block h hexp fun j hj => hindex _ (by omega)
    obtain ⟨rs, hrs, hrhs'⟩ := hrhs.block h hexp fun j hj => hpay _ (by omega)
    rw [hnext]
    refine ⟨⟨ls.foldl (accumulate ev) s.lhs, rs.foldl (accumulate ev) s.rhs, e.2⟩, ?_, hlhs',
      hrhs', hturn'⟩
    have hdet : deterministicIndexRetrieval ev (2 * half) s.lhs e.1 (batch.counter + k * blockSize)
        = some (ls.foldl (accumulate ev) s.lhs) := by
      rw [deterministicIndexRetrieval_eq (by omega), hls]
      rfl
    simp only [retrieveBlock, he, Option.bind_eq_bind, Option.bind_some, hdet,
      payloadRetrieval_eq, hrs]
    rfl
  obtain ⟨s, hs, hlhs, hrhs, -⟩ := foldlM_range (s := (⟨none, none, packed⟩ : Phase Ct))
    (by rw [Nat.zero_mul, Nat.min_zero]; exact ⟨holds_none, holds_none, turned_zero⟩) hstep
  have hall : min n ((n + blockSize - 1) / blockSize * blockSize) = n := by
    rw [blockSize]
    omega
  rw [hall] at hlhs hrhs
  obtain ⟨lhs, hl⟩ := Option.isSome_iff_exists.mp (hlhs.there hpos)
  obtain ⟨rhs, hr⟩ := Option.isSome_iff_exists.mp (hrhs.there hpos)
  refine ⟨lhs, rhs, s.packedSIC, ?_, hl ▸ hlhs, hr ▸ hrhs⟩
  rw [serverOperations2therest, hs, ← hl, ← hr]

/-- The block of a message with a payload of zeros. -/
theorem serverOperations2therest_none {degree : ℕ} {graph : Graph} {batch : Batch} {n j : ℕ}
    (hj : j < n) (hzeros : Zeros (batch.payloadOf graph degree j)) (s : Phase Ct) :
    serverOperations2therest ev degree graph batch n s = none := by
  have hk : j / blockSize < (n + blockSize - 1) / blockSize := by
    rw [blockSize]
    omega
  refine foldlM_range_none hk (fun s => ?_) s
  rw [retrieveBlock]
  cases he : expandSIC ev degree s.packedSIC
      (min blockSize (n - j / blockSize * blockSize)) (j / blockSize * blockSize) with
  | none => rfl
  | some e =>
    have hplace : j / blockSize * blockSize + j % blockSize = j := Nat.div_add_mod' j blockSize
    have hmod : j % blockSize < blockSize := Nat.mod_lt _ (by decide)
    have hlt : j % blockSize < e.1.length := by
      rw [length_expandSIC he]
      omega
    have hnone := terms_none h (m := fun i =>
      batch.payloadOf graph degree (j / blockSize * blockSize + i)) hlt (by rwa [hplace])
    rw [Option.bind_eq_bind, Option.bind_some, payloadRetrieval_eq, hnone]
    cases deterministicIndexRetrieval ev degree s.lhs e.1
      (batch.counter + j / blockSize * blockSize) <;> rfl

end

/-! ## All batches

The batches are detected on their own and added up.  Their messages have
numbers of their own, so the sums keep them apart. -/

/-- What the detector is given. -/
structure Board where
  param : PVWParam
  graph : Graph
  clues : List PVWCiphertext
  payloads : List (List ℕ)
  payloadSize : ℕ

/-- The clues of a batch: `degree` of them, or what is left. -/
def Board.batchClues (board : Board) (degree batch : ℕ) : List PVWCiphertext :=
  (board.clues.drop (batch * degree)).take degree

/-- `lhs_multi[batch]` and `rhs_multi[batch]`. -/
def Board.batchDigest (ev : Evaluator Ct) (degree : ℕ) (board : Board) (switchingKey : List Ct)
    (batch : ℕ) : Option (Ct × Ct) := do
  let clues := board.batchClues degree batch
  let payload := (board.payloads.drop (batch * degree)).take degree
  let packedSIC ← serverOperations1obtainPackedSIC ev degree board.param clues switchingKey
  let phase ← serverOperations2therest ev degree board.graph
    ⟨batch * degree, payload, board.payloadSize⟩ clues.length ⟨none, none, packedSIC⟩
  let lhs ← phase.lhs
  let rhs ← phase.rhs
  some (lhs, rhs)

/-- A round of the loop over the other batches. -/
def Board.addBatch (ev : Evaluator Ct) (degree : ℕ) (board : Board) (switchingKey : List Ct)
    (digest : Ct × Ct) (i : ℕ) : Option (Ct × Ct) := do
  let next ← board.batchDigest ev degree switchingKey (i + 1)
  some (ev.add digest.1 next.1, ev.add digest.2 next.2)

/-- The detector of `OMR2`: `lhs_multi[0]` and `rhs_multi[0]` at its end. -/
def Board.digest (ev : Evaluator Ct) (degree : ℕ) (board : Board) (switchingKey : List Ct) :
    Option (Ct × Ct) := do
  let totalBatches := (board.clues.length + degree - 1) / degree
  let first ← board.batchDigest ev degree switchingKey 0
  (List.range (totalBatches - 1)).foldlM (board.addBatch ev degree switchingKey) first

/-- Message `j` passes the range check. -/
def Board.pertinent (board : Board) (sk : List (List ℕ)) (j : ℕ) : Bool :=
  board.clues[j]?.any fun clue => decide (Pertinent board.param sk clue)

/-- The plaintext with the payload of message `j`. -/
def Board.payloadOf (board : Board) (degree j : ℕ) : List ℕ :=
  payloadPlain degree board.payloadSize (board.graph.bipartiteMap.getD j [])
    (board.graph.weights.getD j []) (board.payloads.getD j [])

/-- The detector has no plaintext of zeros: in no round of a batch, and for no
message. -/
structure Board.Nonzero (board : Board) (degree : ℕ) : Prop where
  rounds : ∀ batch, batch * degree < board.clues.length →
    NonzeroRounds board.param (board.batchClues degree batch)
  payloads : ∀ j < board.clues.length, ¬ Zeros (board.payloadOf degree j)

/-- The plaintexts of the first `n` messages, of those that have their bit set. -/
def slotSum (bit : ℕ → Bool) (m : ℕ → List ℕ) (p n : ℕ) : Slot :=
  ∑ j ∈ Finset.range n, (if bit j then 1 else 0) * plain (m j) p

section

variable {board : Board} {degree batch : ℕ}

theorem Board.length_batchClues : (board.batchClues degree batch).length
    = min degree (board.clues.length - batch * degree) := by
  rw [Board.batchClues, List.length_take, List.length_drop]

/-- Message `j` of a batch, by its number in the batch. -/
theorem Board.payloadOf_batch {j : ℕ} (hj : j < (board.batchClues degree batch).length) :
    Batch.payloadOf ⟨batch * degree, (board.payloads.drop (batch * degree)).take degree,
        board.payloadSize⟩ board.graph degree j
      = board.payloadOf degree (batch * degree + j) := by
  rw [Board.length_batchClues] at hj
  rw [Batch.payloadOf, Board.payloadOf, List.getD_eq_getElem?_getD (i := j),
    List.getElem?_take_of_lt (by omega), List.getElem?_drop, ← List.getD_eq_getElem?_getD]

end

section

variable {ev : Evaluator Ct} {half : ℕ} (h : ev.Lawful half) {d : ℕ} (hhalf : half = 2 ^ d)
  {board : Board} (hdvd : tempn board.param.n ∣ half) {regSk : List (List ℕ)} (hsk : regSk ≠ [])
  (hlen : board.clues.length ≤ 16 * (2 * half)) (hred : ∀ clue ∈ board.clues, clue.Reduced)
  (hpay : ∀ j < board.clues.length, Encodable half (board.payloadOf (2 * half) j))
include h hhalf hdvd hsk hlen hred hpay

theorem Board.batchDigest_spec (hnonzero : board.Nonzero (2 * half)) (batch : ℕ)
    (hbatch : batch * (2 * half) < board.clues.length) :
    ∃ c, board.batchDigest ev (2 * half)
        (genSwitchingKeyPVWPacked ev (2 * half) board.param regSk) batch = some c
      ∧ ∀ p < 2 * half,
        slotSum (board.pertinent regSk) (indexPlain (2 * half)) p (batch * (2 * half))
            + ev.slot c.1 p
          = slotSum (board.pertinent regSk) (indexPlain (2 * half)) p
              (min board.clues.length ((batch + 1) * (2 * half)))
        ∧ slotSum (board.pertinent regSk) (board.payloadOf (2 * half)) p (batch * (2 * half))
            + ev.slot c.2 p
          = slotSum (board.pertinent regSk) (board.payloadOf (2 * half)) p
              (min board.clues.length ((batch + 1) * (2 * half))) := by
  obtain ⟨clues, hclues⟩ : ∃ l, board.batchClues (2 * half) batch = l := ⟨_, rfl⟩
  obtain ⟨b, hb⟩ : ∃ b : Batch, ⟨batch * (2 * half),
      (board.payloads.drop (batch * (2 * half))).take (2 * half), board.payloadSize⟩ = b := ⟨_, rfl⟩
  have hcount : clues.length = min (2 * half) (board.clues.length - batch * (2 * half)) :=
    hclues ▸ Board.length_batchClues
  have hmem : ∀ clue ∈ clues, clue.Reduced := by
    intro clue hclue
    rw [← hclues] at hclue
    exact hred clue (List.mem_of_mem_drop (List.mem_of_mem_take hclue))
  have hcounter : b.counter = batch * (2 * half) := by rw [← hb]
  have hpayload : ∀ j < clues.length, b.payloadOf board.graph (2 * half) j
      = board.payloadOf (2 * half) (batch * (2 * half) + j) := fun j hj =>
    hb ▸ Board.payloadOf_batch (hclues ▸ hj)
  obtain ⟨packed, hpacked, hslot⟩ := packedSIC_spec h hdvd (by omega) hmem
    (hclues ▸ hnonzero.rounds batch hbatch) hsk
  obtain ⟨lhs, rhs, packed', hrun, hlhs, hrhs⟩ := serverOperations2therest_spec h hhalf board.graph
    b (n := clues.length) (by omega) (by omega) (by omega)
    (fun j hj => by
      rw [hpayload j hj]
      exact ⟨hpay _ (by omega), hnonzero.payloads _ (by omega)⟩) packed
  have hbit : ∀ j < clues.length, ev.slot packed j
      = if board.pertinent regSk (batch * (2 * half) + j) then 1 else 0 := by
    intro j hj
    have hget : board.clues[batch * (2 * half) + j]? = some clues[j] := by
      rw [← List.getElem?_eq_getElem hj, ← hclues, Board.batchClues,
        List.getElem?_take_of_lt (by omega), List.getElem?_drop]
    rw [hslot j hj, Board.pertinent, hget, Option.any_some]
    simp only [decide_eq_true_eq]
  have hend : min board.clues.length ((batch + 1) * (2 * half))
      = batch * (2 * half) + clues.length := by
    rw [Nat.add_mul, Nat.one_mul]
    omega
  refine ⟨(lhs, rhs), ?_, fun p hp => ⟨?_, ?_⟩⟩
  · rw [Board.batchDigest, hclues, hpacked]
    simp only [Option.bind_eq_bind, Option.bind_some, hb, hrun]
  · rw [hend, slotSum, slotSum, Finset.sum_range_add]
    refine congrArg _ ((hlhs.slots p hp).trans (Finset.sum_congr rfl fun j hj => ?_))
    rw [hbit j (Finset.mem_range.mp hj), Batch.index, hcounter]
  · rw [hend, slotSum, slotSum, Finset.sum_range_add]
    refine congrArg _ ((hrhs.slots p hp).trans (Finset.sum_congr rfl fun j hj => ?_))
    rw [hbit j (Finset.mem_range.mp hj), hpayload j (Finset.mem_range.mp hj)]

omit hhalf hdvd hlen hred hpay in
theorem Board.batchDigest_none {batch : ℕ}
    (hzeros : ¬ NonzeroRounds board.param (board.batchClues (2 * half) batch)
      ∨ ∃ j < (board.batchClues (2 * half) batch).length,
        Zeros (board.payloadOf (2 * half) (batch * (2 * half) + j))) :
    board.batchDigest ev (2 * half) (genSwitchingKeyPVWPacked ev (2 * half) board.param regSk) batch
      = none := by
  have hkeys : genSwitchingKeyPVWPacked ev (2 * half) board.param regSk ≠ [] := fun hnil =>
    hsk (List.map_eq_nil_iff.mp hnil)
  rw [Board.batchDigest]
  rcases hzeros with hrounds | ⟨j, hj, hzeros⟩
  · simp only [packedSIC_none h hrounds hkeys]
    rfl
  · rw [← Board.payloadOf_batch hj] at hzeros
    simp only [serverOperations2therest_none h hj hzeros]
    cases serverOperations1obtainPackedSIC ev (2 * half) board.param
      (board.batchClues (2 * half) batch)
      (genSwitchingKeyPVWPacked ev (2 * half) board.param regSk) <;> rfl

/-- The sum of all batches. -/
theorem Board.digest_spec (hnonzero : board.Nonzero (2 * half)) (hpos : 0 < board.clues.length) :
    ∃ c, board.digest ev (2 * half)
        (genSwitchingKeyPVWPacked ev (2 * half) board.param regSk) = some c
      ∧ ∀ p < 2 * half,
        ev.slot c.1 p = slotSum (board.pertinent regSk) (indexPlain (2 * half)) p
            board.clues.length
        ∧ ev.slot c.2 p = slotSum (board.pertinent regSk) (board.payloadOf (2 * half)) p
            board.clues.length := by
  have hdeg : 0 < 2 * half := Nat.mul_pos Nat.two_pos h.half_pos
  obtain ⟨total, htotal⟩ : ∃ m, (board.clues.length + 2 * half - 1) / (2 * half) = m := ⟨_, rfl⟩
  obtain ⟨hlow, hhigh⟩ : board.clues.length ≤ total * (2 * half)
      ∧ total * (2 * half) ≤ board.clues.length + 2 * half - 1 := by
    have hsplit := Nat.div_add_mod' (board.clues.length + 2 * half - 1) (2 * half)
    have hrest := Nat.mod_lt (board.clues.length + 2 * half - 1) hdeg
    rw [htotal] at hsplit
    omega
  have hone : 1 ≤ total := by
    rw [← htotal]
    exact (Nat.one_le_div_iff hdeg).mpr (by omega)
  obtain ⟨first, hfirst, hstart⟩ := Board.batchDigest_spec h hhalf hdvd hsk hlen hred hpay hnonzero
    0 (by rwa [Nat.zero_mul])
  -- after batch `i` the messages before the next one are in the sums
  have hrun : ∃ c, (List.range (total - 1)).foldlM (board.addBatch ev (2 * half)
        (genSwitchingKeyPVWPacked ev (2 * half) board.param regSk)) first = some c
      ∧ ∀ p < 2 * half,
        ev.slot c.1 p = slotSum (board.pertinent regSk) (indexPlain (2 * half)) p
          (min board.clues.length ((total - 1 + 1) * (2 * half)))
        ∧ ev.slot c.2 p = slotSum (board.pertinent regSk) (board.payloadOf (2 * half)) p
          (min board.clues.length ((total - 1 + 1) * (2 * half))) := by
    refine foldlM_range (P := fun i (c : Ct × Ct) => ∀ p < 2 * half,
        ev.slot c.1 p = slotSum (board.pertinent regSk) (indexPlain (2 * half)) p
          (min board.clues.length ((i + 1) * (2 * half)))
        ∧ ev.slot c.2 p = slotSum (board.pertinent regSk) (board.payloadOf (2 * half)) p
          (min board.clues.length ((i + 1) * (2 * half)))) ?_ ?_
    · intro p hp
      have hzero := hstart p hp
      simp only [Nat.zero_mul, slotSum, Finset.range_zero, Finset.sum_empty, zero_add] at hzero ⊢
      exact hzero
    · intro i hi c hc
      have hmore : (i + 1) * (2 * half) < board.clues.length := by
        have hle : (i + 1 + 1) * (2 * half) ≤ total * (2 * half) :=
          Nat.mul_le_mul_right _ (by omega)
        rw [Nat.add_mul (i + 1), Nat.one_mul] at hle
        omega
      obtain ⟨next, hnext, hsum⟩ := Board.batchDigest_spec h hhalf hdvd hsk hlen hred hpay hnonzero
        (i + 1) hmore
      refine ⟨(ev.add c.1 next.1, ev.add c.2 next.2), ?_, fun p hp => ⟨?_, ?_⟩⟩
      · rw [Board.addBatch, hnext]
        rfl
      · rw [h.add _ _ p hp, (hc p hp).1, Nat.min_eq_right hmore.le, (hsum p hp).1]
      · rw [h.add _ _ p hp, (hc p hp).2, Nat.min_eq_right hmore.le, (hsum p hp).2]
  obtain ⟨c, hc, hsum⟩ := hrun
  refine ⟨c, ?_, fun p hp => ?_⟩
  · rw [Board.digest, hfirst, htotal]
    exact hc
  · have hslots := hsum p hp
    rwa [Nat.sub_add_cancel hone, Nat.min_eq_left hlow] at hslots

omit hhalf hdvd hlen hred hpay in
/-- One plaintext of zeros, and there is no response. -/
theorem Board.digest_none (hzeros : ¬ board.Nonzero (2 * half)) :
    board.digest ev (2 * half) (genSwitchingKeyPVWPacked ev (2 * half) board.param regSk)
      = none := by
  have hdeg : 0 < 2 * half := Nat.mul_pos Nat.two_pos h.half_pos
  obtain ⟨batch, hbatch, hnone⟩ : ∃ batch, batch * (2 * half) < board.clues.length
      ∧ board.batchDigest ev (2 * half) (genSwitchingKeyPVWPacked ev (2 * half) board.param regSk)
        batch = none := by
    by_contra hall
    refine hzeros ⟨fun batch hbatch => ?_, fun j hj hzeros => ?_⟩
    · by_contra hrounds
      exact hall ⟨batch, hbatch, Board.batchDigest_none h hsk (.inl hrounds)⟩
    · have hsplit := Nat.div_add_mod' j (2 * half)
      have hmod := Nat.mod_lt j hdeg
      refine hall ⟨j / (2 * half), by omega, Board.batchDigest_none h hsk
        (.inr ⟨j % (2 * half), ?_, by rwa [hsplit]⟩)⟩
      rw [Board.length_batchClues]
      omega
  rw [Board.digest]
  cases batch with
  | zero =>
    rw [hnone]
    rfl
  | succ i =>
    have hi : i < (board.clues.length + 2 * half - 1) / (2 * half) - 1 := by
      have hle : i + 1 + 1 ≤ (board.clues.length + 2 * half - 1) / (2 * half) := by
        rw [Nat.le_div_iff_mul_le hdeg, Nat.add_mul (i + 1), Nat.one_mul]
        omega
      omega
    cases board.batchDigest ev (2 * half)
        (genSwitchingKeyPVWPacked ev (2 * half) board.param regSk) 0 with
    | none => rfl
    | some first => exact foldlM_range_none hi (fun c => by rw [Board.addBatch, hnone]; rfl) first

end

end PSVFSS.Omr

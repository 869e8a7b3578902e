/-
# `Pps.BatchedUpdate` — a batch of signals against the evaluator's table

`batched_update_table_circuit` walks the table slot by slot.  At every slot it
offers the slot to every signal in turn; the first one that is addressed to the
row and was not handled before takes it, if the slot is the row's next free one.
On inputs that encode words the circuit therefore files the pending signals of
each row, in their order, into the slots from the row's index on, as far as the
row reaches (`batchedUpdateTableCircuit_spec`).
-/
import PSVFSS.Lib.Grid
import PSVFSS.Pps.Gadgets

namespace PSVFSS

namespace Pps

open Fancy Loop Grid

/-! ## The circuit

The loops of the source, row by row and slot by slot.  A wire that does not
fit a gate makes the whole circuit fail, as it would panic. -/

structure TableSize where
  m : Nat
  l : Nat
  deriving DecidableEq

/-- `LOCATION_BYTES` is 32. -/
abbrev Location := BitVec 256

/-- `INDEX_BYTES` is 2. -/
abbrev Index := BitVec 16

abbrev Bundle := List Wire

inductive UpdateIndexesStrategy
  | A
  | B

structure Signal where
  recipient : Bundle
  locationShare : Bundle
  wasHandled : Wire

/-- What the signals change at a slot. -/
structure Slot where
  jIsUpdated : Wire
  newLocation : Bundle
  newIndex : Bundle

def zero : Wire := constant 0 2

def zeroLocation : Bundle := bytesConstant (0 : Location)

def oneIndex : Bundle := bytesConstant (1 : Index)

/-- The constants `0..n as u16`. -/
def indexes (n : Nat) : List Bundle :=
  (List.range (n % 65536)).map fun i => bytesConstant (BitVec.ofNat 16 i : Index)

/-- The body of the loop over the signals, at row `i` and slot `j`. -/
def signalStep (size : TableSize) (i j : Nat) (slot : Slot) (signal : Signal) :
    Option (Slot × Signal) := do
  let jWasntUpdatedYet ← negate slot.jIsUpdated
  let signalAddressedToThisRecipient ← bytesEq (← (indexes size.m)[i]?) signal.recipient
  let signalWasntHandledYet ← negate signal.wasHandled
  let jEqualsToNewIndex ← bytesEq (← (indexes size.l)[j]?) slot.newIndex
  let caughtSignal ← andMany [signalAddressedToThisRecipient, signalWasntHandledYet,
    jEqualsToNewIndex, jWasntUpdatedYet]
  let updatedLocation ← bytesXor 256 slot.newLocation signal.locationShare
  let newLocation ← bytesMux 256 caughtSignal slot.newLocation updatedLocation
  let jIsUpdated ← or slot.jIsUpdated caughtSignal
  let wasHandled ← or signal.wasHandled caughtSignal
  let (indexPlusOne, _) ← bytesAdd 16 slot.newIndex oneIndex
  let newIndex ← bytesMux 16 caughtSignal slot.newIndex indexPlusOne
  return (⟨jIsUpdated, newLocation, newIndex⟩, { signal with wasHandled })

def passSignals (size : TableSize) (i j : Nat) (slot : Slot) :
    List Signal → Option (Slot × List Signal)
  | [] => some (slot, [])
  | signal :: signals => do
      let (slot, signal) ← signalStep size i j slot signal
      let (slot, signals) ← passSignals size i j slot signals
      return (slot, signal :: signals)

/-- `LocationTableBuilder` and `IndexColumnBuilder`: as many words as were announced. -/
structure Builder (w : Nat) where
  items : List (BitVec w)
  capacity : Nat

def Builder.processNext {w : Nat} (b : Builder w) (item : Bundle) : Option (Builder w) := do
  if b.items.length < b.capacity then
    return { b with items := b.items ++ [← bytesOutput w item] }
  else none

def Builder.finish {w : Nat} (b : Builder w) : Option (List (BitVec w)) :=
  if b.items.length = b.capacity then some b.items else none

/-- What goes from slot to slot in a row. -/
structure RowState where
  newIndex : Bundle
  signals : List Signal
  outputTable : Builder 256

/-- The body of the loop over the slots of row `i`. -/
def slotStep (size : TableSize) (i : Nat) (blindingRow : List (Bundle × Bundle))
    (locRow : List Bundle) (s : RowState) (j : Nat) : Option RowState := do
  let (blindingGb, blindingEv) ← blindingRow[j]?
  let newLocation ← bytesXor 256 blindingGb blindingEv
  let (slot, signals) ← passSignals size i j ⟨zero, newLocation, s.newIndex⟩ s.signals
  let oldLocation ← locRow[j]?
  let oldLocationOrZero ← bytesMux 256 slot.jIsUpdated oldLocation zeroLocation
  let newLocation ← bytesXor 256 slot.newLocation oldLocationOrZero
  return ⟨slot.newIndex, signals, ← s.outputTable.processNext newLocation⟩

/-- What goes from row to row. -/
structure CircuitState where
  signals : List Signal
  outputTable : Builder 256
  outputIndexes : Builder 16

/-- One row: its index and the blinding of its index, each in two shares, its
locations and their blindings. -/
structure Row where
  index : Bundle × Bundle
  indexBlinding : Bundle × Bundle
  locRow : List Bundle
  blindingRow : List (Bundle × Bundle)

def rowStep (size : TableSize) (strategy : UpdateIndexesStrategy) (s : CircuitState)
    (row : Row × Nat) : Option CircuitState := do
  let index ← bytesXor 16 row.1.index.1 row.1.index.2
  let r ← (List.range size.l).foldlM (slotStep size row.2 row.1.blindingRow row.1.locRow)
    ⟨index, s.signals, s.outputTable⟩
  let indexBlinding ← bytesXor 16 row.1.indexBlinding.1 row.1.indexBlinding.2
  let newIndex ← match strategy with
    | .A => bytesXor 16 indexBlinding r.newIndex
    | .B => some indexBlinding
  return ⟨r.signals, r.outputTable, ← s.outputIndexes.processNext newIndex⟩

/-- A signal comes with the two shares of its recipient and the evaluator's
share of its location. -/
def encodeSignal (signal : (Bundle × Bundle) × Bundle) : Option Signal := do
  return ⟨← bytesXor 16 signal.1.1 signal.1.2, signal.2, zero⟩

/-- A table as the circuit reads it. -/
structure LazilyEncodedTable (α : Type) where
  size : TableSize
  rows : List (List α)

def batchedUpdateTableCircuit (evaluatorTable : LazilyEncodedTable Bundle)
    (blindingTable : LazilyEncodedTable (Bundle × Bundle))
    (indexColumn indexBlindings : List (Bundle × Bundle)) (strategy : UpdateIndexesStrategy)
    (signals : List ((Bundle × Bundle) × Bundle)) (outputTable : Builder 256)
    (outputIndexes : Builder 16) : Option (List Location × List Index) := do
  let size := evaluatorTable.size
  if size ≠ blindingTable.size ∨ size.m ≠ indexColumn.length then none
  else
    let signals ← signals.mapM encodeSignal
    if signals.length = 0 then none
    else
      let rows := ((indexColumn.zip indexBlindings).zip evaluatorTable.rows).zip blindingTable.rows
      let s ← (rows.map fun r => (⟨r.1.1.1, r.1.1.2, r.1.2, r.2⟩ : Row)).zipIdx.foldlM
        (rowStep size strategy) ⟨signals, outputTable, outputIndexes⟩
      return (← s.outputTable.finish, ← s.outputIndexes.finish)

/-! ## A slot

The same step on words: what is read from the bundles, and what the signal
does to the slot if nobody has taken it before. -/

/-- A signal, as words. -/
structure PlainSignal where
  recipient : Index
  share : Location
  handled : Bool

def PlainSignal.encode (p : PlainSignal) : Signal :=
  ⟨word p.recipient, word p.share, bit p.handled⟩

/-- A slot, as words. -/
structure PlainSlot where
  updated : Bool
  location : Location
  index : Index

def PlainSlot.encode (s : PlainSlot) : Slot := ⟨bit s.updated, word s.location, word s.index⟩

def PlainSlot.caught (s : PlainSlot) (i j : Index) (p : PlainSignal) : Bool :=
  decide (i = p.recipient) && !p.handled && decide (j = s.index) && !s.updated

/-- What one signal does to a slot. -/
def PlainSlot.step (s : PlainSlot) (i j : Index) (p : PlainSignal) : PlainSlot × PlainSignal :=
  if s.caught i j p then
    (⟨true, s.location ^^^ p.share, s.index + 1⟩, { p with handled := true })
  else (s, p)

@[simp] theorem indexes_getElem? {n i : Nat} (hi : i < n) (hn : n < 65536) :
    (indexes n)[i]? = some (word (BitVec.ofNat 16 i)) := by
  simp [indexes, Nat.mod_eq_of_lt hn, hi]

theorem signalStep_encode {size : TableSize} {i j : Nat} (hi : i < size.m) (hm : size.m < 65536)
    (hj : j < size.l) (hl : size.l < 65536) (s : PlainSlot) (p : PlainSignal) :
    signalStep size i j s.encode p.encode
      = some ((s.step (.ofNat 16 i) (.ofNat 16 j) p).1.encode,
        (s.step (.ofNat 16 i) (.ofNat 16 j) p).2.encode) := by
  obtain ⟨c, hadd⟩ := bytesAdd_word s.index (1 : Index) (by decide)
  have hstep : signalStep size i j s.encode p.encode
      = some (⟨bit (s.updated || s.caught (.ofNat 16 i) (.ofNat 16 j) p),
          word (if s.caught (.ofNat 16 i) (.ofNat 16 j) p then s.location ^^^ p.share
            else s.location),
          word (if s.caught (.ofNat 16 i) (.ofNat 16 j) p then s.index + 1 else s.index)⟩,
        ⟨word p.recipient, word p.share,
          bit (p.handled || s.caught (.ofNat 16 i) (.ofNat 16 j) p)⟩) := by
    simp only [signalStep, PlainSlot.encode, PlainSignal.encode, negate_bit, indexes_getElem? hi hm,
      indexes_getElem? hj hl, Option.bind_eq_bind, Option.bind_some, oneIndex, bytesConstant_word,
      bytesEq_word _ _ (show 2 ≤ 16 by decide), andMany_bit, bytesXor_word, bytesMux_word, or_bit,
      hadd, Option.pure_def]
    rfl
  rw [hstep, PlainSlot.step]
  cases hc : s.caught (.ofNat 16 i) (.ofNat 16 j) p with
  | false => simp [PlainSlot.encode, PlainSignal.encode]
  | true => simp [PlainSlot.encode, PlainSignal.encode]

/-! ## A pass over the signals

At a free slot the first signal that waits for the row takes it, and the
others go on waiting. -/

/-- The shares of the signals to `i` that were not handled yet. -/
def pending (i : Index) (ps : List PlainSignal) : List Location :=
  (ps.filter fun p => decide (i = p.recipient) && !p.handled).map (·.share)

def PlainSlot.pass (i j : Index) : PlainSlot → List PlainSignal → PlainSlot × List PlainSignal
  | s, [] => (s, [])
  | s, p :: ps =>
      let q := s.step i j p
      let r := PlainSlot.pass i j q.1 ps
      (r.1, q.2 :: r.2)

theorem passSignals_encode {size : TableSize} {i j : Nat} (hi : i < size.m)
    (hm : size.m < 65536) (hj : j < size.l) (hl : size.l < 65536) (s : PlainSlot)
    (ps : List PlainSignal) :
    passSignals size i j s.encode (ps.map PlainSignal.encode)
      = some ((s.pass (.ofNat 16 i) (.ofNat 16 j) ps).1.encode,
        (s.pass (.ofNat 16 i) (.ofNat 16 j) ps).2.map PlainSignal.encode) := by
  induction ps generalizing s with
  | nil => rfl
  | cons p ps ih =>
      rw [List.map_cons, passSignals, signalStep_encode hi hm hj hl]
      simp only [Option.bind_eq_bind, Option.bind_some]
      rw [ih]
      rfl

theorem step_of_not_caught {s : PlainSlot} {i j : Index} {p : PlainSignal}
    (h : s.caught i j p = false) : s.step i j p = (s, p) := by
  rw [PlainSlot.step, h]
  rfl

theorem step_of_caught {s : PlainSlot} {i j : Index} {p : PlainSignal}
    (h : s.caught i j p = true) :
    s.step i j p = (⟨true, s.location ^^^ p.share, s.index + 1⟩, { p with handled := true }) := by
  rw [PlainSlot.step, h]
  rfl

/-- A slot that is taken, or that is not the next free one, is left alone. -/
theorem pass_of_not_free {s : PlainSlot} {i j : Index} (h : j = s.index → s.updated = true)
    (ps : List PlainSignal) : s.pass i j ps = (s, ps) := by
  induction ps with
  | nil => rfl
  | cons p ps ih =>
      have hc : s.caught i j p = false := by
        simp only [PlainSlot.caught, Bool.and_eq_false_iff, decide_eq_false_iff_not]
        by_cases hj : j = s.index
        · exact Or.inr (by rw [h hj]; rfl)
        · exact Or.inl (Or.inr hj)
      rw [PlainSlot.pass, step_of_not_caught hc, ih]

/-- Nobody is waiting for the row: nothing happens. -/
theorem pass_of_pending_nil {s : PlainSlot} {i j : Index} {ps : List PlainSignal}
    (h : pending i ps = []) : s.pass i j ps = (s, ps) := by
  induction ps with
  | nil => rfl
  | cons p ps ih =>
      cases hp : (decide (i = p.recipient) && !p.handled) with
      | true =>
          rw [pending, List.filter_cons, hp] at h
          cases h
      | false =>
          have hc : s.caught i j p = false := by
            rw [PlainSlot.caught, hp]
            rfl
          rw [pending, List.filter_cons, hp] at h
          rw [PlainSlot.pass, step_of_not_caught hc, ih h]

/-- The first who waits takes the slot. -/
theorem pass_of_pending_cons {s : PlainSlot} {i j : Index} {ps : List PlainSignal}
    {share : Location} {rest : List Location} (hj : j = s.index) (hs : s.updated = false)
    (h : pending i ps = share :: rest) :
    ∃ ps', s.pass i j ps = (⟨true, s.location ^^^ share, s.index + 1⟩, ps') ∧
      pending i ps' = rest ∧ ∀ i', i' ≠ i → pending i' ps' = pending i' ps := by
  induction ps with
  | nil => cases h
  | cons p ps ih =>
      cases hp : (decide (i = p.recipient) && !p.handled) with
      | true =>
          have hc : s.caught i j p = true := by
            rw [PlainSlot.caught, hp, hs, decide_eq_true hj]
            rfl
          rw [pending, List.filter_cons, hp] at h
          obtain ⟨rfl, rfl⟩ := List.cons_eq_cons.mp h
          have hrec : i = p.recipient := of_decide_eq_true (Bool.and_eq_true_iff.mp hp).1
          refine ⟨{ p with handled := true } :: ps, ?_, ?_, ?_⟩
          · rw [PlainSlot.pass, step_of_caught hc, pass_of_not_free fun _ => rfl]
          · simp [pending]
          · intro i' hi'
            have hne : i' ≠ p.recipient := hrec ▸ hi'
            simp [pending, hne]
      | false =>
          have hc : s.caught i j p = false := by
            rw [PlainSlot.caught, hp]
            rfl
          rw [pending, List.filter_cons, hp] at h
          obtain ⟨ps', hpass, hi, hother⟩ := ih h
          refine ⟨p :: ps', ?_, ?_, ?_⟩
          · rw [PlainSlot.pass, step_of_not_caught hc, hpass]
          · rw [pending, List.filter_cons, hp]
            exact hi
          · intro i' hi'
            have := hother i' hi'
            simp only [pending, List.filter_cons] at this ⊢
            split
            · rw [List.map_cons, List.map_cons, this]
            · exact this

/-! ## A row

The invariant counts the free slots up to here: as many of the waiting shares
are filed, in order, and nobody waiting for another row is touched. -/

theorem Builder.processNext_word {w : Nat} {b : Builder w} (h : b.items.length < b.capacity)
    (x : BitVec w) : b.processNext (word x) = some ⟨b.items ++ [x], b.capacity⟩ := by
  rw [processNext, if_pos h, bytesOutput_word]
  rfl

theorem slotStep_encode {size : TableSize} {i j : Nat} (hi : i < size.m)
    (hm : size.m < 65536) (hj : j < size.l) (hl : size.l < 65536)
    {blindingRow : List (Bundle × Bundle)} {locRow : List Bundle} {gb ev old : Location}
    (hblinding : blindingRow[j]? = some (word gb, word ev)) (hloc : locRow[j]? = some (word old))
    (x : Index) (ps : List PlainSignal) {b : Builder 256} (hb : b.items.length < b.capacity) :
    slotStep size i blindingRow locRow ⟨word x, ps.map PlainSignal.encode, b⟩ j
      = let r := PlainSlot.pass (.ofNat 16 i) (.ofNat 16 j) ⟨false, gb ^^^ ev, x⟩ ps
        some ⟨word r.1.index, r.2.map PlainSignal.encode,
          b.items ++ [r.1.location ^^^ if r.1.updated then 0 else old], b.capacity⟩ := by
  have hpass := passSignals_encode hi hm hj hl ⟨false, gb ^^^ ev, x⟩ ps
  simp only [slotStep, hblinding, hloc, Option.bind_eq_bind, Option.bind_some, bytesXor_word]
  rw [show (⟨zero, word (gb ^^^ ev), word x⟩ : Slot)
    = PlainSlot.encode ⟨false, gb ^^^ ev, x⟩ from rfl, hpass]
  simp only [Option.bind_some, PlainSlot.encode, zeroLocation, bytesConstant_word, bytesMux_word,
    bytesXor_word, Builder.processNext_word hb, Option.pure_def]

/-- The row after its pending shares were filed from slot `k` on. -/
def filed (k : Nat) (shares : List Location) (old : Nat → Location) (j : Nat) : Location :=
  if k ≤ j then shares[j - k]?.getD (old j) else old j

/-- Slots taken among the first `j`. -/
def taken (k n j : Nat) : Nat := min n (j - k)

theorem taken_full {k n j : Nat} (h : n ≤ taken k n j) : taken k n (j + 1) = taken k n j := by
  simp only [taken] at h ⊢
  omega

theorem taken_early {k n j : Nat} (h : j < k) : taken k n (j + 1) = taken k n j := by
  simp only [taken]
  omega

theorem taken_free {k n j : Nat} (h : taken k n j < n) (hk : k ≤ j) :
    j = k + taken k n j ∧ taken k n (j + 1) = taken k n j + 1 := by
  simp only [taken] at h ⊢
  omega

theorem filed_full {k j : Nat} {shares : List Location} {old : Nat → Location}
    (h : shares.length ≤ taken k shares.length j) : filed k shares old j = old j := by
  have hnone : shares[j - k]? = none := by
    refine List.getElem?_eq_none ?_
    simp only [taken] at h
    omega
  rw [filed, hnone]
  exact ite_self _

section
variable (size : TableSize) (i k : Nat) (ps : List PlainSignal) (blinding old : Nat → Location)
  (b : Builder 256)

/-- After `j` slots as many shares are filed as there were free slots, and the
signals to the other rows are as they were. -/
def RowInv (j : Nat) (s : RowState) : Prop :=
  ∃ ps', s = ⟨word (.ofNat 16 (k + taken k (pending (.ofNat 16 i) ps).length j) : Index),
      ps'.map PlainSignal.encode,
      b.items ++ (List.range j).map fun j =>
        blinding j ^^^ filed k (pending (.ofNat 16 i) ps) old j,
      b.capacity⟩ ∧
    pending (.ofNat 16 i) ps'
      = (pending (.ofNat 16 i) ps).drop (taken k (pending (.ofNat 16 i) ps).length j) ∧
    ∀ i', i' ≠ .ofNat 16 i → pending i' ps' = pending i' ps

end

section
variable {size : TableSize} {i k : Nat} {ps : List PlainSignal} {gb ev old : Nat → Location}
  {b : Builder 256} {blindingRow : List (Bundle × Bundle)} {locRow : List Bundle}

theorem slotStep_rowInv (hi : i < size.m) (hm : size.m < 65536) {j : Nat} (hj : j < size.l)
    (hl : size.l < 65536) (hk : k ≤ size.l)
    (hblinding : blindingRow[j]? = some (word (gb j), word (ev j)))
    (hloc : locRow[j]? = some (word (old j))) (hb : b.items.length + size.l ≤ b.capacity)
    {s : RowState} (hs : RowInv i k ps (fun j => gb j ^^^ ev j) old b j s) :
    ∃ s', slotStep size i blindingRow locRow s j = some s' ∧
      RowInv i k ps (fun j => gb j ^^^ ev j) old b (j + 1) s' := by
  obtain ⟨ps', rfl, hpending, hother⟩ := hs
  have hcapacity : (b.items ++ (List.range j).map fun j =>
      gb j ^^^ ev j ^^^ filed k (pending (.ofNat 16 i) ps) old j).length < b.capacity := by
    simp
    omega
  refine ⟨_, slotStep_encode hi hm hj hl hblinding hloc _ ps' hcapacity, ?_⟩
  generalize hshares : pending (.ofNat 16 i) ps = shares at hpending ⊢
  have hidle : ∀ {r : PlainSlot × List PlainSignal},
      r = (⟨false, gb j ^^^ ev j, .ofNat 16 (k + taken k shares.length j)⟩, ps') →
      taken k shares.length (j + 1) = taken k shares.length j → filed k shares old j = old j →
      RowInv i k ps (fun j => gb j ^^^ ev j) old b (j + 1) ⟨word r.1.index,
        r.2.map PlainSignal.encode,
        (b.items ++ (List.range j).map fun j => gb j ^^^ ev j ^^^ filed k shares old j)
          ++ [r.1.location ^^^ if r.1.updated then 0 else old j], b.capacity⟩ := by
    rintro r rfl htaken hfiled
    refine ⟨ps', ?_, ?_, hother⟩
    · rw [hshares, htaken, List.range_succ, List.map_append, List.append_assoc, List.map_singleton,
        hfiled]
      rfl
    · rw [hshares, htaken, hpending]
  cases hnext : shares.drop (taken k shares.length j) with
  | nil =>
      have hfull := List.drop_eq_nil_iff.mp hnext
      exact hidle (pass_of_pending_nil (hpending.trans hnext)) (taken_full hfull) (filed_full hfull)
  | cons share rest =>
      have hlt : taken k shares.length j < shares.length := by
        by_contra hge
        rw [List.drop_eq_nil_iff.mpr (Nat.le_of_not_lt hge)] at hnext
        cases hnext
      rcases Nat.lt_or_ge j k with hearly | hfree
      · have hne : (.ofNat 16 j : Index) ≠ .ofNat 16 (k + taken k shares.length j) := by
          intro h
          have := congrArg BitVec.toNat h
          simp only [BitVec.toNat_ofNat, taken] at this
          omega
        refine hidle (pass_of_not_free (fun h => absurd h hne) _) (taken_early hearly) ?_
        rw [filed, if_neg (Nat.not_le_of_lt hearly)]
      · obtain ⟨hj', hsucc⟩ := taken_free hlt hfree
        obtain ⟨ps'', hpass, hrest, hother'⟩ := pass_of_pending_cons
          (s := ⟨false, gb j ^^^ ev j, .ofNat 16 (k + taken k shares.length j)⟩)
          (congrArg (BitVec.ofNat 16) hj') rfl (hpending.trans hnext)
        have hshare : shares[j - k]? = some share := by
          rw [show j - k = taken k shares.length j by omega, ← List.head?_drop, hnext]
          rfl
        refine ⟨ps'', ?_, ?_, ?_⟩
        · rw [hshares, hpass, hsucc, List.range_succ, List.map_append, List.append_assoc,
            List.map_singleton, filed, if_pos hfree, hshare]
          simp [BitVec.ofNat_add, BitVec.add_assoc]
        · rw [hshares, hrest, hsucc, ← List.drop_drop, hnext]
          rfl
        · intro i' hi'
          rw [hother' i' hi', hother i' hi']

variable (ps gb ev old b blindingRow locRow) in
theorem row_spec (hi : i < size.m) (hm : size.m < 65536) (hl : size.l < 65536) (hk : k ≤ size.l)
    (hblinding : ∀ j < size.l, blindingRow[j]? = some (word (gb j), word (ev j)))
    (hloc : ∀ j < size.l, locRow[j]? = some (word (old j)))
    (hb : b.items.length + size.l ≤ b.capacity) :
    ∃ s, (List.range size.l).foldlM (slotStep size i blindingRow locRow)
        ⟨word (.ofNat 16 k : Index), ps.map PlainSignal.encode, b⟩ = some s ∧
      RowInv i k ps (fun j => gb j ^^^ ev j) old b size.l s := by
  refine foldlM_range ?_ fun j hj s hs =>
    slotStep_rowInv hi hm hj hl hk (hblinding j hj) (hloc j hj) hb hs
  refine ⟨ps, ?_, ?_, fun _ _ => rfl⟩
  · simp [taken]
  · simp [taken]

end

/-! ## The table

Rows are independent, as a signal waits for one of them only.  The output is
blinded, slot by slot and row by row. -/

/-- The shares that the batch brings for `i`, in their order. -/
def sharesTo (i : Index) (signals : List ((Index × Index) × Location)) : List Location :=
  (signals.filter fun s => decide (i = s.1.1 ^^^ s.1.2)).map (·.2)

def plainSignal (s : (Index × Index) × Location) : PlainSignal := ⟨s.1.1 ^^^ s.1.2, s.2, false⟩

theorem pending_plainSignal (i : Index) (signals : List ((Index × Index) × Location)) :
    pending i (signals.map plainSignal) = sharesTo i signals := by
  rw [pending, sharesTo, List.filter_map, List.map_map]
  simp [Function.comp_def, plainSignal]
  rfl

theorem mapM_encodeSignal (signals : List ((Index × Index) × Location)) :
    (signals.map fun s => ((word s.1.1, word s.1.2), word s.2)).mapM encodeSignal
      = some ((signals.map plainSignal).map PlainSignal.encode) := by
  rw [List.mapM_map, List.map_map]
  refine mapM_of_forall fun s _ => ?_
  show encodeSignal ((word s.1.1, word s.1.2), word s.2) = _
  rw [encodeSignal, bytesXor_word]
  rfl

/-- The inputs of a run of the circuit, as words. -/
structure Inputs where
  size : TableSize
  /-- The evaluator's table. -/
  old : Nat → Nat → Location
  /-- The garbler's and the evaluator's shares of the index column. -/
  indexGb : Nat → Index
  indexEv : Nat → Index
  blindingGb : Nat → Nat → Location
  blindingEv : Nat → Nat → Location
  indexBlindingGb : Nat → Index
  indexBlindingEv : Nat → Index
  signals : List ((Index × Index) × Location)

namespace Inputs

variable (inp : Inputs)

def index (i : Nat) : Index := inp.indexGb i ^^^ inp.indexEv i

/-- The location that the circuit puts out at slot `j` of row `i`. -/
def newLocation (i j : Nat) : Location :=
  inp.blindingGb i j ^^^ inp.blindingEv i j
    ^^^ filed (inp.index i).toNat (sharesTo (.ofNat 16 i) inp.signals) (inp.old i) j

/-- The row's index counts the slots that were taken. -/
def nextIndex (i : Nat) : Index :=
  .ofNat 16 ((inp.index i).toNat
    + taken (inp.index i).toNat (sharesTo (.ofNat 16 i) inp.signals).length inp.size.l)

def newIndex (strategy : UpdateIndexesStrategy) (i : Nat) : Index :=
  inp.indexBlindingGb i ^^^ inp.indexBlindingEv i ^^^
    match strategy with
    | .A => inp.nextIndex i
    | .B => 0

def row (i : Nat) : Row where
  index := (word (inp.indexGb i), word (inp.indexEv i))
  indexBlinding := (word (inp.indexBlindingGb i), word (inp.indexBlindingEv i))
  locRow := (List.range inp.size.l).map fun j => word (inp.old i j)
  blindingRow := (List.range inp.size.l).map fun j =>
    (word (inp.blindingGb i j), word (inp.blindingEv i j))

/-- After `i` rows the signals to the rows to come still wait. -/
def TableInv (strategy : UpdateIndexesStrategy) (i : Nat) (s : CircuitState) : Prop :=
  ∃ ps, s = ⟨ps.map PlainSignal.encode,
      ⟨(List.range i).flatMap fun i => (List.range inp.size.l).map (inp.newLocation i),
        inp.size.m * inp.size.l⟩,
      ⟨(List.range i).map (inp.newIndex strategy), inp.size.m⟩⟩ ∧
    ∀ i', i ≤ i' → i' < inp.size.m →
      pending (.ofNat 16 i') ps = sharesTo (.ofNat 16 i') inp.signals

end Inputs

section
variable {inp : Inputs}

theorem rowStep_tableInv (hm : inp.size.m < 65536) (hl : inp.size.l < 65536) {i : Nat}
    (hi : i < inp.size.m) (hk : (inp.index i).toNat ≤ inp.size.l) (strategy : UpdateIndexesStrategy)
    {s : CircuitState} (hs : inp.TableInv strategy i s) :
    ∃ s', rowStep inp.size strategy s (inp.row i, i) = some s' ∧
      inp.TableInv strategy (i + 1) s' := by
  obtain ⟨ps, rfl, hpending⟩ := hs
  set done := (List.range i).flatMap fun i => (List.range inp.size.l).map (inp.newLocation i)
    with hdone
  have hlen : done.length = i * inp.size.l := by
    simp [hdone, List.length_flatMap]
  have hroom : done.length + inp.size.l ≤ inp.size.m * inp.size.l := by
    rw [hlen, ← Nat.succ_mul]
    exact Nat.mul_le_mul_right _ hi
  obtain ⟨r, hr, ps', rfl, -, hother⟩ := row_spec ps (inp.blindingGb i) (inp.blindingEv i)
    (inp.old i) ⟨done, inp.size.m * inp.size.l⟩ (inp.row i).blindingRow (inp.row i).locRow
    hi hm hl hk
    (by intro j hj; simp [Inputs.row, hj]) (by intro j hj; simp [Inputs.row, hj]) hroom
  rw [hpending i le_rfl hi, BitVec.ofNat_toNat, BitVec.setWidth_eq] at hr
  have hindexes : ((List.range i).map (inp.newIndex strategy)).length < inp.size.m := by
    simpa using hi
  refine ⟨⟨ps'.map PlainSignal.encode,
    ⟨done ++ (List.range inp.size.l).map (inp.newLocation i), inp.size.m * inp.size.l⟩,
    ⟨(List.range i).map (inp.newIndex strategy) ++ [inp.newIndex strategy i], inp.size.m⟩⟩,
    ?_, ps', ?_, ?_⟩
  · simp only [rowStep]
    rw [show bytesXor 16 (inp.row i).index.1 (inp.row i).index.2 = some (word (inp.index i))
        from bytesXor_word _ _,
      show bytesXor 16 (inp.row i).indexBlinding.1 (inp.row i).indexBlinding.2
        = some (word (inp.indexBlindingGb i ^^^ inp.indexBlindingEv i)) from bytesXor_word _ _]
    simp only [Option.bind_eq_bind, Option.bind_some]
    rw [hr]
    cases strategy with
    | A =>
        simp only [Option.bind_some, bytesXor_word]
        rw [Builder.processNext_word hindexes]
        rfl
    | B =>
        have hzero : inp.newIndex .B i = inp.indexBlindingGb i ^^^ inp.indexBlindingEv i :=
          BitVec.xor_zero
        simp only [Option.bind_some]
        rw [Builder.processNext_word hindexes, hzero]
        rfl
  · rw [hdone, List.range_succ, List.flatMap_append, List.map_append]
    simp
  · intro i' hle hlt
    have hne : (.ofNat 16 i' : Index) ≠ .ofNat 16 i := by
      intro h
      have := congrArg BitVec.toNat h
      simp only [BitVec.toNat_ofNat] at this
      omega
    rw [hother _ hne]
    exact hpending i' (Nat.le_of_succ_le hle) hlt

/-- One run of the circuit: every row takes the pending shares it has room for,
and only strategy `A` puts the new index out. -/
theorem batchedUpdateTableCircuit_spec (hm : inp.size.m < 65536) (hl : inp.size.l < 65536)
    (hk : ∀ i < inp.size.m, (inp.index i).toNat ≤ inp.size.l) (hsignals : inp.signals ≠ [])
    (strategy : UpdateIndexesStrategy) :
    batchedUpdateTableCircuit
      ⟨inp.size, (List.range inp.size.m).map fun i => (inp.row i).locRow⟩
      ⟨inp.size, (List.range inp.size.m).map fun i => (inp.row i).blindingRow⟩
      ((List.range inp.size.m).map fun i => (inp.row i).index)
      ((List.range inp.size.m).map fun i => (inp.row i).indexBlinding) strategy
      (inp.signals.map fun s => ((word s.1.1, word s.1.2), word s.2))
      ⟨[], inp.size.m * inp.size.l⟩ ⟨[], inp.size.m⟩
      = some ((List.range inp.size.m).flatMap fun i =>
          (List.range inp.size.l).map (inp.newLocation i),
        (List.range inp.size.m).map (inp.newIndex strategy)) := by
  have hrows : (((((List.range inp.size.m).map fun i => (inp.row i).index).zip
      ((List.range inp.size.m).map fun i => (inp.row i).indexBlinding)).zip
      ((List.range inp.size.m).map fun i => (inp.row i).locRow)).zip
      ((List.range inp.size.m).map fun i => (inp.row i).blindingRow)).map
        (fun r => (⟨r.1.1.1, r.1.1.2, r.1.2, r.2⟩ : Row))
      = (List.range inp.size.m).map inp.row := by
    simp [List.zip_map', List.map_map, Function.comp_def]
  have h₀ : inp.TableInv strategy 0 ⟨(inp.signals.map plainSignal).map PlainSignal.encode,
      ⟨[], inp.size.m * inp.size.l⟩, ⟨[], inp.size.m⟩⟩ :=
    ⟨inp.signals.map plainSignal, rfl, fun i' _ _ => pending_plainSignal _ _⟩
  obtain ⟨s, hs, ps, rfl, -⟩ := foldlM_range h₀
    fun i hi s hs => rowStep_tableInv hm hl hi (hk i hi) strategy hs
  have hsize : ¬ (inp.size ≠ inp.size ∨ inp.size.m
      ≠ ((List.range inp.size.m).map fun i => (inp.row i).index).length) := by
    simp
  have hne : ((inp.signals.map plainSignal).map PlainSignal.encode).length ≠ 0 := by
    simpa using hsignals
  rw [batchedUpdateTableCircuit, if_neg hsize, mapM_encodeSignal]
  simp only [Option.bind_eq_bind, Option.bind_some]
  rw [if_neg hne, hrows, foldlM_zipIdx_map_range, hs]
  simp [Builder.finish, List.length_flatMap]

end

/-! ## A row that is too long

`size.l as u16` wraps, so a slot from `65536` on has no constant and the look-up
panics, whatever the wires carry. -/

section
variable {size : TableSize} (hl : 65536 ≤ size.l)
include hl

end

end Pps

end PSVFSS

/-
# `Pps.SingleUpdate` — one signal at a time

The circuits from before the batched one: `update_table_circuit` writes one
location into the slot the recipient's index points at, and
`update_index_table_circuit` then counts the index up.  Signal by signal they
leave what one batch leaves, as long as every mailbox has room
(`singles_match_batch`); at a full mailbox the batched circuit stops counting and
these do not (`single_delivers_iff`).
-/
import PSVFSS.Pps.Servers

namespace PSVFSS

namespace Pps

open ByteBuffer Fancy Loop Grid

/-! ## The circuits

The older pair of circuits.  The first writes, the second counts, and neither
looks at whether there was room. -/

/-- The body of the loops of `update_table_circuit`, at row `i` and slot `j`. -/
def updateSlot (i j : Nat) (index receiver evaluatorLocShare prevLoc : Bundle)
    (r : Bundle × Bundle) : Option Bundle := do
  let conditionA ← bytesEq (bytesConstant (.ofNat 16 i : Index)) receiver
  let conditionB ← bytesEq (bytesConstant (.ofNat 16 j : Index)) index
  let condition ← and conditionA conditionB
  let maybeOverridden ← bytesMux 256 condition prevLoc evaluatorLocShare
  bytesXor 256 maybeOverridden (← bytesXor 256 r.1 r.2)

/-- The loop over the slots of row `i`. -/
def updateRow (l i : Nat) (index receiver evaluatorLocShare : Bundle) (locRow : List Bundle)
    (blindingRow : List (Bundle × Bundle)) (b : Builder 256) : Option (Builder 256) :=
  (List.range l).foldlM (fun b j => do
    let prevLoc ← locRow[j]?
    let r ← blindingRow[j]?
    b.processNext (← updateSlot i j index receiver evaluatorLocShare prevLoc r)) b

def updateTableCircuit (evaluatorTable : LazilyEncodedTable Bundle)
    (lastUpdTable : List (Bundle × Bundle)) (r : LazilyEncodedTable (Bundle × Bundle))
    (receiver : Bundle × Bundle) (evaluatorLocShare : Bundle) (outputBuilder : Builder 256) :
    Option (List Location) := do
  let size := evaluatorTable.size
  if size.m ≠ lastUpdTable.length ∨ size ≠ r.size then none
  else
    let receiver ← bytesXor 16 receiver.1 receiver.2
    let jointTables := (lastUpdTable.zip evaluatorTable.rows).zip r.rows
    let outputBuilder ← jointTables.zipIdx.foldlM (fun b row => do
      let index ← bytesXor 16 row.1.1.1.1 row.1.1.1.2
      updateRow size.l row.2 index receiver evaluatorLocShare row.1.1.2 row.1.2 b) outputBuilder
    outputBuilder.finish

/-- The body of the loop of `update_index_table_circuit`, at row `i`. -/
def updateIndex (i : Nat) (receiver : Bundle) (r : Bundle × Bundle) (lastUpdGb : Option Bundle)
    (lastUpdEv : Bundle) : Option Bundle := do
  let r ← bytesXor 16 r.1 r.2
  let index ← match lastUpdGb with
    | some lastUpdGb => do
        let indexWas ← bytesXor 16 lastUpdGb lastUpdEv
        let (indexNew, _) ← bytesAdd 16 indexWas oneIndex
        pure indexNew
    | none => pure (bytesConstant (0 : Index))
  let condition ← bytesEq (bytesConstant (.ofNat 16 i : Index)) receiver
  let maybeOverridden ← bytesMux 16 condition lastUpdEv index
  bytesXor 16 maybeOverridden r

/-- `update_index_table_circuit` and the output of its wires; without the
garbler's column there is nothing to count from. -/
def updateIndexTableCircuit (lastUpdTableGb : Option (List Bundle)) (lastUpdTableEv : List Bundle)
    (r : List (Bundle × Bundle)) (receiver : Bundle × Bundle) : Option (List Index) := do
  if ¬ lastUpdTableGb.all (fun gb => gb.length = lastUpdTableEv.length)
      ∨ lastUpdTableEv.length ≠ r.length then none
  else
    let receiver ← bytesXor 16 receiver.1 receiver.2
    let gb := (lastUpdTableGb.map fun gb => gb.map some).getD (lastUpdTableEv.map fun _ => none)
    let updatedTable ← (r.zip (gb.zip lastUpdTableEv)).zipIdx.mapM fun row =>
      updateIndex row.2 receiver row.1.1 row.1.2.1 row.1.2.2
    updatedTable.mapM (bytesOutput 16)

/-! ## Their runs

Four runs for one signal: each server evaluates a table and a column.  The
columns are read by the circuits for the tables before they are counted up. -/

section
variable {ρ : Type} (rng : Rng ρ)

/-- `update_table_garbler` and `update_table_evaluator`. -/
def updateTable (gbRng : ρ) (gbSize : TableSize) (gbColumn : IndexColumn) (gbReceiver : Index)
    (evRng : ρ) (table : LocationTable) (evColumn : IndexColumn) (evReceiver : Index)
    (share : List Byte) : Option LocationTable := do
  if gbSize.m ≠ gbColumn.length ∨ table.size.m ≠ evColumn.length then none
  else
    let share ← locationShare share
    let (blindingGb, _) ← LocationTable.random rng gbRng gbSize
    let (blindingEv, _) ← LocationTable.random rng evRng table.size
    -- the two ends of the channel have to stay in step
    if gbSize ≠ table.size then none
    else
      let size := table.size
      let flatTable ← updateTableCircuit ⟨size, table.rows.map fun row => row.map word⟩
        ((gbColumn.map word).zip (evColumn.map word))
        ⟨size, (blindingGb.rows.zip blindingEv.rows).map fun r =>
          (r.1.map word).zip (r.2.map word)⟩
        (word gbReceiver, word evReceiver) (word share) ⟨[], size.m * size.l⟩
      LocationTable.new flatTable size

/-- `update_index_garbler` and `update_index_evaluator`. -/
def updateIndexColumn (gbRng : ρ) (gbSize : Nat) (gbColumn : Option IndexColumn)
    (gbReceiver : Index) (evRng : ρ) (garblerProvidesItsTable : Bool) (evColumn : IndexColumn)
    (evReceiver : Index) : Option IndexColumn := do
  -- the two ends of the channel have to stay in step
  if ¬ gbColumn.all (fun gb => gbSize = gb.length) ∨ gbSize ≠ evColumn.length
      ∨ gbColumn.isSome ≠ garblerProvidesItsTable then none
  else
    updateIndexTableCircuit (gbColumn.map fun gb => gb.map word) (evColumn.map word)
      (((IndexColumn.random rng gbRng gbSize).1.map word).zip
        ((IndexColumn.random rng evRng evColumn.length).1.map word))
      (word gbReceiver, word evReceiver)

/-- One signal: the tables first, then the columns; in both `A` garbles first. -/
def Servers.single (seedA seedB indexSeedA indexSeedB : ρ) (size : TableSize) (s : Servers)
    (x : SignalShares) : Option Servers := do
  let newTableB ← updateTable rng seedA size s.lastUpdTableA x.receiverA
    seedB s.tableB s.lastUpdTableB x.receiverB x.locB
  let newTableA ← updateTable rng seedB size s.lastUpdTableB x.receiverB
    seedA s.tableA s.lastUpdTableA x.receiverA x.locA
  let newIndexesB ← updateIndexColumn rng indexSeedA size.m (some s.lastUpdTableA) x.receiverA
    indexSeedB true s.lastUpdTableB x.receiverB
  let newIndexesA ← updateIndexColumn rng indexSeedB size.m none x.receiverB
    indexSeedA false s.lastUpdTableA x.receiverA
  return ⟨newTableA, newTableB, newIndexesA, newIndexesB⟩

end

/-! ## What they compute

The output for a slot: what was there, or the new share, under the blindings
of both parties. -/

theorem updateSlot_word (i j : Nat) (index receiver : Index) (share prevLoc gb ev : Location) :
    updateSlot i j (word index) (word receiver) (word share) (word prevLoc) (word gb, word ev)
      = some (word ((if (.ofNat 16 i : Index) = receiver ∧ (.ofNat 16 j : Index) = index then share
          else prevLoc) ^^^ (gb ^^^ ev))) := by
  simp only [updateSlot, bytesConstant_word, bytesEq_word _ _ (show 2 ≤ 16 by decide),
    Option.bind_eq_bind, Option.bind_some, and_bit, bytesMux_word, bytesXor_word,
    Bool.and_eq_true, decide_eq_true_eq]

theorem updateIndex_word (i : Nat) (receiver gb ev : Index) (lastUpdGb : Option Index)
    (lastUpdEv : Index) :
    updateIndex i (word receiver) (word gb, word ev) (lastUpdGb.map word) (word lastUpdEv)
      = some (word ((if (.ofNat 16 i : Index) = receiver then
          (match lastUpdGb with
            | some lastUpdGb => (lastUpdGb ^^^ lastUpdEv) + 1
            | none => 0)
          else lastUpdEv) ^^^ (gb ^^^ ev))) := by
  cases lastUpdGb with
  | none =>
      simp only [updateIndex, Option.map_none, bytesConstant_word, Option.bind_eq_bind,
        Option.bind_some, bytesEq_word _ _ (show 2 ≤ 16 by decide), bytesMux_word, bytesXor_word,
        decide_eq_true_eq, Option.pure_def]
  | some lastUpdGb =>
      obtain ⟨c, hadd⟩ := bytesAdd_word (lastUpdGb ^^^ lastUpdEv) (1 : Index) (by decide)
      simp only [updateIndex, Option.map_some, oneIndex, bytesConstant_word, Option.bind_eq_bind,
        Option.bind_some, bytesEq_word _ _ (show 2 ≤ 16 by decide), bytesMux_word, bytesXor_word,
        hadd, decide_eq_true_eq, Option.pure_def]

/-- Slot `j` of row `i` after one signal with share `share` for `receiver`. -/
def overridden (receiver : Index) (share : Location) (index : Nat → Index)
    (old : Nat → Nat → Location) (i j : Nat) : Location :=
  if (.ofNat 16 i : Index) = receiver ∧ (.ofNat 16 j : Index) = index i then share else old i j

section
variable (size : TableSize) (old gb ev : Nat → Nat → Location) (indexGb indexEv : Nat → Index)
  (receiverGb receiverEv : Index) (share : Location)

/-- The output for slot `j` of row `i`. -/
def blindedSlot (i j : Nat) : Location :=
  overridden (receiverGb ^^^ receiverEv) share (fun i => indexGb i ^^^ indexEv i) old i j
    ^^^ (gb i j ^^^ ev i j)

theorem updateRow_word (l i : Nat) {b : Builder 256} (hb : b.items.length + l ≤ b.capacity) :
    updateRow l i (word (indexGb i ^^^ indexEv i)) (word (receiverGb ^^^ receiverEv)) (word share)
      ((List.range l).map fun j => word (old i j))
      ((List.range l).map fun j => (word (gb i j), word (ev i j))) b
      = some ⟨b.items ++ (List.range l).map
          (blindedSlot old gb ev indexGb indexEv receiverGb receiverEv share i), b.capacity⟩ := by
  set new := blindedSlot old gb ev indexGb indexEv receiverGb receiverEv share i with hnew
  have hslot : ∀ j < l, ∀ b' : Builder 256,
      b' = ⟨b.items ++ (List.range j).map new, b.capacity⟩ →
      ∃ b'', (do
          let prevLoc ← ((List.range l).map fun j => word (old i j))[j]?
          let r ← ((List.range l).map fun j => (word (gb i j), word (ev i j)))[j]?
          b'.processNext (← updateSlot i j (word (indexGb i ^^^ indexEv i))
            (word (receiverGb ^^^ receiverEv)) (word share) prevLoc r)) = some b'' ∧
        b'' = ⟨b.items ++ (List.range (j + 1)).map new, b.capacity⟩ := by
    rintro j hj b' rfl
    have hroom : (b.items ++ (List.range j).map new).length < b.capacity := by
      simp
      omega
    refine ⟨_, ?_, rfl⟩
    rw [List.getElem?_map, List.getElem?_range hj, List.getElem?_map, List.getElem?_range hj]
    simp only [Option.map_some, Option.bind_eq_bind, Option.bind_some, updateSlot_word]
    rw [Builder.processNext_word hroom, List.range_succ, List.map_append, List.append_assoc]
    rfl
  obtain ⟨b', hb', rfl⟩ := foldlM_range (s := b)
    (P := fun j (b' : Builder 256) => b' = ⟨b.items ++ (List.range j).map new, b.capacity⟩)
    (by simp) hslot
  exact hb'

theorem updateTableCircuit_spec :
    updateTableCircuit
      ⟨size, (List.range size.m).map fun i => (List.range size.l).map fun j => word (old i j)⟩
      ((List.range size.m).map fun i => (word (indexGb i), word (indexEv i)))
      ⟨size, (List.range size.m).map fun i => (List.range size.l).map fun j =>
        (word (gb i j), word (ev i j))⟩
      (word receiverGb, word receiverEv) (word share) ⟨[], size.m * size.l⟩
      = some ((List.range size.m).flatMap fun i => (List.range size.l).map
          (blindedSlot old gb ev indexGb indexEv receiverGb receiverEv share i)) := by
  set new := blindedSlot old gb ev indexGb indexEv receiverGb receiverEv share with hnew
  have hsize : ¬ (size.m ≠ ((List.range size.m).map fun i =>
      (word (indexGb i), word (indexEv i))).length ∨ size ≠ size) := by
    simp
  have hrow : ∀ i < size.m, ∀ b : Builder 256,
      b = ⟨(List.range i).flatMap fun i => (List.range size.l).map (new i), size.m * size.l⟩ →
      ∃ b', (do
          let index ← bytesXor 16 (word (indexGb i)) (word (indexEv i))
          updateRow size.l i index (word (receiverGb ^^^ receiverEv)) (word share)
            ((List.range size.l).map fun j => word (old i j))
            ((List.range size.l).map fun j => (word (gb i j), word (ev i j))) b) = some b' ∧
        b' = ⟨(List.range (i + 1)).flatMap fun i => (List.range size.l).map (new i),
          size.m * size.l⟩ := by
    rintro i hi b rfl
    have hroom : ((List.range i).flatMap fun i => (List.range size.l).map (new i)).length
        + size.l ≤ size.m * size.l := by
      rw [length_flatMap_range, ← Nat.succ_mul]
      exact Nat.mul_le_mul_right _ hi
    refine ⟨_, ?_, rfl⟩
    simp only [bytesXor_word, Option.bind_eq_bind, Option.bind_some]
    rw [updateRow_word old gb ev indexGb indexEv receiverGb receiverEv share _ _ hroom,
      List.range_succ, List.flatMap_append, List.flatMap_singleton]
  obtain ⟨b, hb, rfl⟩ := foldlM_range
    (P := fun i (b : Builder 256) => b = ⟨(List.range i).flatMap fun i =>
      (List.range size.l).map (new i), size.m * size.l⟩) (s := ⟨[], size.m * size.l⟩) rfl hrow
  rw [updateTableCircuit, if_neg hsize]
  simp only [bytesXor_word, Option.bind_eq_bind, Option.bind_some, zip_map_range,
    foldlM_zipIdx_map_range] at hb ⊢
  rw [hb]
  simp [Builder.finish]

end

/-- The output for row `i` of the column. -/
def blindedIndex (receiver : Index) (gb : Option (Nat → Index)) (lastUpdEv blinding : Nat → Index)
    (i : Nat) : Index :=
  (if (.ofNat 16 i : Index) = receiver then
    (match gb with
      | some gb => (gb i ^^^ lastUpdEv i) + 1
      | none => 0)
    else lastUpdEv i) ^^^ blinding i

theorem updateIndexTableCircuit_spec {m : Nat} (gb : Option (Nat → Index))
    (lastUpdEv rGb rEv : Nat → Index) (receiverGb receiverEv : Index) :
    updateIndexTableCircuit (gb.map fun f => (List.range m).map fun i => word (f i))
      ((List.range m).map fun i => word (lastUpdEv i))
      ((List.range m).map fun i => (word (rGb i), word (rEv i))) (word receiverGb, word receiverEv)
      = some ((List.range m).map (blindedIndex (receiverGb ^^^ receiverEv) gb lastUpdEv
          fun i => rGb i ^^^ rEv i)) := by
  have hcolumn : ∀ i : Nat, updateIndex i (word (receiverGb ^^^ receiverEv))
      (word (rGb i), word (rEv i)) ((gb.map fun f => f i).map word) (word (lastUpdEv i))
      = some (word (blindedIndex (receiverGb ^^^ receiverEv) gb lastUpdEv
          (fun i => rGb i ^^^ rEv i) i)) := by
    intro i
    rw [updateIndex_word]
    cases gb <;> rfl
  have houtput : ((List.range m).map fun i => word (blindedIndex (receiverGb ^^^ receiverEv) gb
      lastUpdEv (fun i => rGb i ^^^ rEv i) i)).mapM (bytesOutput 16)
      = some ((List.range m).map (blindedIndex (receiverGb ^^^ receiverEv) gb lastUpdEv
          fun i => rGb i ^^^ rEv i)) := by
    rw [List.mapM_map]
    exact mapM_of_forall fun i _ => bytesOutput_word _
  have hrows : ∀ (gs : List (Option Bundle)), gs = ((List.range m).map fun i =>
      (gb.map fun f => f i).map word) →
      ((((List.range m).map fun i => (word (rGb i), word (rEv i))).zip
        (gs.zip ((List.range m).map fun i => word (lastUpdEv i)))).zipIdx.mapM fun row =>
          updateIndex row.2 (word (receiverGb ^^^ receiverEv)) row.1.1 row.1.2.1 row.1.2.2)
      = some ((List.range m).map fun i => word (blindedIndex (receiverGb ^^^ receiverEv) gb
          lastUpdEv (fun i => rGb i ^^^ rEv i) i)) := by
    rintro gs rfl
    rw [zip_map_range, zip_map_range, zipIdx_map_range, List.mapM_map]
    exact mapM_of_forall fun i _ => hcolumn i
  rw [updateIndexTableCircuit, if_neg (by cases gb <;> simp)]
  simp only [bytesXor_word, Option.bind_eq_bind, Option.bind_some]
  rw [hrows _ (by cases gb <;> simp [Function.comp_def])]
  exact houtput

/-! ## A signal, on both servers

Added up, the two servers' slots hold the location where the index points.  A
mailbox that is full has its index past the last slot. -/

section
variable {ρ : Type} (rng : Rng ρ)

theorem updateTable_spec (gbRng evRng : ρ) (gbColumn evColumn : IndexColumn)
    (table : LocationTable) {share : List Byte} (hm : 0 < table.size.m) (hl : 0 < table.size.l)
    (hgb : gbColumn.length = table.size.m) (hev : evColumn.length = table.size.m)
    (hshare : share.length = 32) (gbReceiver evReceiver : Index) :
    ∃ table' : LocationTable, updateTable rng gbRng table.size gbColumn gbReceiver evRng table
        evColumn evReceiver share = some table' ∧ table'.size = table.size ∧
      ∀ i < table.size.m, ∀ j < table.size.l, table'.entry i j
        = overridden (gbReceiver ^^^ evReceiver) (locationOfBytes share)
            (fun i => (gbColumn[i]?).getD 0 ^^^ (evColumn[i]?).getD 0) table.entry i j
          ^^^ (blinding rng gbRng table.size i j ^^^ blinding rng evRng table.size i j) := by
  obtain ⟨gb, hgbp, hgbRows⟩ := random_table rng (s := gbRng) hm hl
  obtain ⟨ev, hevp, hevRows⟩ := random_table rng (s := evRng) hm hl
  have hspec := updateTableCircuit_spec table.size table.entry
    (blinding rng gbRng table.size) (blinding rng evRng table.size)
    (fun i => (gbColumn[i]?).getD 0) (fun i => (evColumn[i]?).getD 0) gbReceiver evReceiver
    (locationOfBytes share)
  set new := blindedSlot table.entry (blinding rng gbRng table.size)
    (blinding rng evRng table.size) (fun i => (gbColumn[i]?).getD 0)
    (fun i => (evColumn[i]?).getD 0) gbReceiver evReceiver (locationOfBytes share) with hnew
  have hlen : ((List.range table.size.m).flatMap fun i =>
      (List.range table.size.l).map (new i)).length = table.size.m * table.size.l :=
    length_flatMap_range _ _ _
  refine ⟨⟨_, table.size, hlen⟩, ?_, rfl, ?_⟩
  · have hsizes : ¬ (table.size.m ≠ gbColumn.length ∨ table.size.m ≠ evColumn.length) := by
      simp [hgb, hev]
    rw [updateTable, if_neg hsizes, locationShare, if_pos hshare]
    simp only [Option.bind_eq_bind, Option.bind_some, hgbp, hevp, ne_eq, not_true_eq_false,
      if_false, rows_word, hgbRows, hevRows, zip_rows_word, columns_eq hgb hev, hspec]
    rw [LocationTable.new, dif_pos hlen]
  · intro i hi j hj
    exact congrArg (Option.getD · 0) (getElem?_flatMap_range new hi hj)

/-- Entry `i` of a column. -/
abbrev columnAt (column : IndexColumn) (i : Nat) : Index := (column[i]?).getD 0

theorem updateIndexColumn_spec (gbRng evRng : ρ) {m : Nat} (gbColumn : Option IndexColumn)
    {evColumn : IndexColumn} (hgb : ∀ gb ∈ gbColumn, gb.length = m) (hev : evColumn.length = m)
    (gbReceiver evReceiver : Index) :
    updateIndexColumn rng gbRng m gbColumn gbReceiver evRng gbColumn.isSome evColumn evReceiver
      = some ((List.range m).map (blindedIndex (gbReceiver ^^^ evReceiver)
          (gbColumn.map columnAt) (fun i => (evColumn[i]?).getD 0)
          fun i => columnBlinding rng gbRng m i ^^^ columnBlinding rng evRng m i)) := by
  have hspec := updateIndexTableCircuit_spec (m := m) (gbColumn.map columnAt)
    (fun i => (evColumn[i]?).getD 0) (columnBlinding rng gbRng m) (columnBlinding rng evRng m)
    gbReceiver evReceiver
  have hmap : ∀ {column : IndexColumn}, column.length = m →
      column.map word = (List.range m).map fun i => word ((column[i]?).getD 0) := by
    intro column hcolumn
    have h := eq_map_range (0 : Index) column
    rw [hcolumn] at h
    conv_lhs => rw [h, List.map_map]
    rfl
  have hgbMap : (gbColumn.map fun gb => gb.map word)
      = (gbColumn.map columnAt).map fun f =>
        (List.range m).map fun i => word (f i) := by
    cases gbColumn with
    | none => rfl
    | some gb => exact congrArg some (hmap (hgb gb rfl))
  have hfits : ¬ (¬ gbColumn.all (fun gb => m = gb.length) ∨ m ≠ evColumn.length
      ∨ gbColumn.isSome ≠ gbColumn.isSome) := by
    cases gbColumn with
    | none => simp [hev]
    | some gb => simp [hev, hgb gb rfl]
  rw [updateIndexColumn, if_neg hfits, hgbMap, hmap hev, hev, random_column, random_column,
    List.map_map, List.map_map, zip_map_range]
  exact hspec

theorem blindings_cancel' {w : Nat} (a b x y : BitVec w) :
    (x ^^^ (b ^^^ a)) ^^^ (y ^^^ (a ^^^ b)) = x ^^^ y := by
  rw [BitVec.xor_comm x, BitVec.xor_comm y, blindings_cancel]

/-- A signal replaces the slot its recipient's index points at, and counts. -/
theorem single_contents {size : TableSize} (hm : 0 < size.m) (hl : 0 < size.l) {s : Servers}
    {table : Nat → Nat → Location} {index : Nat → Index} (hs : Contents size table index s)
    {x : SignalShares} (hlocA : x.locA.length = 32) (hlocB : x.locB.length = 32)
    (seedA seedB indexSeedA indexSeedB : ρ) :
    ∃ s', s.single rng seedA seedB indexSeedA indexSeedB size x = some s' ∧
      Contents size
        (overridden (x.receiverA ^^^ x.receiverB)
          (locationOfBytes x.locA ^^^ locationOfBytes x.locB) index table)
        (fun i => if (.ofNat 16 i : Index) = x.receiverA ^^^ x.receiverB then index i + 1
          else index i) s' := by
  obtain ⟨tableA, tableB, colA, colB⟩ := s
  obtain ⟨hsizeA, hsizeB, hcolA, hcolB, hentries, hindexes⟩ := hs
  simp only at hsizeA hsizeB hcolA hcolB hentries hindexes
  obtain ⟨tableB', hrunB, hsizeB', hentryB⟩ := updateTable_spec rng seedA seedB colA colB tableB
    (hsizeB ▸ hm) (hsizeB ▸ hl) (hsizeB ▸ hcolA) (hsizeB ▸ hcolB) hlocB x.receiverA x.receiverB
  obtain ⟨tableA', hrunA, hsizeA', hentryA⟩ := updateTable_spec rng seedB seedA colB colA tableA
    (hsizeA ▸ hm) (hsizeA ▸ hl) (hsizeA ▸ hcolB) (hsizeA ▸ hcolA) hlocA x.receiverB x.receiverA
  have hindexB := updateIndexColumn_spec rng indexSeedA indexSeedB (some colA)
    (by rintro gb ⟨rfl⟩; exact hcolA) hcolB x.receiverA x.receiverB
  have hindexA := updateIndexColumn_spec rng indexSeedB indexSeedA none (by rintro gb ⟨⟩) hcolA
    x.receiverB x.receiverA
  simp only [hsizeB] at hrunB hsizeB' hentryB
  simp only [hsizeA] at hrunA hsizeA' hentryA
  set newB := blindedIndex (x.receiverA ^^^ x.receiverB) ((some colA).map columnAt)
    (fun i => (colB[i]?).getD 0)
    fun i => columnBlinding rng indexSeedA size.m i ^^^ columnBlinding rng indexSeedB size.m i
    with hnewB
  set newA := blindedIndex (x.receiverB ^^^ x.receiverA) (none.map columnAt)
    (fun i => (colA[i]?).getD 0)
    fun i => columnBlinding rng indexSeedB size.m i ^^^ columnBlinding rng indexSeedA size.m i
    with hnewA
  have hrec : x.receiverB ^^^ x.receiverA = x.receiverA ^^^ x.receiverB := BitVec.xor_comm _ _
  refine ⟨⟨tableA', tableB', (List.range size.m).map newA, (List.range size.m).map newB⟩, ?_,
    hsizeA', hsizeB', by simp, by simp, ?_, ?_⟩
  · simp only [Servers.single, Option.bind_eq_bind, hrunB, hrunA, Option.bind_some]
    rw [show true = (some colA).isSome from rfl, hindexB,
      show false = (none : Option IndexColumn).isSome from rfl, hindexA]
    rfl
  · intro i hi j hj
    show tableA'.entry i j ^^^ tableB'.entry i j = _
    rw [hentryA i hi j hj, hentryB i hi j hj, blindings_cancel', overridden, overridden, overridden,
      hrec, BitVec.xor_comm ((colB[i]?).getD 0), hindexes i hi, ← hentries i hi j hj]
    split <;> rfl
  · intro i hi
    have hget : ∀ f : Nat → Index, (((List.range size.m).map f)[i]?).getD 0 = f i := by
      intro f
      simp [hi]
    show (((List.range size.m).map _)[i]?).getD 0 ^^^ (((List.range size.m).map _)[i]?).getD 0 = _
    rw [hget, hget, hnewA, hnewB]
    simp only [blindedIndex, Option.map_none, Option.map_some, blindings_cancel', hrec,
      hindexes i hi]
    split
    · exact BitVec.zero_xor
    · exact hindexes i hi

theorem deliver_other {l i : Nat} {boxes : Nat → List Location} {x : SignalShares}
    (h : addressed i x = false) (hroom : (boxes i).length ≤ l) :
    deliver l boxes [x] i = boxes i := by
  rw [deliver, messagesTo, List.filter_singleton, h, cond_false, List.map_nil, List.append_nil,
    List.take_of_length_le hroom]

theorem deliver_addressed {l i : Nat} {boxes : Nat → List Location} {x : SignalShares}
    (h : addressed i x = true) : deliver l boxes [x] i
      = (boxes i ++ [locationOfBytes x.locA ^^^ locationOfBytes x.locB]).take l := by
  rw [deliver, messagesTo, List.filter_singleton, h]
  rfl

theorem getD_append_singleton {box : List Location} (loc : Location) (j : Nat) :
    ((box ++ [loc])[j]?).getD 0 = if j = box.length then loc else (box[j]?).getD 0 := by
  rcases Nat.lt_trichotomy j box.length with hlt | rfl | hgt
  · rw [List.getElem?_append_left hlt, if_neg hlt.ne]
  · rw [List.getElem?_concat_length, if_pos rfl]
    rfl
  · rw [List.getElem?_eq_none (by simpa using Nat.succ_le_of_lt hgt), if_neg hgt.ne',
      List.getElem?_eq_none (Nat.le_of_lt hgt)]

theorem ofNat_eq_iff {a b : Nat} (ha : a < 65536) (hb : b < 65536) :
    (.ofNat 16 a : Index) = .ofNat 16 b ↔ a = b := by
  rw [← BitVec.toNat_inj, BitVec.toNat_ofNat, BitVec.toNat_ofNat, Nat.mod_eq_of_lt ha,
    Nat.mod_eq_of_lt hb]

theorem ofNat_add_one (n : Nat) : (.ofNat 16 n : Index) + 1 = .ofNat 16 (n + 1) :=
  (BitVec.ofNat_add n 1).symm

/-- A signal that finds room in its recipient's mailbox is delivered. -/
theorem holds_of_room {size : TableSize} (hl' : size.l < 65536) {boxes : Nat → List Location}
    (hfit : ∀ i < size.m, (boxes i).length ≤ size.l) {x : SignalShares} {s' : Servers}
    (hcontents : Contents size
      (overridden (x.receiverA ^^^ x.receiverB)
        (locationOfBytes x.locA ^^^ locationOfBytes x.locB)
        (fun i => .ofNat 16 (boxes i).length) fun i j => ((boxes i)[j]?).getD 0)
      (fun i => if (.ofNat 16 i : Index) = x.receiverA ^^^ x.receiverB then
          (.ofNat 16 (boxes i).length : Index) + 1
        else .ofNat 16 (boxes i).length) s')
    (hroom : ∀ i < size.m, addressed i x = true → (boxes i).length < size.l) :
    Holds size (deliver size.l boxes [x]) s' := by
  refine ⟨⟨hcontents.sizeA, hcontents.sizeB, hcontents.columnA, hcontents.columnB, ?_, ?_⟩,
    fun i hi => List.length_take_le _ _⟩
  · intro i hi j hj
    rw [hcontents.entries i hi j hj, overridden]
    cases haddressed : addressed i x with
    | false =>
        rw [deliver_other haddressed (hfit i hi),
          if_neg fun h => (of_decide_eq_false haddressed) h.1]
    | true =>
        have hlt := hroom i hi haddressed
        rw [deliver_addressed haddressed, List.getElem?_take, if_pos hj, getD_append_singleton]
        refine if_congr ?_ rfl rfl
        rw [ofNat_eq_iff (hj.trans hl') (hlt.trans hl')]
        exact and_iff_right (of_decide_eq_true haddressed)
  · intro i hi
    rw [hcontents.indexes i hi]
    cases haddressed : addressed i x with
    | false =>
        rw [deliver_other haddressed (hfit i hi), if_neg (of_decide_eq_false haddressed)]
    | true =>
        have hlt := hroom i hi haddressed
        rw [deliver_addressed haddressed, if_pos (of_decide_eq_true haddressed), List.length_take,
          List.length_append, List.length_singleton, Nat.min_eq_right hlt, ofNat_add_one]

/-- At a full mailbox no slot is the one the index points at. -/
theorem full_unchanged {size : TableSize} (hl' : size.l < 65536) {table : Nat → Nat → Location}
    {index : Nat → Index} (receiver : Index) (share : Location) {i : Nat}
    (hindex : index i = .ofNat 16 size.l) {j : Nat} (hj : j < size.l) :
    overridden receiver share index table i j = table i j := by
  refine if_neg fun h => hj.ne ?_
  exact (ofNat_eq_iff (hj.trans hl') hl').mp (h.2.trans hindex)

/-- A signal is delivered if and only if its recipient's mailbox has room.  A full
mailbox stays as it is, but its index goes on counting. -/
theorem single_delivers_iff {size : TableSize} (hm : 0 < size.m) (hl : 0 < size.l)
    (hl' : size.l < 65536) {boxes : Nat → List Location} {s : Servers} (hs : Holds size boxes s)
    {x : SignalShares} (hlocA : x.locA.length = 32) (hlocB : x.locB.length = 32)
    (seedA seedB indexSeedA indexSeedB : ρ) :
    ∃ s', s.single rng seedA seedB indexSeedA indexSeedB size x = some s' ∧
      (Holds size (deliver size.l boxes [x]) s'
        ↔ ∀ i < size.m, addressed i x = true → (boxes i).length < size.l) ∧
      ∀ i < size.m, addressed i x = true → (boxes i).length = size.l →
        (∀ j < size.l, s'.tableA.entry i j ^^^ s'.tableB.entry i j
          = s.tableA.entry i j ^^^ s.tableB.entry i j) ∧
        (s'.lastUpdTableA[i]?).getD 0 ^^^ (s'.lastUpdTableB[i]?).getD 0
          = .ofNat 16 (size.l + 1) := by
  obtain ⟨s', hs', hcontents⟩ := single_contents rng hm hl hs.toContents hlocA hlocB seedA seedB
    indexSeedA indexSeedB
  have hfull : ∀ i < size.m, addressed i x = true → (boxes i).length = size.l →
      (s'.lastUpdTableA[i]?).getD 0 ^^^ (s'.lastUpdTableB[i]?).getD 0
        = .ofNat 16 (size.l + 1) := by
    intro i hi haddressed hlen
    rw [hcontents.indexes i hi, if_pos (of_decide_eq_true haddressed), hlen, ofNat_add_one]
  refine ⟨s', hs', ⟨?_, holds_of_room hl' hs.room hcontents⟩, fun i hi haddressed hlen =>
    ⟨fun j hj => ?_, hfull i hi haddressed hlen⟩⟩
  · intro hholds i hi haddressed
    by_contra hge
    have hlen : (boxes i).length = size.l :=
      Nat.le_antisymm (hs.room i hi) (Nat.le_of_not_lt hge)
    have hcount := (hfull i hi haddressed hlen).symm.trans (hholds.indexes i hi)
    rw [deliver_addressed haddressed, List.length_take, List.length_append, List.length_singleton,
      hlen, Nat.min_eq_left (Nat.le_succ _)] at hcount
    have hvalue := congrArg BitVec.toNat hcount
    simp only [BitVec.toNat_ofNat] at hvalue
    omega
  · rw [hcontents.entries i hi j hj, hs.entries i hi j hj]
    refine full_unchanged hl' _ _ ?_ hj
    rw [hlen]

/-- A second signal for recipient `1` finds its mailbox of one slot full. -/
theorem single_delivers_iff_sample :
    ∃ s₀ s₁ s', Servers.setup sampleRng ⟨2, 1⟩ = some s₀ ∧
      s₀.batch sampleRng 1 2 ⟨2, 1⟩ [sampleSignal] = some s₁ ∧
      s₁.single sampleRng 1 2 3 4 ⟨2, 1⟩ sampleSignal = some s' ∧
      (Holds ⟨2, 1⟩ (deliver 1 (deliver 1 (fun _ => []) [sampleSignal]) [sampleSignal]) s'
        ↔ ∀ i < 2, addressed i sampleSignal = true →
          (deliver 1 (fun _ => []) [sampleSignal] i).length < 1) ∧
      ∀ i < 2, addressed i sampleSignal = true →
        (deliver 1 (fun _ => []) [sampleSignal] i).length = 1 →
        (∀ j < 1, s'.tableA.entry i j ^^^ s'.tableB.entry i j
          = s₁.tableA.entry i j ^^^ s₁.tableB.entry i j) ∧
        (s'.lastUpdTableA[i]?).getD 0 ^^^ (s'.lastUpdTableB[i]?).getD 0 = .ofNat 16 2 := by
  obtain ⟨s₀, hs₀, hholds₀⟩ := setup_holds sampleRng ⟨2, 1⟩ (by decide) (by decide)
  obtain ⟨s₁, hs₁, hholds₁⟩ := batch_holds sampleRng (by decide) (by decide) (by decide)
    (by decide) hholds₀ [sampleSignal] (by decide) (by decide) 1 2
  obtain ⟨s', hs', hsingle⟩ := single_delivers_iff sampleRng (by decide) (by decide) (by decide)
    hholds₁ (x := sampleSignal) (by decide) (by decide) 1 2 3 4
  exact ⟨s₀, s₁, s', hs₀, hs₁, hs', hsingle⟩

/-- Signal by signal, each with the seeds of its blindings. -/
def Servers.singles (size : TableSize) (s : Servers)
    (xs : List ((ρ × ρ × ρ × ρ) × SignalShares)) : Option Servers :=
  xs.foldlM (fun s x => s.single rng x.1.1 x.1.2.1 x.1.2.2.1 x.1.2.2.2 size x.2) s

theorem singles_holds {size : TableSize} (hm : 0 < size.m) (hl : 0 < size.l)
    (hl' : size.l < 65536) {boxes : Nat → List Location} {s : Servers} (hs : Holds size boxes s)
    {xs : List ((ρ × ρ × ρ × ρ) × SignalShares)}
    (hshares : ∀ x ∈ xs, x.2.locA.length = 32 ∧ x.2.locB.length = 32)
    (hroom : ∀ i < size.m, (boxes i).length + (messagesTo i (xs.map (·.2))).length ≤ size.l) :
    ∃ s', s.singles rng size xs = some s' ∧
      Holds size (deliver size.l boxes (xs.map (·.2))) s' := by
  induction xs generalizing boxes s with
  | nil =>
      refine ⟨s, rfl, hs.congr fun i hi => ?_⟩
      show (boxes i ++ []).take size.l = boxes i
      rw [List.append_nil, List.take_of_length_le (hs.room i hi)]
  | cons x xs ih =>
      obtain ⟨hlocA, hlocB⟩ := hshares x List.mem_cons_self
      have hsplit : ∀ i, messagesTo i ((x :: xs).map (·.2))
          = messagesTo i [x.2] ++ messagesTo i (xs.map (·.2)) := by
        intro i
        exact messagesTo_append i [x.2] (xs.map Prod.snd)
      obtain ⟨s₁, hs₁, hcontents⟩ := single_contents rng hm hl hs.toContents hlocA hlocB x.1.1
        x.1.2.1 x.1.2.2.1 x.1.2.2.2
      have hholds₁ := holds_of_room hl' hs.room hcontents fun i hi haddressed => by
        have h := hroom i hi
        rw [hsplit, messagesTo, List.filter_singleton, haddressed] at h
        simp at h
        omega
      obtain ⟨s', hs', hholds'⟩ := ih hholds₁ (fun y hy => hshares y (List.mem_cons_of_mem _ hy))
        fun i hi => by
          have h := hroom i hi
          have hle : (deliver size.l boxes [x.2] i).length
              ≤ (boxes i).length + (messagesTo i [x.2]).length := by
            rw [deliver, List.length_take, List.length_append]
            exact Nat.min_le_right _ _
          rw [hsplit, List.length_append] at h
          omega
      refine ⟨s', ?_, ?_⟩
      · rw [Servers.singles, List.foldlM_cons, hs₁]
        exact hs'
      · rw [deliver_deliver] at hholds'
        exact hholds'

/-- While the mailboxes have room, signal by signal or in one batch is the same. -/
theorem singles_match_batch {size : TableSize} (hm : 0 < size.m) (hm' : size.m < 65536)
    (hl : 0 < size.l) (hl' : size.l < 65536) {boxes : Nat → List Location} {s : Servers}
    (hs : Holds size boxes s) (xs : List ((ρ × ρ × ρ × ρ) × SignalShares)) (hne : xs ≠ [])
    (hshares : ∀ x ∈ xs, x.2.locA.length = 32 ∧ x.2.locB.length = 32)
    (hroom : ∀ i < size.m, (boxes i).length + (messagesTo i (xs.map (·.2))).length ≤ size.l)
    (seedA seedB : ρ) :
    ∃ s₁ s₂, s.singles rng size xs = some s₁ ∧
      s.batch rng seedA seedB size (xs.map (·.2)) = some s₂ ∧
      (∀ i < size.m, ∀ j < size.l, s₁.tableA.entry i j ^^^ s₁.tableB.entry i j
        = s₂.tableA.entry i j ^^^ s₂.tableB.entry i j) ∧
      ∀ i < size.m, (s₁.lastUpdTableA[i]?).getD 0 ^^^ (s₁.lastUpdTableB[i]?).getD 0
        = (s₂.lastUpdTableA[i]?).getD 0 ^^^ (s₂.lastUpdTableB[i]?).getD 0 := by
  obtain ⟨s₁, hs₁, hholds₁⟩ := singles_holds rng hm hl hl' hs hshares hroom
  obtain ⟨s₂, hs₂, hholds₂⟩ := batch_holds rng hm hm' hl hl' hs (xs.map (·.2))
    (fun h => hne (List.map_eq_nil_iff.mp h)) (by
      intro y hy
      obtain ⟨x, hx, rfl⟩ := List.mem_map.mp hy
      exact hshares x hx) seedA seedB
  refine ⟨s₁, s₂, hs₁, hs₂, ?_, ?_⟩
  · intro i hi j hj
    rw [hholds₁.entries i hi j hj, hholds₂.entries i hi j hj]
  · intro i hi
    rw [hholds₁.indexes i hi, hholds₂.indexes i hi]

theorem singles_match_batch_sample :
    ∃ s₀ s₁ s₂, Servers.setup sampleRng ⟨2, 3⟩ = some s₀ ∧
      s₀.singles sampleRng ⟨2, 3⟩ [((1, 2, 3, 4), sampleSignal)] = some s₁ ∧
      s₀.batch sampleRng 5 6 ⟨2, 3⟩ [sampleSignal] = some s₂ ∧
      (∀ i < 2, ∀ j < 3, s₁.tableA.entry i j ^^^ s₁.tableB.entry i j
        = s₂.tableA.entry i j ^^^ s₂.tableB.entry i j) ∧
      ∀ i < 2, (s₁.lastUpdTableA[i]?).getD 0 ^^^ (s₁.lastUpdTableB[i]?).getD 0
        = (s₂.lastUpdTableA[i]?).getD 0 ^^^ (s₂.lastUpdTableB[i]?).getD 0 := by
  obtain ⟨s₀, hs₀, hholds₀⟩ := setup_holds sampleRng ⟨2, 3⟩ (by decide) (by decide)
  obtain ⟨s₁, s₂, hs₁, hs₂, hsame⟩ := singles_match_batch sampleRng (by decide) (by decide)
    (by decide) (by decide) hholds₀ [((1, 2, 3, 4), sampleSignal)]
    (List.cons_ne_nil _ _) (by decide) (by decide) 5 6
  exact ⟨s₀, s₁, s₂, hs₀, hs₁, hs₂, hsame⟩

end

end Pps

end PSVFSS

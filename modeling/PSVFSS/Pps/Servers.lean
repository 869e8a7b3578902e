/-
# `Pps.Servers` — two servers that keep the recipients' mailboxes in shares

Each server holds a table and an index column; the contents are the two tables,
and the two columns, added up.  A batch is filed by two runs of the circuit in
which the servers swap the roles of garbler and evaluator and draw the same
blindings, so that what the blindings hide on one side they hide on the other
(`Servers.batch`).  Over any sequence of batches the shares stay shares of what
a bounded mailbox for each recipient holds (`servers_run`).
-/
import PSVFSS.Lib.ByteLoop
import PSVFSS.Pps.BatchedUpdate

namespace PSVFSS

namespace Pps

open ByteBuffer Fancy Loop Grid

/-! ## Plain tables

Tables as the servers store them, flat and row after row.  The generator is a
parameter, but both parties have the same one. -/

/-- `StdRng`. -/
structure Rng (ρ : Type) where
  seedFromU64 : Nat → ρ
  genU8 : ρ → Byte × ρ
  genU16 : ρ → Index × ρ

/-- `iter::repeat_with(gen).take(n)`. -/
def repeatWith {ρ α : Type} (gen : ρ → α × ρ) : Nat → ρ → List α × ρ
  | 0, s => ([], s)
  | n + 1, s =>
      let x := gen s
      let xs := repeatWith gen n x.2
      (x.1 :: xs.1, xs.2)

@[simp] theorem length_repeatWith {ρ α : Type} (gen : ρ → α × ρ) (n : Nat) (s : ρ) :
    (repeatWith gen n s).1.length = n := by
  induction n generalizing s with
  | zero => rfl
  | succ n ih => exact congrArg (· + 1) (ih _)

/-- The bits of a byte array, the first byte on top. -/
def locationOfBytes (bs : List Byte) : Location := loadLE 256 bs.reverse

def locationBytes (x : Location) : List Byte := (storeLE x).reverse

structure LocationTable where
  receivers : List Location
  size : TableSize
  length_eq : receivers.length = size.m * size.l

namespace LocationTable

def new (table : List Location) (size : TableSize) : Option LocationTable :=
  if h : table.length = size.m * size.l then some ⟨table, size, h⟩ else none

/-- `gen_loc`. -/
def genLoc {ρ : Type} (rng : Rng ρ) (s : ρ) : Location × ρ :=
  let bs := repeatWith rng.genU8 32 s
  (locationOfBytes bs.1, bs.2)

def random {ρ : Type} (rng : Rng ρ) (s : ρ) (size : TableSize) : Option (LocationTable × ρ) :=
  if size.m = 0 ∨ size.l = 0 then none
  else
    let locs := repeatWith (genLoc rng) (size.m * size.l) s
    some (⟨locs.1, size, length_repeatWith _ _ _⟩, locs.2)

/-- `chunks_exact`. -/
def rows (t : LocationTable) : List (List Location) :=
  (List.range t.size.m).map fun i => (t.receivers.drop (t.size.l * i)).take t.size.l

/-- `table[i][j]`. -/
def entry (t : LocationTable) (i j : Nat) : Location := (t.receivers[t.size.l * i + j]?).getD 0

end LocationTable

abbrev IndexColumn := List Index

def IndexColumn.random {ρ : Type} (rng : Rng ρ) (s : ρ) (m : Nat) : IndexColumn × ρ :=
  repeatWith rng.genU16 m s

/-! ## A run of the two parties

Garbler and evaluator on the two ends of a channel.  Each checks its own
table, and the evaluator is told the result. -/

/-- `LocationShare::encode`. -/
def locationShare (loc : List Byte) : Option Location :=
  if loc.length = 32 then some (locationOfBytes loc) else none

/-- What a party puts into the circuit besides the signals. -/
structure Party where
  size : TableSize
  blindingTable : LocationTable
  indexColumn : IndexColumn
  blindingColumn : IndexColumn

/-- The checks and the blindings, which both parties make alike. -/
def prepare {ρ : Type} (rng : Rng ρ) (blindingRng : ρ) (size : TableSize)
    (indexColumn : IndexColumn) : Option Party := do
  if size.m ≠ indexColumn.length then none
  else
    let (blindingTable, s) ← LocationTable.random rng blindingRng size
    return ⟨size, blindingTable, indexColumn, (IndexColumn.random rng s size.m).1⟩

/-- `batched_update_table_garbler` on one end of a channel and
`batched_update_table_evaluator` on the other; what the evaluator gets. -/
def batchedUpdateTable {ρ : Type} (rng : Rng ρ) (strategy : UpdateIndexesStrategy)
    (gbRng : ρ) (gbSize : TableSize) (gbIndexColumn : IndexColumn) (gbSignals : List Index)
    (evRng : ρ) (table : LocationTable) (evIndexColumn : IndexColumn)
    (evSignals : List (Index × List Byte)) : Option (LocationTable × IndexColumn) := do
  let gb ← prepare rng gbRng gbSize gbIndexColumn
  let ev ← prepare rng evRng table.size evIndexColumn
  let evSignals ← evSignals.mapM fun s => do return (s.1, ← locationShare s.2)
  -- the two ends of the channel have to stay in step
  if gb.size ≠ ev.size ∨ gbSignals.length ≠ evSignals.length then none
  else
    let size := table.size
    let columns := fun (gb ev : IndexColumn) => (gb.map word).zip (ev.map word)
    let (flatTable, column) ← batchedUpdateTableCircuit
      ⟨size, table.rows.map fun row => row.map word⟩
      ⟨size, (gb.blindingTable.rows.zip ev.blindingTable.rows).map fun r =>
        (r.1.map word).zip (r.2.map word)⟩
      (columns gb.indexColumn ev.indexColumn) (columns gb.blindingColumn ev.blindingColumn)
      strategy ((gbSignals.zip evSignals).map fun s => ((word s.1, word s.2.1), word s.2.2))
      ⟨[], size.m * size.l⟩ ⟨[], size.m⟩
    return (← LocationTable.new flatTable size, column)

/-! ## The servers

A batch is two runs with the roles exchanged.  Each server draws its blindings
from one seed in both runs, so that what it draws is in both results. -/

structure Servers where
  tableA : LocationTable
  tableB : LocationTable
  lastUpdTableA : IndexColumn
  lastUpdTableB : IndexColumn

/-- Both servers draw their tables from one seed and their columns from another. -/
def Servers.setup {ρ : Type} (rng : Rng ρ) (size : TableSize) : Option Servers := do
  let (tableA, _) ← LocationTable.random rng (rng.seedFromU64 1) size
  let (tableB, _) ← LocationTable.random rng (rng.seedFromU64 1) size
  let lastUpdTableA := (IndexColumn.random rng (rng.seedFromU64 2) size.m).1
  let lastUpdTableB := (IndexColumn.random rng (rng.seedFromU64 2) size.m).1
  return ⟨tableA, tableB, lastUpdTableA, lastUpdTableB⟩

/-- A signal as its sender shares it out. -/
structure SignalShares where
  receiverA : Index
  receiverB : Index
  locA : List Byte
  locB : List Byte

/-- A batch: `A` garbles first, then `B`. -/
def Servers.batch {ρ : Type} (rng : Rng ρ) (seedA seedB : ρ) (size : TableSize) (s : Servers)
    (signals : List SignalShares) : Option Servers := do
  let (newTableB, newIndexesB) ← batchedUpdateTable rng .A
    seedA size s.lastUpdTableA (signals.map (·.receiverA))
    seedB s.tableB s.lastUpdTableB (signals.map fun x => (x.receiverB, x.locB))
  let (newTableA, newIndexesA) ← batchedUpdateTable rng .B
    seedB size s.lastUpdTableB (signals.map (·.receiverB))
    seedA s.tableA s.lastUpdTableA (signals.map fun x => (x.receiverA, x.locA))
  return ⟨newTableA, newTableB, newIndexesA, newIndexesB⟩

/-- One batch after the other, each with the seeds of its blindings. -/
def Servers.run {ρ : Type} (rng : Rng ρ) (size : TableSize) (s : Servers)
    (batches : List ((ρ × ρ) × List SignalShares)) : Option Servers :=
  batches.foldlM (fun s b => s.batch rng b.1.1 b.1.2 size b.2) s

/-! ## What a run gives to the evaluator

The circuit's inputs are words, and what it puts out is the new table under
the blindings of both parties. -/

section
variable {ρ : Type} (rng : Rng ρ)

/-- The blinding of a slot, as a party draws it. -/
def blinding (s : ρ) (size : TableSize) (i j : Nat) : Location :=
  ((repeatWith (LocationTable.genLoc rng) (size.m * size.l) s).1[size.l * i + j]?).getD 0

/-- Entry `i` of a column that is drawn. -/
def columnBlinding (s : ρ) (m i : Nat) : Index := ((IndexColumn.random rng s m).1[i]?).getD 0

/-- The blinding of an index, drawn after those of the slots. -/
def indexBlinding (s : ρ) (size : TableSize) (i : Nat) : Index :=
  columnBlinding rng (repeatWith (LocationTable.genLoc rng) (size.m * size.l) s).2 size.m i

theorem random_column (s : ρ) (m : Nat) :
    (IndexColumn.random rng s m).1 = (List.range m).map (columnBlinding rng s m) := by
  have h := eq_map_range (0 : Index) (IndexColumn.random rng s m).1
  rw [IndexColumn.random, length_repeatWith] at h
  exact h

theorem random_table {s : ρ} {size : TableSize} (hm : 0 < size.m) (hl : 0 < size.l) :
    ∃ t : LocationTable,
      LocationTable.random rng s size
        = some (t, (repeatWith (LocationTable.genLoc rng) (size.m * size.l) s).2) ∧
      t.rows = (List.range size.m).map fun i =>
        (List.range size.l).map (blinding rng s size i) := by
  have hpositive : ¬ (size.m = 0 ∨ size.l = 0) := by omega
  refine ⟨⟨(repeatWith (LocationTable.genLoc rng) (size.m * size.l) s).1, size,
    length_repeatWith _ _ _⟩, if_neg hpositive, ?_⟩
  exact List.map_congr_left fun i hi =>
    row_eq_map_range 0 _ (length_repeatWith _ _ _) (List.mem_range.mp hi)

theorem prepare_eq {s : ρ} {size : TableSize} {column : IndexColumn} (hm : 0 < size.m)
    (hl : 0 < size.l) (hcolumn : column.length = size.m) :
    ∃ p, prepare rng s size column = some p ∧ p.size = size ∧ p.indexColumn = column ∧
      p.blindingTable.rows = (List.range size.m).map (fun i =>
        (List.range size.l).map (blinding rng s size i)) ∧
      p.blindingColumn = (List.range size.m).map (indexBlinding rng s size) := by
  obtain ⟨t, ht, hrows⟩ := random_table rng (s := s) hm hl
  refine ⟨⟨size, t, column, _⟩, ?_, rfl, rfl, hrows, random_column rng _ _⟩
  rw [prepare, if_neg (not_not_intro hcolumn.symm), ht]
  rfl

theorem rows_eq (t : LocationTable) :
    t.rows = (List.range t.size.m).map fun i => (List.range t.size.l).map (t.entry i) :=
  List.map_congr_left fun _ hi => row_eq_map_range 0 _ t.length_eq (List.mem_range.mp hi)

theorem zip_map_range {α β : Type} (f : Nat → α) (g : Nat → β) (n : Nat) :
    ((List.range n).map f).zip ((List.range n).map g) = (List.range n).map fun i => (f i, g i) :=
  List.zip_map'

/-- A table, as the circuit reads it. -/
theorem rows_word (t : LocationTable) :
    t.rows.map (fun row => row.map word) = (List.range t.size.m).map fun i =>
      (List.range t.size.l).map fun j => word (t.entry i j) := by
  rw [rows_eq, List.map_map]
  exact List.map_congr_left fun i _ => List.map_map

/-- Two blinding tables, as the circuit reads them. -/
theorem zip_rows_word (size : TableSize) (f g : Nat → Nat → Location) :
    (((List.range size.m).map fun i => (List.range size.l).map (f i)).zip
      ((List.range size.m).map fun i => (List.range size.l).map (g i))).map
        (fun r => (r.1.map word).zip (r.2.map word))
      = (List.range size.m).map fun i =>
        (List.range size.l).map fun j => (word (f i j), word (g i j)) := by
  rw [zip_map_range, List.map_map]
  refine List.map_congr_left fun i _ => ?_
  show (List.map _ _).zip (List.map _ _) = _
  rw [List.map_map, List.map_map]
  exact zip_map_range _ _ _

/-- A run, as inputs of the circuit. -/
def runInputs (gbRng evRng : ρ) (gbColumn : IndexColumn) (table : LocationTable)
    (evColumn : IndexColumn) (signals : List ((Index × Index) × Location)) : Inputs where
  size := table.size
  old := table.entry
  indexGb i := (gbColumn[i]?).getD 0
  indexEv i := (evColumn[i]?).getD 0
  blindingGb := blinding rng gbRng table.size
  blindingEv := blinding rng evRng table.size
  indexBlindingGb := indexBlinding rng gbRng table.size
  indexBlindingEv := indexBlinding rng evRng table.size
  signals := signals

theorem mapM_locationShare (signals : List (Index × List Byte))
    (h : ∀ s ∈ signals, s.2.length = 32) :
    (signals.mapM fun s => do return (s.1, ← locationShare s.2))
      = some (signals.map fun s => (s.1, locationOfBytes s.2)) := by
  refine mapM_of_forall fun s hs => ?_
  rw [locationShare, if_pos (h s hs)]
  rfl

/-- Two columns of one height, as the circuit reads them. -/
theorem columns_eq {gb ev : IndexColumn} {m : Nat} (hgb : gb.length = m) (hev : ev.length = m) :
    (gb.map word).zip (ev.map word)
      = (List.range m).map fun i => (word ((gb[i]?).getD 0), word ((ev[i]?).getD 0)) := by
  have hgb' := eq_map_range (0 : Index) gb
  have hev' := eq_map_range (0 : Index) ev
  rw [hgb] at hgb'
  rw [hev] at hev'
  conv_lhs => rw [hgb', hev', List.map_map, List.map_map]
  exact zip_map_range _ _ _

/-- What comes out of a run of the two parties. -/
theorem batchedUpdateTable_spec (gbRng evRng : ρ) (gbColumn evColumn : IndexColumn)
    (table : LocationTable) (signals : List ((Index × Index) × List Byte))
    (strategy : UpdateIndexesStrategy) (hm : 0 < table.size.m) (hm' : table.size.m < 65536)
    (hl : 0 < table.size.l) (hl' : table.size.l < 65536) (hgb : gbColumn.length = table.size.m)
    (hev : evColumn.length = table.size.m) (hne : signals ≠ [])
    (hshares : ∀ s ∈ signals, s.2.length = 32) {inp : Inputs}
    (hinp : inp = runInputs rng gbRng evRng gbColumn table evColumn
      (signals.map fun s => (s.1, locationOfBytes s.2)))
    (hk : ∀ i < table.size.m, (inp.index i).toNat ≤ table.size.l) :
    ∃ table' : LocationTable, batchedUpdateTable rng strategy gbRng table.size gbColumn
        (signals.map fun s => s.1.1) evRng table evColumn (signals.map fun s => (s.1.2, s.2))
        = some (table', (List.range table.size.m).map (inp.newIndex strategy)) ∧
      table'.size = table.size ∧
      ∀ i < table.size.m, ∀ j < table.size.l, table'.entry i j = inp.newLocation i j := by
  obtain ⟨gb, hgbp, hgbSize, hgbColumn, hgbRows, hgbBlinding⟩ :=
    prepare_eq rng (s := gbRng) hm hl hgb
  obtain ⟨ev, hevp, hevSize, hevColumn, hevRows, hevBlinding⟩ :=
    prepare_eq rng (s := evRng) hm hl hev
  have hloc := mapM_locationShare (signals.map fun s => (s.1.2, s.2)) (by
    intro s hs
    obtain ⟨x, hx, rfl⟩ := List.mem_map.mp hs
    exact hshares x hx)
  have hsignals : inp.signals ≠ [] := by
    rw [hinp]
    simpa [runInputs] using hne
  have hsize : inp.size = table.size := by rw [hinp]; rfl
  set flat := (List.range table.size.m).flatMap fun i =>
    (List.range table.size.l).map (inp.newLocation i) with hflat
  have hlen : flat.length = table.size.m * table.size.l := length_flatMap_range _ _ _
  have hspec := batchedUpdateTableCircuit_spec (hsize ▸ hm') (hsize ▸ hl') (hsize ▸ hk) hsignals
    strategy
  rw [hsize, ← hflat] at hspec
  have hlocRows : table.rows.map (fun row => row.map word)
      = (List.range table.size.m).map fun i => (inp.row i).locRow := by
    rw [rows_word, hinp]
    rfl
  have hblindingRows : (gb.blindingTable.rows.zip ev.blindingTable.rows).map (fun r =>
      (r.1.map word).zip (r.2.map word))
      = (List.range table.size.m).map fun i => (inp.row i).blindingRow := by
    rw [hgbRows, hevRows, zip_rows_word, hinp]
    rfl
  have hindexes : (gb.indexColumn.map word).zip (ev.indexColumn.map word)
      = (List.range table.size.m).map fun i => (inp.row i).index := by
    rw [hgbColumn, hevColumn, columns_eq hgb hev, hinp]
    rfl
  have hblindings : (gb.blindingColumn.map word).zip (ev.blindingColumn.map word)
      = (List.range table.size.m).map fun i => (inp.row i).indexBlinding := by
    rw [hgbBlinding, hevBlinding, List.map_map, List.map_map, hinp]
    exact zip_map_range _ _ _
  refine ⟨⟨flat, table.size, hlen⟩, ?_, rfl, ?_⟩
  · rw [batchedUpdateTable, hgbp, hevp]
    have hfit : ¬ (gb.size ≠ ev.size ∨ (signals.map fun s => s.1.1).length
        ≠ ((signals.map fun s => (s.1.2, s.2)).map
            fun s => (s.1, locationOfBytes s.2)).length) := by
      simp [hgbSize, hevSize]
    have hpaired : (((signals.map fun s => s.1.1).zip ((signals.map fun s => (s.1.2, s.2)).map
        fun s => (s.1, locationOfBytes s.2))).map fun s => ((word s.1, word s.2.1), word s.2.2))
        = inp.signals.map fun s => ((word s.1.1, word s.1.2), word s.2) := by
      rw [hinp, List.map_map, List.zip_map', List.map_map]
      show _ = (signals.map fun s => (s.1, locationOfBytes s.2)).map _
      rw [List.map_map]
      rfl
    simp only [Option.bind_eq_bind, Option.bind_some]
    refine (congrArg (Option.bind · _) hloc).trans ?_
    rw [Option.bind_some, if_neg hfit]
    simp only [hlocRows, hblindingRows, hindexes, hblindings, hpaired, hspec, Option.bind_some]
    rw [LocationTable.new, dif_pos hlen]
    rfl
  · intro i hi j hj
    exact congrArg (Option.getD · 0) (getElem?_flatMap_range inp.newLocation hi hj)

end

/-! ## Mailboxes

The purpose of the two tables: a list of locations for each recipient, of
bounded length.  A batch delivers to it what was sent, up to the bound. -/

/-- The signal is for recipient `i`. -/
def addressed (i : Nat) (s : SignalShares) : Bool :=
  decide ((.ofNat 16 i : Index) = s.receiverA ^^^ s.receiverB)

/-- The locations that a batch brings for recipient `i`. -/
def messagesTo (i : Nat) (signals : List SignalShares) : List Location :=
  (signals.filter (addressed i)).map fun s => locationOfBytes s.locA ^^^ locationOfBytes s.locB

/-- A mailbox takes in what it has room for. -/
def deliver (l : Nat) (boxes : Nat → List Location) (signals : List SignalShares) :
    Nat → List Location :=
  fun i => (boxes i ++ messagesTo i signals).take l

theorem messagesTo_append (i : Nat) (xs ys : List SignalShares) :
    messagesTo i (xs ++ ys) = messagesTo i xs ++ messagesTo i ys := by
  rw [messagesTo, List.filter_append, List.map_append]
  rfl

/-- What did not fit earlier does not fit later. -/
theorem take_take_append {α : Type} (l : Nat) (us vs : List α) :
    (us.take l ++ vs).take l = (us ++ vs).take l := by
  rw [List.take_append, List.take_append, List.take_take, Nat.min_self, List.length_take]
  rcases Nat.le_total l us.length with h | h
  · rw [Nat.min_eq_left h, Nat.sub_self, Nat.sub_eq_zero_of_le h]
  · rw [Nat.min_eq_right h]

/-- Batch by batch or all at once: the mailboxes are the same. -/
theorem deliver_deliver (l : Nat) (boxes : Nat → List Location) (xs ys : List SignalShares) :
    deliver l (deliver l boxes xs) ys = deliver l boxes (xs ++ ys) := by
  funext i
  rw [deliver, deliver, deliver, take_take_append, messagesTo_append, List.append_assoc]

/-- What the servers hold between them, slot by slot and row by row. -/
structure Contents (size : TableSize) (table : Nat → Nat → Location) (index : Nat → Index)
    (s : Servers) : Prop where
  sizeA : s.tableA.size = size
  sizeB : s.tableB.size = size
  columnA : s.lastUpdTableA.length = size.m
  columnB : s.lastUpdTableB.length = size.m
  entries : ∀ i < size.m, ∀ j < size.l,
    s.tableA.entry i j ^^^ s.tableB.entry i j = table i j
  indexes : ∀ i < size.m,
    (s.lastUpdTableA[i]?).getD 0 ^^^ (s.lastUpdTableB[i]?).getD 0 = index i

/-- The servers' shares are shares of the mailboxes. -/
structure Holds (size : TableSize) (boxes : Nat → List Location) (s : Servers) : Prop
    extends Contents size (fun i j => ((boxes i)[j]?).getD 0)
      (fun i => .ofNat 16 (boxes i).length) s where
  room : ∀ i < size.m, (boxes i).length ≤ size.l

theorem Holds.congr {size : TableSize} {boxes boxes' : Nat → List Location} {s : Servers}
    (hs : Holds size boxes s) (h : ∀ i < size.m, boxes' i = boxes i) : Holds size boxes' s where
  sizeA := hs.sizeA
  sizeB := hs.sizeB
  columnA := hs.columnA
  columnB := hs.columnB
  room i hi := (h i hi).symm ▸ hs.room i hi
  entries i hi j hj := (h i hi).symm ▸ hs.entries i hi j hj
  indexes i hi := (h i hi).symm ▸ hs.indexes i hi

theorem filed_xor (k j : Nat) {xs : List SignalShares} (f g : SignalShares → Location)
    (a b : Nat → Location) :
    filed k (xs.map f) a j ^^^ filed k (xs.map g) b j
      = filed k (xs.map fun x => f x ^^^ g x) (fun j => a j ^^^ b j) j := by
  rcases Nat.lt_or_ge j k with hj | hj
  · simp only [filed, if_neg (Nat.not_le_of_lt hj)]
  · simp only [filed, if_pos hj, List.getElem?_map]
    cases xs[j - k]? <;> rfl

theorem filed_mailbox {l j : Nat} (hj : j < l) (box msgs : List Location) {old : Nat → Location}
    (hold : old j = (box[j]?).getD 0) :
    filed box.length msgs old j = (((box ++ msgs).take l)[j]?).getD 0 := by
  rw [List.getElem?_take, if_pos hj]
  rcases Nat.lt_or_ge j box.length with hlt | hge
  · rw [filed, if_neg (Nat.not_le_of_lt hlt), hold, List.getElem?_append_left hlt]
  · rw [filed, if_pos hge, hold, List.getElem?_append_right hge, List.getElem?_eq_none hge]
    rfl

/-- Both runs see the signals in one order and agree whom each is for. -/
theorem sharesTo_map {r : SignalShares → Index × Index} (loc : SignalShares → List Byte)
    (hr : ∀ x, (r x).1 ^^^ (r x).2 = x.receiverA ^^^ x.receiverB) (i : Nat)
    (signals : List SignalShares) :
    sharesTo (.ofNat 16 i) ((signals.map fun x => (r x, loc x)).map
        fun x => (x.1, locationOfBytes x.2))
      = (signals.filter (addressed i)).map fun x => locationOfBytes (loc x) := by
  rw [List.map_map, sharesTo, List.filter_map, List.map_map]
  refine congrArg (List.map _) (List.filter_congr fun x _ => ?_)
  show decide (_ = (r x).1 ^^^ (r x).2) = addressed i x
  rw [hr, addressed]

/-- The count of the taken slots is the length of the fuller mailbox. -/
theorem length_add_taken {l : Nat} {box : List Location} (hroom : box.length ≤ l)
    (msgs : List Location) :
    box.length + taken box.length msgs.length l = ((box ++ msgs).take l).length := by
  rw [List.length_take, List.length_append, taken]
  omega

/-- The blindings of the two runs cancel. -/
theorem blindings_cancel {w : Nat} (a b x y : BitVec w) :
    (b ^^^ a ^^^ x) ^^^ (a ^^^ b ^^^ y) = x ^^^ y := by
  have hself : ∀ c : BitVec w, (c ^^^ x) ^^^ (c ^^^ y) = x ^^^ y := by
    intro c
    rw [BitVec.xor_comm c x, BitVec.xor_assoc, ← BitVec.xor_assoc c c y, BitVec.xor_self,
      BitVec.zero_xor]
  rw [BitVec.xor_comm b a, hself]

section
variable {ρ : Type} (rng : Rng ρ) {size : TableSize} (hm : 0 < size.m) (hm' : size.m < 65536)
  (hl : 0 < size.l) (hl' : size.l < 65536) {boxes : Nat → List Location}
include hm hm' hl hl'

/-- One of the two runs, on mailboxes that are not overfull: the evaluator's table
takes in the evaluator's shares of the messages, and its column the new lengths,
under the blindings of both parties. -/
theorem batchedUpdateTable_files (hroom : ∀ i < size.m, (boxes i).length ≤ size.l)
    {table : LocationTable} (hsize : table.size = size) {gbColumn evColumn : IndexColumn}
    (hgb : gbColumn.length = size.m) (hev : evColumn.length = size.m)
    (hindexes : ∀ i < size.m,
      (gbColumn[i]?).getD 0 ^^^ (evColumn[i]?).getD 0 = .ofNat 16 (boxes i).length)
    {signals : List SignalShares} (hne : signals ≠ []) {r : SignalShares → Index × Index}
    (hr : ∀ x, (r x).1 ^^^ (r x).2 = x.receiverA ^^^ x.receiverB) {loc : SignalShares → List Byte}
    (hloc : ∀ x ∈ signals, (loc x).length = 32) (strategy : UpdateIndexesStrategy)
    (gbRng evRng : ρ) :
    ∃ (table' : LocationTable) (column : Nat → Index),
      batchedUpdateTable rng strategy gbRng size gbColumn (signals.map fun x => (r x).1) evRng table
        evColumn (signals.map fun x => ((r x).2, loc x))
        = some (table', (List.range size.m).map column) ∧
      table'.size = size ∧
      (∀ i < size.m, ∀ j < size.l, table'.entry i j
        = blinding rng gbRng size i j ^^^ blinding rng evRng size i j
          ^^^ filed (boxes i).length
            ((signals.filter (addressed i)).map fun x => locationOfBytes (loc x))
            (table.entry i) j) ∧
      ∀ i < size.m, column i = indexBlinding rng gbRng size i ^^^ indexBlinding rng evRng size i ^^^
        match strategy with
        | .A => .ofNat 16 (deliver size.l boxes signals i).length
        | .B => 0 := by
  subst hsize
  set inp := runInputs rng gbRng evRng gbColumn table evColumn
    ((signals.map fun x => (r x, loc x)).map fun x => (x.1, locationOfBytes x.2)) with hinp
  have hindex : ∀ i < table.size.m, inp.index i = .ofNat 16 (boxes i).length := hindexes
  have hlength : ∀ i < table.size.m, (inp.index i).toNat = (boxes i).length := by
    intro i hi
    rw [hindex i hi, BitVec.toNat_ofNat, Nat.mod_eq_of_lt ((hroom i hi).trans_lt hl')]
  have hshares : ∀ i, sharesTo (.ofNat 16 i) inp.signals
      = (signals.filter (addressed i)).map fun x => locationOfBytes (loc x) :=
    fun i => sharesTo_map loc hr i signals
  obtain ⟨table', hrun, hsize', hentry⟩ := batchedUpdateTable_spec rng gbRng evRng gbColumn
    evColumn table (signals.map fun x => (r x, loc x)) strategy hm hm' hl hl' hgb hev
    (fun h => hne (List.map_eq_nil_iff.mp h)) (by
      intro y hy
      obtain ⟨x, hx, rfl⟩ := List.mem_map.mp hy
      exact hloc x hx) hinp (fun i hi => (hlength i hi).trans_le (hroom i hi))
  simp only [List.map_map, Function.comp_def] at hrun
  refine ⟨table', inp.newIndex strategy, hrun, hsize', fun i hi j hj => ?_, fun i hi => ?_⟩
  · rw [hentry i hi j hj, Inputs.newLocation, hlength i hi, hshares]
    rfl
  · have hnext : inp.nextIndex i = .ofNat 16 (deliver table.size.l boxes signals i).length := by
      rw [Inputs.nextIndex, hlength i hi, hshares, List.length_map, deliver,
        ← length_add_taken (hroom i hi), messagesTo, List.length_map]
      rfl
    rw [← hnext]
    cases strategy <;> rfl

/-- A batch: what the blindings hide in one run they hide in the other. -/
theorem batch_holds {s : Servers} (hs : Holds size boxes s) (signals : List SignalShares)
    (hne : signals ≠ [])
    (hshares : ∀ x ∈ signals, x.locA.length = 32 ∧ x.locB.length = 32) (seedA seedB : ρ) :
    ∃ s', s.batch rng seedA seedB size signals = some s' ∧
      Holds size (deliver size.l boxes signals) s' := by
  obtain ⟨tableB, colB, hrunB, hsizeB, hentryB, hcolB⟩ := batchedUpdateTable_files rng hm hm' hl hl'
    hs.room hs.sizeB hs.columnA hs.columnB hs.indexes hne
    (r := fun x => (x.receiverA, x.receiverB)) (fun _ => rfl) (fun x hx => (hshares x hx).2) .A
    seedA seedB
  obtain ⟨tableA, colA, hrunA, hsizeA, hentryA, hcolA⟩ := batchedUpdateTable_files rng hm hm' hl hl'
    hs.room hs.sizeA hs.columnB hs.columnA
    (fun i hi => (BitVec.xor_comm _ _).trans (hs.indexes i hi)) hne
    (r := fun x => (x.receiverB, x.receiverA)) (fun _ => BitVec.xor_comm _ _)
    (fun x hx => (hshares x hx).1) .B seedB seedA
  refine ⟨⟨tableA, tableB, (List.range size.m).map colA, (List.range size.m).map colB⟩, ?_,
    ⟨hsizeA, hsizeB, by simp, by simp, ?_, ?_⟩, fun i _ => List.length_take_le _ _⟩
  · rw [Servers.batch]
    simp only [Option.bind_eq_bind, hrunB, hrunA, Option.bind_some]
    rfl
  · intro i hi j hj
    show tableA.entry i j ^^^ tableB.entry i j = _
    rw [hentryA i hi j hj, hentryB i hi j hj, blindings_cancel, filed_xor]
    exact filed_mailbox hj _ _ (hs.entries i hi j hj)
  · intro i hi
    have hget : ∀ f : Nat → Index, (((List.range size.m).map f)[i]?).getD 0 = f i := by
      intro f
      simp [hi]
    show (((List.range size.m).map _)[i]?).getD 0 ^^^ (((List.range size.m).map _)[i]?).getD 0 = _
    rw [hget, hget, hcolA i hi, hcolB i hi, blindings_cancel]
    exact BitVec.zero_xor

end

section
variable {ρ : Type} (rng : Rng ρ)

/-! ## Runs

From the tables of the setup on, which are equal and hold nothing between
them, batch after batch. -/

theorem setup_holds (size : TableSize) (hm : 0 < size.m) (hl : 0 < size.l) :
    ∃ s, Servers.setup rng size = some s ∧ Holds size (fun _ => []) s := by
  have hpositive : ¬ (size.m = 0 ∨ size.l = 0) := by omega
  set locs := repeatWith (LocationTable.genLoc rng) (size.m * size.l) (rng.seedFromU64 1) with hlocs
  set column := (IndexColumn.random rng (rng.seedFromU64 2) size.m).1 with hcolumn
  set table : LocationTable := ⟨locs.1, size, length_repeatWith _ _ _⟩ with htable
  have hlen : column.length = size.m := length_repeatWith _ _ _
  refine ⟨⟨table, table, column, column⟩, ?_, ⟨rfl, rfl, hlen, hlen, ?_, ?_⟩,
    fun i _ => Nat.zero_le _⟩
  · rw [Servers.setup, LocationTable.random, if_neg hpositive]
    rfl
  · intro i _ j _
    exact BitVec.xor_self
  · intro i _
    exact BitVec.xor_self

theorem run_holds {size : TableSize} (hm : 0 < size.m) (hm' : size.m < 65536) (hl : 0 < size.l)
    (hl' : size.l < 65536) {boxes : Nat → List Location} {s : Servers} (hs : Holds size boxes s)
    {batches : List ((ρ × ρ) × List SignalShares)}
    (hbatches : ∀ b ∈ batches, b.2 ≠ [] ∧ ∀ x ∈ b.2, x.locA.length = 32 ∧ x.locB.length = 32) :
    ∃ s', s.run rng size batches = some s' ∧
      Holds size (deliver size.l boxes (batches.flatMap (·.2))) s' := by
  induction batches generalizing boxes s with
  | nil =>
      refine ⟨s, rfl, hs.congr fun i hi => ?_⟩
      show (boxes i ++ []).take size.l = boxes i
      rw [List.append_nil, List.take_of_length_le (hs.room i hi)]
  | cons b batches ih =>
      obtain ⟨hne, hshares⟩ := hbatches b List.mem_cons_self
      obtain ⟨s₁, hs₁, hholds₁⟩ := batch_holds rng hm hm' hl hl' hs b.2 hne hshares b.1.1 b.1.2
      obtain ⟨s', hs', hholds'⟩ := ih hholds₁ fun c hc => hbatches c (List.mem_cons_of_mem _ hc)
      refine ⟨s', ?_, ?_⟩
      · rw [Servers.run, List.foldlM_cons, hs₁]
        exact hs'
      · rw [deliver_deliver] at hholds'
        exact hholds'

/-- From equal tables on, over any batches: recipient `i`'s row is shared between
the servers, holds the first locations that were sent to `i`, in their order and
as many as the row has slots, and the shared index counts them. -/
theorem servers_run {size : TableSize} (hm : 0 < size.m) (hm' : size.m < 65536) (hl : 0 < size.l)
    (hl' : size.l < 65536) (batches : List ((ρ × ρ) × List SignalShares))
    (hbatches : ∀ b ∈ batches, b.2 ≠ [] ∧ ∀ x ∈ b.2, x.locA.length = 32 ∧ x.locB.length = 32) :
    ∃ s₀ s, Servers.setup rng size = some s₀ ∧ s₀.run rng size batches = some s ∧
      Holds size (fun i => (messagesTo i (batches.flatMap (·.2))).take size.l) s := by
  obtain ⟨s₀, hs₀, hholds₀⟩ := setup_holds rng size hm hl
  obtain ⟨s, hs, hholds⟩ := run_holds rng hm hm' hl hl' hholds₀ hbatches
  exact ⟨s₀, s, hs₀, hs, hholds⟩

/-- A generator that counts. -/
def sampleRng : Rng Nat where
  seedFromU64 seed := seed
  genU8 s := (.ofNat 8 s, s + 1)
  genU16 s := (.ofNat 16 s, s + 1)

/-- A signal for recipient `1`. -/
def sampleSignal : SignalShares := ⟨5, 4, List.replicate 32 7, List.replicate 32 9⟩

theorem servers_run_sample :
    ∃ s₀ s, Servers.setup sampleRng ⟨2, 3⟩ = some s₀ ∧
      s₀.run sampleRng ⟨2, 3⟩ [((1, 2), [sampleSignal])] = some s ∧
      Holds ⟨2, 3⟩ (fun i => (messagesTo i [sampleSignal]).take 3) s :=
  servers_run sampleRng (by decide) (by decide) (by decide) (by decide)
    [((1, 2), [sampleSignal])] (by decide)

/-! ## Rows that are too long

A slot is compared with a sixteen-bit index, and the table of its constants
ends where sixteen bits do. -/

end

end Pps

end PSVFSS

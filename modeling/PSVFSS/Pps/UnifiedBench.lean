/-
# `Pps.UnifiedBench` — the recipient, and the benchmark around the servers

A recipient gets its row from either server, as a count and the bytes of the
slots, and adds the two up.  What it accepts is exactly two well-formed responses
of one length (`consume_eq_ok_iff`), and after any run of the servers it reads
its mailbox (`recipient_reads`).

`run` of the benchmark sends `n` signals round robin, files them in batches and
compares the shared count of recipient `0` with what was sent to it.  It reports
`completed` for exactly the parameters that fit into sixteen bits
(`run_completed_iff`).
-/
import PSVFSS.Pps.Servers

namespace PSVFSS

namespace Pps

open ByteBuffer Fancy Loop Grid

/-! ## The recipient

A row is sent as its number of slots and their bytes, and the two responses
are checked against each other before they are added. -/

def serializeRow (row : List Location) : List Byte :=
  leBytes 4 row.length ++ row.flatMap locationBytes

def consumeRowShareResponses (responseA responseB : List Byte) :
    Except String (List (List Byte)) :=
  if responseA.length < 4 ∨ responseB.length < 4 then .error "truncated row-share response"
  else
    let countA := leVal (responseA.take 4)
    let countB := leVal (responseB.take 4)
    if countA ≠ countB then .error "row-share response counts differ"
    else
      let expectedLen := 4 + countA * 32
      if responseA.length ≠ expectedLen ∨ responseB.length ≠ expectedLen then
        .error "invalid row-share response length"
      else
        .ok ((List.range countA).map fun j =>
          (slice responseA (4 + j * 32) 32).zipWith (· ^^^ ·) (slice responseB (4 + j * 32) 32))

/-! ### Bytes of locations

The shares are added byte by byte, which is what exclusive or does to whole
locations. -/

@[simp] theorem length_locationBytes (x : Location) : (locationBytes x).length = 32 := by
  rw [locationBytes, List.length_reverse, length_storeLE]

theorem locationOfBytes_bytes (x : Location) : locationOfBytes (locationBytes x) = x := by
  rw [locationOfBytes, locationBytes, List.reverse_reverse, loadLE_storeLE (by decide)]

theorem locationBytes_ofBytes {bs : List Byte} (h : bs.length = 32) :
    locationBytes (locationOfBytes bs) = bs := by
  rw [locationBytes, locationOfBytes, storeLE_loadLE (by rw [List.length_reverse, h]),
    List.reverse_reverse]

theorem leBytes_xor (n x y : Nat) :
    leBytes n (x ^^^ y) = (leBytes n x).zipWith (· ^^^ ·) (leBytes n y) := by
  induction n generalizing x y with
  | zero => rfl
  | succ n ih =>
      have hdiv : (x ^^^ y) / 256 = (x / 256) ^^^ (y / 256) := Nat.xor_div_two_pow (n := 8)
      rw [leBytes, hdiv, ih, BitVec.ofNat_xor]
      rfl

theorem locationBytes_xor (x y : Location) :
    locationBytes (x ^^^ y) = (locationBytes x).zipWith (· ^^^ ·) (locationBytes y) := by
  rw [locationBytes, storeLE, BitVec.toNat_xor, leBytes_xor,
    List.reverse_zipWith (by simp)]
  rfl

/-! ### What is accepted

The checks leave no response that is not a row: the count and the length
determine each other. -/

theorem length_flatMap_locationBytes (row : List Location) :
    (row.flatMap locationBytes).length = row.length * 32 := by
  simp [List.length_flatMap]

theorem length_serializeRow (row : List Location) :
    (serializeRow row).length = 4 + row.length * 32 := by
  rw [serializeRow, List.length_append, length_leBytes, length_flatMap_locationBytes]

theorem take_serializeRow (row : List Location) :
    (serializeRow row).take 4 = leBytes 4 row.length := by
  exact List.take_left' (length_leBytes 4 row.length)

/-- Slot `j` of a response. -/
theorem slice_serializeRow (row : List Location) {j : Nat} (hj : j < row.length) :
    slice (serializeRow row) (4 + j * 32) 32 = locationBytes row[j] := by
  rw [slice, ← List.drop_drop, serializeRow, List.drop_left' (length_leBytes 4 row.length)]
  exact take_drop_flatMap length_locationBytes hj

theorem consume_serialize {rowA rowB : List Location} (hlen : rowA.length = rowB.length)
    (hcount : rowA.length < 2 ^ 32) :
    consumeRowShareResponses (serializeRow rowA) (serializeRow rowB)
      = .ok (rowA.zipWith (fun x y => locationBytes (x ^^^ y)) rowB) := by
  have hcountA : leVal ((serializeRow rowA).take 4) = rowA.length := by
    rw [take_serializeRow, leVal_leBytes]
    exact Nat.mod_eq_of_lt hcount
  have hcountB : leVal ((serializeRow rowB).take 4) = rowA.length := by
    rw [take_serializeRow, leVal_leBytes, ← hlen]
    exact Nat.mod_eq_of_lt hcount
  have hlong : ¬ ((serializeRow rowA).length < 4 ∨ (serializeRow rowB).length < 4) := by
    rw [length_serializeRow, length_serializeRow]
    omega
  have hfit : ¬ ((serializeRow rowA).length ≠ 4 + rowA.length * 32
      ∨ (serializeRow rowB).length ≠ 4 + rowA.length * 32) := by
    rw [length_serializeRow, length_serializeRow, hlen]
    simp
  simp only [consumeRowShareResponses, hcountA, hcountB, if_neg hlong, if_neg hfit, ne_eq,
    not_true_eq_false, if_false]
  refine congrArg Except.ok (List.ext_getElem (by simp [hlen]) fun j hj _ => ?_)
  have hjA : j < rowA.length := by simpa using hj
  rw [List.getElem_map, List.getElem_range, List.getElem_zipWith, slice_serializeRow _ hjA,
    slice_serializeRow _ (hlen ▸ hjA), locationBytes_xor]

theorem exists_serializeRow {response : List Byte} (hlong : 4 ≤ response.length)
    (hlen : response.length = 4 + leVal (response.take 4) * 32) :
    ∃ row : List Location, row.length = leVal (response.take 4) ∧ response = serializeRow row := by
  set count := leVal (response.take 4) with hcount
  refine ⟨(List.range count).map fun j => locationOfBytes (slice response (4 + j * 32) 32),
    by simp, ?_⟩
  have hhead : leBytes 4 count = response.take 4 := by
    have h := leBytes_leVal (response.take 4)
    rwa [List.length_take, Nat.min_eq_left hlong] at h
  have hslots : ((List.range count).map fun j =>
      locationOfBytes (slice response (4 + j * 32) 32)).flatMap locationBytes
      = ((List.range count).map fun j => ((response.drop 4).drop (j * 32)).take 32).flatten := by
    rw [List.flatMap_map, ← List.flatMap_def]
    refine List.flatMap_congr fun j hj => ?_
    have hj := List.mem_range.mp hj
    rw [locationBytes_ofBytes (length_slice (by omega)), slice, List.drop_drop]
  have hall : (response.drop 4).take (count * 32) = response.drop 4 := by
    refine List.take_of_length_le ?_
    rw [List.length_drop]
    omega
  rw [serializeRow, List.length_map, List.length_range, hhead, hslots, flatten_chunks, hall,
    List.take_append_drop]

/-- Two responses are accepted if and only if they serialise rows of one length. -/
theorem consume_eq_ok_iff {responseA responseB : List Byte} {locations : List (List Byte)} :
    consumeRowShareResponses responseA responseB = .ok locations ↔
      ∃ rowA rowB : List Location, rowA.length = rowB.length ∧ rowA.length < 2 ^ 32 ∧
        responseA = serializeRow rowA ∧ responseB = serializeRow rowB ∧
        locations = rowA.zipWith (fun x y => locationBytes (x ^^^ y)) rowB := by
  constructor
  · intro h
    have haccepted := h
    rw [consumeRowShareResponses] at h
    split at h
    case isTrue => cases h
    case isFalse hlong =>
        obtain ⟨hlongA, hlongB⟩ := not_or.mp hlong
        simp only at h
        split at h
        case isTrue => cases h
        case isFalse hcount =>
            split at h
            case isTrue => cases h
            case isFalse hlen =>
                obtain ⟨hlenA, hlenB⟩ := not_or.mp hlen
                have hcount := not_not.mp hcount
                obtain ⟨rowA, hrowA, rfl⟩ :=
                  exists_serializeRow (Nat.le_of_not_lt hlongA) (not_not.mp hlenA)
                obtain ⟨rowB, hrowB, rfl⟩ :=
                  exists_serializeRow (Nat.le_of_not_lt hlongB) (hcount ▸ not_not.mp hlenB)
                have hrows : rowA.length = rowB.length := by rw [hrowA, hrowB, hcount]
                have hbound : rowA.length < 2 ^ 32 := by
                  have := leVal_lt ((serializeRow rowA).take 4)
                  rw [← hrowA, List.length_take, Nat.min_eq_left (Nat.le_of_not_lt hlongA)] at this
                  exact this
                refine ⟨rowA, rowB, hrows, hbound, rfl, rfl, ?_⟩
                rw [consume_serialize hrows hbound] at haccepted
                exact (Except.ok.inj haccepted).symm
  · rintro ⟨rowA, rowB, hrows, hbound, rfl, rfl, rfl⟩
    exact consume_serialize hrows hbound

/-! ### What a recipient reads

The first locations are the mailbox; the slots behind it are zero in sum. -/

/-- Row `i` of a table, as the server sends it. -/
def LocationTable.row (t : LocationTable) (i : Nat) : List Location :=
  (List.range t.size.l).map (t.entry i)

/-- The two rows of a recipient add up to its mailbox, then zeros. -/
theorem recipient_reads {size : TableSize} (hl : size.l < 2 ^ 32) {boxes : Nat → List Location}
    {s : Servers} (hs : Holds size boxes s) {i : Nat} (hi : i < size.m) :
    consumeRowShareResponses (serializeRow (s.tableA.row i)) (serializeRow (s.tableB.row i))
      = .ok ((List.range size.l).map fun j => locationBytes (((boxes i)[j]?).getD 0)) := by
  have hlen : ∀ t : LocationTable, t.size = size → (t.row i).length = size.l := by
    intro t ht
    rw [LocationTable.row, List.length_map, List.length_range, ht]
  rw [consume_serialize ((hlen _ hs.sizeA).trans (hlen _ hs.sizeB).symm)
    ((hlen _ hs.sizeA).symm ▸ hl), LocationTable.row, LocationTable.row, hs.sizeA, hs.sizeB,
    List.zipWith_map, List.zipWith_self]
  refine congrArg Except.ok (List.map_congr_left fun j hj => ?_)
  rw [hs.entries i hi j (List.mem_range.mp hj)]

/-! ## The benchmark

`ell` is the number of slots in a row, and there are as many recipients as it
takes to spread `n` signals over them. -/

def ceilDiv (a b : Nat) : Nat := (a + b - 1) / b

/-- The location of signal `i`. -/
def location (i : Nat) : List Byte := leBytes 8 (i + 1) ++ List.replicate 24 0

section
variable {ρ : Type} (rng : Rng ρ)

/-- Signal `i` goes to recipient `i mod m`. -/
def sendSignals (n m : Nat) : List SignalShares :=
  let receivers := (List.range n).map (· % m)
  let receiversA := repeatWith rng.genU16 n (rng.seedFromU64 0xea15511)
  let receiversB := receivers.zipWith
    (fun receiver blinding => BitVec.ofNat 16 receiver ^^^ blinding) receiversA.1
  let locs := (List.range n).map location
  let locsA := repeatWith (repeatWith rng.genU8 32) n receiversA.2
  let locsB := locs.zipWith (fun loc blinding => loc.zipWith (· ^^^ ·) blinding) locsA.1
  (((receiversA.1.zip receiversB).zip locsA.1).zip locsB).map fun s =>
    ⟨s.1.1.1, s.1.1.2, s.1.2, s.2⟩

/-- `PPS_BATCH_SIZE`, if it is a positive number. -/
def nativeBatchSize (env : Option Nat) (ell : Nat) : Nat := (env.filter (0 < ·)).getD ell

/-- The batches and the seeds of their blindings. -/
def batches (n batchSize : Nat) (signals : List SignalShares) :
    List ((ρ × ρ) × List SignalShares) :=
  (List.range (ceilDiv n batchSize)).map fun idx =>
    ((rng.seedFromU64 (0xdead + idx), rng.seedFromU64 (0xbeaf + idx)),
      (signals.drop (idx * batchSize)).take batchSize)

/-- The servers of a benchmark, up to the end of the last batch. -/
def runServers (n ell : Nat) (env : Option Nat) : Option Servers := do
  let size : TableSize := ⟨ceilDiv n ell, ell⟩
  let s ← Servers.setup rng size
  s.run rng size (batches rng n (nativeBatchSize env ell) (sendSignals rng n size.m))

inductive Bottleneck
  | invalidParameters
  | receiverIndexExceedsU16
  | rowReconstructionMismatch (m l receiver expected recovered : Nat)

inductive Status
  | completed
  | crashed (bottleneck : Bottleneck)

structure BenchResult where
  n : Nat
  ell : Nat
  server0ResponseBytes : Nat
  server1ResponseBytes : Nat
  commBytes : Nat
  status : Status

/-- `run`; `none` where the program panics. -/
def run (n ell : Nat) (env : Option Nat) : Option BenchResult := do
  if n = 0 ∨ ell = 0 then
    return ⟨n, ell, 0, 0, 0, .crashed .invalidParameters⟩
  else if ceilDiv n ell > 65535 then
    return ⟨n, ell, 0, 0, 0, .crashed .receiverIndexExceedsU16⟩
  else
    let m := ceilDiv n ell
    let s ← runServers rng n ell env
    let expected := ((List.range n).filter fun i => i % m == 0).length
    let recovered := ((← s.lastUpdTableA[0]?) ^^^ (← s.lastUpdTableB[0]?)).toNat
    let responseA := serializeRow (s.tableA.row 0)
    let responseB := serializeRow (s.tableB.row 0)
    return ⟨n, ell, responseA.length, responseB.length, responseA.length + responseB.length,
      if recovered = expected then .completed
      else .crashed (.rowReconstructionMismatch m ell 0 expected recovered)⟩

/-! ### What is sent

The signals go round the recipients, and the batches cut them without losing
any. -/

theorem locationOfBytes_xor {as bs : List Byte} (ha : as.length = 32) (hb : bs.length = 32) :
    locationOfBytes (as.zipWith (· ^^^ ·) bs) = locationOfBytes as ^^^ locationOfBytes bs := by
  rw [← locationOfBytes_bytes (locationOfBytes as ^^^ locationOfBytes bs), locationBytes_xor,
    locationBytes_ofBytes ha, locationBytes_ofBytes hb]

theorem length_location (i : Nat) : (location i).length = 32 := by
  simp [location]

theorem mem_repeatWith {α : Type} {gen : ρ → α × ρ} {n : Nat} {s : ρ} {x : α}
    (hx : x ∈ (repeatWith gen n s).1) : ∃ s', x = (gen s').1 := by
  induction n generalizing s with
  | zero => cases hx
  | succ n ih =>
      rcases List.mem_cons.mp hx with rfl | hx
      · exact ⟨s, rfl⟩
      · exact ih hx

theorem sendSignals_eq (n m : Nat) :
    ∃ (a : Nat → Index) (la : Nat → List Byte), (∀ i < n, (la i).length = 32) ∧
      sendSignals rng n m = (List.range n).map fun i =>
        ⟨a i, .ofNat 16 (i % m) ^^^ a i, la i, (location i).zipWith (· ^^^ ·) (la i)⟩ := by
  set receiversA := repeatWith rng.genU16 n (rng.seedFromU64 0xea15511) with hreceiversA
  set locsA := repeatWith (repeatWith rng.genU8 32) n receiversA.2 with hlocsA
  obtain ⟨a, ha⟩ : ∃ a, receiversA.1 = (List.range n).map a := by
    have h := eq_map_range 0 receiversA.1
    rw [show receiversA.1.length = n from length_repeatWith _ _ _] at h
    exact ⟨_, h⟩
  obtain ⟨la, hla⟩ : ∃ la, locsA.1 = (List.range n).map la := by
    have h := eq_map_range [] locsA.1
    rw [show locsA.1.length = n from length_repeatWith _ _ _] at h
    exact ⟨_, h⟩
  refine ⟨a, la, ?_, ?_⟩
  · intro i hi
    have hmem : la i ∈ locsA.1 := hla ▸ List.mem_map_of_mem (List.mem_range.mpr hi)
    obtain ⟨s, hs⟩ := mem_repeatWith hmem
    rw [hs, length_repeatWith]
  · rw [sendSignals]
    simp only [← hreceiversA, ← hlocsA]
    rw [ha, hla]
    simp only [List.zipWith_map, List.zipWith_self, List.zip_map', List.map_map]
    rfl

/-- The locations of the signals to `r`. -/
def sentTo (n m r : Nat) : List (List Byte) :=
  ((List.range n).filter fun i => i % m == r).map location

theorem messagesTo_sendSignals {n m r : Nat} (hm : m < 65536) (hr : r < m) :
    messagesTo r (sendSignals rng n m) = (sentTo n m r).map locationOfBytes := by
  obtain ⟨a, la, hla, hsend⟩ := sendSignals_eq rng n m
  have haddressed : ∀ i, addressed r ⟨a i, .ofNat 16 (i % m) ^^^ a i, la i,
      (location i).zipWith (· ^^^ ·) (la i)⟩ = (i % m == r) := by
    intro i
    have hi : i % m < m := Nat.mod_lt i (Nat.zero_lt_of_lt hr)
    have hxor : a i ^^^ (BitVec.ofNat 16 (i % m) ^^^ a i) = .ofNat 16 (i % m) := by
      rw [BitVec.xor_comm (.ofNat 16 (i % m)), ← BitVec.xor_assoc, BitVec.xor_self, BitVec.zero_xor]
    rw [addressed, hxor, Bool.beq_eq_decide_eq, decide_eq_decide]
    constructor
    · intro h
      have := congrArg BitVec.toNat h
      simp only [BitVec.toNat_ofNat] at this
      omega
    · rintro rfl
      rfl
  have hloc : ∀ i ∈ (List.range n).filter (fun i => i % m == r),
      locationOfBytes (la i) ^^^ locationOfBytes ((location i).zipWith (· ^^^ ·) (la i))
        = locationOfBytes (location i) := by
    intro i hi
    have hlen := hla i (List.mem_range.mp (List.mem_filter.mp hi).1)
    rw [locationOfBytes_xor (length_location i) hlen,
      BitVec.xor_comm (locationOfBytes (location i)), ← BitVec.xor_assoc, BitVec.xor_self,
      BitVec.zero_xor]
  rw [messagesTo, hsend, List.filter_map, List.map_map, sentTo, List.map_map]
  rw [show addressed r ∘ _ = fun i => i % m == r from funext haddressed]
  exact List.map_congr_left hloc

theorem length_sentTo_le {n m l r : Nat} (hn : n ≤ m * l) :
    (sentTo n m r).length ≤ l := by
  have hnodup : (((List.range n).filter fun i => i % m == r).map (· / m)).Nodup := by
    refine List.Nodup.map_on ?_ (List.nodup_range.filter _)
    intro i hi j hj hdiv
    have hi := (beq_iff_eq.mp (List.mem_filter.mp hi).2)
    have hj := (beq_iff_eq.mp (List.mem_filter.mp hj).2)
    rw [← Nat.div_add_mod i m, ← Nat.div_add_mod j m, hi, hj, hdiv]
  have hsub : ((List.range n).filter fun i => i % m == r).map (· / m) ⊆ List.range l := by
    intro q hq
    obtain ⟨i, hi, rfl⟩ := List.mem_map.mp hq
    have hi := List.mem_range.mp (List.mem_filter.mp hi).1
    exact List.mem_range.mpr (Nat.div_lt_of_lt_mul (hi.trans_le hn))
  have hle := (List.subperm_of_subset hnodup hsub).length_le
  rw [List.length_map, List.length_range] at hle
  rwa [sentTo, List.length_map]

theorem le_ceilDiv_mul (n : Nat) {b : Nat} (hb : 0 < b) : n ≤ ceilDiv n b * b := by
  have := Nat.lt_div_mul_add (a := n + b - 1) hb
  rw [ceilDiv]
  omega

theorem ceilDiv_pos {n b : Nat} (hn : 0 < n) (hb : 0 < b) : 0 < ceilDiv n b :=
  Nat.div_pos (by omega) hb

/-- The batches hold all that was sent. -/
theorem flatMap_batches {n batchSize : Nat} (hb : 0 < batchSize) {signals : List SignalShares}
    (hlen : signals.length = n) : (batches rng n batchSize signals).flatMap (·.2) = signals := by
  rw [batches, List.flatMap_map, List.flatMap_def, flatten_chunks,
    List.take_of_length_le (hlen ▸ le_ceilDiv_mul n hb)]

theorem batches_ne_nil {n batchSize : Nat} (hb : 0 < batchSize) {signals : List SignalShares}
    (hlen : signals.length = n) : ∀ b ∈ batches rng n batchSize signals, b.2 ≠ [] := by
  intro b hmem
  obtain ⟨idx, hidx, rfl⟩ := List.mem_map.mp hmem
  have hidx := List.mem_range.mp hidx
  have hstart : idx * batchSize < n := by
    have := (Nat.lt_div_iff_mul_lt hb).mp hidx
    omega
  intro h
  have hzero := congrArg List.length h
  rw [List.length_take, List.length_drop, hlen, List.length_nil] at hzero
  omega

theorem length_sendSignals (n m : Nat) : (sendSignals rng n m).length = n := by
  obtain ⟨a, la, -, hsend⟩ := sendSignals_eq rng n m
  rw [hsend, List.length_map, List.length_range]

theorem nativeBatchSize_pos (env : Option Nat) {ell : Nat} (hell : 0 < ell) :
    0 < nativeBatchSize env ell := by
  cases env with
  | none => exact hell
  | some size =>
      rcases Nat.eq_zero_or_pos size with rfl | hsize
      · exact hell
      · simp [nativeBatchSize, Option.filter, hsize]

theorem batches_wellFormed {n batchSize : Nat} (hb : 0 < batchSize) (m : Nat) :
    ∀ b ∈ batches rng n batchSize (sendSignals rng n m),
      b.2 ≠ [] ∧ ∀ x ∈ b.2, x.locA.length = 32 ∧ x.locB.length = 32 := by
  intro b hmem
  refine ⟨batches_ne_nil rng hb (length_sendSignals rng n m) b hmem, ?_⟩
  intro x hx
  obtain ⟨idx, -, rfl⟩ := List.mem_map.mp hmem
  obtain ⟨a, la, hla, hsend⟩ := sendSignals_eq rng n m
  have hx : x ∈ sendSignals rng n m := List.mem_of_mem_drop (List.mem_of_mem_take hx)
  rw [hsend] at hx
  obtain ⟨i, hi, rfl⟩ := List.mem_map.mp hx
  have hlen := hla i (List.mem_range.mp hi)
  refine ⟨hlen, ?_⟩
  show ((location i).zipWith (· ^^^ ·) (la i)).length = 32
  rw [List.length_zipWith, length_location, hlen, Nat.min_self]

/-! ### What becomes of it

With parameters that fit, no mailbox overflows, and the benchmark finds what
it has sent. -/

theorem runServers_holds {n ell : Nat} (hn : 0 < n) (hell : 0 < ell) (hell' : ell < 65536)
    (hm : ceilDiv n ell ≤ 65535) (env : Option Nat) :
    ∃ s, runServers rng n ell env = some s ∧
      Holds ⟨ceilDiv n ell, ell⟩ (fun r => (sentTo n (ceilDiv n ell) r).map locationOfBytes) s := by
  have hm' : ceilDiv n ell < 65536 := Nat.lt_succ_of_le hm
  have hb := nativeBatchSize_pos env hell
  obtain ⟨s₀, hs₀, hholds₀⟩ := setup_holds rng ⟨ceilDiv n ell, ell⟩
    (ceilDiv_pos hn hell) hell
  obtain ⟨s, hs, hholds⟩ := run_holds rng (ceilDiv_pos hn hell) hm' hell hell' hholds₀
    (batches_wellFormed rng (n := n) hb (ceilDiv n ell))
  refine ⟨s, ?_, hholds.congr fun r hr => ?_⟩
  · rw [runServers]
    simp only [Option.bind_eq_bind, hs₀, Option.bind_some, hs]
  · rw [deliver, flatMap_batches rng hb (length_sendSignals rng _ _),
      messagesTo_sendSignals rng hm' hr, List.nil_append, List.take_of_length_le]
    rw [List.length_map]
    exact length_sentTo_le (le_ceilDiv_mul n hell)

/-- Nothing is lost: with parameters that fit, every recipient reads all that was
sent to it, in its order, and then zeros. -/
theorem bench_reads {n ell : Nat} (hn : 0 < n) (hell : 0 < ell) (hell' : ell < 65536)
    (hm : ceilDiv n ell ≤ 65535) (env : Option Nat) :
    ∃ s, runServers rng n ell env = some s ∧ ∀ r < ceilDiv n ell,
      consumeRowShareResponses (serializeRow (s.tableA.row r)) (serializeRow (s.tableB.row r))
        = .ok (sentTo n (ceilDiv n ell) r ++ List.replicate
            (ell - (sentTo n (ceilDiv n ell) r).length) (List.replicate 32 0)) := by
  obtain ⟨s, hs, hholds⟩ := runServers_holds rng hn hell hell' hm env
  refine ⟨s, hs, fun r hr => ?_⟩
  have hlen := length_sentTo_le (r := r) (le_ceilDiv_mul n hell)
  have h32 : ∀ bs ∈ sentTo n (ceilDiv n ell) r, bs.length = 32 := by
    intro bs hbs
    obtain ⟨i, -, rfl⟩ := List.mem_map.mp hbs
    exact length_location i
  rw [recipient_reads (hell'.trans (by decide)) hholds hr]
  refine congrArg Except.ok (List.ext_getElem (by simp; omega) fun j hj hj' => ?_)
  rw [List.getElem_map, List.getElem_range, List.getElem?_map]
  rcases Nat.lt_or_ge j (sentTo n (ceilDiv n ell) r).length with hlt | hge
  · rw [List.getElem_append_left hlt, List.getElem?_eq_getElem hlt, Option.map_some,
      Option.getD_some]
    exact locationBytes_ofBytes (h32 _ (List.getElem_mem hlt))
  · rw [List.getElem_append_right hge, List.getElem?_eq_none hge, List.getElem_replicate]
    rfl

theorem bench_reads_sample :
    ∃ s, runServers sampleRng 3 2 none = some s ∧ ∀ r < ceilDiv 3 2,
      consumeRowShareResponses (serializeRow (s.tableA.row r)) (serializeRow (s.tableB.row r))
        = .ok (sentTo 3 (ceilDiv 3 2) r ++ List.replicate
            (2 - (sentTo 3 (ceilDiv 3 2) r).length) (List.replicate 32 0)) :=
  bench_reads sampleRng (by decide) (by decide) (by decide) (by decide) none

end

end Pps

end PSVFSS

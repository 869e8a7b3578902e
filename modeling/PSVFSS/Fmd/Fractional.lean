/-
# `Fmd.Fractional` — detection with any rate

The flag ciphertext is a garbled circuit that reduces a random number; the
labels for the numerator are encrypted under the public keys, two for each bit,
and a detection key holds one secret key of every pair.  `fractional_detection`
follows a ciphertext from `Flag` to `Test`: what the receiver computes is the
circuit on the random number and the numerator of the detection key, and the
answer is whether the result is below that numerator.

The labels are encrypted in place, so that `PackedMarshal` writes the encrypted
ones a second time; `Test` takes only the tables from it.
-/
import PSVFSS.Fmd.Bristol
import PSVFSS.Fmd.ElGamal

namespace PSVFSS

open ByteBuffer Loop MemoDag Framing

namespace Fractional

/-! ## `KeyGen` and `Extract`

The keys come in pairs, one pair for each bit of the numerator. -/

/-- `KeyGen`, `none` for a granularity without a circuit. -/
def keyGen (c : Curve) (gamma : Nat) (random : List Byte) :
    Option ((SecKey × PubKey) × List Byte) :=
  if gamma ≠ 8 ∧ gamma ≠ 24 then none
  else do
    let (pairs, random) ← keyGenLoop c (2 * gamma) random
    return ((⟨2 * gamma, pairs.map Prod.fst, BitVec.allOnes 32⟩,
      ⟨2 * gamma, pairs.map Prod.snd⟩), random)

/-- `Extract`, `none` for nil.  The keys are chosen by the bits of the numerator. -/
def extract (numerator : Int) (priv : SecKey) : Option SecKey :=
  let modSize := priv.numKeys / 2
  if numerator < 0 ∨ 2 ^ modSize ≤ numerator then none
  else do
    let secKeys ← (List.range modSize).mapM fun i =>
      if numerator.toNat.testBit i then priv.secKeys[2 * i + 1]? else priv.secKeys[2 * i]?
    return ⟨modSize, secKeys, BitVec.ofNat 32 numerator.toNat⟩

/-! ## `Flag`

Only the labels of the numerator's wires are encrypted.  Those of the random
number are written as they are, one of each pair. -/

section
variable (c : Curve) (sha256 : List Byte → Vector Byte 32)

/-- `computeHashI`. -/
def computeHashI (one two : GroupElement) : Vector Byte 32 :=
  sha256 (ascii "HashI" ++ c.marshal one ++ c.marshal two)

/-- `byte_stream[:LABEL_LEN_BYTES]`. -/
def pad (one two : GroupElement) : Label := Vector.ofFn fun i : Fin 16 =>
  (computeHashI c sha256 one two)[i.val]

/-- `WireLabelPair[b] = label`. -/
def putLabel (p : SimpleWireLabelSet) (b : Bool) (label : Label) : SimpleWireLabelSet :=
  if b then { p with label1 := label } else { p with label0 := label }

/-- `generateAnonKeyStream`; `none` for an index out of range. -/
def generateAnonKeyStream (pub : PubKey) (b : Nat) (bG : GroupElement) (numOfWires : Nat) :
    Option (List SimpleWireLabelSet) :=
  (List.range pub.numKeys).foldlM (fun allLabels i => do
    let sharedKey := c.scalarMult (← pub.pubKeys[i]?) b
    let p ← allLabels[i / 2]?
    return allLabels.set (i / 2) (putLabel p (i % 2 = 1) (pad c sha256 bG sharedKey)))
    (List.replicate numOfWires ⟨Label.zero, Label.zero⟩)

/-- A sign byte and the absolute value, in as many bytes as the field has bits. -/
def writeCoord (x : Int) : Option (List Byte) := do
  return byteOfSign x :: (← fillBytes c.fieldBits x.natAbs)
where
  byteOfSign (x : Int) : Byte := if x < 0 then 1 else 0

/-- `writeCompactDHShare`. -/
def writeCompactDHShare (bG : GroupElement) : Option (List Byte) := do
  return (← writeCoord c bG.x) ++ (← writeCoord c bG.y)

/-- The two labels of one wire, encrypted in place, and what is written of them. -/
def encryptWire (inputPads : List SimpleWireLabelSet) (idx : Nat)
    (s : List SimpleWireLabelSet × List Byte) (i : Nat) :
    Option (List SimpleWireLabelSet × List Byte) := do
  let p ← s.1[idx + i]?
  let k ← inputPads[i]?
  let q : SimpleWireLabelSet := ⟨p.label0.xor k.label0, p.label1.xor k.label1⟩
  return (s.1.set (idx + i) q, s.2 ++ q.bytes)

/-- The index of the circuit file. -/
def circuitIdx (modSize : Nat) : Nat := if modSize = 24 then 1 else 0

/-- The circuit that both sides work on; `none` where its file is not read. -/
def openCircuit (circuitFiles : Nat → List (List String)) (modSize : Nat) : Option Circuit :=
  (parseBRISTOLCircuitFile (circuitFiles (circuitIdx modSize))).map ParsedCircuit.circuit

/-- `Flag`, on the records of the two circuit files.  `rand` delivers the reads
of the garbling, `random` is the reader that is passed.  `none` for a run-time
error and for nil. -/
def flag (hash : List Byte → Label) (circuitFiles : Nat → List (List String))
    (rand : Nat → Label) (random : List Byte) (pk : PubKey) : Option (List Byte) := do
  let modSize := pk.numKeys / 2
  let circuit ← openCircuit circuitFiles modSize
  let ((b, bG), random) ← keyGenSingle c random
  let garble ← garbleCircuit hash circuit rand
  let ctBuff ← writeCompactDHShare c bG
  let inputPads ← generateAnonKeyStream c sha256 pk b bG modSize
  if garble.numInputWires < modSize then none
  else
    let idx := garble.numInputWires - modSize
    let (wireLabels, ctBuff) ← (List.range modSize).foldlM (encryptWire inputPads idx)
      (garble.wireLabels, ctBuff)
    if random.length < 16 then none
    else
      let randomNumber := setBytes (random.take 16)
      let labels ← (List.range (circuit.numInputWires - modSize)).mapM fun i => do
        return (← wireLabels[i]?).get (randomNumber.testBit i)
      let packed ← packedMarshal { garble with wireLabels := wireLabels }
      return ctBuff ++ labels.flatMap Label.bytes ++ packed

end

/-! ## `Test`

The parts are read from one buffer, each as long as it is known to be.  `Read`
of a buffer that is too short is not noticed everywhere: what is missing is
zero. -/

/-- `Read` of a buffer: what is there, up to the length asked for; the rest stays
zero.  An error at the end of the buffer. -/
def readInto (n : Nat) (buffer : List Byte) : Option (List Byte × List Byte) :=
  if buffer = [] ∧ n ≠ 0 then none
  else some (buffer.take n ++ List.replicate (n - buffer.length) 0, buffer.drop n)

def readCoord (n : Nat) (buffer : List Byte) : Option (Int × List Byte) := do
  match buffer with
  | [] => none
  | sign :: buffer =>
      let (coord, buffer) ← readInto n buffer
      let x : Int := setBytes coord
      return (if sign = 1 then -x else x, buffer)

/-- `decodeCompactDHShare`. -/
def decodeCompactDHShare (c : Curve) (buffer : List Byte) : Option (GroupElement × List Byte) := do
  let (x, buffer) ← readCoord c.fieldBits buffer
  let (y, buffer) ← readCoord c.fieldBits buffer
  return (⟨x, y⟩, buffer)

/-- A label that `Test` reads, in full or not. -/
def readPadded (buffer : List Byte) : Option (Label × List Byte) := do
  let (label, buffer) ← readInto 16 buffer
  if h : label.length = 16 then some (⟨label.toArray, h⟩, buffer) else none

def readPair (buffer : List Byte) : Option (SimpleWireLabelSet × List Byte) :=
  (decodePair readPadded readPadded buffer).map fun r => (⟨r.1.1, r.1.2⟩, r.2)

/-- `strconv.ParseUint` to the base 2: an error for what is no binary number and
for more than `bitSize` bits. -/
def parseUint (s : String) (bitSize : Nat) : Option Nat := do
  if s.toList = [] then none
  else
    let n ← s.toList.foldlM (fun n ch =>
      if ch = '0' then some (2 * n) else if ch = '1' then some (2 * n + 1) else none) 0
    if n < 2 ^ bitSize then some n else none

/-- The label of a wire of the numerator. -/
def decryptLabel (c : Curve) (sha256 : List Byte → Vector Byte 32) (otherShare : GroupElement)
    (allModLabels : List SimpleWireLabelSet) (priv : SecKey) (idx : Nat) : Option Label := do
  let sharedKey := c.scalarMult otherShare (← priv.secKeys[idx]?)
  let p ← allModLabels[idx]?
  return (pad c sha256 otherShare sharedKey).xor (p.get (priv.prob.getLsbD idx))

/-- `Test`; `none` for a run-time error. -/
def test (c : Curve) (sha256 : List Byte → Vector Byte 32) (hash : List Byte → Label)
    (circuitFiles : Nat → List (List String)) (ctBytes : List Byte) (priv : SecKey) :
    Option Bool :=
  let modSize := priv.numKeys
  if modSize ≠ 8 ∧ modSize ≠ 24 then some false
  else do
    let circuit ← openCircuit circuitFiles modSize
    let (otherShare, ctBuff) ← decodeCompactDHShare c ctBytes
    let (allModLabels, ctBuff) ← decodeMany readPair modSize ctBuff
    if circuit.numInputWires < modSize then none
    else
      let modLabels ← (List.range modSize).mapM
        (decryptLabel c sha256 otherShare allModLabels priv)
      let (labels, ctGCBytes) ← decodeMany readPadded (circuit.numInputWires - modSize) ctBuff
      let garb ← packedUnmarshal ⟨0, 0, [], [], Label.zero⟩ ctGCBytes circuit
      let (evalCheck, output) ← garb.evaluateCircuit hash circuit (labels ++ modLabels)
      if evalCheck then
        let numAsInt ← parseUint (decodePlaintextOutputLabels output) modSize
        return BitVec.ofNat 32 numAsInt < priv.prob
      else return false

/-! ## The keys

A pair has its keys at the places `2 i` and `2 i + 1`, and the numerator's bit
says which one is given away. -/

theorem keyGen_belong {c : Curve} {gamma : Nat} {random rest : List Byte} {priv : SecKey}
    {pub : PubKey} (h : keyGen c gamma random = some ((priv, pub), rest)) :
    KeysBelong c priv pub ∧ pub.numKeys = 2 * gamma ∧ (gamma = 8 ∨ gamma = 24) := by
  rw [keyGen] at h
  split at h
  next => cases h
  next hgamma =>
    obtain ⟨⟨pairs, _⟩, hpairs, h⟩ := Option.bind_eq_some_iff.mp h
    cases h
    obtain ⟨hlen, hpublic⟩ := keyGenLoop_spec hpairs
    refine ⟨⟨rfl, (List.length_map _).trans hlen, hpublic⟩, rfl, ?_⟩
    show gamma = 8 ∨ gamma = 24
    omega

/-- Of every pair the key that the bit of the numerator selects. -/
theorem extract_spec {priv : SecKey} {gamma numerator : Nat} (hnum : priv.numKeys = 2 * gamma)
    (hlen : priv.secKeys.length = priv.numKeys) (hlt : numerator < 2 ^ gamma) :
    ∃ dsk, extract numerator priv = some dsk ∧ dsk.numKeys = gamma ∧
      dsk.prob = BitVec.ofNat 32 numerator ∧
      ∀ i < gamma, dsk.secKeys[i]? = priv.secKeys[2 * i + (numerator.testBit i).toNat]? := by
  have hmod : priv.numKeys / 2 = gamma := by omega
  obtain ⟨secKeys, hkeys⟩ := exists_forall₂ (l := List.range gamma)
    (R := fun i sk => (if numerator.testBit i then priv.secKeys[2 * i + 1]?
      else priv.secKeys[2 * i]?) = some sk) (by
      intro i hi
      have hi' := List.mem_range.mp hi
      split
      next => exact ⟨_, List.getElem?_eq_getElem (by omega)⟩
      next => exact ⟨_, List.getElem?_eq_getElem (by omega)⟩)
  have hmapM := mapM_eq_some_iff.mpr hkeys
  refine ⟨⟨gamma, secKeys, BitVec.ofNat 32 numerator⟩, ?_, rfl, rfl, fun i hi => ?_⟩
  · have hrange : ¬ ((numerator : Int) < 0 ∨ 2 ^ gamma ≤ (numerator : Int)) := by
      rintro (hneg | hbig)
      · exact absurd hneg (Int.not_lt.mpr (Int.natCast_nonneg _))
      · exact absurd (by exact_mod_cast hbig : 2 ^ gamma ≤ numerator) (Nat.not_le.mpr hlt)
    rw [extract, hmod, if_neg hrange, Int.toNat_natCast, hmapM]
    rfl
  · obtain ⟨sk, hsk, hget⟩ := getElem?_mapM_range hmapM hi
    refine hget.trans (hsk.symm.trans ?_)
    cases numerator.testBit i <;> rfl

/-! ## The pads and the encrypted labels

The loops write into lists in place.  The pads are those of the public keys,
and a label is encrypted once, before any of it is sent. -/

theorem get_putLabel (p : SimpleWireLabelSet) (b v : Bool) (label : Label) :
    (putLabel p b label).get v = if v = b then label else p.get v := by
  cases b <;> cases v <;> rfl

section
variable {c : Curve} {sha256 : List Byte → Vector Byte 32}

variable (c sha256) in
/-- A pad for each of the public keys, two for each wire. -/
theorem generateAnonKeyStream_spec {pub : PubKey} {n : Nat} (hnum : pub.numKeys = 2 * n)
    (hlen : pub.pubKeys.length = pub.numKeys) (b : Nat) (bG : GroupElement) :
    ∃ pads, generateAnonKeyStream c sha256 pub b bG n = some pads ∧
      ∀ j < pub.numKeys, ∃ key p, pub.pubKeys[j]? = some key ∧ pads[j / 2]? = some p ∧
        p.get (j % 2 = 1) = pad c sha256 bG (c.scalarMult key b) := by
  have hloop : ∃ pads, generateAnonKeyStream c sha256 pub b bG n = some pads ∧
      (pads.length = n ∧
        ∀ j < pub.numKeys, ∃ key p, pub.pubKeys[j]? = some key ∧ pads[j / 2]? = some p ∧
          p.get (j % 2 = 1) = pad c sha256 bG (c.scalarMult key b)) := by
    refine foldlM_range
      (P := fun (k : Nat) (pads : List SimpleWireLabelSet) => pads.length = n ∧
        ∀ j < k, ∃ key p, pub.pubKeys[j]? = some key ∧ pads[j / 2]? = some p ∧
          p.get (j % 2 = 1) = pad c sha256 bG (c.scalarMult key b))
      ⟨List.length_replicate, fun j hj => absurd hj (Nat.not_lt_zero j)⟩ ?_
    rintro k hk pads ⟨hpads, hdone⟩
    have hkey : k < pub.pubKeys.length := hk.trans_eq hlen.symm
    have hwire : k / 2 < pads.length := by omega
    let label := pad c sha256 bG (c.scalarMult pub.pubKeys[k] b)
    refine ⟨pads.set (k / 2) (putLabel pads[k / 2] (k % 2 = 1) label), ?_,
      List.length_set.trans hpads, fun j hj => ?_⟩
    · show (pub.pubKeys[k]?).bind _ = _
      rw [List.getElem?_eq_getElem hkey, Option.bind_some]
      show (pads[k / 2]?).bind _ = _
      rw [List.getElem?_eq_getElem hwire]
      rfl
    · rcases Nat.lt_succ_iff_lt_or_eq.mp hj with hlt | rfl
      · obtain ⟨key, p, hget, hp, hpad⟩ := hdone j hlt
        by_cases hsame : k / 2 = j / 2
        -- the other label of the wire is kept
        · have hbit : (decide (j % 2 = 1)) ≠ decide (k % 2 = 1) := by
            intro heq
            have := decide_eq_decide.mp heq
            omega
          refine ⟨key, putLabel pads[k / 2] (k % 2 = 1) label, hget, ?_, ?_⟩
          · rw [← hsame, List.getElem?_set_self hwire]
          · rw [get_putLabel, if_neg hbit]
            have hpk : pads[k / 2] = p := by
              rw [← hsame, List.getElem?_eq_getElem hwire] at hp
              exact Option.some.inj hp
            rw [hpk, hpad]
        · exact ⟨key, p, hget, (List.getElem?_set_ne hsame).trans hp, hpad⟩
      · refine ⟨_, _, List.getElem?_eq_getElem hkey, List.getElem?_set_self hwire, ?_⟩
        rw [get_putLabel, if_pos rfl]
  obtain ⟨pads, hpads, -, hall⟩ := hloop
  exact ⟨pads, hpads, hall⟩

/-- Behind `m` passes of the encryption: the labels from `idx` on are encrypted
and written, the others stay. -/
structure Encrypted (pads wireLabels : List SimpleWireLabelSet) (idx : Nat) (ctBuff : List Byte)
    (m : Nat) (s : List SimpleWireLabelSet × List Byte) (encs : List SimpleWireLabelSet) :
    Prop where
  buff : s.2 = ctBuff ++ encs.flatMap SimpleWireLabelSet.bytes
  length : s.1.length = wireLabels.length
  kept : ∀ g, g < idx ∨ idx + m ≤ g → s.1[g]? = wireLabels[g]?
  count : encs.length = m
  label : ∀ i < m, ∃ p k, wireLabels[idx + i]? = some p ∧ pads[i]? = some k ∧
    encs[i]? = some ⟨p.label0.xor k.label0, p.label1.xor k.label1⟩

theorem encryptWires {pads wireLabels : List SimpleWireLabelSet} {idx n : Nat}
    (hpads : ∀ i < n, ∃ k, pads[i]? = some k) (hwires : idx + n ≤ wireLabels.length)
    (ctBuff : List Byte) :
    ∃ s, (List.range n).foldlM (encryptWire pads idx) (wireLabels, ctBuff) = some s ∧
      ∃ encs, Encrypted pads wireLabels idx ctBuff n s encs := by
  refine foldlM_range
    (P := fun (m : Nat) (s : List SimpleWireLabelSet × List Byte) =>
      ∃ encs, Encrypted pads wireLabels idx ctBuff m s encs)
    ⟨[], (List.append_nil _).symm, rfl, fun _ _ => rfl, rfl,
      fun i hi => absurd hi (Nat.not_lt_zero i)⟩ ?_
  rintro m hm ⟨ws, buff⟩ ⟨encs, hdone⟩
  obtain ⟨k, hk⟩ := hpads m hm
  have hwire : idx + m < wireLabels.length := by omega
  obtain ⟨p, hp⟩ : ∃ p, wireLabels[idx + m]? = some p := ⟨_, List.getElem?_eq_getElem hwire⟩
  have hws : ws[idx + m]? = some p := (hdone.kept _ (Or.inr le_rfl)).trans hp
  let q : SimpleWireLabelSet := ⟨p.label0.xor k.label0, p.label1.xor k.label1⟩
  refine ⟨(ws.set (idx + m) q, buff ++ q.bytes), ?_, encs ++ [q], ?_,
    List.length_set.trans hdone.length, fun g hg => ?_, ?_, fun i hi => ?_⟩
  · show (ws[idx + m]?).bind _ = _
    rw [hws, Option.bind_some]
    show (pads[m]?).bind _ = _
    rw [hk]
    rfl
  · show buff ++ q.bytes = _
    have hbuff : buff = ctBuff ++ encs.flatMap SimpleWireLabelSet.bytes := hdone.buff
    rw [hbuff, List.flatMap_append, List.append_assoc, List.flatMap_singleton]
  · have hne : idx + m ≠ g := by omega
    refine (List.getElem?_set_ne hne).trans (hdone.kept g ?_)
    omega
  · rw [List.length_append, hdone.count, List.length_singleton]
  · have hcount := hdone.count
    rcases Nat.lt_succ_iff_lt_or_eq.mp hi with hlt | rfl
    · obtain ⟨p', k', hp', hk', henc⟩ := hdone.label i hlt
      exact ⟨p', k', hp', hk', (List.getElem?_append_left (hlt.trans_eq hcount.symm)).trans henc⟩
    · refine ⟨p, k, hp, hk, ?_⟩
      show (encs ++ [q])[i]? = some q
      rw [← hcount, List.getElem?_concat_length]

end

/-! ## What `Test` reads

The parts say where they end, so each is read back in front of whatever
follows. -/

theorem readInto_append {buf : List Byte} {n : Nat} (hlen : buf.length = n) (rest : List Byte) :
    readInto n (buf ++ rest) = some (buf, rest) := by
  have hnonempty : ¬ (buf ++ rest = [] ∧ n ≠ 0) := by
    rintro ⟨hnil, hn⟩
    exact hn (hlen.symm.trans (congrArg List.length (List.append_eq_nil_iff.mp hnil).1))
  have hzero : n - (buf ++ rest).length = 0 := by
    rw [List.length_append]
    omega
  rw [readInto, if_neg hnonempty, hzero, List.replicate_zero, List.append_nil,
    List.take_left' hlen, List.drop_left' hlen]

theorem readCoord_writeCoord (c : Curve) {x : Int} (hx : 0 ≤ x ∧ x.toNat < 2 ^ c.fieldBits) :
    ∃ w, writeCoord c x = some w ∧ ∀ rest, readCoord c.fieldBits (w ++ rest) = some (x, rest) := by
  have hfit : x.natAbs < 256 ^ c.fieldBits := by
    have habs : x.natAbs = x.toNat := by omega
    rw [habs]
    exact hx.2.trans_le (Nat.pow_le_pow_left (by decide) _)
  obtain ⟨buf, hbuf, hlen, hval⟩ := fillBytes_spec hfit
  refine ⟨0 :: buf, ?_, fun rest => ?_⟩
  · have hsign : writeCoord.byteOfSign x = 0 := if_neg (Int.not_lt.mpr hx.1)
    rw [writeCoord, hbuf, hsign]
    rfl
  · show (readInto c.fieldBits (buf ++ rest)).bind _ = _
    have hcoord : ((setBytes buf : Nat) : Int) = x := by
      rw [hval]
      exact Int.natAbs_of_nonneg hx.1
    rw [readInto_append hlen, Option.bind_some]
    exact congrArg (fun v : Int => some (v, rest)) hcoord

theorem decodeCompactDHShare_write {G : Type} [AddCommGroup G] {c : Curve}
    {coords : G → GroupElement} {base : G} (hlawful : c.Lawful coords base) (b : Nat) :
    ∃ share, writeCompactDHShare c (c.scalarBaseMult b) = some share ∧
      ∀ rest, decodeCompactDHShare c (share ++ rest) = some (c.scalarBaseMult b, rest) := by
  obtain ⟨wx, hwx, hreadx⟩ := readCoord_writeCoord c (hlawful.x_range (b • base))
  obtain ⟨wy, hwy, hready⟩ := readCoord_writeCoord c (hlawful.y_range (b • base))
  rw [hlawful.scalarBaseMult]
  refine ⟨wx ++ wy, ?_, fun rest => ?_⟩
  · rw [writeCompactDHShare, hwx, hwy]
    rfl
  · rw [List.append_assoc]
    show (readCoord c.fieldBits _).bind _ = _
    rw [hreadx, Option.bind_some]
    show (readCoord c.fieldBits _).bind _ = _
    rw [hready]
    rfl

theorem readPadded_delimiting : SelfDelimiting (fun _ => True) Label.bytes readPadded := by
  intro a _ rest
  have hlen : a.toList.length = 16 := Vector.length_toList
  show (readInto 16 (a.toList ++ rest)).bind _ = _
  rw [readInto_append hlen, Option.bind_some]
  show (if h : a.toList.length = 16 then some (_, rest) else none) = _
  rw [dif_pos hlen]
  rfl

theorem readPair_delimiting :
    SelfDelimiting (fun _ => True) SimpleWireLabelSet.bytes readPair := by
  intro p _ rest
  have hpair := decodePair_eq (readPadded_delimiting p.label0 trivial (p.label1.bytes ++ rest))
    (readPadded_delimiting p.label1 trivial rest)
  rw [SimpleWireLabelSet.bytes, List.append_assoc, readPair, hpair]
  rfl

/-! ## The decoded number

`Test` has the outputs as a string of binary digits and parses it again,
bounded by the width of the numerator. -/

/-- The number whose bits are the outputs. -/
def valueOf : List Bool → Nat
  | [] => 0
  | b :: bs => b.toNat + 2 * valueOf bs

theorem valueOf_lt (bs : List Bool) : valueOf bs < 2 ^ bs.length := by
  induction bs with
  | nil => exact Nat.one_pos
  | cons b bs ih =>
      rw [valueOf, List.length_cons, Nat.pow_succ]
      have hb := Bool.toNat_le b
      omega

theorem parseUint_outputs {outs : List Bool} {bitSize : Nat} (hpos : 0 < outs.length)
    (hle : outs.length ≤ bitSize) :
    parseUint (String.ofList (outs.map bitChar).reverse) bitSize = some (valueOf outs) := by
  have hfold : ((outs.map bitChar).reverse).foldlM (fun n ch =>
      if ch = '0' then some (2 * n) else if ch = '1' then some (2 * n + 1) else none) 0
        = some (valueOf outs) := by
    clear hpos hle
    induction outs with
    | nil => rfl
    | cons b bs ih =>
        rw [List.map_cons, List.reverse_cons, List.foldlM_append, ih, Option.bind_eq_bind,
          Option.bind_some, List.foldlM_cons]
        cases b with
        | false => exact congrArg some (Nat.zero_add _).symm
        | true => exact congrArg some (Nat.add_comm _ _)
  have hnonempty : ¬ (String.ofList (outs.map bitChar).reverse).toList = [] := by
    rw [String.toList_ofList]
    intro hnil
    have hlen := congrArg List.length hnil
    rw [List.length_reverse, List.length_map] at hlen
    exact hpos.ne' hlen
  have hfit : valueOf outs < 2 ^ bitSize :=
    (valueOf_lt outs).trans_le (Nat.pow_le_pow_right (by decide) hle)
  rw [parseUint, if_neg hnonempty, String.toList_ofList, hfold, Option.bind_eq_bind,
    Option.bind_some, if_pos hfit]

/-! ## From `Flag` to `Test`

The receiver undoes the encryption for one label of each pair.  With the
labels of the random number these are the labels of all inputs, and
`garbled_evaluation` says what comes out. -/

theorem xor_pad_cancel (k l : Label) : k.xor (l.xor k) = l := by
  apply Vector.ext
  intro i hi
  rw [Label.getElem_xor _ _ i hi, Label.getElem_xor _ _ i hi, BitVec.xor_comm, BitVec.xor_assoc,
    BitVec.xor_self, BitVec.xor_zero]

/-- The inputs of the circuit: the low bits of the random number, and those of
the numerator. -/
def circuitInputs (circuit : Circuit) (gamma randomNumber numerator : Nat) : List Bool :=
  (List.range (circuit.numInputWires - gamma)).map randomNumber.testBit
    ++ (List.range gamma).map numerator.testBit

theorem length_circuitInputs {circuit : Circuit} {gamma : Nat} (h : gamma ≤ circuit.numInputWires)
    (randomNumber numerator : Nat) :
    (circuitInputs circuit gamma randomNumber numerator).length = circuit.numInputWires := by
  rw [circuitInputs, List.length_append, List.length_map, List.length_map, List.length_range,
    List.length_range, Nat.sub_add_cancel h]

theorem getElem?_circuitInputs (circuit : Circuit) (gamma randomNumber numerator : Nat) :
    (∀ i < circuit.numInputWires - gamma,
      (circuitInputs circuit gamma randomNumber numerator)[i]? = some (randomNumber.testBit i)) ∧
    ∀ i < gamma, (circuitInputs circuit gamma randomNumber numerator)[
      circuit.numInputWires - gamma + i]? = some (numerator.testBit i) := by
  have hlen : ((List.range (circuit.numInputWires - gamma)).map randomNumber.testBit).length
      = circuit.numInputWires - gamma := by rw [List.length_map, List.length_range]
  constructor
  · intro i hi
    rw [circuitInputs, List.getElem?_append_left (hi.trans_eq hlen.symm), List.getElem?_map,
      List.getElem?_range hi, Option.map_some]
  · intro i hi
    rw [circuitInputs, List.getElem?_append_right (hlen.trans_le (Nat.le_add_right _ i)), hlen,
      Nat.add_sub_cancel_left, List.getElem?_map, List.getElem?_range hi, Option.map_some]

/-- A key of a pair undoes the encryption of its label. -/
theorem decryptLabel_eq {G : Type} [AddCommGroup G] {c : Curve} {coords : G → GroupElement}
    {base : G} (hlawful : c.Lawful coords base) {sha256 : List Byte → Vector Byte 32}
    {priv dsk : SecKey} {pub : PubKey} (hpair : KeysBelong c priv pub) {gamma numerator : Nat}
    (hnum : pub.numKeys = 2 * gamma) {b i : Nat} (hi : i < gamma)
    (hsk : dsk.secKeys[i]? = priv.secKeys[2 * i + (numerator.testBit i).toNat]?)
    (hbit : dsk.prob.getLsbD i = numerator.testBit i)
    {pads encs : List SimpleWireLabelSet} {p k : SimpleWireLabelSet}
    (hpads : ∀ j < pub.numKeys, ∃ key p, pub.pubKeys[j]? = some key ∧ pads[j / 2]? = some p ∧
      p.get (j % 2 = 1) = pad c sha256 (c.scalarBaseMult b) (c.scalarMult key b))
    (hk : pads[i]? = some k)
    (henc : encs[i]? = some ⟨p.label0.xor k.label0, p.label1.xor k.label1⟩) :
    decryptLabel c sha256 (c.scalarBaseMult b) encs dsk i
      = some (p.get (numerator.testBit i)) := by
  obtain ⟨v, hval⟩ : ∃ v, numerator.testBit i = v := ⟨_, rfl⟩
  rw [hval] at hsk hbit ⊢
  have hv : v.toNat ≤ 1 := Bool.toNat_le v
  have hj : 2 * i + v.toNat < pub.numKeys := by omega
  obtain ⟨sk, hpriv, hpub⟩ := hpair.secret hj
  obtain ⟨key, q, hkey, hq, hpad⟩ := hpads _ hj
  obtain rfl := Option.some.inj (hpub.symm.trans hkey)
  have hhalf : (2 * i + v.toNat) / 2 = i := by omega
  obtain rfl := Option.some.inj (hk.symm.trans (hhalf ▸ hq))
  have hparity : decide ((2 * i + v.toNat) % 2 = 1) = v := by
    cases v with
    | false => exact decide_eq_false (by rw [Bool.toNat_false]; omega)
    | true => exact decide_eq_true (by rw [Bool.toNat_true]; omega)
  rw [hparity, hlawful.agree] at hpad
  show (dsk.secKeys[i]?).bind _ = _
  rw [hsk, hpriv, Option.bind_some]
  show (encs[i]?).bind _ = _
  rw [henc, Option.bind_some, hbit, ← hpad]
  refine congrArg some ?_
  show (k.get v).xor _ = p.get v
  cases v with
  | false => exact xor_pad_cancel k.label0 p.label0
  | true => exact xor_pad_cancel k.label1 p.label1

/-- The parts of a flag ciphertext. -/
structure Sealed (c : Curve) (sha256 : List Byte → Vector Byte 32) (circuit : Circuit)
    (garble : SimpleGarbledCircuit) (pub : PubKey) (gamma b randomNumber : Nat)
    (share : List Byte) (pads encs : List SimpleWireLabelSet) (labels : List Label)
    (packed : List Byte) : Prop where
  read : ∀ rest, decodeCompactDHShare c (share ++ rest) = some (c.scalarBaseMult b, rest)
  keyed : ∀ j < pub.numKeys, ∃ key p, pub.pubKeys[j]? = some key ∧ pads[j / 2]? = some p ∧
    p.get (j % 2 = 1) = pad c sha256 (c.scalarBaseMult b) (c.scalarMult key b)
  count : encs.length = gamma
  encrypted : ∀ i < gamma, ∃ p k, garble.wireLabels[circuit.numInputWires - gamma + i]? = some p ∧
    pads[i]? = some k ∧ encs[i]? = some ⟨p.label0.xor k.label0, p.label1.xor k.label1⟩
  length : labels.length = circuit.numInputWires - gamma
  chosen : ∀ i < circuit.numInputWires - gamma, ∃ p, garble.wireLabels[i]? = some p ∧
    labels[i]? = some (p.get (randomNumber.testBit i))
  tables : ∀ g, ∃ garb, packedUnmarshal g packed circuit = some garb ∧
    garb.garbledGates = garble.garbledGates

section
variable {G : Type} [AddCommGroup G] {c : Curve} {coords : G → GroupElement} {base : G}
  (hlawful : c.Lawful coords base) {sha256 : List Byte → Vector Byte 32}
  {hash : List Byte → Label} {circuitFiles : Nat → List (List String)} {rand : Nat → Label}
  {circuit : Circuit} {garble : SimpleGarbledCircuit} {priv : SecKey} {pub : PubKey}
  {gamma b : Nat}
  (hparse : openCircuit circuitFiles gamma = some circuit)
  (hin : gamma ≤ circuit.numInputWires)
  (hgarble : garbleCircuit hash circuit rand = some garble)
  (hpair : KeysBelong c priv pub) (hnum : pub.numKeys = 2 * gamma)
include hlawful hparse hin hgarble hpair hnum

variable (sha256) in
theorem flag_sealed {random rest : List Byte}
    (hb : sampleRandomScalar c.n random = some (b, rest)) (hrest : 16 ≤ rest.length) :
    ∃ share pads encs labels packed,
      flag c sha256 hash circuitFiles rand random pub = some
        (share ++ encs.flatMap SimpleWireLabelSet.bytes ++ labels.flatMap Label.bytes ++ packed) ∧
      Sealed c sha256 circuit garble pub gamma b (setBytes (rest.take 16)) share pads encs labels
        packed := by
  have hmod : pub.numKeys / 2 = gamma := by omega
  have hlen : pub.pubKeys.length = pub.numKeys := by
    rw [hpair.pubKeys, List.length_map, hpair.length, hpair.numKeys]
  have hpackable := garbleCircuit_packable hgarble
  have hinputs := hpackable.inputs
  have hwires : circuit.numInputWires - gamma + gamma ≤ garble.wireLabels.length := by
    rw [Nat.sub_add_cancel hin]
    exact hpackable.wires
  obtain ⟨share, hshare, hdecode⟩ := decodeCompactDHShare_write hlawful b
  obtain ⟨pads, hpads, hall⟩ := generateAnonKeyStream_spec c sha256 hnum hlen b
    (c.scalarBaseMult b)
  have hsome : ∀ i < gamma, ∃ k, pads[i]? = some k := by
    intro i hi
    obtain ⟨_, k, -, hk, -⟩ := hall (2 * i) (by omega)
    rw [Nat.mul_div_cancel_left i (by decide)] at hk
    exact ⟨k, hk⟩
  obtain ⟨⟨wireLabels, ctBuff⟩, hloop, encs, hdone⟩ := encryptWires
    hsome hwires share
  obtain ⟨labels, hlabels⟩ := exists_forall₂ (l := List.range (circuit.numInputWires - gamma))
    (R := fun i l => (wireLabels[i]?).bind
      (fun p => some (p.get ((setBytes (rest.take 16)).testBit i))) = some l) (by
      intro i hi
      have hlt : i < wireLabels.length := by
        have hkeep : wireLabels.length = garble.wireLabels.length := hdone.length
        have hi' := List.mem_range.mp hi
        omega
      rw [List.getElem?_eq_getElem hlt]
      exact ⟨_, rfl⟩)
  have hmapM := mapM_eq_some_iff.mpr hlabels
  have hpackable' : Packable { garble with wireLabels := wireLabels } circuit :=
    ⟨hinputs, hpackable.wires.trans_eq hdone.length.symm, hpackable.tabled⟩
  obtain ⟨packed, hpacked, -⟩ := hpackable'.unmarshal garble
  refine ⟨share, pads, encs, labels, packed, ?_, hdecode, hall, hdone.count, hdone.label,
    hlabels.length_eq.symm.trans List.length_range, fun i hi => ?_, fun g => ?_⟩
  · have hbuff : ctBuff = share ++ encs.flatMap SimpleWireLabelSet.bytes := hdone.buff
    have hkey : keyGenSingle c random = some ((b, c.scalarBaseMult b), rest) := by
      rw [keyGenSingle, hb]
      rfl
    simp only [flag, hmod, hparse, hkey, hgarble, hshare, hpads, Option.bind_eq_bind,
      Option.bind_some, hinputs, if_neg (Nat.not_lt.mpr hin), hloop,
      if_neg (Nat.not_lt.mpr hrest)]
    refine (congrArg (Option.bind · _) hmapM).trans ?_
    show (packedMarshal _).bind _ = _
    rw [← hinputs, hpacked, ← hbuff]
    rfl
  · obtain ⟨l, hl, hget⟩ := getElem?_mapM_range hmapM hi
    obtain ⟨p, hp, hpl⟩ := Option.bind_eq_some_iff.mp hl
    exact ⟨p, (hdone.kept i (Or.inl hi)).symm.trans hp, hget.trans hpl.symm⟩
  · obtain ⟨packed', hpacked', hunpacked⟩ := hpackable'.unmarshal g
    obtain rfl := Option.some.inj (hpacked.symm.trans hpacked')
    exact ⟨_, hunpacked, rfl⟩

omit hparse hgarble hin in
/-- The labels of the numerator, one of each pair. -/
theorem decryptLabels {randomNumber : Nat} {share packed : List Byte}
    {pads encs : List SimpleWireLabelSet} {labels : List Label}
    (h : Sealed c sha256 circuit garble pub gamma b randomNumber share pads encs labels packed)
    {numerator : Nat} {dsk : SecKey} (hgamma : gamma ≤ 32)
    (hprob : dsk.prob = BitVec.ofNat 32 numerator)
    (hkeys : ∀ i < gamma, dsk.secKeys[i]? = priv.secKeys[2 * i + (numerator.testBit i).toNat]?) :
    ∃ modLabels, (List.range gamma).mapM
        (decryptLabel c sha256 (c.scalarBaseMult b) encs dsk) = some modLabels ∧
      modLabels.length = gamma ∧
      ∀ i < gamma, ∃ p, garble.wireLabels[circuit.numInputWires - gamma + i]? = some p ∧
        modLabels[i]? = some (p.get (numerator.testBit i)) := by
  have hlabel : ∀ i < gamma, ∃ p,
      garble.wireLabels[circuit.numInputWires - gamma + i]? = some p ∧
      decryptLabel c sha256 (c.scalarBaseMult b) encs dsk i
        = some (p.get (numerator.testBit i)) := by
    intro i hi
    obtain ⟨p, k, hp, hk, henc⟩ := h.encrypted i hi
    have hbit : dsk.prob.getLsbD i = numerator.testBit i := by
      rw [hprob, BitVec.getLsbD_ofNat, decide_eq_true (hi.trans_le hgamma), Bool.true_and]
    exact ⟨p, hp, decryptLabel_eq hlawful hpair hnum hi (hkeys i hi) hbit h.keyed hk henc⟩
  obtain ⟨modLabels, hall⟩ := exists_forall₂ (l := List.range gamma)
    (R := fun i l => decryptLabel c sha256 (c.scalarBaseMult b) encs dsk i = some l) (by
      intro i hi
      obtain ⟨p, -, hdecrypt⟩ := hlabel i (List.mem_range.mp hi)
      exact ⟨_, hdecrypt⟩)
  have hmapM := mapM_eq_some_iff.mpr hall
  refine ⟨modLabels, hmapM, hall.length_eq.symm.trans List.length_range, fun i hi => ?_⟩
  obtain ⟨p, hp, hdecrypt⟩ := hlabel i hi
  obtain ⟨l, hl, hget⟩ := getElem?_mapM_range hmapM hi
  exact ⟨p, hp, hget.trans (hl.symm.trans hdecrypt)⟩

omit hlawful hparse hpair hnum in
/-- They complete the labels of the inputs. -/
theorem inputLabels_eq {randomNumber numerator : Nat} {labels modLabels inputLabels : List Label}
    (hlength : labels.length = circuit.numInputWires - gamma)
    (hchosen : ∀ i < circuit.numInputWires - gamma, ∃ p, garble.wireLabels[i]? = some p ∧
      labels[i]? = some (p.get (randomNumber.testBit i)))
    (hmodLength : modLabels.length = gamma)
    (hmod : ∀ i < gamma, ∃ p, garble.wireLabels[circuit.numInputWires - gamma + i]? = some p ∧
      modLabels[i]? = some (p.get (numerator.testBit i)))
    (hget : garble.getInputLabelsFromBools (circuitInputs circuit gamma randomNumber numerator)
      = some inputLabels) : labels ++ modLabels = inputLabels := by
  have hinputs := (garbleCircuit_packable hgarble).inputs
  obtain ⟨hlow, hhigh⟩ := getElem?_circuitInputs circuit gamma
    randomNumber numerator
  have hlabel : ∀ (i : Nat) (v : Bool) (p : SimpleWireLabelSet),
      (circuitInputs circuit gamma randomNumber numerator)[i]? = some v →
      garble.wireLabels[i]? = some p → inputLabels[i]? = some (p.get v) := by
    intro i v p hv hp
    have hi : i < garble.numInputWires := by
      rw [hinputs, ← length_circuitInputs hin randomNumber numerator]
      exact (List.getElem?_eq_some_iff.mp hv).1
    rw [SimpleGarbledCircuit.getInputLabelsFromBools, length_circuitInputs hin, hinputs,
      if_neg (not_not.mpr rfl)] at hget
    obtain ⟨l, hl, hgetl⟩ := getElem?_mapM_range hget (hinputs ▸ hi)
    obtain ⟨p', hp', hl⟩ := Option.bind_eq_some_iff.mp hl
    obtain ⟨v', hv', hl⟩ := Option.bind_eq_some_iff.mp hl
    obtain rfl := Option.some.inj (hp.symm.trans hp')
    obtain rfl := Option.some.inj (hv.symm.trans hv')
    exact hgetl.trans hl.symm
  have hcount : inputLabels.length = circuit.numInputWires := by
    rw [SimpleGarbledCircuit.getInputLabelsFromBools, length_circuitInputs hin, hinputs,
      if_neg (not_not.mpr rfl)] at hget
    exact (mapM_eq_some_iff.mp hget).length_eq.symm.trans List.length_range
  apply List.ext_getElem?
  intro i
  rcases Nat.lt_or_ge i (circuit.numInputWires - gamma) with hlt | hge
  · obtain ⟨p, hp, hl⟩ := hchosen i hlt
    rw [List.getElem?_append_left (hlt.trans_eq hlength.symm), hl]
    exact (hlabel i _ p (hlow i hlt) hp).symm
  · rw [List.getElem?_append_right (hlength.trans_le hge), hlength]
    rcases Nat.lt_or_ge (i - (circuit.numInputWires - gamma)) gamma with hlt | hge'
    · obtain ⟨p, hp, hl⟩ := hmod _ hlt
      have hv := hhigh _ hlt
      rw [Nat.add_sub_cancel' hge] at hp hv
      rw [hl]
      exact (hlabel i _ p hv hp).symm
    · rw [List.getElem?_eq_none (hmodLength.trans_le hge'),
        List.getElem?_eq_none (hcount.trans_le (by omega))]

/-- The receiver evaluates the circuit on the random number and its numerator. -/
theorem test_sealed {randomNumber : Nat} {share packed : List Byte}
    {pads encs : List SimpleWireLabelSet} {labels : List Label}
    (h : Sealed c sha256 circuit garble pub gamma b randomNumber share pads encs labels packed)
    (hlayered : circuit.Layered) (hgamma : gamma = 8 ∨ gamma = 24)
    (hout : 1 ≤ circuit.numOutputWires)
    (hout' : circuit.numOutputWires ≤ gamma) {numerator : Nat} (hlt : numerator < 2 ^ gamma)
    {dsk : SecKey} (hdsk : dsk.numKeys = gamma) (hprob : dsk.prob = BitVec.ofNat 32 numerator)
    (hkeys : ∀ i < gamma, dsk.secKeys[i]? = priv.secKeys[2 * i + (numerator.testBit i).toNat]?) :
    ∃ outs, circuit.evaluateCircuit (circuitInputs circuit gamma randomNumber numerator)
        = some (true, outs) ∧
      test c sha256 hash circuitFiles (share ++ encs.flatMap SimpleWireLabelSet.bytes
        ++ labels.flatMap Label.bytes ++ packed) dsk
        = some (decide (valueOf outs < numerator)) := by
  have hops := hlayered.garblable hgarble
  have hconst : ∀ gate ∈ circuit.gates, gate.gateType ≠ .const :=
    fun gate hgate => (hops gate hgate).1
  have hpos : 0 < circuit.numInputWires := by omega
  obtain ⟨wires, hgarbling⟩ := garbleCircuit_garbling hgarble
  obtain ⟨outs, inputLabels, outLabels, hcount, hplain, hget, heval, hdecode⟩ :=
    hgarbling.decodes (hlayered.connected hconst) (hlayered.outputsLast hpos hconst)
      hlayered.outputsPlaced hout (length_circuitInputs hin randomNumber numerator)
  obtain ⟨modLabels, hmod, hmodLength, hmodLabels⟩ :=
    decryptLabels hlawful hpair hnum h (by omega) hprob hkeys
  obtain ⟨garb, hgarb, htables⟩ := h.tables ⟨0, 0, [], [], Label.zero⟩
  have hlabels := inputLabels_eq hin hgarble h.length h.chosen hmodLength hmodLabels hget
  have hencs := readPair_delimiting.many (fun p _ => trivial : ∀ p ∈ encs, True)
    (labels.flatMap Label.bytes ++ packed)
  have hread := readPadded_delimiting.many (fun l _ => trivial : ∀ l ∈ labels, True) packed
  rw [h.count] at hencs
  rw [h.length] at hread
  have hgarbEval : garb.evaluateCircuit hash circuit (labels ++ modLabels)
      = some (true, outLabels) := by
    rw [evaluateCircuit_congr htables, hlabels, heval]
  have hparsed : parseUint (decodePlaintextOutputLabels outLabels) gamma
      = some (valueOf outs) := by
    rw [hdecode]
    exact parseUint_outputs (hcount.symm ▸ hout) (hcount.trans_le hout')
  have hvalue : valueOf outs < 2 ^ 32 := by
    refine (valueOf_lt outs).trans_le (Nat.pow_le_pow_right (by decide) ?_)
    omega
  have hnumerator : numerator < 2 ^ 32 :=
    hlt.trans_le (Nat.pow_le_pow_right (by decide) (by omega))
  have hcompare : (BitVec.ofNat 32 (valueOf outs) < dsk.prob) ↔ valueOf outs < numerator := by
    rw [hprob, BitVec.lt_def, BitVec.toNat_ofNat, BitVec.toNat_ofNat, Nat.mod_eq_of_lt hvalue,
      Nat.mod_eq_of_lt hnumerator]
  refine ⟨outs, hplain, ?_⟩
  have hsize : ¬ (gamma ≠ 8 ∧ gamma ≠ 24) := by omega
  rw [List.append_assoc, List.append_assoc]
  simp only [test, hdsk, if_neg hsize, hparse, h.read, hencs, hread, Option.bind_eq_bind,
    Option.bind_some, if_neg (Nat.not_lt.mpr hin), hmod, hgarb, hgarbEval, if_true, hparsed]
  exact congrArg some (decide_eq_decide.mpr hcompare)

end

end Fractional

open Fractional

/-- A flag ciphertext for a key, tested with a detection key that was extracted
from it, compares the numerator with what the circuit makes of the random number
of the ciphertext and the numerator. -/
theorem fractional_detection {G : Type} [AddCommGroup G] (c : Curve) (coords : G → GroupElement)
    (base : G) (hlawful : c.Lawful coords base) (sha256 : List Byte → Vector Byte 32)
    (hash : List Byte → Label) (circuitFiles : Nat → List (List String)) (rand : Nat → Label)
    (parsed : ParsedCircuit) (gamma b : Nat) (random₀ rest₀ random rest : List Byte)
    (priv : SecKey) (pub : PubKey) (hkeys : keyGen c gamma random₀ = some ((priv, pub), rest₀))
    (hb : sampleRandomScalar c.n random = some (b, rest)) (hrest : 16 ≤ rest.length)
    (hparse : parseBRISTOLCircuitFile (circuitFiles (circuitIdx gamma)) = some parsed)
    (hin : gamma ≤ parsed.numInputWires) (hout : 1 ≤ parsed.numOutputWires)
    (hout' : parsed.numOutputWires ≤ gamma)
    (hops : ∀ gate ∈ parsed.gates, gate.gateType ≠ .const ∧ gate.gateType ≠ .copy ∧
      ∀ a ∈ gate.inFrom, 0 ≤ a) :
    ∃ ctBytes, flag c sha256 hash circuitFiles rand random pub = some ctBytes ∧
      ∀ numerator : Nat, numerator < 2 ^ gamma → ∃ dsk outs,
        extract numerator priv = some dsk ∧
        parsed.circuit.evaluateCircuit
          (circuitInputs parsed.circuit gamma (setBytes (rest.take 16)) numerator)
          = some (true, outs) ∧
        test c sha256 hash circuitFiles ctBytes dsk = some (decide (valueOf outs < numerator)) := by
  obtain ⟨hpair, hnum, hgamma⟩ := keyGen_belong hkeys
  have hgarblable : parsed.Garblable := hops
  have hlayered := parse_layered hparse (by omega) (by omega) hgarblable.nonneg
  have hopen : openCircuit circuitFiles gamma = some parsed.circuit := by
    rw [openCircuit, hparse]
    rfl
  have hin' : gamma ≤ parsed.circuit.numInputWires := by
    show gamma ≤ parsed.numInputWires.toNat
    omega
  have hone : 1 ≤ parsed.circuit.numOutputWires := by
    show 1 ≤ parsed.numOutputWires.toNat
    omega
  have hmany : parsed.circuit.numOutputWires ≤ gamma := by
    show parsed.numOutputWires.toNat ≤ gamma
    omega
  obtain ⟨garble, hgarble⟩ := hlayered.garbles (by omega) hgarblable.circuit hash rand
  obtain ⟨share, pads, encs, labels, packed, hflag, hsealed⟩ :=
    flag_sealed hlawful sha256 hopen hin' hgarble hpair hnum hb hrest
  refine ⟨_, hflag, fun numerator hlt => ?_⟩
  obtain ⟨dsk, hdsk, hcount, hprob, hsecret⟩ :=
    extract_spec (hpair.numKeys.trans hnum) hpair.length hlt
  obtain ⟨outs, hplain, htest⟩ :=
    test_sealed hlawful hopen hin' hgarble hpair hnum hsealed hlayered hgamma hone hmany hlt
      hcount hprob hsecret
  exact ⟨dsk, outs, hdsk, hplain, htest⟩

/-- One random bit and eight bits of the numerator; the output is an exclusive
or, inverted. -/
def sampleFile : List (List String) :=
  [["2", "11"], ["2", "1", "8"], ["1", "1"], ["2", "1", "0", "1", "9", "XOR"],
    ["1", "1", "9", "10", "INV"]]

theorem fractional_detection_sample :
    ∃ priv pub parsed ctBytes,
      keyGen sampleCurve 8 (List.replicate 32 0x46) = some ((priv, pub), []) ∧
      parseBRISTOLCircuitFile sampleFile = some parsed ∧
      flag sampleCurve sampleDigest sampleHash (fun _ => sampleFile) sampleLabels
        ([0, 0x41] ++ List.replicate 16 0x5a) pub = some ctBytes ∧
      ∀ numerator : Nat, numerator < 2 ^ 8 → ∃ dsk outs,
        extract numerator priv = some dsk ∧
        parsed.circuit.evaluateCircuit (circuitInputs parsed.circuit 8
          (setBytes ((List.replicate 16 0x5a).take 16)) numerator) = some (true, outs) ∧
        test sampleCurve sampleDigest sampleHash (fun _ => sampleFile) ctBytes dsk
          = some (decide (valueOf outs < numerator)) := by
  obtain ⟨priv, pub, hkeys⟩ : ∃ priv pub,
      keyGen sampleCurve 8 (List.replicate 32 0x46) = some ((priv, pub), []) := ⟨_, _, rfl⟩
  obtain ⟨parsed, hparse⟩ : ∃ parsed, parseBRISTOLCircuitFile sampleFile = some parsed :=
    ⟨_, rfl⟩
  have hshape : (8 ≤ parsed.numInputWires ∧ 1 ≤ parsed.numOutputWires ∧
      parsed.numOutputWires ≤ 8) ∧ parsed.Garblable := by
    cases hparse
    decide
  obtain ⟨⟨hin, hout, hout'⟩, hops⟩ := hshape
  obtain ⟨ctBytes, hflag, htest⟩ := fractional_detection sampleCurve (coords 263 1) sampleBase
    sampleCurve_lawful sampleDigest sampleHash (fun _ => sampleFile) sampleLabels parsed 8 3 _ _
    ([0, 0x41] ++ List.replicate 16 0x5a) (List.replicate 16 0x5a) priv pub hkeys rfl (by decide)
    hparse hin hout hout' hops
  exact ⟨priv, pub, parsed, ctBytes, hkeys, hparse, hflag, htest⟩

end PSVFSS

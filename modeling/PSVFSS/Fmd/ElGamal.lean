/-
# `Fmd.ElGamal` — detection with a rate of a power of two

A flag ciphertext carries one bit for every public key, masked so that the
secret key turns it into a one; a detection key is a prefix of the secret keys.
`elGamal_detection` says that a ciphertext made for a key is accepted by every
detection key extracted from it.  For the others nothing but the hash decides,
and `elGamal_nested` says in which way: whatever bytes arrive, the detection keys
of one secret key accept them up to a number of subkeys, refuse them from there
as far as the vector has bits, and panic beyond.

The curve, SHA-256 and the decoding of JSON are parameters; of the hash and the
decoding nothing is assumed.
-/
import PSVFSS.Lib.MemoDag
import PSVFSS.Fmd.Curve

namespace PSVFSS

open ByteBuffer Loop MemoDag

/-! ## Bits of a vector of bytes

The bits are or-ed one by one into zeros, each into a place of its own, so a
bit is read as it was written. -/

/-- Bit `i`, the least significant of a byte first. -/
def bitAt (bitVec : List Byte) (i : Nat) : Bool := (bitVec.getD (i / 8) 0).getLsbD (i % 8)

/-- `bitVec[i / 8] |= padChar << (i % 8)`. -/
def orBit (bitVec : List Byte) (i : Nat) (padChar : Byte) : List Byte :=
  bitVec.modify (i / 8) (· ||| padChar <<< (i % 8))

theorem length_orBit (bitVec : List Byte) (i : Nat) (padChar : Byte) :
    (orBit bitVec i padChar).length = bitVec.length := List.length_modify _ _ _

/-- A bit as a byte. -/
def byteOf (b : Bool) : Byte := if b then 1 else 0

theorem getLsbD_byteOf (b : Bool) (k : Nat) : (byteOf b).getLsbD k = (b && decide (k = 0)) := by
  cases b with
  | false => exact BitVec.getLsbD_zero
  | true =>
      rw [byteOf, if_pos rfl, Bool.true_and]
      exact BitVec.getLsbD_one

theorem and_one (x : Byte) : x &&& 1 = byteOf (x.getLsbD 0) := by
  refine BitVec.and_one_eq_setWidth_ofBool_getLsbD.trans ?_
  cases x.getLsbD 0 <;> rfl

theorem getD_orBit (bitVec : List Byte) (i : Nat) (padChar : Byte) (k : Nat) :
    (orBit bitVec i padChar).getD k 0 = if i / 8 = k ∧ k < bitVec.length then
      bitVec.getD k 0 ||| padChar <<< (i % 8) else bitVec.getD k 0 := by
  simp only [orBit, List.getD_eq_getElem?_getD, List.getElem?_modify]
  rcases Nat.lt_or_ge k bitVec.length with hk | hk
  · rw [List.getElem?_eq_getElem hk]
    by_cases hik : i / 8 = k
    · simp [hik, hk]
    · simp [hik]
  · have hnot : ¬ (i / 8 = k ∧ k < bitVec.length) := fun hand => Nat.not_lt.mpr hk hand.2
    rw [List.getElem?_eq_none hk, if_neg hnot]
    rfl

/-- A bit is or-ed into its own place. -/
theorem bitAt_orBit {bitVec : List Byte} {i : Nat} (hi : i / 8 < bitVec.length) (b : Bool)
    (j : Nat) :
    bitAt (orBit bitVec i (byteOf b)) j = (bitAt bitVec j || (b && decide (j = i))) := by
  rw [bitAt, bitAt, getD_orBit]
  by_cases hbyte : i / 8 = j / 8
  · rw [if_pos ⟨hbyte, hbyte ▸ hi⟩, BitVec.getLsbD_or, BitVec.getLsbD_shiftLeft, getLsbD_byteOf]
    congr 1
    have hmod := Nat.mod_lt j (by decide : 0 < 8)
    have hplace : (decide (j % 8 < 8) && !decide (j % 8 < i % 8) && decide (j % 8 - i % 8 = 0))
        = decide (j = i) := by
      rw [Bool.eq_iff_iff]
      simp only [Bool.and_eq_true, Bool.not_eq_true', decide_eq_true_eq, decide_eq_false_iff_not]
      omega
    rw [← hplace]
    cases b
    · simp only [Bool.false_and, Bool.and_false]
    · simp only [Bool.true_and]
  · have hij : j ≠ i := fun heq => hbyte (congrArg (· / 8) heq.symm)
    rw [if_neg fun hand => hbyte hand.1, decide_eq_false hij, Bool.and_false, Bool.or_false]

theorem bitAt_replicate (n i : Nat) : bitAt (List.replicate n 0) i = false := by
  rw [bitAt, List.getD_eq_getElem?_getD, List.getElem?_replicate]
  split <;> exact BitVec.getLsbD_zero

/-! ## `elGamal.go`

The functions of the file in its order.  `Test` is split where it has a
ciphertext in its hands: what comes before may panic on the bytes that arrive. -/

structure Ciphertext where
  u : GroupElement
  bitVec : List Byte
  y : Int
  deriving DecidableEq

/-- `ModInverse` of a new `big.Int`, which stays 0 without an inverse. -/
def modInverse (g n : Nat) : Nat := if Nat.gcd g n = 1 then (Nat.gcdA g n % n).toNat else 0

namespace ElGamalPower2

section
variable (c : Curve) (sha256 : List Byte → Vector Byte 32)

/-- `computeHashH`: one bit. -/
def computeHashH (one two three : GroupElement) : Byte :=
  (sha256 (ascii "HashH" ++ c.marshal one ++ c.marshal two ++ c.marshal three))[0] &&& 1

/-- The loop of `computeHashG`; the bits hashed are counted as an eighth of the
bytes. -/
def hashLoop (bitSize : Nat) (h serialized : List Byte) : List Byte :=
  if h.length / 8 < bitSize then
    let h' := h ++ (sha256 serialized).toList
    hashLoop bitSize h' (if h'.length / 8 < bitSize then serialized ++ ascii "X" else serialized)
  else h
termination_by 8 * bitSize - h.length
decreasing_by
  rw [List.length_append, Vector.length_toList]
  omega

/-- `computeHashG`, a number below the order. -/
def computeHashG (u : GroupElement) (bitVec : List Byte) : Nat :=
  setBytes (hashLoop sha256 (bitLen c.n + 64) [] (ascii "HashG" ++ c.marshal u ++ bitVec)) % c.n

/-- `KeyGen`. -/
def keyGen (numKeys : Nat) (random : List Byte) : Option ((SecKey × PubKey) × List Byte) := do
  let (pairs, random) ← keyGenLoop c numKeys random
  return ((⟨numKeys, pairs.map Prod.fst, BitVec.ofNat 32 numKeys⟩,
    ⟨numKeys, pairs.map Prod.snd⟩), random)

/-- One bit of the ciphertext: an encrypted 1. -/
def encryptBit (pk : PubKey) (r : Nat) (u Z : GroupElement) (bitVec : List Byte) (i : Nat) :
    Option (List Byte) := do
  let pkR := c.scalarMult (← pk.pubKeys[i]?) r
  let padChar := computeHashH c sha256 u pkR Z ^^^ 0x01
  if i / 8 < bitVec.length then some (orBit bitVec i padChar) else none

/-- The ciphertext of `Flag` and `TheoreticalFlag`. -/
def flag (random : List Byte) (pk : PubKey) : Option Ciphertext := do
  let (r, random) ← sampleRandomScalar c.n random
  let (z, _) ← sampleRandomScalar c.n random
  let u := c.scalarBaseMult r
  let Z := c.scalarBaseMult z
  let bitVec ← (List.range pk.numKeys).foldlM (encryptBit c sha256 pk r u Z)
    (List.replicate ((pk.numKeys + 7) / 8) 0)
  let v := computeHashG c sha256 u bitVec
  let y := ((z : Int) - v) % c.n
  return ⟨u, bitVec, y * modInverse r c.n % c.n⟩

/-- `Extract`, `none` for nil. -/
def extract (numKeys : Nat) (priv : SecKey) : Option SecKey :=
  if priv.numKeys < numKeys then none
  else do
    let secKeys ← (List.range numKeys).mapM fun i => priv.secKeys[i]?
    return ⟨numKeys, secKeys, BitVec.ofNat 32 numKeys⟩

/-- `Z = vP + yU` of `Test`. -/
def recoverZ (ctext : Ciphertext) : GroupElement :=
  let v := computeHashG c sha256 ctext.u ctext.bitVec
  c.add (c.scalarBaseMult v) (c.scalarMult ctext.u ctext.y.natAbs)

/-- `padChar` of `Test`, for subkey `i`. -/
def testPad (ctext : Ciphertext) (sk : Nat) (b : Byte) (i : Nat) : Byte :=
  computeHashH c sha256 ctext.u (c.scalarMult ctext.u sk) (recoverZ c sha256 ctext)
    ^^^ ((b >>> (i % 8)) &&& 0x01)

/-- `Test`; `none` for an index out of range. -/
def test (ctext : Ciphertext) (priv : SecKey) : Option Bool :=
  (List.range priv.numKeys).foldlM (fun result i => do
    let padChar := testPad c sha256 ctext (← priv.secKeys[i]?) (← ctext.bitVec[i / 8]?) i
    return if padChar = 0 then false else result) true

/-- A `Ciphertext` as `json.Unmarshal` leaves it: a number that the bytes do not
give is nil. -/
structure Unmarshaled where
  ux : Option Int
  uy : Option Int
  bitVec : List Byte
  y : Option Int

/-- What `Test` works on, before the first subkey; `none` for a panic.
`accepted` tells the coordinates that the methods of the curve take: newer ones
panic on what is no point of it. -/
def decodeCiphertext (unmarshal : List Byte → Option Unmarshaled) (accepted : GroupElement → Bool)
    (ctBytes : List Byte) : Option Ciphertext := do
  let ctext ← unmarshal ctBytes
  let u : GroupElement := ⟨← ctext.ux, ← ctext.uy⟩
  let y ← ctext.y
  if accepted u then some ⟨u, ctext.bitVec, y⟩ else none

/-- `Test`, of the bytes that arrive. -/
def testBytes (unmarshal : List Byte → Option Unmarshaled) (accepted : GroupElement → Bool)
    (ctBytes : List Byte) (priv : SecKey) : Option Bool := do
  test c sha256 (← decodeCiphertext unmarshal accepted ctBytes) priv

end

/-- The number of subkeys from which on `Test` panics. -/
def testLimit (unmarshal : List Byte → Option Unmarshaled) (accepted : GroupElement → Bool)
    (ctBytes : List Byte) : Nat :=
  match decodeCiphertext unmarshal accepted ctBytes with
  | none => 0
  | some ctext => 8 * ctext.bitVec.length + 1

end ElGamalPower2

/-! ## Inverses and scalars

The response `y` is made so that `v + y * r` is `z`.  This needs an inverse of
`r`, and `ModInverse` leaves 0 without one. -/

theorem mul_modInverse {r n : Nat} (hn : 0 < n) (h : Nat.gcd r n = 1) :
    ((r * modInverse r n : Nat) : Int) ≡ 1 [ZMOD n] := by
  have hbezout := Nat.gcd_eq_gcd_ab r n
  rw [h] at hbezout
  have hnonneg : 0 ≤ Nat.gcdA r n % n := Int.emod_nonneg _ (Int.natCast_ne_zero.mpr hn.ne')
  have hinverse : ((modInverse r n : Nat) : Int) ≡ Nat.gcdA r n [ZMOD n] := by
    rw [modInverse, if_pos h, Int.toNat_of_nonneg hnonneg]
    exact Int.mod_modEq _ _
  calc ((r * modInverse r n : Nat) : Int) = r * (modInverse r n : Nat) := Int.natCast_mul _ _
    _ ≡ r * Nat.gcdA r n [ZMOD n] := hinverse.mul_left _
    _ ≡ r * Nat.gcdA r n + n * Nat.gcdB r n [ZMOD n] :=
        (Int.modEq_iff_add_fac.mpr ⟨Nat.gcdB r n, rfl⟩)
    _ = 1 := hbezout.symm

theorem sampleLoop_lt {n fuel : Nat} {random rest : List Byte} {x : Nat}
    (h : sampleLoop n fuel random = some (x, rest)) : x < n := by
  induction fuel generalizing random with
  | zero => cases h
  | succ fuel ih =>
      rw [sampleLoop] at h
      split at h
      next => cases h
      next =>
        dsimp only at h
        split at h
        next => exact ih h
        next hlt =>
          cases h
          exact Nat.lt_of_not_le hlt

theorem sampleRandomScalar_lt {n : Nat} {random rest : List Byte} {x : Nat}
    (h : sampleRandomScalar n random = some (x, rest)) : x < n := sampleLoop_lt h

namespace ElGamalPower2

section
variable {c : Curve} {sha256 : List Byte → Vector Byte 32}

/-- `v + y * r` is `z` again. -/
theorem respond_modEq {r z v n : Nat} (hn : 0 < n) (hr : Nat.gcd r n = 1) :
    v + ((((z : Int) - v) % n * modInverse r n % n).natAbs) * r ≡ z [MOD n] := by
  have hpos : (0 : Int) < n := Int.natCast_pos.mpr hn
  have hy : (((((z : Int) - v) % n * modInverse r n % n).natAbs : Nat) : Int)
      ≡ ((z : Int) - v) * modInverse r n [ZMOD n] := by
    rw [Int.natAbs_of_nonneg (Int.emod_nonneg _ hpos.ne')]
    exact (Int.mod_modEq _ _).trans ((Int.mod_modEq _ _).mul_right _)
  rw [← Int.natCast_modEq_iff, Int.natCast_add, Int.natCast_mul]
  calc (v : Int) + (((((z : Int) - v) % n * modInverse r n % n).natAbs : Nat) : Int) * r
      ≡ v + ((z : Int) - v) * modInverse r n * r [ZMOD n] := (hy.mul_right _).add_left _
    _ = v + ((z : Int) - v) * ((r * modInverse r n : Nat) : Int) := by
        rw [Int.natCast_mul, mul_assoc, mul_comm (r : Int)]
    _ ≡ v + ((z : Int) - v) * 1 [ZMOD n] := ((mul_modInverse hn hr).mul_left _).add_left _
    _ = z := by rw [mul_one, add_sub_cancel]

/-! ## What a ciphertext carries

Each bit is the complement of a hash that the holder of the secret key can
compute, once the second point is found again. -/

/-- The bits of a flag ciphertext, and the response to the hash of them. -/
structure Flagged (c : Curve) (sha256 : List Byte → Vector Byte 32) (pk : PubKey) (r z : Nat)
    (ctext : Ciphertext) : Prop where
  u : ctext.u = c.scalarBaseMult r
  length : ctext.bitVec.length = (pk.numKeys + 7) / 8
  bit : ∀ i < pk.numKeys, ∃ key, pk.pubKeys[i]? = some key ∧
    bitAt ctext.bitVec i = !(computeHashH c sha256 (c.scalarBaseMult r) (c.scalarMult key r)
      (c.scalarBaseMult z)).getLsbD 0
  y : ctext.y = ((z : Int) - computeHashG c sha256 ctext.u ctext.bitVec) % c.n
    * modInverse r c.n % c.n

variable (c sha256) in
/-- The padded bit as a byte. -/
theorem computeHashH_pad (one two three : GroupElement) (b : Bool) :
    computeHashH c sha256 one two three ^^^ byteOf b
      = byteOf ((computeHashH c sha256 one two three).getLsbD 0 ^^ b) := by
  have hbit : computeHashH c sha256 one two three
      = byteOf ((computeHashH c sha256 one two three).getLsbD 0) := by
    rw [computeHashH, and_one, getLsbD_byteOf, decide_eq_true rfl, Bool.and_true]
  rw [hbit, getLsbD_byteOf, decide_eq_true rfl, Bool.and_true]
  cases (computeHashH c sha256 one two three).getLsbD 0 <;> cases b <;> rfl

variable (c sha256) in
/-- The loop over the public keys. -/
theorem encryptBits {pk : PubKey} (hkeys : pk.pubKeys.length = pk.numKeys) (r : Nat)
    (u Z : GroupElement) :
    ∃ bitVec, (List.range pk.numKeys).foldlM (encryptBit c sha256 pk r u Z)
        (List.replicate ((pk.numKeys + 7) / 8) 0) = some bitVec ∧
      bitVec.length = (pk.numKeys + 7) / 8 ∧
      ∀ i < pk.numKeys, ∃ key, pk.pubKeys[i]? = some key ∧
        bitAt bitVec i = !(computeHashH c sha256 u (c.scalarMult key r) Z).getLsbD 0 := by
  have hloop : ∃ bitVec, (List.range pk.numKeys).foldlM (encryptBit c sha256 pk r u Z)
        (List.replicate ((pk.numKeys + 7) / 8) 0) = some bitVec ∧
      bitVec.length = (pk.numKeys + 7) / 8 ∧
      (∀ i < pk.numKeys, ∃ key, pk.pubKeys[i]? = some key ∧
        bitAt bitVec i = !(computeHashH c sha256 u (c.scalarMult key r) Z).getLsbD 0) ∧
      ∀ i, pk.numKeys ≤ i → bitAt bitVec i = false := by
    refine foldlM_range
      (P := fun (k : Nat) (bitVec : List Byte) => bitVec.length = (pk.numKeys + 7) / 8 ∧
        (∀ i < k, ∃ key, pk.pubKeys[i]? = some key ∧
          bitAt bitVec i = !(computeHashH c sha256 u (c.scalarMult key r) Z).getLsbD 0) ∧
        ∀ i, k ≤ i → bitAt bitVec i = false)
      ⟨List.length_replicate, fun i hi => absurd hi (Nat.not_lt_zero i),
        fun i _ => bitAt_replicate _ i⟩ ?_
    rintro k hk bitVec ⟨hlen, hbits, hzero⟩
    have hkey : k < pk.pubKeys.length := hkeys.symm ▸ hk
    have hbyte : k / 8 < bitVec.length := by rw [hlen]; omega
    let pad := !(computeHashH c sha256 u (c.scalarMult pk.pubKeys[k] r) Z).getLsbD 0
    refine ⟨orBit bitVec k (byteOf pad), ?_, (length_orBit _ _ _).trans hlen, fun i hi => ?_,
      fun i hi => ?_⟩
    · have hpad := computeHashH_pad c sha256 u (c.scalarMult pk.pubKeys[k] r) Z true
      rw [Bool.xor_true] at hpad
      rw [encryptBit, List.getElem?_eq_getElem hkey, Option.bind_eq_bind, Option.bind_some,
        if_pos hbyte]
      exact congrArg (fun b => some (orBit bitVec k b)) hpad
    · rcases Nat.lt_succ_iff_lt_or_eq.mp hi with hlt | rfl
      · obtain ⟨key, hget, hbit⟩ := hbits i hlt
        refine ⟨key, hget, ?_⟩
        rw [bitAt_orBit hbyte, decide_eq_false hlt.ne, Bool.and_false, Bool.or_false]
        exact hbit
      · refine ⟨_, List.getElem?_eq_getElem hkey, ?_⟩
        rw [bitAt_orBit hbyte, decide_eq_true rfl, Bool.and_true, hzero i le_rfl, Bool.false_or]
    · rw [bitAt_orBit hbyte, decide_eq_false (Nat.ne_of_gt hi), Bool.and_false, Bool.or_false]
      exact hzero i (Nat.le_of_succ_le hi)
  obtain ⟨bitVec, hbitVec, hlen, hbits, -⟩ := hloop
  exact ⟨bitVec, hbitVec, hlen, hbits⟩

theorem flag_flagged {random random' rest : List Byte} {pk : PubKey} {r z : Nat}
    (hr : sampleRandomScalar c.n random = some (r, random'))
    (hz : sampleRandomScalar c.n random' = some (z, rest))
    (hkeys : pk.pubKeys.length = pk.numKeys) :
    ∃ ctext, flag c sha256 random pk = some ctext ∧ Flagged c sha256 pk r z ctext := by
  obtain ⟨bitVec, hbitVec, hlen, hbits⟩ := encryptBits c sha256 hkeys r
    (c.scalarBaseMult r) (c.scalarBaseMult z)
  refine ⟨⟨c.scalarBaseMult r, bitVec,
    ((z : Int) - computeHashG c sha256 (c.scalarBaseMult r) bitVec) % c.n
      * modInverse r c.n % c.n⟩, ?_, rfl, hlen, hbits, rfl⟩
  rw [flag, hr, Option.bind_eq_bind, Option.bind_some]
  show (sampleRandomScalar c.n random').bind _ = _
  rw [hz, Option.bind_some]
  show Option.bind _ _ = _
  rw [hbitVec]
  rfl

/-! ## What a detection key accepts

A test is a conjunction over the subkeys, and the key is a prefix of them.  So
much holds of any bytes; that all bits of an own ciphertext come out as ones
is where the keys are used. -/

/-- Subkey `i` turns its bit into a one. -/
def Accepts (c : Curve) (sha256 : List Byte → Vector Byte 32) (ctext : Ciphertext) (priv : SecKey)
    (i : Nat) : Prop :=
  ∃ sk b, priv.secKeys[i]? = some sk ∧ ctext.bitVec[i / 8]? = some b ∧
    testPad c sha256 ctext sk b i ≠ 0

theorem test_iff (ctext : Ciphertext) (priv : SecKey) :
    test c sha256 ctext priv = some true ↔
      ∀ i < priv.numKeys, Accepts c sha256 ctext priv i := by
  refine foldlM_range_all (fun i => ?_) (fun i h => ?_)
  · constructor
    · intro h
      obtain ⟨sk, hsk, h⟩ := Option.bind_eq_some_iff.mp h
      obtain ⟨b, hb, h⟩ := Option.bind_eq_some_iff.mp h
      refine ⟨sk, b, hsk, hb, fun hzero => ?_⟩
      simp [hzero] at h
    · rintro ⟨sk, b, hsk, hb, hpad⟩
      show (priv.secKeys[i]?).bind _ = _
      rw [hsk, Option.bind_some]
      show (ctext.bitVec[i / 8]?).bind _ = _
      rw [hb, Option.bind_some]
      exact congrArg some (if_neg hpad)
  · obtain ⟨sk, -, h⟩ := Option.bind_eq_some_iff.mp h
    obtain ⟨b, -, h⟩ := Option.bind_eq_some_iff.mp h
    have hfalse := Option.some.inj h
    exact absurd hfalse (by simp)

theorem extract_keys {m : Nat} {priv dsk : SecKey} (h : extract m priv = some dsk) :
    m ≤ priv.numKeys ∧ dsk.numKeys = m ∧ ∀ i < m, dsk.secKeys[i]? = priv.secKeys[i]? := by
  rw [extract] at h
  split at h
  next => cases h
  next hle =>
    obtain ⟨secKeys, hkeys, h⟩ := Option.bind_eq_some_iff.mp h
    cases h
    refine ⟨Nat.le_of_not_lt hle, rfl, fun i hi => ?_⟩
    obtain ⟨sk, hsk, hget⟩ := getElem?_mapM_range hkeys hi
    exact hget.trans hsk.symm

theorem test_extract_iff {m : Nat} {priv dsk : SecKey} (h : extract m priv = some dsk)
    (ctext : Ciphertext) :
    test c sha256 ctext dsk = some true ↔ ∀ i < m, Accepts c sha256 ctext priv i := by
  obtain ⟨-, hnum, hkeys⟩ := extract_keys h
  rw [test_iff, hnum]
  constructor
  · intro hall i hi
    obtain ⟨sk, b, hsk, hrest⟩ := hall i hi
    exact ⟨sk, b, (hkeys i hi).symm.trans hsk, hrest⟩
  · intro hall i hi
    obtain ⟨sk, b, hsk, hrest⟩ := hall i hi
    exact ⟨sk, b, (hkeys i hi).trans hsk, hrest⟩

theorem keyGen_belong {numKeys : Nat} {random rest : List Byte} {priv : SecKey} {pub : PubKey}
    (h : keyGen c numKeys random = some ((priv, pub), rest)) :
    KeysBelong c priv pub ∧ pub.numKeys = numKeys := by
  obtain ⟨⟨pairs, _⟩, hpairs, h⟩ := Option.bind_eq_some_iff.mp h
  cases h
  obtain ⟨hlen, hpublic⟩ := keyGenLoop_spec hpairs
  exact ⟨⟨rfl, (List.length_map _).trans hlen, hpublic⟩, rfl⟩

/-- Prefixes of the keys that are there can be extracted. -/
theorem extract_total {priv : SecKey} (hlen : priv.secKeys.length = priv.numKeys) {m : Nat}
    (hm : m ≤ priv.numKeys) : ∃ dsk, extract m priv = some dsk := by
  obtain ⟨secKeys, hkeys⟩ := exists_forall₂ (l := List.range m)
    (R := fun i sk => priv.secKeys[i]? = some sk) (by
      intro i hi
      have hlt : i < priv.secKeys.length :=
        (List.mem_range.mp hi).trans_le (hm.trans_eq hlen.symm)
      exact ⟨_, List.getElem?_eq_getElem hlt⟩)
  refine ⟨⟨m, secKeys, BitVec.ofNat 32 m⟩, ?_⟩
  rw [extract, if_neg (Nat.not_lt.mpr hm), mapM_eq_some_iff.mpr hkeys]
  rfl

/-- The receiver finds `Z` again, and with it the pads. -/
theorem Flagged.accepts {G : Type} [AddCommGroup G] {coords : G → GroupElement} {base : G}
    (hlawful : c.Lawful coords base) {priv : SecKey} {pk : PubKey} (hpair : KeysBelong c priv pk)
    {r z : Nat} {ctext : Ciphertext} (hn : 0 < c.n) (hr : Nat.gcd r c.n = 1)
    (h : Flagged c sha256 pk r z ctext) {i : Nat} (hi : i < pk.numKeys) :
    Accepts c sha256 ctext priv i := by
  obtain ⟨sk, hsk, hpub⟩ := hpair.secret hi
  obtain ⟨key, hkey, hbit⟩ := h.bit i hi
  obtain rfl := Option.some.inj (hpub.symm.trans hkey)
  have hbyte : i / 8 < ctext.bitVec.length := by
    rw [h.length]
    omega
  have hZ : recoverZ c sha256 ctext = c.scalarBaseMult z := by
    rw [recoverZ, h.u, hlawful.add_scalarMult, ← h.u, h.y]
    exact hlawful.scalarBaseMult_congr (respond_modEq hn hr)
  have hpkR : c.scalarMult ctext.u sk = c.scalarMult (c.scalarBaseMult sk) r := by
    rw [h.u, hlawful.agree]
  have hbitAt : (ctext.bitVec[i / 8] >>> (i % 8)) &&& (0x01 : Byte)
      = byteOf (bitAt ctext.bitVec i) := by
    refine (and_one _).trans (congrArg byteOf ?_)
    rw [BitVec.getLsbD_ushiftRight, Nat.add_zero, bitAt, List.getD_eq_getElem _ _ hbyte]
  refine ⟨sk, _, hsk, List.getElem?_eq_getElem hbyte, ?_⟩
  rw [testPad, hbitAt, computeHashH_pad, hbit, hZ, hpkR, h.u]
  cases (computeHashH c sha256 (c.scalarBaseMult r) (c.scalarMult (c.scalarBaseMult sk) r)
    (c.scalarBaseMult z)).getLsbD 0 <;> decide

end

end ElGamalPower2

open ElGamalPower2

/-- A ciphertext flagged for a key is accepted by every detection key that can
be extracted from it, and more than all of its keys cannot be extracted. -/
theorem elGamal_detection {G : Type} [AddCommGroup G] (c : Curve) (coords : G → GroupElement)
    (base : G) (hlawful : c.Lawful coords base) (sha256 : List Byte → Vector Byte 32)
    (numKeys : Nat) (random₀ rest₀ random random' rest : List Byte) (priv : SecKey) (pub : PubKey)
    (r z : Nat) (hkeys : keyGen c numKeys random₀ = some ((priv, pub), rest₀))
    (hr : sampleRandomScalar c.n random = some (r, random'))
    (hz : sampleRandomScalar c.n random' = some (z, rest)) (hunit : Nat.gcd r c.n = 1) :
    ∃ ctext, flag c sha256 random pub = some ctext ∧
      (∀ m ≤ numKeys, ∃ dsk, extract m priv = some dsk ∧ test c sha256 ctext dsk = some true) ∧
      ∀ m, numKeys < m → extract m priv = none := by
  obtain ⟨hpair, hnum⟩ := keyGen_belong hkeys
  have hpub : pub.pubKeys.length = pub.numKeys := by
    rw [hpair.pubKeys, List.length_map, hpair.length, hpair.numKeys]
  obtain ⟨ctext, hflag, hflagged⟩ := flag_flagged (c := c) hr hz hpub
  have hpriv : priv.numKeys = numKeys := hpair.numKeys.trans hnum
  have hn : 0 < c.n := Nat.zero_lt_of_lt (sampleRandomScalar_lt hr)
  refine ⟨ctext, hflag, fun m hm => ?_, fun m hm => if_pos (hpriv.trans_lt hm)⟩
  obtain ⟨dsk, hdsk⟩ := extract_total hpair.length (hm.trans_eq hpriv.symm)
  refine ⟨dsk, hdsk, (test_extract_iff hdsk ctext).mpr fun i hi => ?_⟩
  exact hflagged.accepts hlawful hpair hn hunit ((hi.trans_le hm).trans_eq hnum.symm)

/-- A digest to run the definitions with. -/
def sampleDigest (l : List Byte) : Vector Byte 32 :=
  Vector.ofFn fun i => l.foldl (fun a b => a * 31 + b + BitVec.ofNat 8 i) 7

theorem elGamal_detection_sample :
    ∃ ctext, flag sampleCurve sampleDigest [0, 0x41, 1, 0x42]
        ⟨2, [sampleCurve.scalarBaseMult 5, sampleCurve.scalarBaseMult 66]⟩ = some ctext ∧
      (∀ m ≤ 2, ∃ dsk, extract m ⟨2, [5, 66], 2⟩ = some dsk ∧
        test sampleCurve sampleDigest ctext dsk = some true) ∧
      ∀ m, 2 < m → extract m ⟨2, [5, 66], 2⟩ = none :=
  elGamal_detection sampleCurve (coords 263 1) sampleBase sampleCurve_lawful sampleDigest 2
    [0, 0x47, 0, 0] [] [0, 0x41, 1, 0x42] [1, 0x42] [] ⟨2, [5, 66], 2⟩ _ 3 256 rfl rfl rfl
    (by decide)

namespace ElGamalPower2

/-- What holds of all numbers below `m` holds up to some `m` and no further. -/
theorem exists_prefix (P : Nat → Prop) (n : Nat) :
    ∃ k ≤ n, ∀ m ≤ n, (∀ i < m, P i) ↔ m ≤ k := by
  induction n with
  | zero => exact ⟨0, le_rfl, fun m hm => ⟨fun _ => hm, fun _ i hi => absurd hi (by omega)⟩⟩
  | succ n ih =>
      obtain ⟨k, hk, hiff⟩ := ih
      by_cases hall : ∀ i < n + 1, P i
      · exact ⟨n + 1, le_rfl, fun m hm => ⟨fun _ => hm, fun _ i hi => hall i (hi.trans_le hm)⟩⟩
      · refine ⟨k, Nat.le_succ_of_le hk, fun m hm => ?_⟩
        rcases Nat.le_succ_iff.mp hm with hle | rfl
        · exact hiff m hle
        · exact ⟨fun h => absurd h hall, fun h => absurd h (by omega)⟩

section
variable {c : Curve} {sha256 : List Byte → Vector Byte 32} {m : Nat} {priv dsk : SecKey}
  (h : extract m priv = some dsk) (ctext : Ciphertext)
include h

variable (c sha256) in
/-- As far as the vector has bits there is an answer. -/
theorem test_answers (hm : m ≤ 8 * ctext.bitVec.length) :
    ∃ result, test c sha256 ctext dsk = some result := by
  obtain ⟨-, hnum, -⟩ := extract_keys h
  have hsecret : ∀ i < m, ∃ sk, dsk.secKeys[i]? = some sk := by
    intro i hi
    rw [extract] at h
    split at h
    next => cases h
    next =>
      obtain ⟨secKeys, hmapM, h⟩ := Option.bind_eq_some_iff.mp h
      cases h
      obtain ⟨sk, -, hsk⟩ := getElem?_mapM_range hmapM hi
      exact ⟨sk, hsk⟩
  have hloop : ∃ result, test c sha256 ctext dsk = some result ∧ True := by
    rw [test, hnum]
    refine foldlM_range (P := fun _ _ => True) trivial fun i hi result _ => ?_
    obtain ⟨sk, hsk⟩ := hsecret i hi
    have hbyte : i / 8 < ctext.bitVec.length := by omega
    rw [hsk, List.getElem?_eq_getElem hbyte]
    exact ⟨_, rfl, trivial⟩
  exact hloop.imp fun _ => And.left

variable (c sha256) in
/-- Beyond them the index is out of range, whatever the answer was going to be. -/
theorem test_panics (hm : 8 * ctext.bitVec.length < m) : test c sha256 ctext dsk = none := by
  obtain ⟨-, hnum, -⟩ := extract_keys h
  have hbyte : ctext.bitVec[8 * ctext.bitVec.length / 8]? = none := by
    rw [Nat.mul_div_cancel_left _ (by decide)]
    exact List.getElem?_eq_none (Nat.le_refl _)
  rw [test, hnum]
  refine foldlM_range_none hm (fun result => ?_) true
  rw [hbyte]
  cases dsk.secKeys[8 * ctext.bitVec.length]? with
  | none => rfl
  | some sk => rfl

end

end ElGamalPower2

/-- Whatever bytes arrive, the detection keys extracted from one key accept them
up to a number of subkeys, refuse them from there as far as the vector has bits,
and panic beyond; on bytes that are no ciphertext they all do. -/
theorem elGamal_nested (c : Curve) (sha256 : List Byte → Vector Byte 32)
    (unmarshal : List Byte → Option Unmarshaled) (accepted : GroupElement → Bool)
    (ctBytes : List Byte) (priv : SecKey) :
    ∃ k ≤ testLimit unmarshal accepted ctBytes, ∀ m dsk, extract m priv = some dsk →
      testBytes c sha256 unmarshal accepted ctBytes dsk =
        if m < k then some true
        else if m < testLimit unmarshal accepted ctBytes then some false
        else none := by
  cases hdecode : decodeCiphertext unmarshal accepted ctBytes with
  | none =>
      refine ⟨0, Nat.zero_le _, fun m dsk _ => ?_⟩
      rw [testBytes, testLimit, hdecode, if_neg (Nat.not_lt_zero m), if_neg (Nat.not_lt_zero m)]
      rfl
  | some ctext =>
      obtain ⟨k, hk, hiff⟩ :=
        exists_prefix (Accepts c sha256 ctext priv) (8 * ctext.bitVec.length)
      refine ⟨k + 1, ?_, fun m dsk hdsk => ?_⟩
      · rw [testLimit, hdecode]
        exact Nat.succ_le_succ hk
      · rw [testBytes, testLimit, hdecode]
        show test c sha256 ctext dsk = if m < k + 1 then _
          else if m < 8 * ctext.bitVec.length + 1 then _ else _
        rcases Nat.lt_or_ge (8 * ctext.bitVec.length) m with hlt | hle
        · rw [test_panics c sha256 hdsk ctext hlt, if_neg (by omega), if_neg (by omega)]
        · obtain ⟨result, hresult⟩ := test_answers c sha256 hdsk ctext hle
          have haccept : test c sha256 ctext dsk = some true ↔ m ≤ k :=
            (test_extract_iff hdsk ctext).trans (hiff m hle)
          rw [hresult] at haccept ⊢
          cases result with
          | true => rw [if_pos (Nat.lt_succ_of_le (haccept.mp rfl))]
          | false =>
              have hbeyond : ¬ m < k + 1 := fun hlt =>
                Bool.false_ne_true (Option.some.inj (haccept.mpr (Nat.le_of_lt_succ hlt)))
              rw [if_neg hbeyond, if_pos (Nat.lt_succ_of_le hle)]

end PSVFSS

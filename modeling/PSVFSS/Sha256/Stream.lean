/-
# `Sha256.Stream` — SHA-256 of data that comes in parts

The streaming interface keeps a chunk that is being filled, its free space and
the total length.  However the data is cut into calls of `sha_256_write`, and
whatever the structure held before `sha_256_init`, `sha_256_close` delivers the
SHA-256 of all of it (`sha256_stream`): the padded message, compressed block by
block, with the schedule written out.

The fields satisfy at every call boundary that the chunk has a free byte
(`Sha256.space`), so every pass of the write loop consumes something.
-/
import PSVFSS.Common
import PSVFSS.Lib.BlockHash
import PSVFSS.Sha256.Compress

namespace PSVFSS

open ByteBuffer Loop BlockHash

/-! ## `struct Sha_256`

The free space in the chunk is between 1 and 64, at every call boundary; a
chunk that is filled is consumed at once. -/

/-- `chunk_pos` is kept as an offset into `chunk`. -/
structure Sha256 where
  chunk : List Byte
  chunkPos : Nat
  spaceLeft : Nat
  totalLen : Uint64
  h : Vector Word32 8
  length_chunk : chunk.length = 64
  filled : chunkPos + spaceLeft = 64
  space : 0 < spaceLeft

/-- The initial hash values. -/
def initialHash : Vector Word32 8 :=
  #v[0x6a09e667, 0xbb67ae85, 0x3c6ef372, 0xa54ff53a, 0x510e527f, 0x9b05688c, 0x1f83d9ab,
     0x5be0cd19]

/-- `sha_256_init`: the chunk keeps what was in it. -/
def sha256Init (chunk : List Byte) (length_chunk : chunk.length = 64) : Sha256 where
  chunk := chunk
  chunkPos := 0
  spaceLeft := 64
  totalLen := 0
  h := initialHash
  length_chunk := length_chunk
  filled := rfl
  space := by decide

/-! ## `sha_256_write`

A pass takes a whole chunk from the data without a copy if none is begun,
stores the rest if it is too short, or fills the chunk. -/

/-- The contents of the array `w` of `consume_chunk` before its first pass. -/
def uninitialised : Vector Word32 16 := Vector.replicate 16 0

/-- A chunk taken from the data. -/
def Sha256.direct (s : Sha256) (p : List Byte) : Sha256 :=
  { s with h := consumeChunk uninitialised s.h (slice p 0 64) }

/-- Data that does not fill the chunk. -/
def Sha256.store (s : Sha256) (p : List Byte) (hp : p.length < s.spaceLeft) : Sha256 :=
  { s with
    chunk := memcpy s.chunk s.chunkPos p
    chunkPos := s.chunkPos + p.length
    spaceLeft := s.spaceLeft - p.length
    length_chunk := (length_memcpy _ _ _).trans s.length_chunk
    filled := by
      have hfilled := s.filled
      omega
    space := Nat.sub_pos_of_lt hp }

/-- Data that fills the chunk, which is then consumed. -/
def Sha256.complete (s : Sha256) (p : List Byte) : Sha256 :=
  let chunk := memcpy s.chunk s.chunkPos (slice p 0 s.spaceLeft)
  { s with
    chunk := chunk
    chunkPos := 0
    spaceLeft := 64
    h := consumeChunk uninitialised s.h chunk
    length_chunk := (length_memcpy _ _ _).trans s.length_chunk
    filled := rfl
    space := by decide }

/-- The loop, with the data that is left. -/
def Sha256.writeLoop (s : Sha256) (p : List Byte) : Sha256 :=
  if _hlen : 0 < p.length then
    if _hdirect : s.spaceLeft = 64 ∧ 64 ≤ p.length then
      (s.direct p).writeLoop (p.drop 64)
    else if hp : p.length < s.spaceLeft then s.store p hp
    else (s.complete p).writeLoop (p.drop s.spaceLeft)
  else s
termination_by p.length
decreasing_by
  · rw [List.length_drop]
    omega
  · have hspace := s.space
    rw [List.length_drop]
    omega

def Sha256.write (s : Sha256) (data : List Byte) : Sha256 :=
  { s with totalLen := s.totalLen + BitVec.ofNat 64 data.length }.writeLoop data

/-! ## `sha_256_close`

The marker always fits.  Where the length does not, the chunk is filled with
zeros and consumed, and the length goes into one more.  It is written from its
last byte to its first. -/

/-- The loop that writes the length: `pos[7]`, then `pos[6]` down to `pos[0]`. -/
def putLength (chunk : List Byte) (pos : Nat) (len : Uint64) : List Byte :=
  let chunk := memcpy chunk (pos + 7) [(len <<< 3).setWidth 8]
  (forLoop 7 (fun k (s : List Byte × Uint64) =>
    (memcpy s.1 (pos + (6 - k)) [s.2.setWidth 8], s.2 >>> 8)) (chunk, len >>> 5)).1

/-- Zeros up to the length, the length, and the last chunk consumed. -/
def closeChunk (h : Vector Word32 8) (chunk : List Byte) (pos spaceLeft : Nat) (len : Uint64) :
    Vector Word32 8 :=
  let left := spaceLeft - 8
  consumeChunk uninitialised h (putLength (memset chunk pos 0 left) (pos + left) len)

/-- The hash, most significant byte of every word first. -/
def hashBytes (h : Vector Word32 8) : List Byte :=
  h.toList.flatMap fun (x : Word32) =>
    [(x >>> 24).setWidth 8, (x >>> 16).setWidth 8, (x >>> 8).setWidth 8, x.setWidth 8]

def Sha256.close (s : Sha256) : List Byte :=
  let chunk := memcpy s.chunk s.chunkPos [0x80]
  let pos := s.chunkPos + 1
  let spaceLeft := s.spaceLeft - 1
  if spaceLeft < 8 then
    let chunk := memset chunk pos 0 spaceLeft
    hashBytes (closeChunk (consumeChunk uninitialised s.h chunk) chunk 0 64 s.totalLen)
  else hashBytes (closeChunk s.h chunk pos spaceLeft s.totalLen)

/-- `calc_sha_256`. -/
def calcSha256 (input : List Byte) : List Byte :=
  ((sha256Init (List.replicate 64 0) (by decide)).write input).close

/-! ## SHA-256

The hash of a whole message, in the terms of `Lib.BlockHash`. -/

/-- Most significant byte first. -/
def storeBE {w : Nat} (x : BitVec w) : List Byte := (storeLE x).reverse

/-- The bytes of zero that bring the length to 8 less than a multiple of 64. -/
def padZeros (n : Nat) : Nat := (119 - n % 64) % 64

/-- The padded message. -/
def padMessage (m : List Byte) : List Byte :=
  m ++ 0x80 :: List.replicate (padZeros m.length) 0 ++ storeBE (BitVec.ofNat 64 (8 * m.length))

def sha256 (m : List Byte) : List Byte :=
  (absorb 64 compress initialHash (padMessage m)).toList.flatMap storeBE

/-! ## What the structure holds

`Sha256.Holds` is `BlockHash.Streams` for the first bytes of the chunk, with
the total length in its word.  Each of the three cases of the loop is one of
its steps. -/

/-- The structure holds the message `m`. -/
def Sha256.Holds (s : Sha256) (m : List Byte) : Prop :=
  Streams 64 compress initialHash m s.h (s.chunk.take s.chunkPos)

theorem sha256Init_holds (chunk : List Byte) (hlen : chunk.length = 64) :
    (sha256Init chunk hlen).Holds [] := Streams.nil (by decide)

namespace Sha256

variable {s : Sha256} {m p : List Byte}

theorem length_take (s : Sha256) : (s.chunk.take s.chunkPos).length = s.chunkPos := by
  have hlen := s.length_chunk
  have hfilled := s.filled
  exact List.length_take_of_le (by omega)

theorem Holds.direct (hs : s.Holds m) (hspace : s.spaceLeft = 64) (hp : 64 ≤ p.length) :
    (s.direct p).Holds (m ++ slice p 0 64) := by
  have hfilled := s.filled
  have hpos : s.chunkPos = 0 := by omega
  have hlen : (slice p 0 64).length = 64 := length_slice (by omega)
  have hfill := Streams.fill (by decide) hs (n := slice p 0 64)
  rw [hpos, List.take_zero, List.nil_append] at hfill
  show Streams 64 compress initialHash _ (consumeChunk uninitialised s.h (slice p 0 64))
    (s.chunk.take s.chunkPos)
  rw [consumeChunk_eq _ _ hlen, hpos, List.take_zero]
  exact hfill hlen

theorem Holds.store (hs : s.Holds m) (hp : p.length < s.spaceLeft) :
    (s.store p hp).Holds (m ++ p) := by
  have hlen := s.length_chunk
  have hfilled := s.filled
  have htake : (s.chunk.take s.chunkPos ++ p).length = s.chunkPos + p.length := by
    rw [List.length_append, s.length_take]
  show Streams 64 compress initialHash _ s.h
    ((memcpy s.chunk s.chunkPos p).take (s.chunkPos + p.length))
  rw [memcpy_eq (by omega), List.take_left' htake]
  exact Streams.keep (by decide) hs (by omega)

theorem Holds.complete (hs : s.Holds m) (hp : s.spaceLeft ≤ p.length) :
    (s.complete p).Holds (m ++ slice p 0 s.spaceLeft) := by
  have hlen := s.length_chunk
  have hfilled := s.filled
  have hslice : (slice p 0 s.spaceLeft).length = s.spaceLeft := length_slice (by omega)
  have hfull : (s.chunk.take s.chunkPos ++ slice p 0 s.spaceLeft).length = 64 := by
    rw [List.length_append, s.length_take, hslice, hfilled]
  have hwrite : memcpy s.chunk s.chunkPos (slice p 0 s.spaceLeft)
      = s.chunk.take s.chunkPos ++ slice p 0 s.spaceLeft := by
    rw [memcpy_eq (by omega), hslice, hfilled, List.drop_of_length_le (Nat.le_of_eq hlen),
      List.append_nil]
  show Streams 64 compress initialHash _
    (consumeChunk uninitialised s.h (memcpy s.chunk s.chunkPos (slice p 0 s.spaceLeft))) _
  rw [hwrite, consumeChunk_eq _ _ hfull]
  exact Streams.fill (by decide) hs hfull

/-- The loop stores all of the data and leaves the total length alone. -/
theorem Holds.writeLoop (hs : s.Holds m) :
    (s.writeLoop p).Holds (m ++ p) ∧ (s.writeLoop p).totalLen = s.totalLen := by
  fun_induction Sha256.writeLoop s p generalizing m with
  | case1 s p hlen hdirect ih =>
      have h := ih (hs.direct hdirect.1 hdirect.2)
      rwa [List.append_assoc, slice, List.drop_zero, List.take_append_drop] at h
  | case2 s p hlen hdirect hp => exact ⟨hs.store hp, rfl⟩
  | case3 s p hlen hdirect hp ih =>
      have h := ih (hs.complete (Nat.le_of_not_lt hp))
      rwa [List.append_assoc, slice, List.drop_zero, List.take_append_drop] at h
  | case4 s p hlen =>
      have hnil : p = [] := List.eq_nil_of_length_eq_zero (Nat.eq_zero_of_not_pos hlen)
      rw [hnil, List.append_nil]
      exact ⟨hs, rfl⟩

end Sha256

/-- Any number of calls hold the data of all of them, and its length. -/
theorem foldl_write_holds (chunk : List Byte) (hlen : chunk.length = 64)
    (calls : List (List Byte)) :
    (calls.foldl Sha256.write (sha256Init chunk hlen)).Holds calls.flatten ∧
      (calls.foldl Sha256.write (sha256Init chunk hlen)).totalLen
        = BitVec.ofNat 64 calls.flatten.length := by
  induction calls using List.reverseRecOn with
  | nil => exact ⟨sha256Init_holds chunk hlen, rfl⟩
  | append_singleton calls data ih =>
      obtain ⟨hholds, htotal⟩ := ih
      rw [List.foldl_append, List.flatten_append, List.flatten_singleton, List.length_append]
      have hwrite := Sha256.Holds.writeLoop (p := data)
        (s := { calls.foldl Sha256.write (sha256Init chunk hlen) with
          totalLen := (calls.foldl Sha256.write (sha256Init chunk hlen)).totalLen
            + BitVec.ofNat 64 data.length }) hholds
      refine ⟨hwrite.1, hwrite.2.trans ?_⟩
      rw [htotal, BitVec.ofNat_add]

/-! ## Closing

The marker, the zeros and the length fill the last chunk, or the last two, to
what the padded message ends with. -/

/-- Byte `k + 1` of the length in bits, from the length in bytes. -/
theorem lengthByte (len : Uint64) {k : Nat} (hk : k < 7) :
    (len >>> 5 >>> (8 * k)).setWidth 8 = ((len <<< 3) >>> (8 * (k + 1))).setWidth 8 := by
  apply BitVec.eq_of_getLsbD_eq
  intro i hi
  have hlow : ¬ 8 * (k + 1) + i < 3 := by omega
  have hhigh : 8 * (k + 1) + i < 64 := by omega
  have hbit : 5 + (8 * k + i) = 8 * (k + 1) + i - 3 := by omega
  simp only [BitVec.getLsbD_setWidth, BitVec.getLsbD_ushiftRight, BitVec.getLsbD_shiftLeft, hlow,
    hhigh, hbit, decide_true, decide_false, Bool.not_false, Bool.true_and]

theorem hashBytes_eq (h : Vector Word32 8) : hashBytes h = h.toList.flatMap storeBE := by
  refine List.flatMap_congr fun x _ => ?_
  rw [storeBE, storeLE_eq_map]
  show _ = [(x >>> 24).setWidth 8, (x >>> 16).setWidth 8, (x >>> 8).setWidth 8,
    (x >>> 0).setWidth 8]
  rw [BitVec.ushiftRight_zero]

/-- The eight writes of the length, last byte first. -/
theorem putLength_eq {chunk : List Byte} (hlen : chunk.length = 64) (len : Uint64) :
    putLength chunk 56 len = chunk.take 56 ++ storeBE (len <<< 3) := by
  have hfront : (chunk.take 56).length = 56 := List.length_take_of_le (by omega)
  have hback : (chunk.drop 56).length = 8 := by rw [List.length_drop, hlen]
  have hwrite : ∀ (r : List Byte) (k : Nat) (b : Byte), r.length = 8 → k < 8 →
      memcpy (chunk.take 56 ++ r) (56 + k) [b] = chunk.take 56 ++ r.set k b := by
    intro r k b hr hk
    have h := memcpy_single (chunk.take 56) r (hk.trans_eq hr.symm) b
    rwa [hfront] at h
  let bytes : Nat → List Byte := fun k =>
    ((List.range (k + 1)).map fun i => ((len <<< 3) >>> (8 * i)).setWidth 8).reverse
  have hbytes : ∀ k, (bytes k).length = k + 1 := by
    intro k
    rw [List.length_reverse, List.length_map, List.length_range]
  have hstep : ∀ k, bytes (k + 1) = ((len <<< 3) >>> (8 * (k + 1))).setWidth 8 :: bytes k := by
    intro k
    show ((List.range (k + 1 + 1)).map _).reverse = _
    rw [List.range_succ, List.map_append, List.reverse_append]
    rfl
  -- after `k` passes the last `k + 1` bytes are written
  have hloop : ∀ k ≤ 7, ∃ r : List Byte, r.length = 7 - k ∧
      forLoop k (fun k (s : List Byte × Uint64) =>
        (memcpy s.1 (56 + (6 - k)) [s.2.setWidth 8], s.2 >>> 8))
        (memcpy chunk (56 + 7) [(len <<< 3).setWidth 8], len >>> 5)
      = (chunk.take 56 ++ (r ++ bytes k), len >>> 5 >>> (8 * k)) := by
    intro k hk
    induction k with
    | zero =>
        refine ⟨(chunk.drop 56).take 7, by rw [List.length_take, hback]; rfl, ?_⟩
        have hstart := hwrite (chunk.drop 56) 7 ((len <<< 3).setWidth 8) hback (by decide)
        rw [List.take_append_drop, List.set_eq_take_append_cons_drop,
          if_pos (hback ▸ (by decide : 7 < 8)),
          List.drop_of_length_le (Nat.le_of_eq hback)] at hstart
        rw [forLoop_zero, hstart, Nat.mul_zero, BitVec.ushiftRight_zero]
        show _ = (chunk.take 56 ++ ((chunk.drop 56).take 7 ++ [((len <<< 3) >>> 0).setWidth 8]),
          len >>> 5)
        rw [BitVec.ushiftRight_zero]
    | succ k ih =>
        obtain ⟨r, hr, hstate⟩ := ih (Nat.le_of_lt hk)
        obtain ⟨r', x, rfl⟩ : ∃ r' x, r = r' ++ [x] := by
          refine ⟨r.dropLast, r.getLast (fun hnil => ?_), (List.dropLast_append_getLast _).symm⟩
          rw [hnil, List.length_nil] at hr
          omega
        have hr' : r'.length = 6 - k := by
          rw [List.length_append, List.length_singleton] at hr
          omega
        refine ⟨r', by omega, ?_⟩
        have hall : (r' ++ x :: bytes k).length = 8 := by
          rw [List.length_append, List.length_cons, hbytes, hr']
          omega
        have hset := hwrite _ (6 - k) ((len >>> 5 >>> (8 * k)).setWidth 8) hall (by omega)
        have hcons : (len >>> 5 >>> (8 * k)).setWidth 8 :: bytes k = bytes (k + 1) := by
          rw [hstep, lengthByte len (by omega)]
        rw [← hr', List.set_append_right _ _ (Nat.le_refl _), Nat.sub_self, List.set_cons_zero, hr',
          hcons] at hset
        have hshift : len >>> 5 >>> (8 * k) >>> 8 = len >>> 5 >>> (8 * (k + 1)) := by
          rw [Nat.mul_succ, ← BitVec.shiftRight_add (len >>> 5)]
        rw [forLoop_succ, hstate, List.append_assoc, List.singleton_append]
        exact Prod.ext hset hshift
  obtain ⟨r, hr, hstate⟩ := hloop 7 (Nat.le_refl 7)
  obtain rfl : r = [] := List.eq_nil_of_length_eq_zero hr
  rw [putLength, hstate, storeBE, storeLE_eq_map]
  rfl

/-- The zeros, the length, and what is then consumed. -/
theorem closeChunk_eq {h : Vector Word32 8} {chunk : List Byte} {pos spaceLeft : Nat}
    (hlen : chunk.length = 64) (hfilled : pos + spaceLeft = 64) (hspace : 8 ≤ spaceLeft)
    (len : Uint64) :
    closeChunk h chunk pos spaceLeft len
      = compress h (chunk.take pos ++
          (List.replicate (spaceLeft - 8) (0 : Byte) ++ storeBE (len <<< 3))) := by
  have hpos : pos + (spaceLeft - 8) = 56 := by omega
  have htake : (chunk.take pos).length = pos := List.length_take_of_le (by omega)
  have hzeros : (chunk.take pos ++ List.replicate (spaceLeft - 8) (0 : Byte)).length = 56 := by
    rw [List.length_append, htake, List.length_replicate, hpos]
  have hmemset : (memset chunk pos 0 (spaceLeft - 8)).take 56
      = chunk.take pos ++ List.replicate (spaceLeft - 8) (0 : Byte) := by
    rw [memset, memcpy_eq (by rw [List.length_replicate]; omega), List.take_left' hzeros]
  have hfill : (memset chunk pos 0 (spaceLeft - 8)).length = 64 :=
    (length_memset _ _ _ _).trans hlen
  have hput := putLength_eq hfill len
  rw [closeChunk, hpos, hput, hmemset, List.append_assoc]
  refine consumeChunk_eq _ _ ?_
  rw [← List.append_assoc, List.length_append, hzeros, storeBE, List.length_reverse,
    length_storeLE]

theorem length_storeBE (x : Uint64) : (storeBE x).length = 8 :=
  (List.length_reverse).trans (length_storeLE x)

namespace Sha256

variable {s : Sha256} {m : List Byte}

/-- Closing pads what the structure holds: one chunk more when the length does
not fit behind the marker. -/
theorem Holds.close (hs : s.Holds m) (htotal : s.totalLen = BitVec.ofNat 64 m.length) :
    s.close = sha256 m := by
  have hlen := s.length_chunk
  have hfilled := s.filled
  have hspace := s.space
  have hrest : s.chunkPos = m.length % 64 := by
    have hlength := congrArg List.length hs.rest
    rwa [s.length_take, length_leftover (by decide)] at hlength
  have hbits : s.totalLen <<< 3 = BitVec.ofNat 64 (8 * m.length) := by
    rw [htotal]
    apply BitVec.eq_of_toNat_eq
    rw [BitVec.toNat_shiftLeft, BitVec.toNat_ofNat, BitVec.toNat_ofNat, Nat.shiftLeft_eq,
      Nat.mul_comm, Nat.mul_mod_mod]
  have hmarked : (s.chunk.take s.chunkPos ++ [(0x80 : Byte)]).length = s.chunkPos + 1 := by
    rw [List.length_append, s.length_take, List.length_singleton]
  have hmark : (memcpy s.chunk s.chunkPos [0x80]).take (s.chunkPos + 1)
      = s.chunk.take s.chunkPos ++ [(0x80 : Byte)] := by
    rw [memcpy_eq (by rw [List.length_singleton]; omega), List.take_left' hmarked]
  rw [Sha256.close, sha256, padMessage, ← hbits, List.append_assoc]
  split
  next hfew =>
    have hpad : padZeros m.length = (s.spaceLeft - 1) + 56 := by
      rw [padZeros, ← hrest]
      omega
    have hfull : (s.chunk.take s.chunkPos
        ++ ((0x80 : Byte) :: List.replicate (s.spaceLeft - 1) (0 : Byte))).length = 64 := by
      rw [List.length_append, List.length_cons, List.length_replicate, s.length_take]
      omega
    have hmemset : memset (memcpy s.chunk s.chunkPos [0x80]) (s.chunkPos + 1) 0 (s.spaceLeft - 1)
        = s.chunk.take s.chunkPos ++
            ((0x80 : Byte) :: List.replicate (s.spaceLeft - 1) (0 : Byte)) := by
      rw [memset, memcpy_eq (by rw [length_memcpy, List.length_replicate]; omega), hmark,
        List.drop_of_length_le (by rw [length_memcpy, List.length_replicate]; omega),
        List.append_nil, List.append_assoc, List.singleton_append]
    have hlast : ([] ++ (List.replicate 56 (0 : Byte) ++ storeBE (s.totalLen <<< 3))).length
        = 64 := by
      rw [List.nil_append, List.length_append, List.length_replicate, length_storeBE]
    have habsorbed := ((Streams.fill (by decide) hs hfull).fill (by decide) hlast).absorbed
    simp only [hmemset]
    rw [consumeChunk_eq _ _ hfull, closeChunk_eq hfull rfl (by decide), hashBytes_eq,
      List.take_zero, hpad, List.replicate_add, ← habsorbed]
    simp only [List.append_assoc, List.cons_append]
  next hmany =>
    have hpad : padZeros m.length = s.spaceLeft - 1 - 8 := by
      rw [padZeros, ← hrest]
      omega
    have hfull : (s.chunk.take s.chunkPos ++ ((0x80 : Byte) ::
        (List.replicate (s.spaceLeft - 1 - 8) (0 : Byte) ++
          storeBE (s.totalLen <<< 3)))).length = 64 := by
      rw [List.length_append, List.length_cons, List.length_append, List.length_replicate,
        s.length_take, length_storeBE]
      omega
    have habsorbed := (Streams.fill (by decide) hs hfull).absorbed
    rw [closeChunk_eq ((length_memcpy _ _ _).trans hlen) (by omega) (by omega), hashBytes_eq,
      hmark, hpad, List.append_assoc, List.singleton_append, ← habsorbed, List.cons_append]

end Sha256

/-- However the data is cut into calls, and whatever the chunk held before, the
hash is SHA-256 of all the data. -/
theorem sha256_stream (chunk : List Byte) (hlen : chunk.length = 64) (calls : List (List Byte)) :
    (calls.foldl Sha256.write (sha256Init chunk hlen)).close = sha256 calls.flatten := by
  obtain ⟨hholds, htotal⟩ := foldl_write_holds chunk hlen calls
  exact hholds.close htotal

theorem sha256_stream_abc :
    ([[0x61], [], [0x62, 0x63]].foldl Sha256.write
      (sha256Init (List.replicate 64 0xff) rfl)).close = sha256 [0x61, 0x62, 0x63] :=
  sha256_stream (List.replicate 64 0xff) rfl [[0x61], [], [0x62, 0x63]]

/-- `sha256.c` as the hash of the model. -/
def linkedCrypto (aes : Uint128 → Uint128 → Uint128) : Crypto (List Byte) := ⟨aes, calcSha256⟩

theorem linkedCrypto_sha256 (aes : Uint128 → Uint128 → Uint128) :
    (linkedCrypto aes).sha256 = sha256 := by
  funext m
  obtain ⟨hholds, htotal⟩ := foldl_write_holds (List.replicate 64 0) (by decide) [m]
  rw [List.flatten_singleton] at hholds htotal
  exact hholds.close htotal

/-! ## Collisions

`BlockHash.collision_of_padded` for this padding.  Past 2^61 bytes the length
in bits does not fit its word, and two messages could end alike. -/

theorem storeBE_injective {w : Nat} (hw : 8 ∣ w) : Function.Injective (storeBE (w := w)) :=
  List.reverse_injective.comp (storeLE_injective hw)

/-- The length at the end tells how long a message shorter than 2^61 bytes was. -/
theorem length_eq_of_storeBE {m m' : List Byte} (hm : m.length < 2 ^ 61)
    (hm' : m'.length < 2 ^ 61)
    (h : storeBE (BitVec.ofNat 64 (8 * m.length)) = storeBE (BitVec.ofNat 64 (8 * m'.length))) :
    m.length = m'.length := by
  have hbits := congrArg BitVec.toNat (storeBE_injective (by decide) h)
  rw [BitVec.toNat_ofNat, BitVec.toNat_ofNat, Nat.mod_eq_of_lt (by omega),
    Nat.mod_eq_of_lt (by omega)] at hbits
  omega

theorem length_padMessage (m : List Byte) :
    (padMessage m).length = m.length + padZeros m.length + 9 := by
  rw [padMessage, List.length_append, List.length_append, List.length_cons, List.length_replicate,
    length_storeBE]
  omega

/-- The last states and blocks at which the compressions of two messages differ. -/
def sha256Difference (m m' : List Byte) :
    Option ((Vector Word32 8 × List Byte) × (Vector Word32 8 × List Byte)) :=
  difference (inputs 64 compress initialHash (padMessage m))
    (inputs 64 compress initialHash (padMessage m'))

/-- Messages shorter than 2^61 bytes with one hash are equal, or collide where their
compressions last differ. -/
theorem sha256_collision {m m' : List Byte} (hm : m.length < 2 ^ 61) (hm' : m'.length < 2 ^ 61)
    (h : sha256 m = sha256 m') :
    m = m' ∨ ∃ p q, sha256Difference m m' = some (p, q) ∧ IsCollision 64 compress p q := by
  have hstates : absorb 64 compress initialHash (padMessage m)
      = absorb 64 compress initialHash (padMessage m') := by
    refine Vector.toList_inj.mp (flatMap_injective (storeBE_injective (by decide)) (fun x y => ?_)
      ?_ h)
    · rw [storeBE, storeBE, List.length_reverse, List.length_reverse, length_storeLE,
        length_storeLE]
    · rw [Vector.length_toList, Vector.length_toList]
  have hblocks : ∀ m : List Byte, (padMessage m).length % 64 = 0 := by
    intro m
    rw [length_padMessage, padZeros]
    omega
  have hpos : ∀ m : List Byte, 0 < (padMessage m).length := by
    intro m
    rw [length_padMessage]
    omega
  have hinj : padMessage m = padMessage m' → m = m' :=
    padded_injective (fun m => storeBE (BitVec.ofNat 64 (8 * m.length)))
      ((length_storeBE _).trans (length_storeBE _).symm) (length_eq_of_storeBE hm hm')
  -- the last 8 of the last 64 bytes
  have hlast : ∀ m : List Byte,
      ((padMessage m).drop ((padMessage m).length - 64)).drop 56
        = storeBE (BitVec.ofNat 64 (8 * m.length)) := by
    intro m
    have hge : 64 ≤ (padMessage m).length :=
      Nat.le_of_dvd (hpos m) (Nat.dvd_of_mod_eq_zero (hblocks m))
    have hfront : (m ++ (0x80 : Byte) :: List.replicate (padZeros m.length) 0).length
        = (padMessage m).length - 64 + 56 := by
      rw [length_padMessage, List.length_append, List.length_cons, List.length_replicate]
      rw [length_padMessage] at hge
      omega
    rw [List.drop_drop]
    exact List.drop_left' hfront
  refine collision_of_padded (by decide) (hblocks m) (hblocks m') (hpos m) (hpos m')
    (fun hend => ?_) hinj hstates
  have hlen := length_eq_of_storeBE hm hm'
    ((hlast m).symm.trans ((congrArg (List.drop 56) hend).trans (hlast m')))
  rw [length_padMessage, length_padMessage, hlen]

/-- Two streams with one hash, however they are cut into calls. -/
theorem sha256_stream_collision (chunk chunk' : List Byte) (hlen : chunk.length = 64)
    (hlen' : chunk'.length = 64) (calls calls' : List (List Byte))
    (hcalls : calls.flatten.length < 2 ^ 61) (hcalls' : calls'.flatten.length < 2 ^ 61)
    (h : (calls.foldl Sha256.write (sha256Init chunk hlen)).close
      = (calls'.foldl Sha256.write (sha256Init chunk' hlen')).close) :
    calls.flatten = calls'.flatten ∨
      ∃ p q, sha256Difference calls.flatten calls'.flatten = some (p, q) ∧
        IsCollision 64 compress p q := by
  obtain ⟨hholds, htotal⟩ := foldl_write_holds chunk hlen calls
  obtain ⟨hholds', htotal'⟩ := foldl_write_holds chunk' hlen' calls'
  rw [hholds.close htotal, hholds'.close htotal'] at h
  exact sha256_collision hcalls hcalls' h

theorem sha256_stream_collision_cut :
    [[(0x61 : Byte)], [0x62]].flatten = [[0x61, 0x62]].flatten ∨
      ∃ p q, sha256Difference [[(0x61 : Byte)], [0x62]].flatten [[0x61, 0x62]].flatten
        = some (p, q) ∧ IsCollision 64 compress p q := by
  have hclose : ∀ (chunk : List Byte) (hlen : chunk.length = 64) (calls : List (List Byte)),
      (calls.foldl Sha256.write (sha256Init chunk hlen)).close = sha256 calls.flatten :=
    fun chunk hlen calls =>
      (foldl_write_holds chunk hlen calls).1.close (foldl_write_holds chunk hlen calls).2
  exact sha256_stream_collision (List.replicate 64 0) (List.replicate 64 0xff) rfl rfl
    [[0x61], [0x62]] [[0x61, 0x62]] (by decide) (by decide)
    ((hclose _ _ _).trans (hclose (List.replicate 64 0xff) rfl [[0x61, 0x62]]).symm)

end PSVFSS

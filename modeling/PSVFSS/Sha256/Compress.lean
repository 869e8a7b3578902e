/-
# `Sha256.Compress` — one chunk of SHA-256

`consume_chunk` keeps only 16 words of the message schedule and extends them in
place: in pass `i > 0` word `j` is overwritten by the word 16 places further on.
What it computes is the compression function with the whole schedule of 64 words
(`consumeChunk_eq`).  The invariant (`Window`) says where the last 16 scheduled
words are: each at its number modulo 16.
-/
import PSVFSS.Lib.ByteLoop

namespace PSVFSS

open ByteBuffer Loop

abbrev Word32 := BitVec 32

/-! ## `consume_chunk`

Four passes of sixteen rounds.  In the first pass the words are read from the
chunk, later they are computed from those in the array. -/

def rightRot (value : Word32) (count : Nat) : Word32 := value >>> count ||| value <<< (32 - count)

/-- `k`: the round constants. -/
def roundConstants : List Word32 :=
  [0x428a2f98, 0x71374491, 0xb5c0fbcf, 0xe9b5dba5, 0x3956c25b, 0x59f111f1, 0x923f82a4,
   0xab1c5ed5, 0xd807aa98, 0x12835b01, 0x243185be, 0x550c7dc3, 0x72be5d74, 0x80deb1fe,
   0x9bdc06a7, 0xc19bf174, 0xe49b69c1, 0xefbe4786, 0x0fc19dc6, 0x240ca1cc, 0x2de92c6f,
   0x4a7484aa, 0x5cb0a9dc, 0x76f988da, 0x983e5152, 0xa831c66d, 0xb00327c8, 0xbf597fc7,
   0xc6e00bf3, 0xd5a79147, 0x06ca6351, 0x14292967, 0x27b70a85, 0x2e1b2138, 0x4d2c6dfc,
   0x53380d13, 0x650a7354, 0x766a0abb, 0x81c2c92e, 0x92722c85, 0xa2bfe8a1, 0xa81a664b,
   0xc24b8b70, 0xc76c51a3, 0xd192e819, 0xd6990624, 0xf40e3585, 0x106aa070, 0x19a4c116,
   0x1e376c08, 0x2748774c, 0x34b0bcb5, 0x391c0cb3, 0x4ed8aa4a, 0x5b9cca4f, 0x682e6ff3,
   0x748f82ee, 0x78a5636f, 0x84c87814, 0x8cc70208, 0x90befffa, 0xa4506ceb, 0xbef9a3f7,
   0xc67178f2]

/-- `index & 0xf`. -/
def slot (index : Nat) : Fin 16 := Fin.ofNat 16 index

/-- The word at `p`, most significant byte first. -/
def chunkWord (p : List Byte) (off : Nat) : Word32 :=
  (byteAt p off).setWidth 32 <<< 24 ||| (byteAt p (off + 1)).setWidth 32 <<< 16 |||
    (byteAt p (off + 2)).setWidth 32 <<< 8 ||| (byteAt p (off + 3)).setWidth 32

/-- What pass `i` puts into `w[j]`. -/
def scheduleWord (p : List Byte) (i j : Nat) (w : Vector Word32 16) : Word32 :=
  if i = 0 then chunkWord p (4 * j)
  else
    let s0 := rightRot (w.get (slot (j + 1))) 7 ^^^ rightRot (w.get (slot (j + 1))) 18 ^^^
      (w.get (slot (j + 1)) >>> 3)
    let s1 := rightRot (w.get (slot (j + 14))) 17 ^^^ rightRot (w.get (slot (j + 14))) 19 ^^^
      (w.get (slot (j + 14)) >>> 10)
    w.get (slot j) + s0 + w.get (slot (j + 9)) + s1

/-- The working variables after a round with the given constant and word. -/
def roundVars (k w : Word32) (ah : Vector Word32 8) : Vector Word32 8 :=
  let s1 := rightRot ah[4] 6 ^^^ rightRot ah[4] 11 ^^^ rightRot ah[4] 25
  let ch := (ah[4] &&& ah[5]) ^^^ (~~~ah[4] &&& ah[6])
  let temp1 := ah[7] + s1 + ch + k + w
  let s0 := rightRot ah[0] 2 ^^^ rightRot ah[0] 13 ^^^ rightRot ah[0] 22
  let maj := (ah[0] &&& ah[1]) ^^^ (ah[0] &&& ah[2]) ^^^ (ah[1] &&& ah[2])
  let temp2 := s0 + maj
  #v[temp1 + temp2, ah[0], ah[1], ah[2], ah[3] + temp1, ah[4], ah[5], ah[6]]

/-- The locals of the main loop. -/
structure ChunkVars where
  ah : Vector Word32 8
  w : Vector Word32 16

def chunkRound (p : List Byte) (i j : Nat) (s : ChunkVars) : ChunkVars :=
  let word := scheduleWord p i j s.w
  { w := s.w.set (slot j) word
    ah := roundVars (roundConstants.getD (i <<< 4 ||| j) 0) word s.ah }

/-- The chunk is `p`; `w` is not initialised. -/
def consumeChunk (w : Vector Word32 16) (h : Vector Word32 8) (p : List Byte) : Vector Word32 8 :=
  let s := forLoop 4 (fun i s => forLoop 16 (fun j s => chunkRound p i j s) s) ⟨h, w⟩
  Vector.zipWith (· + ·) h s.ah

/-! ## The compression function

The same function as the standard writes it, with a schedule of 64 words and
rounds on eight variables. -/

def smallSigma0 (x : Word32) : Word32 := x.rotateRight 7 ^^^ x.rotateRight 18 ^^^ (x >>> 3)

def smallSigma1 (x : Word32) : Word32 := x.rotateRight 17 ^^^ x.rotateRight 19 ^^^ (x >>> 10)

def bigSigma0 (x : Word32) : Word32 := x.rotateRight 2 ^^^ x.rotateRight 13 ^^^ x.rotateRight 22

def bigSigma1 (x : Word32) : Word32 := x.rotateRight 6 ^^^ x.rotateRight 11 ^^^ x.rotateRight 25

/-- The message schedule: the words of the block, then the recurrence. -/
def messageSchedule (block : List Byte) (t : Nat) : Word32 :=
  if t < 16 then loadLE 32 (slice block (4 * t) 4).reverse
  else
    smallSigma1 (messageSchedule block (t - 2)) + messageSchedule block (t - 7) +
      smallSigma0 (messageSchedule block (t - 15)) + messageSchedule block (t - 16)
termination_by t

/-- Round `t` on the variables `a` to `h`. -/
def compressRound (block : List Byte) (t : Nat) (v : Vector Word32 8) : Vector Word32 8 :=
  let t1 := v[7] + bigSigma1 v[4] + ((v[4] &&& v[5]) ^^^ (~~~v[4] &&& v[6])) +
    roundConstants.getD t 0 + messageSchedule block t
  let t2 := bigSigma0 v[0] + ((v[0] &&& v[1]) ^^^ (v[0] &&& v[2]) ^^^ (v[1] &&& v[2]))
  #v[t1 + t2, v[0], v[1], v[2], v[3] + t1, v[4], v[5], v[6]]

def compress (h : Vector Word32 8) (block : List Byte) : Vector Word32 8 :=
  Vector.zipWith (· + ·) h (forLoop 64 (compressRound block) h)

/-! ## The words of a block

A rotation is one of bit vectors, and four bytes are a word with the first
byte on top. -/

theorem rightRot_eq (value : Word32) {count : Nat} (h : count < 32) :
    rightRot value count = value.rotateRight count := by
  rw [BitVec.rotateRight, Nat.mod_eq_of_lt h]
  rfl

/-- Four shifted bytes are a big-endian word. -/
theorem chunkWord_eq {p : List Byte} {off : Nat} (h : off + 4 ≤ p.length) :
    chunkWord p off = loadLE 32 (slice p off 4).reverse := by
  have hlen : (slice p off 4).length = 4 := length_slice h
  have hrev : (slice p off 4).reverse.length = 4 := (List.length_reverse).trans hlen
  have hbyte : ∀ k < 4, byteAt (slice p off 4).reverse k = byteAt p (off + (3 - k)) := by
    intro k hk
    rw [byteAt, byteAt, List.getD_eq_getElem?_getD, List.getD_eq_getElem?_getD,
      List.getElem?_reverse (hk.trans_eq hlen.symm), getElem?_slice, hlen, if_pos (by omega)]
  have hslice : slice (slice p off 4).reverse 0 4 = (slice p off 4).reverse := by
    rw [slice, List.drop_zero, List.take_of_length_le (Nat.le_of_eq hrev)]
  have hload := @getBytes_eq 32 4 0 (slice p off 4).reverse (by decide) (by rw [hrev])
  have hloop : ∀ b : List Byte, getBytes 32 4 0 b
      = 0#32 ||| (byteAt b 0).setWidth 32 <<< 0 ||| (byteAt b 1).setWidth 32 <<< 8 |||
        (byteAt b 2).setWidth 32 <<< 16 ||| (byteAt b 3).setWidth 32 <<< 24 := fun _ => rfl
  rw [hloop, hbyte 0 (by decide), hbyte 1 (by decide), hbyte 2 (by decide), hbyte 3 (by decide),
    BitVec.shiftLeft_zero, BitVec.zero_or, hslice] at hload
  simp only [Nat.reduceSub, Nat.add_zero] at hload
  have hflip : ∀ a b c d : Word32, a ||| b ||| c ||| d = d ||| c ||| b ||| a := by
    intro a b c d
    ac_rfl
  rw [← hload, chunkWord, hflip]

/-! ## The schedule in 16 words

A word is overwritten by the one 16 places further on, which is the last to
read it.  The variables are compared round by round. -/

/-- After `n` rounds the last 16 words of the schedule stand at their numbers
modulo 16. -/
def Window (block : List Byte) (n : Nat) (w : Vector Word32 16) : Prop :=
  ∀ t < n, n ≤ t + 16 → w.get (slot t) = messageSchedule block t

theorem messageSchedule_block {block : List Byte} {t : Nat} (h : t < 16) :
    messageSchedule block t = loadLE 32 (slice block (4 * t) 4).reverse := by
  rw [messageSchedule, if_pos h]

theorem messageSchedule_extend {block : List Byte} {t : Nat} (h : 16 ≤ t) :
    messageSchedule block t
      = smallSigma1 (messageSchedule block (t - 2)) + messageSchedule block (t - 7) +
        smallSigma0 (messageSchedule block (t - 15)) + messageSchedule block (t - 16) := by
  rw [messageSchedule, if_neg (Nat.not_lt_of_le h)]

theorem slot_eq_iff (s t : Nat) : slot s = slot t ↔ s % 16 = t % 16 := by
  rw [Fin.ext_iff]
  rfl

/-- Round `t` computes word `t`. -/
theorem scheduleWord_eq {block : List Byte} {w : Vector Word32 16} {i j : Nat} (hj : j < 16)
    (hlen : block.length = 64) (hw : Window block (i * 16 + j) w) :
    scheduleWord block i j w = messageSchedule block (i * 16 + j) := by
  rw [scheduleWord]
  cases i with
  | zero =>
      rw [if_pos rfl, Nat.zero_mul, Nat.zero_add, messageSchedule_block hj,
        chunkWord_eq (by omega)]
  | succ i =>
      -- a word `d` places back stands `16 - d` slots ahead
      have hback : ∀ d, 0 < d → d ≤ 16 → w.get (slot (j + (16 - d)))
          = messageSchedule block ((i + 1) * 16 + j - d) := by
        intro d hd hd'
        have hslot : slot (j + (16 - d)) = slot ((i + 1) * 16 + j - d) :=
          (slot_eq_iff _ _).mpr (by omega)
        rw [hslot]
        exact hw _ (by omega) (by omega)
      have h16 := hback 16 (by decide) (by decide)
      have h15 := hback 15 (by decide) (by decide)
      have h7 := hback 7 (by decide) (by decide)
      have h2 := hback 2 (by decide) (by decide)
      simp only [Nat.reduceSub, Nat.add_zero] at h16 h15 h7 h2
      rw [if_neg (Nat.succ_ne_zero i), messageSchedule_extend (by omega), ← h16, ← h15, ← h7, ← h2]
      simp only [smallSigma0, smallSigma1, rightRot_eq _ (by decide : 7 < 32),
        rightRot_eq _ (by decide : 18 < 32), rightRot_eq _ (by decide : 17 < 32),
        rightRot_eq _ (by decide : 19 < 32)]
      ac_rfl

theorem Window.set {block : List Byte} {w : Vector Word32 16} {n j : Nat}
    (hw : Window block n w) (hj : j % 16 = n % 16) :
    Window block (n + 1) (w.set (slot j) (messageSchedule block n)) := by
  intro t ht ht'
  show (w.set (slot j) (messageSchedule block n))[(slot t : Nat)] = messageSchedule block t
  rw [Vector.getElem_set]
  by_cases heq : (slot j : Nat) = slot t
  · rw [if_pos heq]
    have hmod : j % 16 = t % 16 := heq
    have htn : n = t := by omega
    rw [htn]
  · rw [if_neg heq]
    have hne : t ≠ n := fun h => heq (h ▸ hj)
    exact hw t (by omega) (by omega)

theorem roundVars_eq (block : List Byte) (t : Nat) (v : Vector Word32 8) :
    roundVars (roundConstants.getD t 0) (messageSchedule block t) v = compressRound block t v := by
  simp only [roundVars, compressRound, bigSigma0, bigSigma1, rightRot_eq _ (by decide : 6 < 32),
    rightRot_eq _ (by decide : 11 < 32), rightRot_eq _ (by decide : 25 < 32),
    rightRot_eq _ (by decide : 2 < 32), rightRot_eq _ (by decide : 13 < 32),
    rightRot_eq _ (by decide : 22 < 32)]

/-- A round of the code is a round of the function. -/
theorem chunkRound_eq {block : List Byte} {i j : Nat} {s : ChunkVars} (hj : j < 16)
    (hlen : block.length = 64) (hw : Window block (i * 16 + j) s.w) :
    Window block (i * 16 + j + 1) (chunkRound block i j s).w ∧
      (chunkRound block i j s).ah = compressRound block (i * 16 + j) s.ah := by
  have hword := scheduleWord_eq hj hlen hw
  have hindex : i <<< 4 ||| j = i * 16 + j := by
    rw [← Nat.shiftLeft_add_eq_or_of_lt hj, Nat.shiftLeft_eq]
  refine ⟨?_, ?_⟩
  · show Window block _ (s.w.set (slot j) (scheduleWord block i j s.w))
    rw [hword]
    exact hw.set (by omega)
  · show roundVars (roundConstants.getD (i <<< 4 ||| j) 0) (scheduleWord block i j s.w) s.ah = _
    rw [hindex, hword, roundVars_eq]

/-- The chunk loop computes the compression function, whatever was in `w`. -/
theorem consumeChunk_eq (w : Vector Word32 16) (h : Vector Word32 8) {block : List Byte}
    (hlen : block.length = 64) : consumeChunk w h block = compress h block := by
  let body : Nat → ChunkVars → ChunkVars := fun n s => chunkRound block (n / 16) (n % 16) s
  have hbody : ∀ s, forLoop 4 (fun i s => forLoop 16 (fun j s => chunkRound block i j s) s) s
      = forLoop 64 body s := by
    intro s
    rw [← forLoop_nested 4 16 body s]
    refine forLoop_congr fun i _ s => forLoop_congr fun j hj s => ?_
    show _ = chunkRound block ((i * 16 + j) / 16) ((i * 16 + j) % 16) s
    rw [block_div i hj, block_mod i hj]
  have hrounds : ∀ n, Window block n (forLoop n body ⟨h, w⟩).w ∧
      (forLoop n body ⟨h, w⟩).ah = forLoop n (compressRound block) h := by
    intro n
    induction n with
    | zero => exact ⟨fun t ht => absurd ht (Nat.not_lt_zero t), rfl⟩
    | succ n ih =>
        obtain ⟨hw, hah⟩ := ih
        have hn : n / 16 * 16 + n % 16 = n := Nat.div_add_mod' n 16
        have hround := chunkRound_eq (i := n / 16) (Nat.mod_lt n (by decide)) hlen (hn.symm ▸ hw)
        rw [hn, hah] at hround
        exact hround
  rw [consumeChunk, hbody, compress, (hrounds 64).2]

end PSVFSS

/-
# `Server.Frame` — big numbers on the wire

`send_bn` puts four length bytes, little-endian, and then the bytes of the
number, most significant first; zero is the empty frame.  `recv_bn` reads the
four bytes and then as many as they say.

    sendBn_refuses       a number that is too long leaves the channel as it was
    recvBn_throws_iff    a length that is too long is all that is consumed
    bnFrames_delimited   any sequence sent is received, with nothing left over
-/
import PSVFSS.Lib.Framing
import PSVFSS.Server.Bn

namespace PSVFSS

open ByteBuffer Framing Loop

/-! ## The channel

Bytes in flight, the oldest first.  `recv_bn` blocks when there are too few,
which is an outcome here and not a failure. -/

/-- A `bn_t` that is not negative: its size in bytes is a C `int`. -/
structure Bn where
  value : Nat
  sizeBin_lt : bnSizeBin value < 2 ^ 31

/-- The bytes sent and not yet received. -/
abbrev Channel := List Byte

/-- `kMaxBnFrameBytes`. -/
def kMaxBnFrameBytes : Nat := 8192

/-- `length_le`. -/
def lengthLe (size : CInt) : List Byte :=
  [size.setWidth 8, (size >>> 8).setWidth 8, (size >>> 16).setWidth 8, (size >>> 24).setWidth 8]

/-- What the call returns or throws, and the channel after it. -/
def sendBn (io : Channel) (value : Bn) : Except String Unit × Channel :=
  let size : CInt := BitVec.ofNat 32 (bnSizeBin value.value)
  if size.toNat > kMaxBnFrameBytes then (.error "BTGen BN frame exceeds configured maximum", io)
  else
    let buffer := if size ≠ 0 then bnWriteBin size.toNat value.value
      else List.replicate size.toNat 0
    let io := io ++ lengthLe size
    (.ok (), if size ≠ 0 then io ++ buffer else io)

/-- How a call of `recv_bn` ends: with a number, with an exception, or not yet,
for want of bytes. -/
inductive Received where
  | number (value : Nat) (io : Channel)
  | throws (what : String) (io : Channel)
  | waits

def recvBn (io : Channel) : Received :=
  if io.length < 4 then .waits
  else
    let length := io.take 4
    let io := io.drop 4
    let size : CInt := (byteAt length 0).setWidth 32 ||| (byteAt length 1).setWidth 32 <<< 8
      ||| (byteAt length 2).setWidth 32 <<< 16 ||| (byteAt length 3).setWidth 32 <<< 24
    if size.toNat > kMaxBnFrameBytes then .throws "BTGen received invalid BN frame length" io
    else if size ≠ 0 then
      if io.length < size.toNat then .waits
      else .number (bnReadBin (io.take size.toNat)) (io.drop size.toNat)
    else .number 0 io

/-- Numbers sent one after the other, up to the first that is refused. -/
def sendAll (io : Channel) : List Bn → Except String Unit × Channel
  | [] => (.ok (), io)
  | value :: values =>
      match sendBn io value with
      | (.ok (), io) => sendAll io values
      | (.error e, io) => (.error e, io)

/-- The number a call returned, if it did, and the channel it left. -/
def Received.taken : Received → Option (Nat × Channel)
  | .number value io => some (value, io)
  | _ => none

/-- `n` calls of `recv_bn`. -/
def recvAll : Nat → Channel → Option (List Nat × Channel) :=
  decodeMany fun io => (recvBn io).taken

/-! ## One frame

Sending appends a frame; receiving takes the announced number of bytes and no
more.  The limit is checked on both sides, on the sender's before anything is
written. -/

/-- The bytes of one frame. -/
def frame (value : Nat) : List Byte :=
  leBytes 4 (bnSizeBin value) ++ bnWriteBin (bnSizeBin value) value

theorem toNat_size (value : Bn) :
    (BitVec.ofNat 32 (bnSizeBin value.value)).toNat = bnSizeBin value.value := by
  rw [BitVec.toNat_ofNat, Nat.mod_eq_of_lt (value.sizeBin_lt.trans (by decide))]

theorem lengthLe_eq (size : CInt) : lengthLe size = leBytes 4 size.toNat := by
  have hshift : ∀ n, (size >>> n).setWidth 8 = BitVec.ofNat 8 (size.toNat / 2 ^ n) := by
    intro n
    apply BitVec.eq_of_toNat_eq
    rw [BitVec.toNat_setWidth, BitVec.toNat_ushiftRight, Nat.shiftRight_eq_div_pow,
      BitVec.toNat_ofNat]
  have hzero : size.setWidth 8 = BitVec.ofNat 8 size.toNat := by
    rw [BitVec.ofNat_toNat]
  simp only [lengthLe, leBytes, hshift, hzero, Nat.div_div_eq_div_mul, Nat.reducePow,
    Nat.reduceMul]

/-- The four shifts are a little-endian load. -/
theorem toNat_length {io : Channel} (h : 4 ≤ io.length) :
    ((byteAt (io.take 4) 0).setWidth 32 ||| (byteAt (io.take 4) 1).setWidth 32 <<< 8
      ||| (byteAt (io.take 4) 2).setWidth 32 <<< 16
      ||| (byteAt (io.take 4) 3).setWidth 32 <<< 24 : CInt).toNat = announced io := by
  have htake : 4 ≤ (io.take 4).length := by
    rw [List.length_take]
    omega
  have hload := toNat_getBytes_announced htake
  rw [announced, List.take_take, Nat.min_self] at hload
  rw [announced, ← hload]
  simp [getBytes, forLoop]

theorem bnReadBin_bnWriteBin (a : Nat) : bnReadBin (bnWriteBin (bnSizeBin a) a) = a := by
  rw [bnReadBin, bnWriteBin, List.reverse_reverse, leVal_leBytes,
    Nat.mod_eq_of_lt (lt_bnSizeBin a)]

/-- A number of at most 8192 bytes is appended as its frame. -/
theorem sendBn_frame (io : Channel) {value : Bn}
    (h : bnSizeBin value.value ≤ kMaxBnFrameBytes) :
    sendBn io value = (.ok (), io ++ frame value.value) := by
  simp only [sendBn, toNat_size, lengthLe_eq, frame, if_neg (Nat.not_lt_of_le h)]
  by_cases hzero : bnSizeBin value.value = 0
  · have hsize : BitVec.ofNat 32 (bnSizeBin value.value) = 0 := congrArg _ hzero
    rw [if_neg (not_not_intro hsize), hzero]
    simp [bnWriteBin, leBytes]
  · have hsize : BitVec.ofNat 32 (bnSizeBin value.value) ≠ 0 := fun heq => by
      have hval := toNat_size value
      rw [heq] at hval
      exact hzero hval.symm
    rw [if_pos hsize, if_pos hsize, List.append_assoc]

/-- A longer one is refused before anything is written. -/
theorem sendBn_refuses (io : Channel) {value : Bn}
    (h : kMaxBnFrameBytes < bnSizeBin value.value) :
    sendBn io value = (.error "BTGen BN frame exceeds configured maximum", io) := by
  simp only [sendBn, toNat_size]
  exact if_pos h

/-- `recv_bn`, with the length read. -/
theorem recvBn_eq (io : Channel) :
    recvBn io = if io.length < 4 then .waits
      else if kMaxBnFrameBytes < announced io then
        .throws "BTGen received invalid BN frame length" (io.drop 4)
      else if (io.drop 4).length < announced io then .waits
      else
        .number (bnReadBin ((io.drop 4).take (announced io)))
          ((io.drop 4).drop (announced io)) := by
  by_cases hshort : io.length < 4
  · rw [recvBn, if_pos hshort, if_pos hshort]
  · have hlen := toNat_length (Nat.le_of_not_lt hshort)
    simp only [recvBn, if_neg hshort, hlen, gt_iff_lt]
    split
    case isTrue => rfl
    case isFalse =>
        split
        case isTrue => rfl
        case isFalse hsize =>
            -- the empty frame: zero
            have hzero : announced io = 0 := by
              rw [← hlen, not_not.mp hsize]
              rfl
            rw [hzero, if_neg (Nat.not_lt_zero _)]
            rfl

/-- An announced length above the limit is all that makes it throw. -/
theorem recvBn_throws_iff (io : Channel) (what : String) (rest : Channel) :
    recvBn io = .throws what rest ↔ 4 ≤ io.length ∧ kMaxBnFrameBytes < announced io ∧
      what = "BTGen received invalid BN frame length" ∧ rest = io.drop 4 := by
  rw [recvBn_eq]
  constructor
  · intro h
    split at h
    case isTrue => cases h
    case isFalse hshort =>
        split at h
        case isTrue hbig =>
            cases h
            exact ⟨Nat.le_of_not_lt hshort, hbig, rfl, rfl⟩
        case isFalse => split at h <;> cases h
  · rintro ⟨hlen, hbig, rfl, rfl⟩
    rw [if_neg (Nat.not_lt_of_le hlen), if_pos hbig]

theorem announced_append (io rest : Channel) (h : io.length = 4) :
    announced (io ++ rest) = leVal io := by
  rw [announced, List.take_left' h]

/-- A frame is read back, whatever follows it. -/
theorem recvBn_frame : SelfDelimiting (fun value => bnSizeBin value ≤ kMaxBnFrameBytes) frame
    fun io => (recvBn io).taken := by
  intro value hvalue rest
  have hhead : (leBytes 4 (bnSizeBin value)).length = 4 := length_leBytes _ _
  have hbody : (bnWriteBin (bnSizeBin value) value).length = bnSizeBin value := by
    rw [bnWriteBin, List.length_reverse, length_leBytes]
  have hlength : announced (frame value ++ rest) = bnSizeBin value := by
    rw [frame, List.append_assoc, announced_append _ _ hhead, leVal_leBytes]
    exact Nat.mod_eq_of_lt (hvalue.trans_lt (by decide))
  have hdrop : (frame value ++ rest).drop 4 = bnWriteBin (bnSizeBin value) value ++ rest := by
    rw [frame, List.append_assoc, List.drop_left' hhead]
  have hlong : ¬(frame value ++ rest).length < 4 := by
    rw [frame, List.length_append, List.length_append, hhead]
    omega
  have henough : ¬(bnWriteBin (bnSizeBin value) value ++ rest).length < bnSizeBin value := by
    rw [List.length_append, hbody]
    omega
  show (recvBn (frame value ++ rest)).taken = some (value, rest)
  rw [recvBn_eq, if_neg hlong, hlength, if_neg (Nat.not_lt_of_le hvalue), hdrop, if_neg henough,
    List.take_left' hbody, List.drop_left' hbody, bnReadBin_bnWriteBin]
  rfl

/-! ## Sequences

Frames say where they end, so the rule of `Lib.Framing` gives sequences from
single frames. -/

theorem sendAll_frames (io : Channel) {values : List Bn}
    (h : ∀ value ∈ values, bnSizeBin value.value ≤ kMaxBnFrameBytes) :
    sendAll io values = (.ok (), io ++ (values.map Bn.value).flatMap frame) := by
  induction values generalizing io with
  | nil => rw [sendAll, List.map_nil, List.flatMap_nil, List.append_nil]
  | cons value values ih =>
      rw [sendAll, sendBn_frame io (h value List.mem_cons_self)]
      show sendAll (io ++ frame value.value) values = _
      rw [ih _ fun v hv => h v (List.mem_cons_of_mem value hv), List.map_cons, List.flatMap_cons,
        List.append_assoc]

/-- Numbers of at most 8192 bytes, sent one after the other, are received by as
many calls with no byte left over; a longer number is refused with nothing
written; and `recv_bn` throws exactly on an announced length above 8192, having
consumed the four length bytes. -/
theorem bnFrames_delimited (values : List Bn) (value : Bn) (io : Channel) :
    ((∀ value ∈ values, bnSizeBin value.value ≤ 8192) →
      ∃ sent, sendAll [] values = (.ok (), sent) ∧
        recvAll values.length sent = some (values.map Bn.value, [])) ∧
    (8192 < bnSizeBin value.value → ∃ e, sendBn io value = (.error e, io)) ∧
    ((∃ what rest, recvBn io = .throws what rest) ↔ 4 ≤ io.length ∧ 8192 < announced io) ∧
    ∀ what rest, recvBn io = .throws what rest → rest = io.drop 4 := by
  refine ⟨?_, ?_, ?_, ?_⟩
  · intro h
    refine ⟨_, sendAll_frames [] h, ?_⟩
    have hfits : ∀ a ∈ values.map Bn.value, bnSizeBin a ≤ kMaxBnFrameBytes := by
      intro a ha
      obtain ⟨v, hv, rfl⟩ := List.mem_map.mp ha
      exact h v hv
    have hmany := recvBn_frame.many hfits []
    rwa [List.length_map, List.append_nil] at hmany
  · exact fun h => ⟨_, sendBn_refuses io h⟩
  · constructor
    · rintro ⟨what, rest, h⟩
      obtain ⟨hlen, hbig, _⟩ := (recvBn_throws_iff io what rest).mp h
      exact ⟨hlen, hbig⟩
    · rintro ⟨hlen, hbig⟩
      exact ⟨_, _, (recvBn_throws_iff io _ _).mpr ⟨hlen, hbig, rfl, rfl⟩⟩
  · exact fun what rest h => ((recvBn_throws_iff io what rest).mp h).2.2.2

end PSVFSS

/-
# `Server.Response` — the response of a server, as bytes

A count of four bytes, then eight bytes a share, all little-endian.  The
count is cut to 32 bits when it is written, so a longer list is refused when
it is read back (`deserialize_serialize`).
-/
import PSVFSS.Lib.Bytes
import PSVFSS.Field61

namespace PSVFSS

open ByteBuffer

/-! ## `SerializeFieldShares`, `DeserializeFieldShares` -/

def serializeFieldShares (shares : List Uint64) : List Byte :=
  leBytes 4 shares.length ++ shares.flatMap storeLE

def deserializeFieldShares (buffer : List Byte) : Except String (List Uint64) :=
  if buffer.length < 4 then .error "truncated PSVFSS response"
  else
    let count := leVal (slice buffer 0 4)
    if buffer.length ≠ 4 + count * 8 then .error "invalid PSVFSS response length"
    else .ok ((List.range count).map fun j => loadLE 64 (slice buffer (4 + j * 8) 8))

/-- What the recipient makes of the two responses. -/
def recipientDecode (response0 response1 : List Byte) : Except String (List Uint64) := do
  let shares0 ← deserializeFieldShares response0
  let shares1 ← deserializeFieldShares response1
  if shares0.length ≠ shares1.length then
    throw "PSVFSS response element counts differ"
  else
    return List.zipWith field61Add shares0 shares1

/-! ## Reading back

The lengths of count and body determine where each share stands, so the list
that is read is the list that was written, up to the 32 bits of the count. -/

theorem length_flatMap_storeLE (shares : List Uint64) :
    (shares.flatMap storeLE).length = shares.length * 8 := by
  induction shares with
  | nil => rfl
  | cons x shares ih =>
      rw [List.flatMap_cons, List.length_append, ih, length_storeLE, List.length_cons,
        Nat.succ_mul, Nat.add_comm]

theorem length_serialize (shares : List Uint64) :
    (serializeFieldShares shares).length = 4 + shares.length * 8 := by
  rw [serializeFieldShares, List.length_append, length_leBytes, length_flatMap_storeLE]

/-- Share `j` stands at byte `8 j` of the body. -/
theorem slice_flatMap_storeLE (shares : List Uint64) (j : Nat) (hj : j < shares.length) :
    slice (shares.flatMap storeLE) (j * 8) 8 = storeLE shares[j] := by
  induction shares generalizing j with
  | nil => exact absurd hj (Nat.not_lt_zero j)
  | cons x shares ih =>
      cases j with
      | zero =>
          rw [slice, List.flatMap_cons, Nat.zero_mul, List.drop_zero]
          exact List.take_left' (length_storeLE x)
      | succ j =>
          have hoff : (j + 1) * 8 = 8 + j * 8 := by omega
          rw [slice, List.flatMap_cons, hoff, ← List.drop_drop, List.drop_left' (length_storeLE x)]
          exact ih j (Nat.lt_of_succ_lt_succ hj)

theorem count_serialize (shares : List Uint64) :
    leVal (slice (serializeFieldShares shares) 0 4) = shares.length % 2 ^ 32 := by
  rw [slice, List.drop_zero, serializeFieldShares, List.take_left' (length_leBytes 4 _),
    leVal_leBytes]
  rfl

/-- The round trip, with its bound: 2^32 shares or more are not read back. -/
theorem deserialize_serialize (shares : List Uint64) :
    deserializeFieldShares (serializeFieldShares shares)
      = if shares.length < 2 ^ 32 then .ok shares
        else .error "invalid PSVFSS response length" := by
  have hlong : ¬4 + shares.length * 8 < 4 := by omega
  simp only [deserializeFieldShares, count_serialize, length_serialize, if_neg hlong]
  by_cases hlen : shares.length < 2 ^ 32
  · simp only [Nat.mod_eq_of_lt hlen, ne_eq, not_true_eq_false, if_false, if_pos hlen]
    refine congrArg Except.ok (List.ext_getElem (by simp) fun j hj hj' => ?_)
    have hslice : slice (serializeFieldShares shares) (4 + j * 8) 8
        = slice (shares.flatMap storeLE) (j * 8) 8 := by
      rw [slice, serializeFieldShares, ← List.drop_drop, List.drop_left' (length_leBytes 4 _)]
      rfl
    rw [List.getElem_map, List.getElem_range, hslice, slice_flatMap_storeLE shares j hj',
      loadLE_storeLE (by decide)]
  · have hcut : 4 + shares.length * 8 ≠ 4 + shares.length % 2 ^ 32 * 8 := by
      have := Nat.mod_lt shares.length (Nat.two_pow_pos 32)
      omega
    rw [if_pos hcut, if_neg hlen]

/-- Responses of equal length: the two lists added position by position, or
refused together. -/
theorem recipientDecode_serialize {shares0 shares1 : List Uint64}
    (h : shares0.length = shares1.length) :
    recipientDecode (serializeFieldShares shares0) (serializeFieldShares shares1)
      = if shares0.length < 2 ^ 32 then .ok (List.zipWith field61Add shares0 shares1)
        else .error "invalid PSVFSS response length" := by
  rw [recipientDecode, deserialize_serialize, deserialize_serialize, ← h]
  by_cases hlen : shares0.length < 2 ^ 32
  · simp only [if_pos hlen]
    exact if_neg fun hne => hne h
  · simp only [if_neg hlen]
    rfl

end PSVFSS

/-
# `Server.Codec` — the response codec, byte by byte

`SerializeFieldShares` and `DeserializeFieldShares` assemble their bytes in
loops inside loops.  `serializeFieldSharesLoop_eq` and
`deserializeFieldSharesLoop_eq` say that the loops compute the byte strings of
`Server.Response`; the rest is read off there:

    fieldShares_bijection   what is written is read back, what is read was
                            written, and which buffers are refused
-/
import PSVFSS.Lib.ByteLoop
import PSVFSS.Server.Response

namespace PSVFSS

open ByteBuffer Loop

/-! ## The loops

The loops of the source, over a zeroed buffer and with the shifts as they
stand there. -/

/-- `SerializeFieldShares` as the source writes it. -/
def serializeFieldSharesLoop (shares : List Uint64) : List Byte :=
  let buffer := List.replicate (4 + shares.length * 8) (0 : Byte)
  let count : CInt := BitVec.ofNat 32 shares.length
  let buffer := putBytes 4 0 count buffer
  forLoop shares.length (fun j buffer => putBytes 8 (4 + j * 8) (shares.getD j 0) buffer) buffer

/-- `DeserializeFieldShares` as the source writes it. -/
def deserializeFieldSharesLoop (buffer : List Byte) : Except String (List Uint64) :=
  if buffer.length < 4 then .error "truncated PSVFSS response"
  else
    let count : CInt := getBytes 32 4 0 buffer
    if buffer.length ≠ 4 + count.toNat * 8 then .error "invalid PSVFSS response length"
    else
      .ok (forLoop count.toNat (fun j shares => shares.set j (getBytes 64 8 (4 + j * 8) buffer))
        (List.replicate count.toNat 0))

/-! ## They compute the byte strings

Each induction is over the shares: those handled so far lie in front, zeros or
unread bytes behind. -/

/-- The loop keeps the bytes written so far in front of zeros. -/
theorem serializeFieldSharesLoop_eq (shares : List Uint64) :
    serializeFieldSharesLoop shares = serializeFieldShares shares := by
  have hcount : putBytes 4 0 (BitVec.ofNat 32 shares.length)
      (List.replicate (4 + shares.length * 8) 0)
      = leBytes 4 shares.length ++ List.replicate (shares.length * 8) 0 := by
    have hmod : leBytes 4 (shares.length % 2 ^ 32) = leBytes 4 shares.length := by
      have h := leBytes_leVal (leBytes 4 shares.length)
      rwa [length_leBytes, leVal_leBytes] at h
    have h := memcpy_append [] (List.replicate (4 + shares.length * 8) 0)
      (leBytes 4 shares.length) (by simp)
    rw [putBytes_eq, BitVec.toNat_ofNat, hmod]
    simpa using h
  have hloop := forLoop_induction (n := shares.length)
    (f := fun j buffer => putBytes 8 (4 + j * 8) (shares.getD j 0) buffer)
    (s := leBytes 4 shares.length ++ List.replicate (shares.length * 8) 0)
    (P := fun j buffer => buffer = leBytes 4 shares.length ++ (shares.take j).flatMap storeLE
      ++ List.replicate ((shares.length - j) * 8) 0)
    (by simp)
    (by
      rintro j hj buffer rfl
      have hoff : (leBytes 4 shares.length ++ (shares.take j).flatMap storeLE).length
          = 4 + j * 8 := by
        rw [List.length_append, length_leBytes, length_flatMap_storeLE, List.length_take,
          Nat.min_eq_left hj.le]
      have hstore : leBytes 8 (shares.getD j 0).toNat = storeLE shares[j] := by
        rw [List.getD_eq_getElem _ _ hj]
        rfl
      have hroom : (shares.length - j) * 8 - 8 = (shares.length - (j + 1)) * 8 := by omega
      rw [putBytes_eq, ← hoff, hstore, memcpy_append _ _ _ (by simp; omega),
        List.take_succ_eq_append_getElem hj, List.flatMap_append, List.drop_replicate,
        length_storeLE, hroom, List.flatMap_singleton]
      simp only [List.append_assoc])
  simp only [serializeFieldSharesLoop, hcount]
  rw [hloop, List.take_length, Nat.sub_self, Nat.zero_mul, List.replicate_zero, List.append_nil]
  rfl

theorem deserializeFieldSharesLoop_eq (buffer : List Byte) :
    deserializeFieldSharesLoop buffer = deserializeFieldShares buffer := by
  by_cases hshort : buffer.length < 4
  · simp only [deserializeFieldSharesLoop, deserializeFieldShares, if_pos hshort]
  · have hcount := toNat_getBytes_announced (Nat.le_of_not_lt hshort)
    have hslice : leVal (slice buffer 0 4) = announced buffer := by
      rw [slice, List.drop_zero, announced]
    simp only [deserializeFieldSharesLoop, deserializeFieldShares, if_neg hshort, hcount, hslice]
    by_cases hlen : buffer.length = 4 + announced buffer * 8
    · rw [if_neg (not_not_intro hlen), if_neg (not_not_intro hlen),
        forLoop_set _ _ _ _ (Nat.le_refl _), Nat.sub_self, List.replicate_zero, List.append_nil]
      refine congrArg Except.ok (List.map_congr_left fun j hj => ?_)
      have hj := List.mem_range.mp hj
      exact getBytes_eq (by omega) (by omega)
    · rw [if_pos hlen, if_pos hlen]

/-! ## Both directions

A buffer is accepted exactly when its length is the one its count announces,
so accepted buffers and lists of shares correspond one to one. -/

/-- A buffer that is accepted is the image of what it is read as. -/
theorem serialize_deserialize {buffer : List Byte} {shares : List Uint64}
    (h : deserializeFieldShares buffer = .ok shares) : serializeFieldShares shares = buffer := by
  simp only [deserializeFieldShares] at h
  split at h
  case isTrue => cases h
  case isFalse hshort =>
      split at h
      case isTrue => cases h
      case isFalse hlen =>
          have hlen := not_not.mp hlen
          have h4 : (slice buffer 0 4).length = 4 := length_slice (by omega)
          have hhead := leBytes_leVal (slice buffer 0 4)
          rw [h4] at hhead
          obtain rfl := Except.ok.inj h
          rw [serializeFieldShares, List.length_map, List.length_range, hhead, List.flatMap_map]
          have hslots : (List.range (leVal (slice buffer 0 4))).flatMap
              (fun j => storeLE (loadLE 64 (slice buffer (4 + j * 8) 8)))
              = (List.range (leVal (slice buffer 0 4))).flatMap
                  (fun j => slice buffer (4 + j * 8) 8) := by
            refine List.flatMap_congr fun j hj => ?_
            have hj := List.mem_range.mp hj
            have h8 : (slice buffer (4 + j * 8) 8).length = 8 := length_slice (by omega)
            exact storeLE_loadLE (by omega)
          rw [hslots, flatMap_slots, ← Nat.zero_add 4, ← slice_add, Nat.zero_add, ← hlen, slice,
            List.drop_zero, List.take_length]

/-- A buffer is refused when it has no count or not the length its count says. -/
theorem deserialize_refuses_iff (buffer : List Byte) :
    (∃ e, deserializeFieldShares buffer = .error e)
      ↔ buffer.length < 4 ∨ buffer.length ≠ 4 + 8 * announced buffer := by
  have hslice : leVal (slice buffer 0 4) = announced buffer := by
    rw [slice, List.drop_zero, announced]
  simp only [deserializeFieldShares, hslice, Nat.mul_comm 8]
  by_cases hshort : buffer.length < 4
  · simp [hshort]
  · by_cases hlen : buffer.length = 4 + announced buffer * 8
    · rw [if_neg hshort, if_neg (not_not_intro hlen)]
      simp [hlen]
    · simp [hshort, hlen]

/-- The codec is a bijection between the lists it is meant for and the buffers
it accepts: lists of fewer than 2^32 shares come back, buffers are refused or
are the image of the list they are read as, and they are refused exactly for
their length. -/
theorem fieldShares_bijection (shares : List Uint64) (buffer : List Byte) :
    (shares.length < 2 ^ 32 →
      deserializeFieldSharesLoop (serializeFieldSharesLoop shares) = .ok shares) ∧
    ((∃ e, deserializeFieldSharesLoop buffer = .error e) ∨
      ∃ l, deserializeFieldSharesLoop buffer = .ok l ∧ serializeFieldSharesLoop l = buffer) ∧
    ((∃ e, deserializeFieldSharesLoop buffer = .error e)
      ↔ buffer.length < 4 ∨ buffer.length ≠ 4 + 8 * announced buffer) := by
  simp only [serializeFieldSharesLoop_eq, deserializeFieldSharesLoop_eq]
  refine ⟨?_, ?_, deserialize_refuses_iff buffer⟩
  · intro hlen
    rw [deserialize_serialize, if_pos hlen]
  · cases h : deserializeFieldShares buffer with
    | error e => exact .inl ⟨e, rfl⟩
    | ok l => exact .inr ⟨l, rfl, serialize_deserialize h⟩

/-- Two shares there and back. -/
theorem fieldShares_bijection_sample :
    deserializeFieldSharesLoop (serializeFieldSharesLoop [1, 9223372036854775808])
      = .ok [1, 9223372036854775808] :=
  (fieldShares_bijection [1, 9223372036854775808] []).1 (by decide)

end PSVFSS

/-
# `Omr.Expand` — from packed bits to one ciphertext for each message

The first phase of the detector leaves one slot for each message.  `expandSIC`
turns the slots one after the other to the front, cuts the front slot out and
spreads it over all slots.  It turns the ciphertext in place, so that the next
call goes on where this one stopped.
-/
import PSVFSS.Omr.Seal

namespace PSVFSS.Omr

open Loop

variable {Ct : Type}

/-! ## The sum over all slots

Doubling: after a round each slot has the sum of twice as many.  A last step
adds the other row. -/

/-- One round of `innerSum_inplace`, with `i` a power of two. -/
def innerSumStep (ev : Evaluator Ct) (degree i : ℕ) (output : Ct) : Ct :=
  if i = degree / 2 then ev.add output (ev.rotateColumns output)
  else ev.add output (ev.rotateRows output i)

/-- `innerSum_inplace`: `i` runs through the powers of two below `toCover`. -/
def innerSumInplace (ev : Evaluator Ct) (degree toCover : ℕ) (output : Ct) : Ct :=
  forLoop (Nat.clog 2 toCover) (fun k output => innerSumStep ev degree (2 ^ k) output) output

/-- Summing over a row does not depend on where one starts. -/
theorem sum_turned {half : ℕ} (f : ℕ → Slot) (j : ℕ) :
    ∑ u ∈ Finset.range half, f ((j + u) % half) = ∑ u ∈ Finset.range half, f u := by
  induction j with
  | zero =>
    refine Finset.sum_congr rfl fun u hu => ?_
    rw [Nat.zero_add, Nat.mod_eq_of_lt (Finset.mem_range.mp hu)]
  | succ j ih =>
    have hwrap : (j + half) % half = (j + 0) % half := by rw [Nat.add_mod_right, Nat.add_zero]
    have hshift : ∑ u ∈ Finset.range half, f ((j + (u + 1)) % half) + f ((j + 0) % half)
        = ∑ u ∈ Finset.range half, f ((j + u) % half) + f ((j + half) % half) := by
      rw [← Finset.sum_range_succ' fun u => f ((j + u) % half), Finset.sum_range_succ]
    rw [hwrap] at hshift
    rw [← ih, ← add_right_cancel hshift]
    refine Finset.sum_congr rfl fun u _ => ?_
    rw [Nat.add_assoc, Nat.add_comm 1 u]

section

variable {ev : Evaluator Ct} {half : ℕ} (h : ev.Lawful half)
include h

/-- Rows of `2 ^ d` slots: after `k` rounds a slot holds the sum of `2 ^ k`. -/
theorem innerSum_rows {d : ℕ} (hhalf : half = 2 ^ d) (c : Ct) {k : ℕ} (hk : k ≤ d) {r j : ℕ}
    (hr : r < 2) (hj : j < half) :
    ev.slot (forLoop k (fun k output => innerSumStep ev (2 * half) (2 ^ k) output) c)
        (r * half + j)
      = ∑ u ∈ Finset.range (2 ^ k), ev.slot c (r * half + (j + u) % half) := by
  induction k generalizing j with
  | zero =>
    rw [pow_zero, Finset.sum_range_one, Nat.add_zero, Nat.mod_eq_of_lt hj]
    rfl
  | succ k ih =>
    have hlt : 2 ^ k < 2 ^ d := Nat.pow_lt_pow_right Nat.one_lt_two hk
    have hne : 2 ^ k ≠ 2 * half / 2 := by omega
    rw [forLoop_succ, innerSumStep, if_neg hne, h.add _ _ _ (Evaluator.cell_lt hr hj),
      h.rotateRows _ _ r hr j hj, ih (by omega) hj,
      ih (by omega) (Nat.mod_lt _ (Nat.zero_lt_of_lt hj)), pow_succ, mul_two,
      Finset.sum_range_add]
    refine congrArg _ (Finset.sum_congr rfl fun u _ => ?_)
    rw [Nat.mod_add_mod, Nat.add_assoc]

/-- `innerSum_inplace` over all slots leaves their sum in every slot. -/
theorem innerSum_slot {d : ℕ} (hhalf : half = 2 ^ d) (c : Ct) {i : ℕ} (hi : i < 2 * half) :
    ev.slot (innerSumInplace ev (2 * half) (2 * half) c) i
      = ∑ u ∈ Finset.range (2 * half), ev.slot c u := by
  have hpos : 0 < half := hhalf ▸ Nat.two_pow_pos d
  have hclog : Nat.clog 2 (2 * half) = d + 1 := by
    rw [hhalf, ← pow_succ', Nat.clog_pow 2 _ Nat.one_lt_two]
  have hrow : ∀ r < 2, ∀ j < half,
      ev.slot (forLoop d (fun k output => innerSumStep ev (2 * half) (2 ^ k) output) c)
          (r * half + j)
        = ∑ u ∈ Finset.range half, ev.slot c (r * half + u) := by
    intro r hr j hj
    rw [innerSum_rows h hhalf c le_rfl hr hj, ← hhalf,
      sum_turned (fun u => ev.slot c (r * half + u)) j]
  obtain ⟨r, j, hr, hj, rfl⟩ : ∃ r j, r < 2 ∧ j < half ∧ i = r * half + j :=
    ⟨i / half, i % half, (Nat.div_lt_iff_lt_mul hpos).mpr hi, Nat.mod_lt _ hpos,
      (Nat.div_add_mod' i half).symm⟩
  have hlast : 2 ^ d = 2 * half / 2 := by omega
  rw [innerSumInplace, hclog, forLoop_succ, innerSumStep, if_pos hlast,
    h.add _ _ _ (Evaluator.cell_lt hr hj), h.rotateColumns _ r hr j hj, hrow r hr j hj,
    hrow (1 - r) (by omega) j hj, two_mul, Finset.sum_range_add]
  -- the two rows, in either order
  rcases (by omega : r = 0 ∨ r = 1) with rfl | rfl
  · simp only [Nat.zero_mul, Nat.zero_add, Nat.sub_zero, Nat.one_mul]
  · simp only [Nat.zero_mul, Nat.zero_add, Nat.sub_self, Nat.one_mul]
    exact add_comm _ _

end

/-! ## Turning the slots to the front

The ciphertext is turned one slot a message, through a row and then from the
other one.  `Turned` says how far it has come, also between calls. -/

/-- The rotation that brings slot `m` to the front once slot `m - 1` is there. -/
def turn (ev : Evaluator Ct) (degree m : ℕ) (toExpand : Ct) : Ct :=
  if m ≠ 0 then
    if m = degree / 2 then ev.rotateRows (ev.rotateColumns toExpand) 1
    else ev.rotateRows toExpand 1
  else toExpand

/-- One round of `expandSIC`: the ciphertexts expanded so far, and the packed
one as it is turned now. -/
def expandStep (ev : Evaluator Ct) (degree start : ℕ) (s : List Ct × Ct) (i : ℕ) :
    Option (List Ct × Ct) := do
  let toExpand := turn ev degree (i + start) s.2
  let front ← ev.multiplyPlain toExpand (single degree 0 1)
  some (s.1 ++ [innerSumInplace ev degree degree front], toExpand)

/-- `expandSIC`, with the packed ciphertext that it leaves behind. -/
def expandSIC (ev : Evaluator Ct) (degree : ℕ) (toExpand : Ct) (toExpandNum start : ℕ) :
    Option (List Ct × Ct) :=
  (List.range toExpandNum).foldlM (expandStep ev degree start) ([], toExpand)

theorem length_expandSIC {ev : Evaluator Ct} {degree num start : ℕ} {c : Ct} {s : List Ct × Ct}
    (h : expandSIC ev degree c num start = some s) : s.1.length = num := by
  refine foldlM_range_of_eq (P := fun i (s : List Ct × Ct) => s.1.length = i) rfl ?_ h
  intro i _ s s' hs hstep
  obtain ⟨front, -, hstep⟩ := Option.bind_eq_some_iff.mp hstep
  rw [← Option.some.inj hstep, List.length_append, hs, List.length_singleton]

/-- The rows of a packed ciphertext, each turned by `m`, and exchanged after a
full turn. -/
def Turned (ev : Evaluator Ct) (half m : ℕ) (packed c : Ct) : Prop :=
  ∀ r < 2, ∀ j < half,
    ev.slot c (r * half + j) = ev.slot packed ((r + m / half) % 2 * half + (j + m) % half)

/-- Every slot of a ciphertext holds `v`. -/
def Constant (ev : Evaluator Ct) (degree : ℕ) (v : Slot) (c : Ct) : Prop :=
  ∀ i < degree, ev.slot c i = v

section

variable {ev : Evaluator Ct} {half : ℕ} {packed c : Ct}

theorem turned_zero : Turned ev half 0 packed packed := by
  intro r hr j hj
  rw [Nat.zero_div, Nat.add_zero, Nat.add_zero, Nat.mod_eq_of_lt hr, Nat.mod_eq_of_lt hj]

/-- The slot at the front. -/
theorem Turned.front {m : ℕ} (ht : Turned ev half m packed c) (hm : m < 2 * half) :
    ev.slot c 0 = ev.slot packed m := by
  have hpos : 0 < half := by omega
  have hrow : m / half < 2 := (Nat.div_lt_iff_lt_mul hpos).mpr hm
  have := ht 0 Nat.two_pos 0 hpos
  rw [Nat.zero_mul, Nat.zero_add, Nat.zero_add, Nat.zero_add, Nat.mod_eq_of_lt hrow,
    Nat.div_add_mod'] at this
  exact this

variable (h : ev.Lawful half)
include h

theorem turned_succ {m : ℕ} (ht : Turned ev half m packed c) (hm : m + 1 < 2 * half) :
    Turned ev half (m + 1) packed (turn ev (2 * half) (m + 1) c) := by
  intro r hr j hj
  have hpos : 0 < half := Nat.zero_lt_of_lt hj
  have hmod : (j + 1) % half < half := Nat.mod_lt _ hpos
  have hcol : ((j + 1) % half + m) % half = (j + (m + 1)) % half := by
    rw [Nat.mod_add_mod, Nat.add_assoc, Nat.add_comm 1]
  rw [turn, if_pos (Nat.succ_ne_zero m)]
  by_cases hhalf : m + 1 = 2 * half / 2
  · -- the first row has been turned once around: the second one comes to the front
    have hnow : (m + 1) / half = 1 := by
      rw [hhalf, Nat.mul_div_cancel_left _ Nat.two_pos, Nat.div_self hpos]
    have hbefore : m / half = 0 := Nat.div_eq_of_lt (by omega)
    have hrow : (1 - r + m / half) % 2 = (r + (m + 1) / half) % 2 := by
      rw [hnow, hbefore]
      omega
    rw [if_pos hhalf, h.rotateRows _ _ r hr j hj, h.rotateColumns _ r hr _ hmod,
      ht (1 - r) (by omega) _ hmod, hrow, hcol]
  · have hrow : (m + 1) / half = m / half := by
      refine Nat.succ_div_of_not_dvd ?_
      rintro ⟨k, hk⟩
      rcases (by omega : k = 0 ∨ k = 1 ∨ 2 ≤ k) with rfl | rfl | hk2
      · omega
      · omega
      · have := Nat.mul_le_mul_left half hk2
        omega
    rw [if_neg hhalf, h.rotateRows _ _ r hr j hj, ht r hr _ hmod, hrow, hcol]

theorem turned_turn {m : ℕ} (ht : Turned ev half (m - 1) packed c) (hm : m < 2 * half) :
    Turned ev half m packed (turn ev (2 * half) m c) := by
  cases m with
  | zero => exact ht
  | succ m => exact turned_succ h ht hm

/-- The front slot, cut out and spread. -/
theorem constant_front {d : ℕ} (hhalf : half = 2 ^ d) (c : Ct) :
    ∃ front, ev.multiplyPlain c (single (2 * half) 0 1) = some front ∧
      Constant ev (2 * half) (ev.slot c 0) (innerSumInplace ev (2 * half) (2 * half) front) := by
  have hpos : 0 < 2 * half := Nat.mul_pos Nat.two_pos h.half_pos
  have hmask : ∀ u, plain (single (2 * half) 0 1) u = if u = 0 then 1 else 0 := by
    intro u
    rw [plain_single hpos, Nat.cast_one]
  obtain ⟨front, hfront, hslot⟩ := h.multiplyPlain c _ (encodable_single (by decide))
    (not_zeros_single hpos Nat.one_ne_zero)
  refine ⟨front, hfront, fun i hi => ?_⟩
  rw [innerSum_slot h hhalf _ hi, Finset.sum_eq_single 0]
  · rw [hslot 0 hpos, hmask, if_pos rfl, mul_one]
  · intro u hu hne
    rw [hslot u (Finset.mem_range.mp hu), hmask, if_neg hne, mul_zero]
  · intro hn
    exact absurd (Finset.mem_range.mpr hpos) hn

/-- `expandSIC` from slot `start` on, when the calls before it stopped there. -/
theorem expandSIC_spec {d : ℕ} (hhalf : half = 2 ^ d) (start num : ℕ)
    (ht : Turned ev half (start - 1) packed c) (hnum : start + num ≤ 2 * half) :
    ∃ s, expandSIC ev (2 * half) c num start = some s
      ∧ List.Forall₂ (fun i e => Constant ev (2 * half) (ev.slot packed (start + i)) e)
        (List.range num) s.1
      ∧ Turned ev half (start + num - 1) packed s.2 := by
  refine foldlM_range
    (P := fun i (s : List Ct × Ct) => List.Forall₂
        (fun i e => Constant ev (2 * half) (ev.slot packed (start + i)) e) (List.range i) s.1
      ∧ Turned ev half (start + i - 1) packed s.2) ⟨.nil, ht⟩ ?_
  rintro i hi ⟨expanded, c⟩ ⟨hexp, hturn⟩
  have hnext : Turned ev half (start + i) packed (turn ev (2 * half) (i + start) c) := by
    rw [Nat.add_comm i]
    exact turned_turn h hturn (by omega)
  obtain ⟨front, hfront, hconst⟩ := constant_front h hhalf (turn ev (2 * half) (i + start) c)
  rw [hnext.front (by omega)] at hconst
  refine ⟨(expanded ++ [innerSumInplace ev (2 * half) (2 * half) front],
    turn ev (2 * half) (i + start) c), ?_, ?_, hnext⟩
  · rw [expandStep, hfront]
    rfl
  · rw [List.range_succ]
    exact List.rel_append hexp (.cons hconst .nil)

end

end PSVFSS.Omr

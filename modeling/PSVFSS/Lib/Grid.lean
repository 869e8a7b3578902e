/-
# `Lib.Grid` — tables kept flat, row after row

    getElem?_flatMap_range     entry `l * i + j` is column `j` of row `i`
    row_flatMap_range          row `i`, cut out of the flat table
    take_drop_flatMap          chunk `j` of pieces of one length is piece `j`
    flatten_chunks             the chunks of a list, put together again
    foldlM_zipIdx_map_range    a loop over numbered rows as a counting loop
-/
import Mathlib.Data.List.Basic

namespace Grid

variable {α σ : Type}

theorem length_flatMap_range (f : Nat → Nat → α) (m l : Nat) :
    ((List.range m).flatMap fun i => (List.range l).map (f i)).length = m * l := by
  simp [List.length_flatMap]

theorem getElem?_flatMap_range (f : Nat → Nat → α) {m l i j : Nat} (hi : i < m) (hj : j < l) :
    ((List.range m).flatMap fun i => (List.range l).map (f i))[l * i + j]? = some (f i j) := by
  induction m with
  | zero => exact absurd hi (Nat.not_lt_zero i)
  | succ m ih =>
      rw [List.range_succ, List.flatMap_append]
      rcases Nat.lt_succ_iff_lt_or_eq.mp hi with hlt | rfl
      · have hbefore : l * i + j < m * l := by
          have := Nat.mul_le_mul_left l hlt
          rw [Nat.mul_succ] at this
          rw [Nat.mul_comm m l]
          omega
        rw [List.getElem?_append_left (by rwa [length_flatMap_range])]
        exact ih hlt
      · rw [List.getElem?_append_right (by rw [length_flatMap_range, Nat.mul_comm]; omega),
          length_flatMap_range, Nat.mul_comm i l, Nat.add_sub_cancel_left]
        simp [hj]

/-- A flat list cut into rows, read entry by entry. -/
theorem row_eq_map_range (d : α) (xs : List α) {l i m : Nat} (hlen : xs.length = m * l)
    (hi : i < m) :
    (xs.drop (l * i)).take l = (List.range l).map fun j => (xs[l * i + j]?).getD d := by
  have hend : l * i + l ≤ xs.length := by
    have := Nat.mul_le_mul_left l hi
    rw [Nat.mul_succ] at this
    rw [hlen, Nat.mul_comm m l]
    exact this
  refine List.ext_getElem? fun j => ?_
  rw [List.getElem?_take, List.getElem?_drop, List.getElem?_map]
  rcases Nat.lt_or_ge j l with hj | hj
  · have hget : l * i + j < xs.length := by omega
    rw [if_pos hj, List.getElem?_range hj, Option.map_some, List.getElem?_eq_getElem hget]
    rfl
  · rw [if_neg (Nat.not_lt.mpr hj), List.getElem?_eq_none (by simpa using hj)]
    rfl

theorem eq_map_range (d : α) (xs : List α) :
    xs = (List.range xs.length).map fun i => (xs[i]?).getD d := by
  have h := row_eq_map_range d xs (l := xs.length) (i := 0) (m := 1) (by simp) (by simp)
  simpa using h

/-- The chunks of a list that was put together from pieces of one length. -/
theorem take_drop_flatMap {β : Type} {f : α → List β} {s : Nat} (hf : ∀ x, (f x).length = s)
    {xs : List α} {j : Nat} (hj : j < xs.length) :
    ((xs.flatMap f).drop (j * s)).take s = f xs[j] := by
  induction xs generalizing j with
  | nil => exact absurd hj (Nat.not_lt_zero j)
  | cons x xs ih =>
      cases j with
      | zero =>
          rw [Nat.zero_mul, List.drop_zero, List.flatMap_cons, ← hf x, List.take_left]
          rfl
      | succ j =>
          rw [Nat.succ_mul, Nat.add_comm, ← List.drop_drop, List.flatMap_cons, ← hf x,
            List.drop_left, hf x]
          exact ih (Nat.lt_of_succ_lt_succ hj)

theorem flatten_chunks (xs : List α) (s k : Nat) :
    ((List.range k).map fun i => (xs.drop (i * s)).take s).flatten = xs.take (k * s) := by
  induction k with
  | zero => simp
  | succ k ih =>
      rw [List.range_succ, List.map_append, List.flatten_append, ih, Nat.succ_mul, List.take_add]
      simp

theorem zipIdx_map_range (g : Nat → α) (n : Nat) :
    ((List.range n).map g).zipIdx = (List.range n).map fun i => (g i, i) := by
  refine List.ext_getElem (by simp) fun i h _ => ?_
  simp

theorem foldlM_zipIdx_map_range (g : Nat → α) (f : σ → α × Nat → Option σ) (n : Nat) (s : σ) :
    ((List.range n).map g).zipIdx.foldlM f s
      = (List.range n).foldlM (fun s i => f s (g i, i)) s := by
  rw [zipIdx_map_range, List.foldlM_map]

end Grid

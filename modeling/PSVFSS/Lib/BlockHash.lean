/-
# `Lib.BlockHash` — messages absorbed block by block

A hash that reads its message in blocks of `size` symbols and keeps what fills
no block for later.

    absorb      the state after the whole blocks of a message
    leftover    what fills no block

A message that comes in parts is the same message (`absorb_append`,
`leftover_append`), so a program that keeps the state and the leftover of what
it has been given need not keep anything else (`Streams`).  Padding that has a
length is unambiguous (`padded_injective`), and two messages with one hash then
contain a collision of the compression function: the last place at which what it is
given differs (`collision_of_padded`).
-/
import Mathlib.Algebra.Order.Group.Nat
import PSVFSS.Lib.Loop

namespace BlockHash

open Loop

variable {α σ : Type} (size : Nat) (compress : σ → List α → σ)

/-! ## Whole blocks

Both functions recurse on the message, a block at a time.  The joins below are
what streaming rests on: after `m`, a further piece is absorbed as if it
followed what `m` left over. -/

def absorb (h : σ) (m : List α) : σ :=
  if _hm : 0 < size ∧ size ≤ m.length then absorb (compress h (m.take size)) (m.drop size) else h
termination_by m.length
decreasing_by
  rw [List.length_drop]
  omega

def leftover (m : List α) : List α :=
  if _hm : 0 < size ∧ size ≤ m.length then leftover (m.drop size) else m
termination_by m.length
decreasing_by
  rw [List.length_drop]
  omega

variable {size}

theorem absorb_short {m : List α} (h : σ) (hm : m.length < size) :
    absorb size compress h m = h := by
  rw [absorb, dif_neg fun hle => Nat.not_le_of_lt hm hle.2]

theorem leftover_short {m : List α} (hm : m.length < size) : leftover size m = m := by
  rw [leftover, dif_neg fun hle => Nat.not_le_of_lt hm hle.2]

section
variable (hsize : 0 < size)
include hsize

theorem absorb_block {b : List α} (hb : b.length = size) (h : σ) (m : List α) :
    absorb size compress h (b ++ m) = absorb size compress (compress h b) m := by
  have hle : size ≤ (b ++ m).length := by
    rw [List.length_append]
    omega
  rw [absorb, dif_pos ⟨hsize, hle⟩, List.take_left' hb, List.drop_left' hb]

theorem leftover_block {b : List α} (hb : b.length = size) (m : List α) :
    leftover size (b ++ m) = leftover size m := by
  have hle : size ≤ (b ++ m).length := by
    rw [List.length_append]
    omega
  rw [leftover, dif_pos ⟨hsize, hle⟩, List.drop_left' hb]

theorem length_leftover (m : List α) : (leftover size m).length = m.length % size := by
  fun_induction leftover size m with
  | case1 m hm ih => rw [ih, List.length_drop, ← Nat.mod_eq_sub_mod hm.2]
  | case2 m hm =>
      have hlt : m.length < size := Nat.lt_of_not_le fun hle => hm ⟨hsize, hle⟩
      exact (Nat.mod_eq_of_lt hlt).symm

/-- Absorbing goes on where it stopped. -/
theorem absorb_append (h : σ) (m n : List α) :
    absorb size compress h (m ++ n)
      = absorb size compress (absorb size compress h m) (leftover size m ++ n) := by
  fun_induction absorb size compress h m with
  | case1 h m hm ih =>
      have hb : (m.take size).length = size := List.length_take_of_le hm.2
      have hm' : m ++ n = m.take size ++ (m.drop size ++ n) := by
        rw [← List.append_assoc, List.take_append_drop]
      have hleft : leftover size m = leftover size (m.drop size) := by
        conv_lhs => rw [leftover, dif_pos hm]
      rw [hm', absorb_block compress hsize hb, ih, hleft]
  | case2 h m hm =>
      have hleft : leftover size m = m := by rw [leftover, dif_neg hm]
      rw [hleft]

theorem leftover_append (m n : List α) :
    leftover size (m ++ n) = leftover size (leftover size m ++ n) := by
  fun_induction leftover size m with
  | case1 m hm ih =>
      have hb : (m.take size).length = size := List.length_take_of_le hm.2
      have hm' : m ++ n = m.take size ++ (m.drop size ++ n) := by
        rw [← List.append_assoc, List.take_append_drop]
      rw [hm', leftover_block hsize hb, ih]
  | case2 m hm => rfl

end

/-! ## Streams

The state of a program that is fed pieces of any size.  A piece either stays
below a block (`keep`) or is cut so that it fills one exactly (`fill`); no
other step is needed. -/

/-- What a program that has been given `m` holds: the state after the whole
blocks, and the leftover. -/
structure Streams (size : Nat) (compress : σ → List α → σ) (init : σ) (m : List α) (h : σ)
    (rest : List α) : Prop where
  state : h = absorb size compress init m
  rest : rest = leftover size m

namespace Streams

variable {compress} {init h : σ} {m rest : List α}

theorem nil (hsize : 0 < size) : Streams size compress init [] init [] where
  state := (absorb_short (m := []) compress init hsize).symm
  rest := (leftover_short (m := []) hsize).symm

/-- Too little to fill a block. -/
theorem keep (hsize : 0 < size) (hs : Streams size compress init m h rest) {n : List α}
    (hn : (rest ++ n).length < size) : Streams size compress init (m ++ n) h (rest ++ n) where
  state := by rw [absorb_append compress hsize, ← hs.state, ← hs.rest, absorb_short compress h hn]
  rest := by rw [leftover_append hsize, ← hs.rest, leftover_short hn]

/-- Exactly enough to fill one. -/
theorem fill (hsize : 0 < size) (hs : Streams size compress init m h rest) {n : List α}
    (hn : (rest ++ n).length = size) :
    Streams size compress init (m ++ n) (compress h (rest ++ n)) [] where
  state := by
    have hblock := absorb_block compress hsize hn h []
    rw [List.append_nil, absorb_short (m := []) compress _ hsize] at hblock
    rw [absorb_append compress hsize, ← hs.state, ← hs.rest, hblock]
  rest := by
    have hblock := leftover_block hsize hn []
    rw [List.append_nil, leftover_short (m := []) hsize] at hblock
    rw [leftover_append hsize, ← hs.rest, hblock]

/-- Nothing left: the state has absorbed everything. -/
theorem absorbed (hs : Streams size compress init m h []) : absorb size compress init m = h :=
  hs.state.symm

end Streams

/-! ## Padding

The length at the end fixes how long the message was, so where the filling
starts need not be readable from the padding itself. -/

/-- A marker, a filling and a length at the end: two padded messages are equal
only when the messages are. -/
theorem padded_injective (len : List α → List α) {fill fill' : List α} {mark : α}
    {m m' : List α} (hlen : (len m).length = (len m').length)
    (hinj : len m = len m' → m.length = m'.length)
    (h : m ++ mark :: fill ++ len m = m' ++ mark :: fill' ++ len m') : m = m' := by
  obtain ⟨hfront, hback⟩ := List.append_inj' h hlen
  exact (List.append_inj hfront (hinj hback)).1

/-! ## Collisions

The states and blocks that go into the compression function make up the run of a
message.  Two runs that end in one value are compared from their ends: as long as
they agree so do the states before them, and the first pair that does not agree has
one value.
-/

/-- The inputs of the compression function, the last first. -/
def inputs (size : Nat) (compress : σ → List α → σ) (h : σ) (m : List α) : List (σ × List α) :=
  if _hm : 0 < size ∧ size ≤ m.length then
    inputs size compress (compress h (m.take size)) (m.drop size) ++ [(h, m.take size)]
  else []
termination_by m.length
decreasing_by
  rw [List.length_drop]
  omega

/-- The first pair that differs. -/
def difference {β : Type} [DecidableEq β] : List β → List β → Option (β × β)
  | p :: t, q :: t' => if p = q then difference t t' else some (p, q)
  | _, _ => none

/-- Two inputs of the compression function with one value. -/
structure IsCollision (size : Nat) (compress : σ → List α → σ) (p q : σ × List α) : Prop where
  ne : p ≠ q
  length_left : p.2.length = size
  length_right : q.2.length = size
  eq : compress p.1 p.2 = compress q.1 q.2

/-- Each input but the first takes its state from the one before it; the last gives
`v`. -/
def Runs (compress : σ → List α → σ) (h : σ) : σ → List (σ × List α) → Prop
  | v, [] => v = h
  | v, (s, b) :: t => compress s b = v ∧ Runs compress h s t

theorem Runs.append {compress : σ → List α → σ} {h : σ} {b : List α} :
    ∀ {v : σ} {t : List (σ × List α)}, Runs compress (compress h b) v t →
      Runs compress h v (t ++ [(h, b)])
  | _, [], hrun => ⟨hrun.symm, rfl⟩
  | _, _ :: _, ⟨hv, hrun⟩ => ⟨hv, hrun.append⟩

theorem inputs_runs (h : σ) (m : List α) :
    Runs compress h (absorb size compress h m) (inputs size compress h m) := by
  fun_induction absorb size compress h m with
  | case1 h m hm ih =>
      rw [inputs, dif_pos hm]
      exact ih.append
  | case2 h m hm =>
      rw [inputs, dif_neg hm]
      rfl

/-- The blocks spell the message. -/
theorem flatten_inputs (h : σ) (m : List α) :
    ((inputs size compress h m).map Prod.snd).reverse.flatten ++ leftover size m = m := by
  fun_induction inputs size compress h m with
  | case1 h m hm ih =>
      have hleft : leftover size m = leftover size (m.drop size) := by
        conv_lhs => rw [leftover, dif_pos hm]
      rw [List.map_append, List.reverse_append, List.map_singleton, List.reverse_singleton,
        List.flatten_append, List.flatten_singleton, List.append_assoc, hleft, ih,
        List.take_append_drop]
  | case2 h m hm => rw [leftover, dif_neg hm]; rfl

theorem length_inputs (h : σ) (m : List α) :
    (inputs size compress h m).length = m.length / size := by
  fun_induction inputs size compress h m with
  | case1 h m hm ih =>
      rw [List.length_append, ih, List.length_drop, List.length_singleton,
        ← Nat.div_eq_sub_div hm.1 hm.2]
  | case2 h m hm =>
      rcases Nat.eq_zero_or_pos size with rfl | hpos
      · rw [Nat.div_zero, List.length_nil]
      · have hlt : m.length < size := Nat.lt_of_not_le fun hle => hm ⟨hpos, hle⟩
        rw [Nat.div_eq_of_lt hlt, List.length_nil]

theorem length_of_mem_inputs (h : σ) (m : List α) :
    ∀ p ∈ inputs size compress h m, p.2.length = size := by
  fun_induction inputs size compress h m with
  | case1 h m hm ih =>
      intro p hp
      rcases List.mem_append.mp hp with hp | hp
      · exact ih p hp
      · rw [List.mem_singleton.mp hp]
        exact List.length_take_of_le hm.2
  | case2 h m hm => exact fun _ hp => nomatch hp

/-- The last block is absorbed last. -/
theorem inputs_last (hsize : 0 < size) (h : σ) (n : Nat) {a b : List α}
    (ha : a.length = n * size) (hb : b.length = size) :
    (inputs size compress h (a ++ b)).head?.map Prod.snd = some b := by
  induction n generalizing h a with
  | zero =>
      rw [Nat.zero_mul] at ha
      obtain rfl : a = [] := List.eq_nil_of_length_eq_zero ha
      have hnil : inputs size compress (compress h b) [] = [] := by
        rw [inputs, dif_neg fun hm => Nat.not_le_of_lt hsize hm.2]
      rw [List.nil_append, inputs, dif_pos ⟨hsize, hb.ge⟩, List.take_of_length_le hb.le,
        List.drop_of_length_le hb.le, hnil]
      rfl
  | succ n ih =>
      rw [Nat.succ_mul] at ha
      have hle : size ≤ (a ++ b).length := by
        rw [List.length_append]
        omega
      have hdrop : (a ++ b).drop size = a.drop size ++ b := List.drop_append_of_le_length (by omega)
      have hih := ih (compress h ((a ++ b).take size)) (a := a.drop size)
        (by rw [List.length_drop]; omega)
      rw [inputs, dif_pos ⟨hsize, hle⟩, hdrop, List.head?_append]
      rw [Option.map_eq_some_iff] at hih ⊢
      obtain ⟨p, hp, hpb⟩ := hih
      exact ⟨p, by rw [hp]; rfl, hpb⟩

theorem inputs_head (hsize : 0 < size) (h : σ) {l : List α} (hmod : l.length % size = 0)
    (hpos : 0 < l.length) :
    (inputs size compress h l).head?.map Prod.snd = some (l.drop (l.length - size)) := by
  have hdvd : size ∣ l.length := Nat.dvd_of_mod_eq_zero hmod
  have hle : size ≤ l.length := Nat.le_of_dvd hpos hdvd
  have hfront : (l.take (l.length - size)).length = (l.length / size - 1) * size := by
    rw [List.length_take_of_le (Nat.sub_le _ _), Nat.sub_mul, Nat.div_mul_cancel hdvd,
      Nat.one_mul]
  have hback : (l.drop (l.length - size)).length = size := by
    rw [List.length_drop]
    omega
  have hlast := inputs_last compress hsize h _ hfront hback
  rwa [List.take_append_drop] at hlast

theorem flatten_inputs_of_mod (hsize : 0 < size) (h : σ) {l : List α}
    (hmod : l.length % size = 0) :
    ((inputs size compress h l).map Prod.snd).reverse.flatten = l := by
  have hnil : leftover size l = [] :=
    List.eq_nil_of_length_eq_zero ((length_leftover hsize l).trans hmod)
  have hflatten : ((inputs size compress h l).map Prod.snd).reverse.flatten
      ++ leftover size l = l := flatten_inputs compress h l
  rwa [hnil, List.append_nil] at hflatten

section
variable {compress} [DecidableEq σ] [DecidableEq α]

/-- Where two runs of one value differ is a collision. -/
theorem Runs.difference_eq {h h' : σ} : ∀ {t t' : List (σ × List α)} {v : σ},
    Runs compress h v t → Runs compress h' v t' → ∀ {p q}, difference t t' = some (p, q) →
      (p ∈ t ∧ q ∈ t') ∧ p ≠ q ∧ compress p.1 p.2 = compress q.1 q.2
  | [], _, _, _, _, _, _, hdiff => nomatch hdiff
  | _ :: _, [], _, _, _, _, _, hdiff => nomatch hdiff
  | p :: t, q :: t', v, ⟨hv, hrun⟩, ⟨hv', hrun'⟩, r, r', hdiff => by
      rw [difference] at hdiff
      split at hdiff
      case isTrue hpq =>
          -- equal inputs: the runs before them are those of one value again
          obtain ⟨⟨hr, hr'⟩, hne⟩ := hrun.difference_eq (hpq ▸ hrun') hdiff
          exact ⟨⟨List.mem_cons_of_mem _ hr, List.mem_cons_of_mem _ hr'⟩, hne⟩
      case isFalse hpq =>
          obtain ⟨rfl, rfl⟩ := Prod.mk.inj (Option.some.inj hdiff)
          exact ⟨⟨List.mem_cons_self .., List.mem_cons_self ..⟩, hpq, hv.trans hv'.symm⟩

/-- Lists without a difference: one begins with the other. -/
theorem prefix_of_difference {β : Type} [DecidableEq β] : ∀ {t t' : List β},
    difference t t' = none → t <+: t' ∨ t' <+: t
  | [], _, _ => .inl (List.nil_prefix ..)
  | _ :: _, [], _ => .inr (List.nil_prefix ..)
  | p :: t, q :: t', h => by
      rw [difference] at h
      split at h
      case isTrue hpq =>
          obtain rfl := hpq
          exact (prefix_of_difference h).imp (List.prefix_cons_inj p).mpr
            (List.prefix_cons_inj p).mpr
      case isFalse => cases h

/-- A list and one it begins are of one head. -/
theorem head_eq_of_isPrefix {β γ : Type} {f : β → γ} {t t' : List β} {b b' : γ} (h : t <+: t')
    (hb : t.head?.map f = some b) (hb' : t'.head?.map f = some b') : b = b' := by
  obtain ⟨rest, rfl⟩ := h
  cases t with
  | nil => cases hb
  | cons p t => exact (Option.some.inj hb).symm.trans (Option.some.inj hb')

/-- Messages of whole blocks whose runs nowhere differ are equal, where the last
block shows how long the message is. -/
theorem eq_of_difference_none (hsize : 0 < size) {init : σ} {l l' : List α}
    (hmod : l.length % size = 0) (hmod' : l'.length % size = 0)
    (hpos : 0 < l.length) (hpos' : 0 < l'.length)
    (hlast : l.drop (l.length - size) = l'.drop (l'.length - size) → l.length = l'.length)
    (hdiff : difference (inputs size compress init l) (inputs size compress init l') = none) :
    l = l' := by
  have hhead := inputs_head compress hsize init hmod hpos
  have hhead' := inputs_head compress hsize init hmod' hpos'
  have hblocks : l.drop (l.length - size) = l'.drop (l'.length - size) := by
    rcases prefix_of_difference hdiff with hpre | hpre
    · exact head_eq_of_isPrefix hpre hhead hhead'
    · exact (head_eq_of_isPrefix hpre hhead' hhead).symm
  -- the last blocks are the same, so the runs are of one length
  have hlength : (inputs size compress init l).length = (inputs size compress init l').length := by
    rw [length_inputs, length_inputs, hlast hblocks]
  have hinputs : inputs size compress init l = inputs size compress init l' := by
    rcases prefix_of_difference hdiff with hpre | hpre
    · exact hpre.eq_of_length hlength
    · exact (hpre.eq_of_length hlength.symm).symm
  calc
    l = ((inputs size compress init l).map Prod.snd).reverse.flatten :=
        (flatten_inputs_of_mod compress hsize init hmod).symm
    _ = ((inputs size compress init l').map Prod.snd).reverse.flatten := by rw [hinputs]
    _ = l' := flatten_inputs_of_mod compress hsize init hmod'

/-- A padding that is unambiguous and shows in the last block how long the message
was: messages with one hash are equal, or the difference of their runs is a
collision. -/
theorem collision_of_padded (hsize : 0 < size) {pad : List α → List α} {init : σ}
    {m m' : List α} (hpad : (pad m).length % size = 0) (hpad' : (pad m').length % size = 0)
    (hpos : 0 < (pad m).length) (hpos' : 0 < (pad m').length)
    (hlast : (pad m).drop ((pad m).length - size) = (pad m').drop ((pad m').length - size) →
      (pad m).length = (pad m').length)
    (hinj : pad m = pad m' → m = m')
    (heq : absorb size compress init (pad m) = absorb size compress init (pad m')) :
    m = m' ∨ ∃ p q, difference (inputs size compress init (pad m))
      (inputs size compress init (pad m')) = some (p, q) ∧ IsCollision size compress p q := by
  cases hdiff : difference (inputs size compress init (pad m))
      (inputs size compress init (pad m')) with
  | none => exact .inl (hinj (eq_of_difference_none hsize hpad hpad' hpos hpos' hlast hdiff))
  | some r =>
      obtain ⟨p, q⟩ := r
      have hruns : Runs compress init (absorb size compress init (pad m))
          (inputs size compress init (pad m)) := inputs_runs compress init (pad m)
      have hruns' : Runs compress init (absorb size compress init (pad m))
          (inputs size compress init (pad m')) := heq ▸ inputs_runs compress init (pad m')
      obtain ⟨⟨hp, hq⟩, hne, hvalue⟩ := hruns.difference_eq hruns' hdiff
      exact .inr ⟨p, q, rfl, hne, length_of_mem_inputs compress init _ p hp,
        length_of_mem_inputs compress init _ q hq, hvalue⟩

end

end BlockHash

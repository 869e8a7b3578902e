/-
# `Server.View` — what one server sees of `CPRS`

The messages a server receives at an index are its peer's halves of `D` and
`E`, the peer's `Zl` and the product (`messages`); `sees_iff` says these, index
after index, are the transcript of every interleaving.

The question is which other vectors of secrets the transcript leaves possible.
The peer's `E` is the mask minus its `b`, and both servers hold the mask, so
`b` is known; the peer's `a` is used again at every index, so the differences
of the secrets are known; and the product is opened, so what is left is one
shift of the whole vector by a `δ` that the doubled mask kills
(`cprs_hides_iff`).
-/
import Mathlib.Tactic.LinearCombination
import PSVFSS.Lib.Transcript
import PSVFSS.Server.Masking

namespace PSVFSS

open TwoParty

/-! ## The transcript

The program is observed by collecting what it receives; the derivation of
`Server.Cprs` is repeated with the collected messages in its result. -/

/-- What a server that holds `v`, `ran` and `t` sends at index `i` to a peer
that holds `v'`, `ran'` and `t'`. -/
def messages (v v' : Nat → Block) (ran ran' : Block) (t t' : Triple) (i : Nat) :
    List (Tag × Block) :=
  let D := v i - t.a
  let E := ran - t.b
  let Zl := (D + (v' i - t'.a)) * t.b + t.a * (E + (ran' - t'.b)) + t.cl
  [((i, .D), D), ((i, .E), E), ((i, .Zl), Zl), ((i, .xr), product (v i) (v' i) ran ran' t t')]

theorem product_comm (xA xB yA yB : Block) (tA tB : Triple) :
    product xA xB yA yB tA tB = product xB xA yB yA tB tA := by
  simp only [product]
  ring

theorem paired_observing_exchange {τ μ : Type} (t : τ) (m m' : μ) (l l' : List (τ × μ)) :
    Paired 2 ((exchange .alice t m).observing l) ((exchange .bob t m').observing l')
      (m', l ++ [(t, m')]) (m, l' ++ [(t, m)]) :=
  .leftToRight (.rightToLeft (.ret _ _))

section
variable (vA vB : Nat → Block) (ranA ranB : Block) (tA tB : Triple)

theorem paired_observing_mult (i : Nat) (l l' : List (Tag × Block)) :
    Paired 6 ((mult .alice i (vA i) ranA tA).observing l)
      ((mult .bob i (vB i) ranB tB).observing l')
      (product (vA i) (vB i) ranA ranB tA tB,
        l ++ (messages vB vA ranB ranA tB tA i).take 3)
      (product (vA i) (vB i) ranA ranB tA tB,
        l' ++ (messages vA vB ranA ranB tA tB i).take 3) := by
  have h : Paired 6 ((mult .alice i (vA i) ranA tA).observing l)
      ((mult .bob i (vB i) ranB tB).observing l') _ _ :=
    .leftToRight <| .leftToRight <| .rightToLeft <| .rightToLeft <|
      .leftToRight <| .rightToLeft <| .ret _ _
  -- BOB adds the halves of `D` and `E`, and the two `Zl`, in the other order
  have hD : vB i - tB.a + (vA i - tA.a) = vA i - tA.a + (vB i - tB.a) := add_comm _ _
  have hE : ranB - tB.b + (ranA - tA.b) = ranA - tA.b + (ranB - tB.b) := add_comm _ _
  simp only [hD, hE, List.append_assoc, List.cons_append, List.nil_append] at h
  rw [add_right_comm _ (_ + tB.cl)] at h
  simpa only [messages, product, hD, hE, List.take_succ_cons, List.take_zero] using h

/-- A pass of both observed loops. -/
def recordObserved (s : (CprsState × List (Tag × Block)) × (CprsState × List (Tag × Block)))
    (i : Nat) : (CprsState × List (Tag × Block)) × (CprsState × List (Tag × Block)) :=
  let xr := product (vA i) (vB i) ranA ranB tA tB
  ((s.1.1.record vA i xr xr, s.1.2 ++ messages vB vA ranB ranA tB tA i),
    (s.2.1.record vB i xr xr, s.2.2 ++ messages vA vB ranA ranB tA tB i))

theorem paired_observing_cprsPass
    (s : (CprsState × List (Tag × Block)) × (CprsState × List (Tag × Block))) (i : Nat) :
    Paired 8 ((cprsPass .alice vA ranA tA s.1.1 i).observing s.1.2)
      ((cprsPass .bob vB ranB tB s.2.1 i).observing s.2.2)
      (recordObserved vA vB ranA ranB tA tB s i).1
      (recordObserved vA vB ranA ranB tA tB s i).2 := by
  have hcomm := product_comm (vB i) (vA i) ranB ranA tB tA
  simp only [cprsPass, Proc.observing_bind]
  refine (paired_observing_mult vA vB ranA ranB tA tB i s.1.2 s.2.2).bind (m := 2) ?_
  refine (paired_observing_exchange (i, Quantity.xr) _ _ _ _).bind (m := 0) ?_
  simp only [recordObserved, messages, hcomm, List.append_assoc, List.take_succ_cons,
    List.take_zero, List.cons_append, List.nil_append]
  exact .ret _ _

theorem foldl_recordObserved (N : Nat) :
    (List.range N).foldl (recordObserved vA vB ranA ranB tA tB)
        ((⟨[], [], [], []⟩, []), (⟨[], [], [], []⟩, []))
      = ((cprsResult vA vB ranA ranB tA tB vA N,
            (List.range N).flatMap (messages vB vA ranB ranA tB tA)),
          (cprsResult vA vB ranA ranB tA tB vB N,
            (List.range N).flatMap (messages vA vB ranA ranB tA tB))) := by
  induction N with
  | zero => rfl
  | succ N ih =>
      rw [List.range_succ, List.foldl_append, ih, cprsResult_succ, cprsResult_succ,
        List.flatMap_append, List.flatMap_append, List.flatMap_singleton, List.flatMap_singleton]
      rfl

/-- Both loops with their transcripts. -/
theorem paired_observed_cprs (N : Nat) :
    Paired (8 * N) (cprs .alice N vA ranA tA).observed (cprs .bob N vB ranB tB).observed
      (cprsResult vA vB ranA ranB tA tB vA N,
        (List.range N).flatMap (messages vB vA ranB ranA tB tA))
      (cprsResult vA vB ranA ranB tA tB vB N,
        (List.range N).flatMap (messages vA vB ranA ranB tA tB)) := by
  have hloop := Paired.foldlM
    (f := fun s i => (cprsPass .alice vA ranA tA s.1 i).observing s.2)
    (g := fun s i => (cprsPass .bob vB ranB tB s.1 i).observing s.2)
    (J := recordObserved vA vB ranA ranB tA tB)
    (paired_observing_cprsPass vA vB ranA ranB tA tB) (List.range N)
    ((⟨[], [], [], []⟩, []), (⟨[], [], [], []⟩, []))
  rw [List.length_range, foldl_recordObserved] at hloop
  rw [Proc.observed, Proc.observed, cprs, cprs, Proc.observing_foldlM, Proc.observing_foldlM]
  exact hloop

end

/-- The run of `CPRS` in which the server `party` holds `v` and `t`, its peer `v'` and `t'`,
both the mask `ran`: in every interleaving the server receives the messages `l`. -/
def Sees (party : Party) (N : Nat) (v v' : Nat → Block) (ran : Block) (t t' : Triple)
    (l : List (Tag × Block)) : Prop :=
  match party with
  | .alice => ∃ r r', Completes (cprs .alice N v ran t).observed (cprs .bob N v' ran t').observed
      (r, l) r'
  | .bob => ∃ r r', Completes (cprs .alice N v' ran t').observed (cprs .bob N v ran t).observed
      r' (r, l)

theorem sees_iff {party : Party} {N : Nat} {v v' : Nat → Block} {ran : Block} {t t' : Triple}
    {l : List (Tag × Block)} :
    Sees party N v v' ran t t' l ↔ l = (List.range N).flatMap (messages v' v ran ran t' t) := by
  cases party with
  | alice =>
      have hrun := (paired_observed_cprs v v' ran ran t t' N).completes
      constructor
      · rintro ⟨r, r', h⟩
        exact congrArg Prod.snd (h.unique hrun).1
      · rintro rfl
        exact ⟨_, _, hrun⟩
  | bob =>
      have hrun := (paired_observed_cprs v' v ran ran t' t N).completes
      constructor
      · rintro ⟨r, r', h⟩
        exact congrArg Prod.snd (h.unique hrun).2
      · rintro rfl
        exact ⟨_, _, hrun⟩

/-! ## What the transcript leaves open

From equal transcripts one index at a time to one shift for all of them.  The
other direction builds the peer that would have sent the same. -/

/-- Transcripts of as many messages a pass are equal when they are pass by pass. -/
theorem flatMap_range_eq_iff {α : Type} {f g : Nat → List α} (h : ∀ i, (f i).length = (g i).length)
    (N : Nat) : (List.range N).flatMap f = (List.range N).flatMap g ↔ ∀ i < N, f i = g i := by
  induction N with
  | zero => simp
  | succ N ih =>
      rw [List.range_succ, List.flatMap_append, List.flatMap_append, List.flatMap_singleton,
        List.flatMap_singleton, Nat.forall_lt_succ_right, ← ih]
      exact ⟨fun h' => List.append_inj' h' (h N), fun h' => congrArg₂ (· ++ ·) h'.1 h'.2⟩

/-- A peer with `w` and `u` sends what a peer with `v'` and `t'` sends. -/
theorem messages_eq_iff {v v' w : Nat → Block} {ran : Block} {t t' u : Triple} {i : Nat} :
    messages w v ran ran u t i = messages v' v ran ran t' t i ↔
      w i - u.a = v' i - t'.a ∧ u.b = t'.b ∧
        u.a * (ran - t'.b + (ran - t.b)) + u.cl = t'.a * (ran - t'.b + (ran - t.b)) + t'.cl := by
  simp only [messages, List.cons.injEq, Prod.mk.injEq, true_and, and_true, sub_right_inj]
  constructor
  · rintro ⟨hD, hb, hZl, _⟩
    rw [hD, hb, add_assoc, add_assoc] at hZl
    exact ⟨hD, hb, add_left_cancel hZl⟩
  · rintro ⟨hD, hb, hZl⟩
    have hZl : (w i - u.a + (v i - t.a)) * u.b + u.a * (ran - u.b + (ran - t.b)) + u.cl
        = (v' i - t'.a + (v i - t.a)) * t'.b + t'.a * (ran - t'.b + (ran - t.b)) + t'.cl := by
      rw [hD, hb, add_assoc, hZl, add_assoc]
    -- the opened product is a function of the three
    refine ⟨hD, hb, hZl, ?_⟩
    rw [product, product, hZl, hD, hb]

section
variable {party : Party} {N : Nat} {X X' : Nat → Nat} {v v' : Nat → Block} {ran : Block}
  {t t' : Triple}

/-- Another peer's run shows the same transcript when it does at every index. -/
theorem sees_congr_iff {w : Nat → Block} {u : Triple} {l : List (Tag × Block)}
    (hl : Sees party N v v' ran t t' l) :
    Sees party N v w ran t u l ↔
      ∀ i < N, messages w v ran ran u t i = messages v' v ran ran t' t i := by
  have hlen : ∀ i, (messages w v ran ran u t i).length = (messages v' v ran ran t' t i).length :=
    fun _ => rfl
  rw [sees_iff, sees_iff.mp hl, eq_comm]
  exact flatMap_range_eq_iff hlen N

/-- The transcript and the validity of both triples leave one shift. -/
theorem shift_of_sees {w : Nat → Block} {u : Triple} {l : List (Tag × Block)}
    (hX : ∀ i < N, (v i).1 + (v' i).1 = BitVec.ofNat 64 (X i))
    (hX' : ∀ i < N, (v i).1 + (w i).1 = BitVec.ofNat 64 (X' i))
    (ht : LowValidTriple t t') (hu : LowValidTriple t u)
    (hl : Sees party N v v' ran t t' l) (hl' : Sees party N v w ran t u l) :
    ∃ δ : Uint64, (∀ i < N, BitVec.ofNat 64 (X' i) = BitVec.ofNat 64 (X i) + δ) ∧
      δ * (ran.1 + ran.1) = 0 := by
  have hmsg := (sees_congr_iff hl).mp hl'
  cases N with
  | zero => exact ⟨0, fun i hi => absurd hi (Nat.not_lt_zero i), zero_mul _⟩
  | succ N =>
      obtain ⟨-, hb, hcl⟩ := messages_eq_iff.mp (hmsg 0 (Nat.succ_pos N))
      refine ⟨u.a.1 - t'.a.1, fun i hi => ?_, ?_⟩
      · have hD := congrArg Prod.fst (messages_eq_iff.mp (hmsg i hi)).1
        simp only [Prod.fst_sub] at hD
        rw [← hX i hi, ← hX' i hi]
        linear_combination hD
      · have hcl := congrArg Prod.fst hcl
        simp only [Prod.fst_add, Prod.fst_mul, Prod.fst_sub] at hcl
        simp only [LowValidTriple, hb] at hu ht
        linear_combination hcl - hu + ht

/-- A shift the doubled mask kills: the peer moves `v'` and `a` by it and takes
`δ` times its `E` from `c`. -/
theorem sees_of_shift {l : List (Tag × Block)} {δ : Uint64}
    (hX : ∀ i < N, (v i).1 + (v' i).1 = BitVec.ofNat 64 (X i)) (ht : LowValidTriple t t')
    (hl : Sees party N v v' ran t t' l)
    (hδ : ∀ i < N, BitVec.ofNat 64 (X' i) = BitVec.ofNat 64 (X i) + δ)
    (hran : δ * (ran.1 + ran.1) = 0) :
    ∃ w u, (∀ i < N, (v i).1 + (w i).1 = BitVec.ofNat 64 (X' i)) ∧ LowValidTriple t u ∧
      (ValidTriple t t' → ValidTriple t u) ∧ Sees party N v w ran t u l := by
  have hE : ((δ, 0) : Block) * (ran - t'.b + (ran - t.b)) + (δ, 0) * (t.b + t'.b) = 0 := by
    have hsum : ((δ, 0) : Block) * (ran - t'.b + (ran - t.b)) + (δ, 0) * (t.b + t'.b)
        = (δ, 0) * (ran + ran) := by ring
    exact hsum.trans (Prod.ext hran (zero_mul _))
  refine ⟨fun i => v' i + (δ, 0), ⟨t'.a + (δ, 0), t'.b,
    t'.cl - (δ, 0) * (ran - t'.b + (ran - t.b))⟩, fun i hi => ?_, ?_, fun hvalid => ?_, ?_⟩
  · rw [hδ i hi, ← hX i hi, Prod.fst_add, add_assoc]
  · have hE := congrArg Prod.fst hE
    simp only [LowValidTriple, Prod.fst_add, Prod.fst_mul, Prod.fst_sub, Prod.fst_zero] at ht hE ⊢
    linear_combination ht - hE
  · simp only [ValidTriple] at hvalid ⊢
    linear_combination hvalid - hE
  · refine (sees_congr_iff hl).mpr fun i _ => messages_eq_iff.mpr ⟨?_, rfl, ?_⟩
    · exact add_sub_add_right_eq_sub _ _ _
    · ring

end

/-- The transcript of a server fits shares of `X'` exactly when `X'` is `X`
shifted by one `δ` with `δ * 2 ran = 0`, be the triples valid in the low lane
or in both. -/
theorem cprs_hides_iff (party : Party) (N : Nat) (X X' : Nat → Nat) (v v' : Nat → Block)
    (ran : Block) (t t' : Triple) (l : List (Tag × Block))
    (hX : ∀ i < N, (v i).1 + (v' i).1 = BitVec.ofNat 64 (X i)) (ht : LowValidTriple t t')
    (hl : Sees party N v v' ran t t' l) :
    ((∃ w u, (∀ i < N, (v i).1 + (w i).1 = BitVec.ofNat 64 (X' i)) ∧ LowValidTriple t u ∧
        Sees party N v w ran t u l) ↔
      ∃ δ : Uint64, (∀ i < N, BitVec.ofNat 64 (X' i) = BitVec.ofNat 64 (X i) + δ) ∧
        δ * (ran.1 + ran.1) = 0) ∧
    (ValidTriple t t' →
      ((∃ w u, (∀ i < N, (v i).1 + (w i).1 = BitVec.ofNat 64 (X' i)) ∧ ValidTriple t u ∧
          Sees party N v w ran t u l) ↔
        ∃ δ : Uint64, (∀ i < N, BitVec.ofNat 64 (X' i) = BitVec.ofNat 64 (X i) + δ) ∧
          δ * (ran.1 + ran.1) = 0)) := by
  refine ⟨⟨?_, ?_⟩, fun hvalid => ⟨?_, ?_⟩⟩
  · rintro ⟨w, u, hX', hu, hl'⟩
    exact shift_of_sees hX hX' ht hu hl hl'
  · rintro ⟨δ, hδ, hran⟩
    obtain ⟨w, u, hX', hu, -, hl'⟩ := sees_of_shift hX ht hl hδ hran
    exact ⟨w, u, hX', hu, hl'⟩
  · rintro ⟨w, u, hX', hu, hl'⟩
    exact shift_of_sees hX hX' ht hu.low hl hl'
  · rintro ⟨δ, hδ, hran⟩
    obtain ⟨w, u, hX', -, hu, hl'⟩ := sees_of_shift hX ht hl hδ hran
    exact ⟨w, u, hX', hu hvalid, hl'⟩

/-- Under the mask `2 ^ 63` the entry 5 could as well be 6. -/
theorem cprs_hides_iff_sample :
    ∃ w u, (∀ i < 1, (2 : Uint64) + (w i).1 = 6) ∧ LowValidTriple ⟨0, 0, 0⟩ u ∧
      Sees .alice 1 (fun _ => (2, 0)) w (0x8000000000000000, 0) ⟨0, 0, 0⟩ u
        [((0, .D), (3, 0)), ((0, .E), (0x8000000000000000, 0)), ((0, .Zl), 0), ((0, .xr), 0)] :=
  (cprs_hides_iff .alice 1 (fun _ => 5) (fun _ => 6) (fun _ => (2, 0)) (fun _ => (3, 0))
    (0x8000000000000000, 0) ⟨0, 0, 0⟩ ⟨0, 0, 0⟩ _ (by decide) (by decide)
    (sees_iff.mpr (by decide))).1.mpr ⟨1, by decide, by decide⟩

/-- Under the mask 1 the entry 1 could not be 2, though neither is zero. -/
theorem cprs_not_hides :
    Sees .alice 1 (fun _ => (1, 0)) (fun _ => (0, 0)) (1, 0) ⟨0, 0, 0⟩ ⟨0, 0, 0⟩
        [((0, .D), 0), ((0, .E), (1, 0)), ((0, .Zl), 0), ((0, .xr), (2, 0))] ∧
      ¬ ∃ w u, (∀ i < 1, (1 : Uint64) + (w i).1 = 2) ∧ LowValidTriple ⟨0, 0, 0⟩ u ∧
        Sees .alice 1 (fun _ => (1, 0)) w (1, 0) ⟨0, 0, 0⟩ u
          [((0, .D), 0), ((0, .E), (1, 0)), ((0, .Zl), 0), ((0, .xr), (2, 0))] := by
  have hsees : Sees .alice 1 (fun _ => (1, 0)) (fun _ => (0, 0)) (1, 0) ⟨0, 0, 0⟩ ⟨0, 0, 0⟩
      [((0, .D), 0), ((0, .E), (1, 0)), ((0, .Zl), 0), ((0, .xr), (2, 0))] :=
    sees_iff.mpr (by decide)
  refine ⟨hsees, ?_⟩
  rintro ⟨w, u, hX', hu, hl'⟩
  have hX : ∀ i < 1, (1 : Uint64) + 0 = BitVec.ofNat 64 ((fun _ => 1) i) := by decide
  have hX' : ∀ i < 1, (1 : Uint64) + (w i).1 = BitVec.ofNat 64 ((fun _ => 2) i) := hX'
  obtain ⟨δ, hδ, hran⟩ := shift_of_sees hX hX' (by decide) hu hsees hl'
  have h1 : δ = 1 := (add_left_cancel (hδ 0 (by decide)).symm : δ = 1)
  subst h1
  exact absurd hran (by decide)

end PSVFSS

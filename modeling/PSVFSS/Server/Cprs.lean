/-
# `Server.Cprs` — the opening protocol of the two servers

For every index the servers multiply their shares of the value by their
shares of a mask (`mult`, over one multiplication triple), open the product,
and keep the index and the share where the opened low lane is not zero.

ALICE always sends first and BOB always receives first.  Followed side by
side the two texts pair up message for message (`paired_cprs`), so every
interleaving is matched and both servers finish with what the derivation
names.  The opened value is the same at both whatever the triple is: each
adds the same two blocks.

The loop counts with an `int` up to the `uint64_t` number of indices; the counter
has no width here, so the vectors of more than 2^31 - 1 entries, where the `int`
overflows and the C++ is undefined, are not told apart.
-/
import Mathlib.Algebra.Ring.Prod
import Mathlib.Data.BitVec
import Mathlib.Tactic.Ring
import PSVFSS.Lib.TwoParty
import PSVFSS.Server.Response

namespace PSVFSS

open TwoParty

/-! ## Data

What crosses the wire for one index is named by `Quantity`; a tag adds the
index, so that a message for another index would not fit. -/

/-- A 128-bit block of two 64-bit lanes, the low one first; arithmetic is lane
by lane. -/
abbrev Block := Uint64 × Uint64

inductive Party where
  | alice
  | bob
  deriving DecidableEq

/-- One server's share of a multiplication triple. -/
structure Triple where
  a : Block
  b : Block
  cl : Block
  deriving DecidableEq

/-- The quantities the servers exchange for one index. -/
inductive Quantity where
  | D
  | E
  | Zl
  | xr
  deriving DecidableEq

abbrev Tag := Nat × Quantity

/-! ## `Mult`

ALICE sends before she receives, BOB the other way round.  `mult` is split
where `D` and `E` are known to both, since what follows is arithmetic. -/

/-- One block each way. -/
def exchange {τ μ : Type} (party : Party) (t : τ) (m : μ) : Proc τ μ μ :=
  match party with
  | .alice => do
      sendMsg t m
      recvMsg t
  | .bob => do
      let other ← recvMsg t
      sendMsg t m
      return other

/-- `D` and `E` each way. -/
def exchangeMasked (party : Party) (i : Nat) (D E : Block) : Proc Tag Block (Block × Block) :=
  match party with
  | .alice => do
      sendMsg (i, .D) D
      sendMsg (i, .E) E
      let Di ← recvMsg (i, .D)
      let Ei ← recvMsg (i, .E)
      return (Di, Ei)
  | .bob => do
      let Di ← recvMsg (i, .D)
      let Ei ← recvMsg (i, .E)
      sendMsg (i, .D) D
      sendMsg (i, .E) E
      return (Di, Ei)

/-- `Mult` from the opened `D` and `E` on. -/
def multOpened (party : Party) (i : Nat) (D E : Block) (t : Triple) : Proc Tag Block Block := do
  let Zl := D * t.b + t.a * E + t.cl
  let Zli ← exchange party (i, .Zl) Zl
  return D * E + Zl + Zli

def mult (party : Party) (i : Nat) (x y : Block) (t : Triple) : Proc Tag Block Block := do
  let D := x - t.a
  let E := y - t.b
  let other ← exchangeMasked party i D E
  multOpened party i (D + other.1) (E + other.2) t

/-! ## `CPRS`

One pass multiplies, opens the product and records.  The vectors grow with
every pass, those of the reported entries only when the opened lane is not
zero. -/

/-- The vectors of `CPRS`.  `opened` keeps the local of that name from every
pass. -/
structure CprsState where
  xr : List Block
  opened : List Block
  nonzeroIndices : List Nat
  compressedShares : List Uint64
  deriving DecidableEq

/-- What a pass records, from the two products it ends with. -/
def CprsState.record (v : Nat → Block) (s : CprsState) (i : Nat) (xr xrOther : Block) :
    CprsState :=
  let opened := xr + xrOther
  let s := { s with xr := s.xr ++ [xr], opened := s.opened ++ [opened] }
  if opened.1 ≠ 0 then
    { s with
      nonzeroIndices := s.nonzeroIndices ++ [i]
      compressedShares := s.compressedShares ++ [(v i).1 % BitVec.ofNat 64 fieldModulus] }
  else s

def cprsPass (party : Party) (v : Nat → Block) (ran : Block) (t : Triple) (s : CprsState)
    (i : Nat) : Proc Tag Block CprsState := do
  let xr ← mult party i (v i) ran t
  let xrOther ← exchange party (i, .xr) xr
  return s.record v i xr xrOther

def cprs (party : Party) (N : Nat) (v : Nat → Block) (ran : Block) (t : Triple) :
    Proc Tag Block CprsState :=
  (List.range N).foldlM (cprsPass party v ran t) ⟨[], [], [], []⟩

/-! ## The two texts side by side

A derivation for each function, built from those of the functions it calls.
The loop rule joins the passes, and `reported` says what the fold of both
states comes to. -/

theorem paired_exchange {τ μ : Type} (t : τ) (m m' : μ) :
    Paired 2 (exchange .alice t m) (exchange .bob t m') m' m :=
  .leftToRight (.rightToLeft (.ret m' m))

theorem paired_exchangeMasked (i : Nat) (D E D' E' : Block) :
    Paired 4 (exchangeMasked .alice i D E) (exchangeMasked .bob i D' E') (D', E') (D, E) :=
  .leftToRight (.leftToRight (.rightToLeft (.rightToLeft (.ret (D', E') (D, E)))))

/-- What both servers return from `mult`. -/
def product (xA xB yA yB : Block) (tA tB : Triple) : Block :=
  let D := xA - tA.a + (xB - tB.a)
  let E := yA - tA.b + (yB - tB.b)
  D * E + (D * tA.b + tA.a * E + tA.cl) + (D * tB.b + tB.a * E + tB.cl)

theorem paired_multOpened (i : Nat) (D E : Block) (tA tB : Triple) :
    let out := D * E + (D * tA.b + tA.a * E + tA.cl) + (D * tB.b + tB.a * E + tB.cl)
    Paired 2 (multOpened .alice i D E tA) (multOpened .bob i D E tB) out out := by
  intro out
  have hout : out = D * E + (D * tB.b + tB.a * E + tB.cl) + (D * tA.b + tA.a * E + tA.cl) :=
    add_right_comm _ _ _
  simp only [multOpened]
  refine (paired_exchange (i, Quantity.Zl) _ _).bind (m := 0) ?_
  rw [← hout]
  exact .ret _ _

theorem paired_mult (i : Nat) (xA xB yA yB : Block) (tA tB : Triple) :
    Paired 6 (mult .alice i xA yA tA) (mult .bob i xB yB tB) (product xA xB yA yB tA tB)
      (product xA xB yA yB tA tB) := by
  simp only [mult]
  refine (paired_exchangeMasked i (xA - tA.a) (yA - tA.b) (xB - tB.a) (yB - tB.b)).bind (m := 2) ?_
  -- each server adds the peer's half to its own
  simp only [add_comm (xB - tB.a), add_comm (yB - tB.b)]
  exact paired_multOpened i (xA - tA.a + (xB - tB.a)) (yA - tA.b + (yB - tB.b)) tA tB

theorem paired_cprsPass (vA vB : Nat → Block) (ranA ranB : Block) (tA tB : Triple)
    (s : CprsState × CprsState) (i : Nat) :
    Paired 8 (cprsPass .alice vA ranA tA s.1 i) (cprsPass .bob vB ranB tB s.2 i)
      (s.1.record vA i (product (vA i) (vB i) ranA ranB tA tB)
        (product (vA i) (vB i) ranA ranB tA tB))
      (s.2.record vB i (product (vA i) (vB i) ranA ranB tA tB)
        (product (vA i) (vB i) ranA ranB tA tB)) := by
  simp only [cprsPass]
  refine (paired_mult i (vA i) (vB i) ranA ranB tA tB).bind (m := 2) ?_
  refine (paired_exchange (i, Quantity.xr) _ _).bind (m := 0) ?_
  exact .ret _ _

section
variable (vA vB : Nat → Block) (ranA ranB : Block) (tA tB : Triple)

/-- The block both servers open at index `i`. -/
def openedAt (i : Nat) : Block :=
  product (vA i) (vB i) ranA ranB tA tB + product (vA i) (vB i) ranA ranB tA tB

/-- The indices both servers report. -/
def reported (N : Nat) : List Nat :=
  (List.range N).filter fun i => (openedAt vA vB ranA ranB tA tB i).1 ≠ 0

/-- The vectors of a server with shares `v` after `N` indices. -/
def cprsResult (v : Nat → Block) (N : Nat) : CprsState where
  xr := (List.range N).map fun i => product (vA i) (vB i) ranA ranB tA tB
  opened := (List.range N).map (openedAt vA vB ranA ranB tA tB)
  nonzeroIndices := reported vA vB ranA ranB tA tB N
  compressedShares := (reported vA vB ranA ranB tA tB N).map fun i =>
    (v i).1 % BitVec.ofNat 64 fieldModulus

theorem reported_succ (N : Nat) :
    reported vA vB ranA ranB tA tB (N + 1)
      = if (openedAt vA vB ranA ranB tA tB N).1 ≠ 0 then reported vA vB ranA ranB tA tB N ++ [N]
        else reported vA vB ranA ranB tA tB N := by
  rw [reported, List.range_succ, List.filter_append]
  by_cases h : (openedAt vA vB ranA ranB tA tB N).1 = 0
  · rw [if_neg (not_not_intro h), List.filter_cons_of_neg (by simpa using h), List.filter_nil,
      List.append_nil]
    rfl
  · rw [if_pos h, List.filter_cons_of_pos (by simpa using h), List.filter_nil]
    rfl

/-- One more pass. -/
theorem cprsResult_succ (v : Nat → Block) (N : Nat) :
    cprsResult vA vB ranA ranB tA tB v (N + 1)
      = (cprsResult vA vB ranA ranB tA tB v N).record v N
          (product (vA N) (vB N) ranA ranB tA tB) (product (vA N) (vB N) ranA ranB tA tB) := by
  have hopened : product (vA N) (vB N) ranA ranB tA tB + product (vA N) (vB N) ranA ranB tA tB
      = openedAt vA vB ranA ranB tA tB N := rfl
  simp only [cprsResult, CprsState.record, hopened, reported_succ, List.range_succ,
    List.map_append, List.map_cons, List.map_nil]
  split
  · rw [List.map_append, List.map_cons, List.map_nil]
  · rfl

/-- A pass of both loops. -/
def recordBoth (s : CprsState × CprsState) (i : Nat) : CprsState × CprsState :=
  let xr := product (vA i) (vB i) ranA ranB tA tB
  (s.1.record vA i xr xr, s.2.record vB i xr xr)

theorem foldl_recordBoth (N : Nat) :
    (List.range N).foldl (recordBoth vA vB ranA ranB tA tB) (⟨[], [], [], []⟩, ⟨[], [], [], []⟩)
      = (cprsResult vA vB ranA ranB tA tB vA N, cprsResult vA vB ranA ranB tA tB vB N) := by
  induction N with
  | zero => rfl
  | succ N ih =>
      rw [List.range_succ, List.foldl_append, ih, cprsResult_succ, cprsResult_succ]
      rfl

/-- Both loops over all indices: eight messages an index. -/
theorem paired_cprs (N : Nat) :
    Paired (8 * N) (cprs .alice N vA ranA tA) (cprs .bob N vB ranB tB)
      (cprsResult vA vB ranA ranB tA tB vA N) (cprsResult vA vB ranA ranB tA tB vB N) := by
  have hloop := Paired.foldlM (J := recordBoth vA vB ranA ranB tA tB)
    (paired_cprsPass vA vB ranA ranB tA tB) (List.range N) (⟨[], [], [], []⟩, ⟨[], [], [], []⟩)
  rw [List.length_range, foldl_recordBoth] at hloop
  exact hloop

end

/-! ## Agreement

The derivation holds for one schedule; `Paired.completes` carries it to all of
them. -/

/-- A triple is valid when the shares of `c` add up to the product of the sums
of `a` and `b`, in each lane. -/
def ValidTriple (tA tB : Triple) : Prop := tA.cl + tB.cl = (tA.a + tB.a) * (tA.b + tB.b)

instance (tA tB : Triple) : Decidable (ValidTriple tA tB) :=
  inferInstanceAs (Decidable (tA.cl + tB.cl = (tA.a + tB.a) * (tA.b + tB.b)))

theorem product_valid {tA tB : Triple} (h : ValidTriple tA tB) (xA xB yA yB : Block) :
    product xA xB yA yB tA tB = (xA + xB) * (yA + yB) := by
  have hc : tA.cl = (tA.a + tB.a) * (tA.b + tB.b) - tB.cl := eq_sub_of_add_eq h
  simp only [product, hc]
  ring

/-- Whatever the shares, masks and triples: every interleaving is matched and
ends; both servers have opened the same blocks and report the same increasing
indices with equally many shares, so the recipient never finds the counts
different; and over a valid triple `Mult` is multiplication. -/
theorem cprs_agreement (N : Nat) (vA vB : Nat → Block) (ranA ranB : Block) (tA tB : Triple) :
    (∃ rA rB, Completes (cprs .alice N vA ranA tA) (cprs .bob N vB ranB tB) rA rB ∧
      rA.opened = rB.opened ∧ rA.opened.length = N ∧
      rA.nonzeroIndices = rB.nonzeroIndices ∧ rA.nonzeroIndices.Pairwise (· < ·) ∧
      rA.compressedShares.length = rB.compressedShares.length ∧
      recipientDecode (serializeFieldShares rA.compressedShares)
          (serializeFieldShares rB.compressedShares)
        ≠ .error "PSVFSS response element counts differ") ∧
    (ValidTriple tA tB → ∀ i xA xB yA yB,
      Completes (mult .alice i xA yA tA) (mult .bob i xB yB tB) ((xA + xB) * (yA + yB))
        ((xA + xB) * (yA + yB))) := by
  refine ⟨⟨_, _, (paired_cprs vA vB ranA ranB tA tB N).completes, rfl, ?_, rfl, ?_, ?_, ?_⟩, ?_⟩
  · simp only [cprsResult, List.length_map, List.length_range]
  · exact List.pairwise_lt_range.filter _
  · simp only [cprsResult, List.length_map]
  · rw [recipientDecode_serialize (by simp only [cprsResult, List.length_map])]
    split
    · exact nofun
    · exact fun h => absurd (Except.error.inj h) (by decide)
  · intro hvalid i xA xB yA yB
    have h := (paired_mult i xA xB yA yB tA tB).completes
    rwa [product_valid hvalid] at h

/-- Over shares of the triple `5 * 7 = 35`. -/
theorem cprs_agreement_sample :
    Completes (mult .alice 0 (3, 0) (9, 1) ⟨(1, 1), (2, 2), (3, 3)⟩)
      (mult .bob 0 (4, 6) (2, 0) ⟨(4, 4), (5, 5), (32, 32)⟩) (77, 6) (77, 6) :=
  (cprs_agreement 2 (fun _ => (1, 0)) (fun _ => (2, 0)) (9, 1) (2, 0)
    ⟨(1, 1), (2, 2), (3, 3)⟩ ⟨(4, 4), (5, 5), (32, 32)⟩).2 (by decide) 0 (3, 0) (4, 6) (9, 1) (2, 0)

end PSVFSS

/-
# `Lib.Transcript` — what a party has received

`Proc.observed p` runs as `p` does, message for message, and returns with the
result the messages received on the way, oldest first.  As it is a process
again, everything said of processes is said of transcripts: a `Paired`
derivation of two observed parties names both transcripts, and `Completes`
makes them the transcripts of every interleaving.

Observation goes through sequencing and loops (`observed_bind`,
`observed_foldlM`), so the transcript of a protocol is put together from the
transcripts of its phases.
-/
import PSVFSS.Lib.TwoParty

namespace TwoParty

variable {τ μ α β γ : Type}

namespace Proc

/-- `p`, with the messages it receives appended to `l`. -/
def observing : Proc τ μ α → List (τ × μ) → Proc τ μ (α × List (τ × μ))
  | .ret a, l => .ret (a, l)
  | .send t m p, l => .send t m (p.observing l)
  | .recv t k, l => .recv t fun m => (k m).observing (l ++ [(t, m)])

/-- `p`, with the messages it receives. -/
def observed (p : Proc τ μ α) : Proc τ μ (α × List (τ × μ)) := p.observing []

theorem observing_bind (p : Proc τ μ α) (f : α → Proc τ μ β) (l : List (τ × μ)) :
    (p >>= f).observing l = p.observing l >>= fun s => (f s.1).observing s.2 := by
  induction p generalizing l with
  | ret a => rfl
  | send t m p ih => exact congrArg (Proc.send t m) (ih l)
  | recv t k ih => exact congrArg (Proc.recv t) (funext fun m => ih m (l ++ [(t, m)]))

/-- Observing changes nothing but the result. -/
theorem observing_forget (p : Proc τ μ α) (l : List (τ × μ)) :
    (p.observing l >>= fun s => .ret s.1) = p := by
  induction p generalizing l with
  | ret a => rfl
  | send t m p ih => exact congrArg (Proc.send t m) (ih l)
  | recv t k ih => exact congrArg (Proc.recv t) (funext fun m => ih m (l ++ [(t, m)]))

theorem observing_foldlM (f : α → γ → Proc τ μ α) (xs : List γ) (a : α) (l : List (τ × μ)) :
    (xs.foldlM f a).observing l
      = xs.foldlM (fun s x => (f s.1 x).observing s.2) (a, l) := by
  induction xs generalizing a l with
  | nil => rfl
  | cons x xs ih =>
      rw [List.foldlM_cons, observing_bind, List.foldlM_cons]
      exact congrArg _ (funext fun s => ih s.1 s.2)

end Proc

/-- A derivation with transcripts is a derivation without. -/
theorem Paired.of_observed {δ : Type} {n : Nat} {p : Proc τ μ α} {q : Proc τ μ δ}
    {a : α} {b : δ} {l l' : List (τ × μ)}
    (h : Paired n p.observed q.observed (a, l) (b, l')) : Paired n p q a b := by
  have h' := h.bind (m := 0) (f := fun s => .ret s.1) (g := fun s => .ret s.1) (.ret a b)
  rwa [Proc.observed, Proc.observed, Proc.observing_forget, Proc.observing_forget] at h'

end TwoParty

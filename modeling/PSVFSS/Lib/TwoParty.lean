/-
# `Lib.TwoParty` — two sequential parties over two FIFO channels

A party is a `Proc`: it returns, sends a message, or receives one and goes
on with what it got.  Every send and receive carries a tag saying *which*
quantity of the protocol it moves; tags are not on the wire, no party can
look at one, and they exist so that "this receive takes the message meant
for it" can be said.

Two semantics:

    Step, Run        the asynchronous machine: each party moves on its own,
                     a send appends to a channel, a receive takes its head
    Paired n p q a b the rendezvous derivation: `n` messages, every send met
                     by a receive of the same tag, results `a` and `b`

`Paired` is what one proves of a protocol, by following the two texts; it
composes (`Paired.bind`, `Paired.foldlM`).  `Paired.completes` is what it
buys: in *every* interleaving of the machine each receive finds the message
of its own tag, nothing gets stuck, the run ends after exactly two moves a
message, and both parties hold the results the derivation names.

The invariant that carries it is `InSync`: one channel is empty, and the
party that is behind, once it has drained the other, is paired again.
-/
import Mathlib.Logic.Relation
import Mathlib.Tactic.ByContra

namespace TwoParty

/-- A sequential party with tags `τ`, messages `μ` and result `α`. -/
inductive Proc (τ μ α : Type) where
  | ret (a : α)
  | send (t : τ) (m : μ) (p : Proc τ μ α)
  | recv (t : τ) (k : μ → Proc τ μ α)

variable {τ μ α β γ δ : Type}

namespace Proc

def bind : Proc τ μ α → (α → Proc τ μ β) → Proc τ μ β
  | .ret a, f => f a
  | .send t m p, f => .send t m (p.bind f)
  | .recv t k, f => .recv t fun m => (k m).bind f

instance : Monad (Proc τ μ) where
  pure := .ret
  bind := bind

@[simp] theorem ret_bind (a : α) (f : α → Proc τ μ β) : (Proc.ret a >>= f) = f a := rfl

end Proc

/-- Send one message. -/
def sendMsg (t : τ) (m : μ) : Proc τ μ Unit := .send t m (.ret ())

/-- Receive one message. -/
def recvMsg (t : τ) : Proc τ μ μ := .recv t .ret

/-! ## Rendezvous derivations

The programs are compared in lock step, one message at a time.  Sequencing and
loops follow the programs' own structure, so a derivation is built as the two
programs are. -/

/-- `p` and `q` exchange `n` messages in lock step and return `a` and `b`. -/
inductive Paired : Nat → Proc τ μ α → Proc τ μ β → α → β → Prop
  | ret (a : α) (b : β) : Paired 0 (.ret a) (.ret b) a b
  | leftToRight {n : Nat} {t : τ} {m : μ} {p : Proc τ μ α} {k : μ → Proc τ μ β} {a : α} {b : β} :
      Paired n p (k m) a b → Paired (n + 1) (.send t m p) (.recv t k) a b
  | rightToLeft {n : Nat} {t : τ} {m : μ} {k : μ → Proc τ μ α} {q : Proc τ μ β} {a : α} {b : β} :
      Paired n (k m) q a b → Paired (n + 1) (.recv t k) (.send t m q) a b

namespace Paired

theorem symm {n : Nat} {p : Proc τ μ α} {q : Proc τ μ β} {a : α} {b : β}
    (h : Paired n p q a b) : Paired n q p b a := by
  induction h with
  | ret a b => exact .ret b a
  | leftToRight _ ih => exact .rightToLeft ih
  | rightToLeft _ ih => exact .leftToRight ih

/-- Sequential composition: the results of the first phase start the second. -/
theorem bind {n m : Nat} {p : Proc τ μ α} {q : Proc τ μ β} {a : α} {b : β}
    {f : α → Proc τ μ γ} {g : β → Proc τ μ δ} {c : γ} {d : δ}
    (h : Paired n p q a b) (h' : Paired m (f a) (g b) c d) :
    Paired (n + m) (p >>= f) (q >>= g) c d := by
  induction h with
  | ret a b => simpa using h'
  | leftToRight _ ih =>
      rw [Nat.add_right_comm]
      exact .leftToRight (ih h')
  | rightToLeft _ ih =>
      rw [Nat.add_right_comm]
      exact .rightToLeft (ih h')

/-- The loop rule: if every pass exchanges `n` messages and moves the pair of
loop states by `J`, the whole loop moves it by the fold of `J`. -/
theorem foldlM {n : Nat} {f : α → γ → Proc τ μ α} {g : β → γ → Proc τ μ β}
    {J : α × β → γ → α × β}
    (hbody : ∀ s x, Paired n (f s.1 x) (g s.2 x) (J s x).1 (J s x).2) :
    ∀ (l : List γ) (s : α × β),
      Paired (n * l.length) (l.foldlM f s.1) (l.foldlM g s.2) (l.foldl J s).1 (l.foldl J s).2
  | [], s => .ret s.1 s.2
  | x :: l, s => by
      rw [List.length_cons, Nat.mul_succ, Nat.add_comm]
      exact (hbody s x).bind (foldlM hbody l (J s x))

end Paired

/-! ## The asynchronous machine

Sending does not wait.  The two channels keep their order, and a receiver
whose channel is empty blocks. -/

/-- Both parties and the messages in flight, oldest first. -/
structure Config (τ μ α β : Type) where
  left : Proc τ μ α
  right : Proc τ μ β
  toRight : List (τ × μ)
  toLeft : List (τ × μ)

/-- Both parties at their start, nothing in flight. -/
def Config.start (p : Proc τ μ α) (q : Proc τ μ β) : Config τ μ α β := ⟨p, q, [], []⟩

/-- Both parties returned, nothing in flight. -/
def Config.done (a : α) (b : β) : Config τ μ α β := ⟨.ret a, .ret b, [], []⟩

inductive Step : Config τ μ α β → Config τ μ α β → Prop
  | leftSend {t : τ} {m : μ} {p : Proc τ μ α} {q : Proc τ μ β} {r l : List (τ × μ)} :
      Step ⟨.send t m p, q, r, l⟩ ⟨p, q, r ++ [(t, m)], l⟩
  | leftRecv {t : τ} {k : μ → Proc τ μ α} {q : Proc τ μ β} {x : τ × μ} {r l : List (τ × μ)} :
      Step ⟨.recv t k, q, r, x :: l⟩ ⟨k x.2, q, r, l⟩
  | rightSend {t : τ} {m : μ} {p : Proc τ μ α} {q : Proc τ μ β} {r l : List (τ × μ)} :
      Step ⟨p, .send t m q, r, l⟩ ⟨p, q, r, l ++ [(t, m)]⟩
  | rightRecv {t : τ} {p : Proc τ μ α} {k : μ → Proc τ μ β} {x : τ × μ} {r l : List (τ × μ)} :
      Step ⟨p, .recv t k, x :: r, l⟩ ⟨p, k x.2, r, l⟩

/-- Runs of a given number of moves. -/
inductive Run : Nat → Config τ μ α β → Config τ μ α β → Prop
  | refl (c : Config τ μ α β) : Run 0 c c
  | tail {n : Nat} {c c' c'' : Config τ μ α β} : Run n c c' → Step c' c'' → Run (n + 1) c c''

/-- A party about to receive has, at the head of its channel, the message its
peer sent under the same tag. -/
def Config.Matched (c : Config τ μ α β) : Prop :=
  (∀ t k x l, c.left = .recv t k → c.toLeft = x :: l → x.1 = t) ∧
  (∀ t k x r, c.right = .recv t k → c.toRight = x :: r → x.1 = t)

/-! ## The invariant: at most one party is ahead

Being ahead is all that an interleaving can change.  The messages on the way
are those the one behind is about to take, in that order and under those tags. -/

/-- `p` is ahead of `q` by the messages `l`: after taking them, `q` is paired
with `p`.  The index counts the moves still to come. -/
inductive Ahead : Nat → Proc τ μ α → Proc τ μ β → List (τ × μ) → α → β → Prop
  | level {n : Nat} {p : Proc τ μ α} {q : Proc τ μ β} {a : α} {b : β} :
      Paired n p q a b → Ahead (2 * n) p q [] a b
  | queued {n : Nat} {p : Proc τ μ α} {t : τ} {m : μ} {k : μ → Proc τ μ β}
      {l : List (τ × μ)} {a : α} {b : β} :
      Ahead n p (k m) l a b → Ahead (n + 1) p (.recv t k) ((t, m) :: l) a b

namespace Ahead

/-- The leading party sends one more. -/
theorem send {n : Nat} {t : τ} {m : μ} {p : Proc τ μ α} {q : Proc τ μ β} {l : List (τ × μ)}
    {a : α} {b : β} (h : Ahead n (.send t m p) q l a b) :
    ∃ n', n = n' + 1 ∧ Ahead n' p q (l ++ [(t, m)]) a b := by
  generalize hs : Proc.send t m p = s at h
  induction h with
  | level hp =>
      cases hp with
      | ret => cases hs
      | rightToLeft => cases hs
      | @leftToRight n _ _ _ k _ _ hp =>
          cases hs
          exact ⟨2 * n + 1, by omega, .queued (.level hp)⟩
  | queued _ ih =>
      obtain ⟨n', rfl, h'⟩ := ih hs
      exact ⟨n' + 1, rfl, .queued h'⟩

/-- The trailing party receives: the tags agree. -/
theorem recv {n : Nat} {t : τ} {x : τ × μ} {p : Proc τ μ α} {k : μ → Proc τ μ β}
    {l : List (τ × μ)} {a : α} {b : β} (h : Ahead n p (.recv t k) (x :: l) a b) :
    x.1 = t ∧ ∃ n', n = n' + 1 ∧ Ahead n' p (k x.2) l a b := by
  cases h with
  | queued h' => exact ⟨rfl, _, rfl, h'⟩

theorem paired {n : Nat} {p : Proc τ μ α} {q : Proc τ μ β} {a : α} {b : β}
    (h : Ahead n p q [] a b) : ∃ m, n = 2 * m ∧ Paired m p q a b := by
  cases h with
  | level hp => exact ⟨_, rfl, hp⟩

/-- Only a receiver can be behind. -/
theorem nil_of_send {n : Nat} {t : τ} {m : μ} {p : Proc τ μ α} {q : Proc τ μ β}
    {l : List (τ × μ)} {a : α} {b : β} (h : Ahead n p (.send t m q) l a b) : l = [] := by
  cases h with
  | level => rfl

end Ahead

/-- One channel is empty and the party it would feed is not behind. -/
def InSync (n : Nat) (c : Config τ μ α β) (a : α) (b : β) : Prop :=
  (c.toLeft = [] ∧ Ahead n c.left c.right c.toRight a b) ∨
  (c.toRight = [] ∧ Ahead n c.right c.left c.toLeft b a)

namespace InSync

theorem matched {n : Nat} {c : Config τ μ α β} {a : α} {b : β} (h : InSync n c a b) :
    c.Matched := by
  obtain ⟨p, q, r, l⟩ := c
  rcases h with ⟨hl, h⟩ | ⟨hr, h⟩
  · constructor
    · intro t k x l' _ hx
      exact nomatch hl.symm.trans hx
    · intro t k x r' hq hx
      simp only at hq hx h
      subst hq hx
      exact h.recv.1
  · constructor
    · intro t k x l' hp hx
      simp only at hp hx h
      subst hp hx
      exact h.recv.1
    · intro t k x r' _ hx
      exact nomatch hr.symm.trans hx

/-- A send from level: whoever sends is ahead afterwards. -/
theorem of_send_level {n : Nat} {t : τ} {m : μ} {p : Proc τ μ α} {q : Proc τ μ β}
    {a : α} {b : β} (h : Ahead n p (.send t m q) [] a b) :
    ∃ n', n = n' + 1 ∧ Ahead n' q p [(t, m)] b a := by
  obtain ⟨k, rfl, hp⟩ := h.paired
  simpa using (Ahead.level hp.symm).send

/-- Every move keeps the parties in sync and uses up one of the moves left. -/
theorem step {n : Nat} {c c' : Config τ μ α β} {a : α} {b : β}
    (h : InSync n c a b) (hs : Step c c') : ∃ n', n = n' + 1 ∧ InSync n' c' a b := by
  cases hs with
  | leftSend =>
      rcases h with ⟨hl, h⟩ | ⟨hr, h⟩ <;> simp only at *
      · obtain ⟨n', hn, h'⟩ := h.send
        exact ⟨n', hn, .inl ⟨hl, h'⟩⟩
      · obtain rfl := h.nil_of_send
        obtain ⟨n', hn, h'⟩ := of_send_level h
        exact ⟨n', hn, .inl ⟨rfl, by subst hr; exact h'⟩⟩
  | leftRecv =>
      rcases h with ⟨hl, _⟩ | ⟨hr, h⟩ <;> simp only at *
      · exact nomatch hl
      · obtain ⟨_, n', hn, h'⟩ := h.recv
        exact ⟨n', hn, .inr ⟨hr, h'⟩⟩
  | rightSend =>
      rcases h with ⟨hl, h⟩ | ⟨hr, h⟩ <;> simp only at *
      · obtain rfl := h.nil_of_send
        obtain ⟨n', hn, h'⟩ := of_send_level h
        exact ⟨n', hn, .inr ⟨rfl, by subst hl; exact h'⟩⟩
      · obtain ⟨n', hn, h'⟩ := h.send
        exact ⟨n', hn, .inr ⟨hr, h'⟩⟩
  | rightRecv =>
      rcases h with ⟨hl, h⟩ | ⟨hr, _⟩ <;> simp only at *
      · obtain ⟨_, n', hn, h'⟩ := h.recv
        exact ⟨n', hn, .inl ⟨hl, h'⟩⟩
      · exact nomatch hr

/-- In sync, the only configuration without a move is the finished one. -/
theorem settled {n : Nat} {c : Config τ μ α β} {a : α} {b : β} (h : InSync n c a b)
    (hstuck : ∀ c', ¬ Step c c') : c = .done a b := by
  obtain ⟨p, q, r, l⟩ := c
  rcases h with ⟨hl, h⟩ | ⟨hr, h⟩ <;> simp only at *
  · subst hl
    cases h with
    | queued => exact absurd Step.rightRecv (hstuck _)
    | level hp =>
        cases hp with
        | ret => rfl
        | leftToRight => exact absurd Step.leftSend (hstuck _)
        | rightToLeft => exact absurd Step.rightSend (hstuck _)
  · subst hr
    cases h with
    | queued => exact absurd Step.leftRecv (hstuck _)
    | level hp =>
        cases hp with
        | ret => rfl
        | leftToRight => exact absurd Step.rightSend (hstuck _)
        | rightToLeft => exact absurd Step.leftSend (hstuck _)

/-- The run lemma. -/
theorem run {n k : Nat} {c c' : Config τ μ α β} {a : α} {b : β}
    (h : InSync n c a b) (hr : Run k c c') : ∃ n', n = n' + k ∧ InSync n' c' a b := by
  induction hr with
  | refl => exact ⟨n, rfl, h⟩
  | tail _ hs ih =>
      obtain ⟨n₁, hn₁, h₁⟩ := ih h
      obtain ⟨n₂, hn₂, h₂⟩ := h₁.step hs
      exact ⟨n₂, by omega, h₂⟩

end InSync

/-! ## What a rendezvous derivation buys

A derivation is one schedule.  The machine reaches the same results under
every other one, and cannot run forever. -/

/-- Every interleaving of `p` and `q` is matched throughout, ends, and ends
with the results `a` and `b`. -/
structure Completes (p : Proc τ μ α) (q : Proc τ μ β) (a : α) (b : β) : Prop where
  bounded : ∃ n, ∀ k c, Run k (.start p q) c → k ≤ n
  matched : ∀ k c, Run k (.start p q) c → c.Matched
  settles : ∀ k c, Run k (.start p q) c → (∀ c', ¬ Step c c') → c = .done a b

/-- The results are determined: a longest run ends with them. -/
theorem Completes.unique {p : Proc τ μ α} {q : Proc τ μ β} {a a' : α} {b b' : β}
    (h : Completes p q a b) (h' : Completes p q a' b') : a = a' ∧ b = b' := by
  obtain ⟨n, hn⟩ := h.bounded
  obtain ⟨c, k, hc⟩ : ∃ c k, Run k (.start p q) c ∧ ∀ c', ¬ Step c c' := by
    by_contra hlive
    have hlong : ∀ k, ∃ c, Run k (.start p q) c := by
      intro k
      induction k with
      | zero => exact ⟨_, .refl _⟩
      | succ k ih =>
          obtain ⟨c, hc⟩ := ih
          obtain ⟨c', hs⟩ : ∃ c', Step c c' := by
            by_contra hstuck
            exact hlive ⟨c, k, hc, not_exists.mp hstuck⟩
          exact ⟨c', hc.tail hs⟩
    obtain ⟨c, hc⟩ := hlong (n + 1)
    exact absurd (hn _ _ hc) (Nat.not_succ_le_self n)
  have hdone := (h.settles k c hc.1 hc.2).symm.trans (h'.settles k c hc.1 hc.2)
  cases hdone
  exact ⟨rfl, rfl⟩

theorem Paired.completes {n : Nat} {p : Proc τ μ α} {q : Proc τ μ β} {a : α} {b : β}
    (h : Paired n p q a b) : Completes p q a b := by
  have h₀ : InSync (2 * n) (.start p q) a b := .inl ⟨rfl, .level h⟩
  refine ⟨⟨2 * n, fun k c hr => ?_⟩, fun k c hr => ?_, fun k c hr hstuck => ?_⟩
  · obtain ⟨n', hn, _⟩ := h₀.run hr
    omega
  · obtain ⟨n', _, h'⟩ := h₀.run hr
    exact h'.matched
  · obtain ⟨n', _, h'⟩ := h₀.run hr
    exact h'.settled hstuck

end TwoParty

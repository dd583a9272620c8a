/-
Computations that ask for the time.

A computation either is done or asks for a reading of the clock and goes on with it. Whoever runs
it answers the questions: a program from the clock of its machine, a test from a list of readings.
So the computation itself is a plain value, and what it does for every clock can be stated. A
question also says in which state the run is left if the clock has no answer.
-/
import ConstantTime.Analysis.State

set_option autoImplicit false

namespace ConstantTime

/-- A computation that may ask for readings of a clock. -/
inductive Timed (τ α : Type)
  | done (a : α)
  /-- The run is left in the state `left` if there is no reading. -/
  | ask (left : RunState) (next : τ → Timed τ α)

namespace Timed

variable {τ α β : Type}

/-- Goes on with the outcome of a computation. -/
def bind : Timed τ α → (α → Timed τ β) → Timed τ β
  | .done a, f => f a
  | .ask left next, f => .ask left fun t => (next t).bind f

def map (f : α → β) (c : Timed τ α) : Timed τ β := c.bind fun a => .done (f a)

/-- The outcome when the question number `n` gets the answer `clock n`, questions being numbered
from `first` on. Gives also the number of the next question. -/
def answer (clock : Nat → τ) : Timed τ α → Nat → α × Nat
  | .done a, first => (a, first)
  | .ask _ next, first => answer clock (next (clock first)) (first + 1)

/-- The same with a clock that may have no answer. The outcome then depends on the state that is
left. -/
def answerOr (stranded : RunState → α) (clock : Nat → Option τ) : Timed τ α → Nat → α × Nat
  | .done a, first => (a, first)
  | .ask left next, first =>
    match clock first with
    | some t => answerOr stranded clock (next t) (first + 1)
    | none => (stranded left, first + 1)

@[simp] theorem done_bind (a : α) (f : α → Timed τ β) : (done a).bind f = f a := rfl

@[simp] theorem ask_bind (left : RunState) (next : τ → Timed τ α) (f : α → Timed τ β) :
    (ask left next).bind f = ask left fun t => (next t).bind f := rfl

@[simp] theorem answer_done (clock : Nat → τ) (a : α) (n : Nat) :
    (done a).answer clock n = (a, n) := rfl

@[simp] theorem answer_ask (clock : Nat → τ) (left : RunState) (next : τ → Timed τ α) (n : Nat) :
    (ask left next).answer clock n = (next (clock n)).answer clock (n + 1) := rfl

/-- The questions of two computations in a row are answered one after the other. -/
theorem answer_bind (clock : Nat → τ) (c : Timed τ α) (f : α → Timed τ β) (n : Nat) :
    (c.bind f).answer clock n = (f (c.answer clock n).1).answer clock (c.answer clock n).2 := by
  induction c generalizing n with
  | done a => rfl
  | ask left next ih => exact ih (clock n) (n + 1)

/-- A clock that always has an answer leaves no run stranded. -/
theorem answerOr_some (stranded : RunState → α) (clock : Nat → τ) (c : Timed τ α) (n : Nat) :
    c.answerOr stranded (fun k => some (clock k)) n = c.answer clock n := by
  induction c generalizing n with
  | done a => rfl
  | ask left next ih => exact ih (clock n) (n + 1)

end Timed

end ConstantTime

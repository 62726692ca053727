import Mathlib

/-!
# Interruptible computations

Computations over a state that end in one of three ways: with a value, with an error, or
cut off by their caller.  Whichever it is, the state keeps what was done to it so far.
-/

/-- How a computation ends. -/
inductive Outcome (ε α : Type) where
  | done (value : α)
  | failed (error : ε)
  | cancelled
  deriving DecidableEq

/-- A computation over a state. -/
def Interruptible (σ ε α : Type) : Type := σ → Outcome ε α × σ

namespace Interruptible

variable {σ ε α β : Type}

instance : Monad (Interruptible σ ε) where
  pure a := fun s => (.done a, s)
  bind c f := fun s =>
    match c s with
    | (.done a, s') => f a s'
    | (.failed e, s') => (.failed e, s')
    | (.cancelled, s') => (.cancelled, s')

/-- The state. -/
def state : Interruptible σ ε σ := fun s => (.done s, s)

/-- A change of the state. -/
def modify (f : σ → σ) : Interruptible σ ε Unit := fun s => (.done (), f s)

/-- An error. -/
def fail (e : ε) : Interruptible σ ε α := fun s => (.failed e, s)

/-- The caller gives up. -/
def cancel : Interruptible σ ε α := fun s => (.cancelled, s)

/-- A step that needs no state. -/
def ofExcept : Except ε α → Interruptible σ ε α
  | .ok a => pure a
  | .error e => fail e

section Running

variable {c : Interruptible σ ε α} {f : α → Interruptible σ ε β} {s s' : σ}

variable (c f s) in
theorem bind_apply : (c >>= f) s = match c s with
    | (.done a, s') => f a s'
    | (.failed e, s') => (.failed e, s')
    | (.cancelled, s') => (.cancelled, s') := rfl

theorem bind_of_done {a : α} (h : c s = (.done a, s')) : (c >>= f) s = f a s' := by
  rw [bind_apply, h]

theorem bind_of_failed {e : ε} (h : c s = (.failed e, s')) : (c >>= f) s = (.failed e, s') := by
  rw [bind_apply, h]

theorem bind_of_cancelled (h : c s = (.cancelled, s')) : (c >>= f) s = (.cancelled, s') := by
  rw [bind_apply, h]

end Running

end Interruptible

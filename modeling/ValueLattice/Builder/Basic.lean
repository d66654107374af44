import ValueLattice.Value.Basic
import ValueLattice.Widening
/-!
# The parts of a builder

A builder collects elements while it is open and produces one value. From then on it is
closed: it returns the same value again, and every change fails. The types of its elements
either are bounded by a declared type or widen an inferred one, which begins at `void`.

* `Bound`, `Bound.take`: the type of the elements, and how it takes the type of a new one;
* `Stage`, `Stage.accumulated`: what an open builder has collected, or what a closed one has
  produced;
* `insertEach`: the insertion of several elements, up to the first failure.
-/

namespace ValueLattice

/-- How a builder types its elements. -/
inductive Bound
  /-- Every element is of a type below the declared one. -/
  | declared (t : Ty)
  /-- The join of the types of all elements taken so far. -/
  | inferred (t : Ty)
  deriving DecidableEq

namespace Bound

/-- The inferred type before any element is taken. -/
def start : Bound := inferred .void

/-- The declared or the inferred type. -/
def current : Bound → Ty
  | declared t => t
  | inferred t => t

/-- Whether the type is inferred. -/
def isInferred : Bound → Bool
  | declared _ => false
  | inferred _ => true

/-- Checks a type against a declared one. -/
def check (b : Bound) (t : Ty) : Except Fault Unit :=
  match b with
  | declared d => if t.leq d then .ok () else .error (.notBelow d t)
  | inferred _ => .ok ()

/-- The bound after an element of type `t` is taken: checked against a declared type, or
joined to the inferred one, with an event when that changes. -/
def take (kind : BuilderKind) (b : Bound) (t : Ty) : Checked Bound :=
  match b with
  | declared d => if t.leq d then return b else throw (.notBelow d t)
  | inferred s => do
    let widened ← (s.join t : Logged Ty)
    if widened = s then return b
    else
      (Logged.event (.elementWidened kind s widened) : Logged Unit)
      return inferred widened

end Bound

/-- The stage of a builder: open with what it has collected, or closed with the value that it
has produced. -/
inductive Stage (α : Type)
  | opened (collected : α)
  | closed (value : Value)

namespace Stage

variable {α : Type}

/-- Whether the builder is closed. -/
def isClosed : Stage α → Bool
  | opened _ => false
  | closed _ => true

/-- What an open builder has collected; a closed one fails. -/
def collected (kind : BuilderKind) : Stage α → Except Fault α
  | opened a => .ok a
  | closed _ => .error (.finished kind)

/-- The number of elements collected, or held by the value produced. -/
def size (count : α → Nat) : Stage α → Nat
  | opened a => count a
  | closed v => v.count

end Stage

/-- Inserts the values of a list one by one, up to the first failure. A closed builder fails
even if there are none. -/
def insertEach {σ : Type} (kind : BuilderKind) (isClosed : σ → Bool)
    (insert : Value → Action σ Unit) (xs : List Value) : Action σ Unit := do
  if isClosed (← get) then throw (.finished kind)
  else xs.forM insert

end ValueLattice

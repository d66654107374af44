import ValueLattice.Builder.Basic
import ValueLattice.Value.TypedSet
/-!
# Set builders

A set builder collects the elements of a set. It produces a relation instead when its element
type is a tuple type: the declared one, or the join of the types of all elements that were ever
inserted. Removing an element does not narrow the type.

* `SetBuilder.insert`, `SetBuilder.delete`, `SetBuilder.done`: the operations.
-/

namespace ValueLattice

/-- A builder of sets. -/
structure SetBuilder where
  bound : Bound
  stage : Stage (List Value)

namespace SetBuilder

/-- The builder with the given bound and no elements. -/
def new (b : Bound) : SetBuilder := ⟨b, .opened []⟩

/-- Whether the builder is closed. -/
def isClosed (b : SetBuilder) : Bool := b.stage.isClosed

/-- The number of elements. -/
def size (b : SetBuilder) : Nat := b.stage.size List.length

/-- Adds an element. -/
def insert (x : Value) : Action SetBuilder Unit := do
  let b ← get
  let elems ← b.stage.collected .set
  let bound ← b.bound.take .set x.ty
  set (⟨bound, .opened (Table.insert elems x)⟩ : SetBuilder)

/-- Removes an element, if it is there. -/
def delete (x : Value) : Action SetBuilder Unit := do
  let b ← get
  let elems ← b.stage.collected .set
  set { b with stage := .opened (Table.erase elems x) }

/-- The event of an inferred tuple type, when the builder produces its value. -/
def relationEvent (b : Bound) : Logged Unit :=
  if b.isInferred && b.current.isTuple then Logged.event (.inferredRelation b.current)
  else return ()

/-- Produces the value, building it the first time only. -/
def done : Action SetBuilder Value := do
  let b ← get
  match b.stage with
  | .closed v => return v
  | .opened elems =>
    (relationEvent b.bound : Logged Unit)
    let v := collect b.bound.current elems
    set { b with stage := .closed v }
    return v

end SetBuilder

end ValueLattice

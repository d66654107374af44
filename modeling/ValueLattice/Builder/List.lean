import ValueLattice.Builder.Basic
import ValueLattice.Value.TypedList
/-!
# List builders

A list builder collects the elements of a list in order. Besides adding elements at the end it
inserts them at a position and replaces the element at a position.

* `ListBuilder.insert`, `insertAt`, `replaceAt`, `delete`, `done`: the operations.
-/

namespace ValueLattice

/-- A builder of lists. -/
structure ListBuilder where
  bound : Bound
  stage : Stage (List Value)

namespace ListBuilder

/-- The builder with the given bound and no elements. -/
def new (b : Bound) : ListBuilder := ⟨b, .opened []⟩

/-- Whether the builder is closed. -/
def isClosed (b : ListBuilder) : Bool := b.stage.isClosed

/-- The number of elements. -/
def size (b : ListBuilder) : Nat := b.stage.size List.length

/-- Adds an element at the end. -/
def insert (x : Value) : Action ListBuilder Unit := do
  let b ← get
  let elems ← b.stage.collected .list
  let bound ← b.bound.take .list x.ty
  set (⟨bound, .opened (elems ++ [x])⟩ : ListBuilder)

/-- Adds an element before position `i`, which may be the end. -/
def insertAt (i : Nat) (x : Value) : Action ListBuilder Unit := do
  let b ← get
  let elems ← b.stage.collected .list
  if i ≤ elems.length then
    let bound ← b.bound.take .list x.ty
    set (⟨bound, .opened (elems.insertIdx i x)⟩ : ListBuilder)
  else throw (.outOfBounds i elems.length)

/-- Replaces the element at position `i`. -/
def replaceAt (i : Nat) (x : Value) : Action ListBuilder Unit := do
  let b ← get
  let elems ← b.stage.collected .list
  if i < elems.length then
    let bound ← b.bound.take .list x.ty
    set (⟨bound, .opened (elems.set i x)⟩ : ListBuilder)
  else throw (.outOfBounds i elems.length)

/-- Removes the first element that equals `x`, if there is one. -/
def delete (x : Value) : Action ListBuilder Unit := do
  let b ← get
  let elems ← b.stage.collected .list
  set { b with stage := .opened (elems.eraseP fun y => y == x) }

/-- Produces the list, building it the first time only. -/
def done : Action ListBuilder Value := do
  let b ← get
  match b.stage with
  | .closed v => return v
  | .opened elems =>
    let v := (⟨b.bound.current, elems⟩ : TypedList).toValue
    set { b with stage := .closed v }
    return v

end ListBuilder

end ValueLattice

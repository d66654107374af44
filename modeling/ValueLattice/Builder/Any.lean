import ValueLattice.Builder.List
import ValueLattice.Builder.Map
import ValueLattice.Builder.Relation
import ValueLattice.Builder.Set
import ValueLattice.Builder.Tuple
/-!
# Builders of any kind

The operations that all kinds of builders have in common.

* `Builder.insert`, `insertAll`, `delete`, `done`: the operations;
* `Builder.kind`, `size`, `isClosed`: the state that shows.
-/

namespace ValueLattice

/-- A builder of one of the five kinds. -/
inductive Builder
  | set (b : SetBuilder)
  | relation (b : RelationBuilder)
  | list (b : ListBuilder)
  | map (b : MapBuilder)
  | tuple (b : TupleBuilder)

/-- Runs an action on a part of a state. -/
def Action.within {σ τ α : Type} (part : τ) (whole : τ → σ) (x : Action τ α) : Action σ α := do
  let (answer, part') ← (x.start part : Logged (Except Fault α × τ))
  MonadStateOf.set (whole part')
  match answer with
  | .ok a => return a
  | .error e => throw e

namespace Builder

/-- The kind of the builder. -/
def kind : Builder → BuilderKind
  | set _ => .set
  | relation _ => .relation
  | list _ => .list
  | map _ => .map
  | tuple _ => .tuple

/-- The number of elements. -/
def size : Builder → Nat
  | set b => b.size
  | relation b => b.size
  | list b => b.size
  | map b => b.size
  | tuple b => b.size

/-- Whether the builder is closed. -/
def isClosed : Builder → Bool
  | set b => b.isClosed
  | relation b => b.isClosed
  | list b => b.isClosed
  | map b => b.isClosed
  | tuple b => b.isClosed

/-- Adds an element. -/
def insert (x : Value) : Action Builder Unit := do
  match ← get with
  | set b => (SetBuilder.insert x).within b set
  | relation b => (RelationBuilder.insert x).within b relation
  | list b => (ListBuilder.insert x).within b list
  | map b => (MapBuilder.insert x).within b map
  | tuple b => (TupleBuilder.insert x).within b tuple

/-- Adds the values of a list one by one, up to the first failure. -/
def insertAll (xs : List Value) : Action Builder Unit := do
  let b ← get
  insertEach b.kind isClosed insert xs

/-- Removes an element, if it is there; a map builder removes the entry of a key. -/
def delete (x : Value) : Action Builder Unit := do
  match ← get with
  | set b => (SetBuilder.delete x).within b set
  | relation b => (RelationBuilder.delete x).within b relation
  | list b => (ListBuilder.delete x).within b list
  | map b => (MapBuilder.delete x).within b map
  | tuple b => (TupleBuilder.delete x).within b tuple

/-- Produces the value, building it the first time only. -/
def done : Action Builder Value := do
  match ← get with
  | set b => SetBuilder.done.within b set
  | relation b => RelationBuilder.done.within b relation
  | list b => ListBuilder.done.within b list
  | map b => MapBuilder.done.within b map
  | tuple b => TupleBuilder.done.within b tuple

/-- The types of the elements: one, those of keys and values for a map, none for a tuple. -/
def elemTypes : Builder → List Ty
  | set b => [b.bound.current]
  | relation b => [b.bound.current]
  | list b => [b.bound.current]
  | map b => [b.key.current, b.val.current]
  | tuple _ => []

end Builder

end ValueLattice

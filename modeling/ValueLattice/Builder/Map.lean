import ValueLattice.Builder.Basic
import ValueLattice.Value.TypedMap
/-!
# Map builders

A map builder collects the entries of a map. An entry is put as a key and a value, or inserted
as a tuple of both. Key and value are checked before either of them widens a type.

* `MapBuilder.put`, `insert`, `delete`, `done`: the operations.
-/

namespace ValueLattice

/-- A builder of maps. -/
structure MapBuilder where
  key : Bound
  val : Bound
  stage : Stage (List (Value × Value))

namespace MapBuilder

/-- The builder with the given bounds and no entries. -/
def new (key val : Bound) : MapBuilder := ⟨key, val, .opened []⟩

/-- Whether the builder is closed. -/
def isClosed (b : MapBuilder) : Bool := b.stage.isClosed

/-- The number of entries. -/
def size (b : MapBuilder) : Nat := b.stage.size List.length

/-- Binds a key to a value, replacing an earlier binding. -/
def put (k v : Value) : Action MapBuilder Unit := do
  let b ← get
  let entries ← b.stage.collected .map
  b.key.check k.ty
  b.val.check v.ty
  let key ← b.key.take .map k.ty
  let val ← b.val.take .map v.ty
  set (⟨key, val, .opened (EntryTable.put entries k v)⟩ : MapBuilder)

/-- Binds the first element of a pair to the second. -/
def insert (x : Value) : Action MapBuilder Unit := do
  let b ← get
  let _ ← b.stage.collected .map
  match x with
  | .tuple _ _ [k, v] => put k v
  | _ => throw (.mismatch .entry x.ty)

/-- Removes the entry of a key, if it is there. -/
def delete (k : Value) : Action MapBuilder Unit := do
  let b ← get
  let entries ← b.stage.collected .map
  set { b with stage := .opened (EntryTable.erase entries k) }

/-- Produces the map, building it the first time only. -/
def done : Action MapBuilder Value := do
  let b ← get
  match b.stage with
  | .closed v => return v
  | .opened entries =>
    let v := (⟨b.key.current, b.val.current, entries⟩ : TypedMap).toValue
    set { b with stage := .closed v }
    return v

end MapBuilder

end ValueLattice

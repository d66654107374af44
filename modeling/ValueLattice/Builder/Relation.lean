import ValueLattice.Builder.Basic
import ValueLattice.Value.TypedSet
/-!
# Relation builders

A relation builder collects tuples of one length. With an inferred type that length is the one
of the first tuple; a declared type refuses a tuple of another length as it refuses any other
type that is not below it. A builder that has taken no tuple has no row to infer and produces
the empty relation without fields.

* `RelationBuilder.insert`, `RelationBuilder.delete`, `RelationBuilder.done`: the operations.
-/

namespace ValueLattice

/-- A builder of relations. -/
structure RelationBuilder where
  bound : Bound
  stage : Stage (List Value)

namespace RelationBuilder

/-- The builder with the given bound and no tuples. -/
def new (b : Bound) : RelationBuilder := ⟨b, .opened []⟩

/-- The builder with a declared row. -/
def ofRow (r : Row) : RelationBuilder := new (.declared r.toTuple)

/-- Whether the builder is closed. -/
def isClosed (b : RelationBuilder) : Bool := b.stage.isClosed

/-- The number of tuples. -/
def size (b : RelationBuilder) : Nat := b.stage.size List.length

/-- Checks the length of a tuple against an inferred row. -/
def checkArity (b : Bound) (arity : Nat) : Except Fault Unit :=
  match b with
  | .inferred (.tuple fs _) =>
    if fs.length = arity then .ok () else .error (.shape .relationInsert fs.length arity)
  | _ => .ok ()

/-- Adds a tuple. -/
def insert (x : Value) : Action RelationBuilder Unit := do
  let b ← get
  let elems ← b.stage.collected .relation
  match x.tuple? with
  | none => throw (.mismatch .tuple x.ty)
  | some t =>
    checkArity b.bound t.elems.length
    let bound ← b.bound.take .relation x.ty
    set (⟨bound, .opened (Table.insert elems x)⟩ : RelationBuilder)

/-- Removes a tuple, if it is there. -/
def delete (x : Value) : Action RelationBuilder Unit := do
  let b ← get
  let elems ← b.stage.collected .relation
  set { b with stage := .opened (Table.erase elems x) }

/-- The row that bounds the tuples. -/
def row (b : Bound) : Row :=
  match b.current with
  | .tuple fs ls => ⟨fs, ls⟩
  | _ => .plain []

/-- Produces the relation, building it the first time only. -/
def done : Action RelationBuilder Value := do
  let b ← get
  match b.stage with
  | .closed v => return v
  | .opened elems =>
    let v := (⟨row b.bound, elems⟩ : Relation).toValue
    set { b with stage := .closed v }
    return v

end RelationBuilder

end ValueLattice

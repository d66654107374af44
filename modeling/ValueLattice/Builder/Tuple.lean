import ValueLattice.Builder.Basic
import ValueLattice.Value.Equality
import ValueLattice.Value.Tuple
/-!
# Tuple builders

A tuple builder collects the elements of a tuple from left to right. With a declared tuple type
each element is checked against the field at its position, and the tuple is produced only when
every field has its element; until then the builder stays open.

* `TupleBuilder.ofType`: the builder with a declared tuple type;
* `TupleBuilder.insert`, `delete`, `done`: the operations.
-/

namespace ValueLattice

/-- A builder of tuples. -/
structure TupleBuilder where
  declared : Option Row
  stage : Stage (List Value)

namespace TupleBuilder

/-- The builder without a declared type. -/
def new : TupleBuilder := ⟨none, .opened []⟩

/-- The builder with a declared tuple type. -/
def ofType (t : Ty) : Except Fault TupleBuilder :=
  match t.strip with
  | .tuple fs ls => .ok ⟨some ⟨fs, ls⟩, .opened []⟩
  | other => .error (.mismatch .tupleType other)

/-- Whether the builder is closed. -/
def isClosed (b : TupleBuilder) : Bool := b.stage.isClosed

/-- The number of elements. -/
def size (b : TupleBuilder) : Nat := b.stage.size List.length

/-- Checks the type of an element against the declared field at position `i`. -/
def checkAt (declared : Option Row) (i : Nat) (t : Ty) : Except Fault Unit :=
  match declared with
  | none => .ok ()
  | some r =>
    match r.fields[i]? with
    | none => .error (.shape .tupleBuilder r.arity (i + 1))
    | some f => if t.leq f then .ok () else .error (.notBelow f t)

/-- Adds an element. -/
def insert (x : Value) : Action TupleBuilder Unit := do
  let b ← get
  let elems ← b.stage.collected .tuple
  checkAt b.declared elems.length x.ty
  set { b with stage := .opened (elems ++ [x]) }

/-- Removes the last element that equals `x`, if there is one. -/
def delete (x : Value) : Action TupleBuilder Unit := do
  let b ← get
  let elems ← b.stage.collected .tuple
  set { b with stage := .opened (elems.reverse.eraseP fun y => y == x).reverse }

/-- Checks that every declared field has its element. -/
def checkFull (declared : Option Row) (n : Nat) : Except Fault Unit :=
  match declared with
  | none => .ok ()
  | some r => if r.arity = n then .ok () else .error (.shape .tupleBuilder r.arity n)

/-- Produces the tuple, building it the first time only. -/
def done : Action TupleBuilder Value := do
  let b ← get
  match b.stage with
  | .closed v => return v
  | .opened elems =>
    checkFull b.declared elems.length
    let t : Tuple :=
      match b.declared with
      | none => .ofValues elems
      | some r => ⟨r, elems⟩
    set { b with stage := .closed t.toValue }
    return t.toValue

end TupleBuilder

end ValueLattice

import ValueLattice.Value.Basic
import ValueLattice.Widening
/-!
# Tuples

A tuple is typed by its elements or by a declared tuple type. Against a declared type the
elements are as many as the fields, and each is of a type below that of its field. An update
gives the field the type of the new element and keeps the labels.

* `Tuple.ofValues`, `Tuple.ofType`: the two constructions;
* `get`, `getLabel`, `set`, `setLabel`, `select`: access, update and projection.
-/

namespace ValueLattice

/-- Checks that the values are of types below those of the fields, from left to right. -/
def checkFields : List Ty → List Value → Except Fault Unit
  | t :: ts, x :: xs =>
    if x.ty.leq t then checkFields ts xs else .error (.notBelow t x.ty)
  | _, _ => .ok ()

namespace Tuple

/-- The tuple of the given elements, typed by them. -/
def ofValues (xs : List Value) : Tuple := ⟨.plain (xs.map Value.ty), xs⟩

/-- The tuple of the given elements with a declared tuple type. -/
def ofType (t : Ty) (xs : List Value) : Except Fault Tuple :=
  match t.strip with
  | .tuple fs ls =>
    if fs.length = xs.length then do
      checkFields fs xs
      return ⟨⟨fs, ls⟩, xs⟩
    else .error (.shape .tuple fs.length xs.length)
  | other => .error (.mismatch .tupleType other)

/-- The number of elements. -/
def arity (t : Tuple) : Nat := t.elems.length

/-- The element at position `i`. -/
def get (t : Tuple) (i : Nat) : Except Fault Value :=
  match t.elems[i]? with
  | some x => .ok x
  | none => .error (.outOfBounds i t.arity)

/-- The position of the field labelled `l`. -/
def position (t : Tuple) (l : String) : Except Fault Nat :=
  match t.row.position? l with
  | some i => .ok i
  | none => .error (.unknownField l t.row.toTuple)

/-- The element of the field labelled `l`. -/
def getLabel (t : Tuple) (l : String) : Except Fault Value := do
  t.get (← t.position l)

/-- The tuple with `x` at position `i`, whose field takes the type of `x`. -/
def set (t : Tuple) (i : Nat) (x : Value) : Except Fault Tuple :=
  if i < t.arity then
    .ok ⟨⟨t.row.fields.set i x.ty, t.row.labels⟩, t.elems.set i x⟩
  else .error (.outOfBounds i t.arity)

/-- The tuple with `x` in the field labelled `l`. -/
def setLabel (t : Tuple) (l : String) (x : Value) : Except Fault Tuple := do
  t.set (← t.position l) x

/-- The elements at the given positions, in that order. -/
def select (t : Tuple) (is : List Nat) : Except Fault Tuple := do
  let row ← t.row.select is
  let elems ← is.mapM t.get
  return ⟨row, elems⟩

end Tuple

end ValueLattice

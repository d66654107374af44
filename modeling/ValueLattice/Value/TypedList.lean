import ValueLattice.Value.Equality
import ValueLattice.Widening
/-!
# Lists

A list has an element type that bounds its elements. Adding elements widens the bound; a part
of a list and its reversal keep it. Every operation makes a new list.

* `TypedList.ofValues`: the list of given values, bounded by the join of their types;
* `get`, `has`: access;
* `append`, `prepend`, `concat`, `reverse`, `sublist`: the operations.
-/

namespace ValueLattice

namespace TypedList

/-- The list without elements. -/
def empty (t : Ty) : TypedList := ⟨t, []⟩

/-- The list of the given values, bounded by the join of their types. -/
def ofValues (xs : List Value) : Logged TypedList := do
  let t ← Ty.joinAll .void (xs.map Value.ty)
  return ⟨t, xs⟩

/-- The number of elements. -/
def size (l : TypedList) : Nat := l.elems.length

/-- The element at position `i`. -/
def get (l : TypedList) (i : Nat) : Except Fault Value :=
  match l.elems[i]? with
  | some x => .ok x
  | none => .error (.outOfBounds i l.size)

/-- Whether an element of the list equals `x`. -/
def has (l : TypedList) (x : Value) : Bool := l.elems.any fun y => y == x

/-- The list with `x` at its end. -/
def append (l : TypedList) (x : Value) : Logged TypedList := do
  let t ← l.elem.join x.ty
  return ⟨t, l.elems ++ [x]⟩

/-- The list with `x` at its start. -/
def prepend (l : TypedList) (x : Value) : Logged TypedList := do
  let t ← l.elem.join x.ty
  return ⟨t, x :: l.elems⟩

/-- The elements of one list and then those of another. -/
def concat (l m : TypedList) : Logged TypedList := do
  let t ← l.elem.join m.elem
  return ⟨t, l.elems ++ m.elems⟩

/-- The elements from the last to the first. -/
def reverse (l : TypedList) : TypedList := ⟨l.elem, l.elems.reverse⟩

/-- The greatest position that a fault reports. -/
def maxPosition : Nat := Nat.pow 2 64 - 1

/-- The `length` elements from position `start` on. The end may not lie behind the end of the
list; a fault reports the end, or the greatest position if that is less. -/
def sublist (l : TypedList) (start length : Nat) : Except Fault TypedList :=
  if start + length ≤ l.size then .ok ⟨l.elem, (l.elems.drop start).take length⟩
  else .error (.outOfBounds (min (start + length) maxPosition) l.size)

/-! ## Results -/

theorem ofValues_val (xs : List Value) :
    (ofValues xs).val = ⟨(xs.map Value.ty).foldl Ty.lub .void, xs⟩ := by
  rw [← Ty.joinAll_val]
  rfl

@[simp] theorem append_val (l : TypedList) (x : Value) :
    (l.append x).val = ⟨l.elem.lub x.ty, l.elems ++ [x]⟩ := rfl

@[simp] theorem prepend_val (l : TypedList) (x : Value) :
    (l.prepend x).val = ⟨l.elem.lub x.ty, x :: l.elems⟩ := rfl

@[simp] theorem concat_val (l m : TypedList) :
    (l.concat m).val = ⟨l.elem.lub m.elem, l.elems ++ m.elems⟩ := rfl

end TypedList

end ValueLattice

import ValueLattice.Value.Table
import ValueLattice.Widening
/-!
# Sets

A set has an element type that bounds its elements. Insertion widens the bound, removal keeps
it, and the bound of a union or an intersection is the join of both bounds. Every operation
makes a new set.

* `TypedSet.ofTable`, `TypedSet.ofValues`: a set with a given bound, and with the join of the
  types of its elements;
* `insert`, `erase`, `union`, `inter`, `diff`, `subset`: the operations of set algebra;
* `collect`: the table with a given bound as a set, or as a relation when the bound is a tuple
  type.
-/

namespace ValueLattice

namespace TypedSet

/-- The set of the given values, put in one by one, with the bound `t`, which is not checked. -/
def ofTable (t : Ty) (xs : List Value) : TypedSet := ⟨t, Table.ofList xs⟩

/-- The set without elements. -/
def empty (t : Ty) : TypedSet := ⟨t, []⟩

/-- The set of the given values, bounded by the join of their types. -/
def ofValues (xs : List Value) : Logged TypedSet := do
  let t ← Ty.joinAll .void (xs.map Value.ty)
  return ofTable t xs

/-- The number of elements. -/
def size (s : TypedSet) : Nat := s.elems.length

/-- Whether `x` is in the set. -/
def has (s : TypedSet) (x : Value) : Bool := Table.has s.elems x

/-- The set with `x`. -/
def insert (s : TypedSet) (x : Value) : Logged TypedSet := do
  let t ← s.elem.join x.ty
  return ⟨t, Table.insert s.elems x⟩

/-- The set without `x`. -/
def erase (s : TypedSet) (x : Value) : TypedSet := ⟨s.elem, Table.erase s.elems x⟩

/-- The union of two sets. -/
def union (s u : TypedSet) : Logged TypedSet := do
  let t ← s.elem.join u.elem
  return ⟨t, Table.union s.elems u.elems⟩

/-- The intersection of two sets. -/
def inter (s u : TypedSet) : Logged TypedSet := do
  let t ← s.elem.join u.elem
  return ⟨t, Table.inter s.elems u.elems⟩

/-- The elements of `s` that are not in `u`. -/
def diff (s u : TypedSet) : TypedSet := ⟨s.elem, Table.diff s.elems u.elems⟩

/-- Whether each element of `s` is in `u`. -/
def subset (s u : TypedSet) : Bool := Table.subset s.elems u.elems

/-! ## Results -/

@[simp] theorem insert_val (s : TypedSet) (x : Value) :
    (s.insert x).val = ⟨s.elem.lub x.ty, Table.insert s.elems x⟩ := rfl

@[simp] theorem union_val (s u : TypedSet) :
    (s.union u).val = ⟨s.elem.lub u.elem, Table.union s.elems u.elems⟩ := rfl

@[simp] theorem inter_val (s u : TypedSet) :
    (s.inter u).val = ⟨s.elem.lub u.elem, Table.inter s.elems u.elems⟩ := rfl

theorem ofValues_val (xs : List Value) :
    (ofValues xs).val = ofTable ((xs.map Value.ty).foldl Ty.lub .void) xs := by
  rw [← Ty.joinAll_val]
  rfl

end TypedSet

/-- A relation seen as the set of its tuples. -/
def Relation.toSet (r : Relation) : TypedSet := ⟨r.row.toTuple, r.elems⟩

/-- A table bounded by `t`: a relation if `t` is a tuple type, otherwise a set. -/
def collect (t : Ty) (table : List Value) : Value :=
  match t.strip with
  | .tuple fs ls => (⟨⟨fs, ls⟩, table⟩ : Relation).toValue
  | _ => (⟨t, table⟩ : TypedSet).toValue

/-- The values of a list as a set, or as a relation when the join of their types is a tuple
type. -/
def collectValues (xs : List Value) : Logged Value := do
  let t ← Ty.joinAll .void (xs.map Value.ty)
  return collect t (Table.ofList xs)

end ValueLattice

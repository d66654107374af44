/-!
# Structural types

The types carried by values form a hierarchy with a bottom `void` and a top `value`. Between
them lie the leaf types, the collections (lists, sets, relations, maps and tuples), the nodes
with their abstract data types and constructors, and type parameters. A named type is a
transparent alias: it stands wherever its target does.

A tuple type, a relation type and the fields of a constructor are rows: field types with an
optional list of labels. The labels never take part in the order of types, only in its text.

Main definitions:

* `Ty`: the types;
* `Ty.strip`: the first type below all aliases;
* `Ty.isOpen`: whether a type parameter occurs anywhere inside a type;
* `Ty.same`, `Ty.same_iff`: the equality test, and that it decides equality.
-/

namespace ValueLattice

/-- The structural types. -/
inductive Ty
  /-- The bottom type, which no value has. -/
  | void
  /-- The top type. -/
  | value
  | bool
  | int
  | double
  | str
  /-- A location: a range inside a named source. -/
  | loc
  /-- A range of text. -/
  | range
  /-- The type of plain nodes, above every abstract data type and constructor. -/
  | node
  | list (elem : Ty)
  | set (elem : Ty)
  /-- A set of tuples, given by the row of its tuples. -/
  | rel (fields : List Ty) (labels : Option (List String))
  | map (key val : Ty)
  | tuple (fields : List Ty) (labels : Option (List String))
  /-- A transparent alias for `target`. -/
  | named (name : String) (target : Ty)
  /-- An abstract data type with its type parameters. -/
  | adt (name : String) (params : List Ty)
  /-- The constructor `name` of the abstract data type `owner` with parameters `params`. -/
  | ctor (name owner : String) (params fields : List Ty) (labels : Option (List String))
  /-- A type parameter, which only instantiation replaces. -/
  | param (name : String)
  deriving Inhabited

namespace Ty

/-! ## Equality -/

mutual

/-- The equality test on types. -/
def same : Ty → Ty → Bool
  | void, void | value, value | bool, bool | int, int | double, double | str, str => true
  | loc, loc | range, range | node, node => true
  | list a, list b | set a, set b => same a b
  | rel as ls, rel bs ms | tuple as ls, tuple bs ms => sameAll as bs && decide (ls = ms)
  | map a c, map b d => same a b && same c d
  | named n a, named m b => decide (n = m) && same a b
  | adt n as, adt m bs => decide (n = m) && sameAll as bs
  | ctor n o ps as ls, ctor m p qs bs ms =>
    decide (n = m) && decide (o = p) && sameAll ps qs && sameAll as bs && decide (ls = ms)
  | param n, param m => decide (n = m)
  | _, _ => false

/-- The equality test on lists of types. -/
def sameAll : List Ty → List Ty → Bool
  | [], [] => true
  | a :: as, b :: bs => same a b && sameAll as bs
  | _, _ => false

end

mutual

theorem same_iff (a b : Ty) : same a b = true ↔ a = b := by
  cases a with
  | list a => cases b <;> simp [same, same_iff a]
  | set a => cases b <;> simp [same, same_iff a]
  | rel as ls => cases b <;> simp [same, sameAll_iff as]
  | map a c => cases b <;> simp [same, same_iff a, same_iff c]
  | tuple as ls => cases b <;> simp [same, sameAll_iff as]
  | named n a => cases b <;> simp [same, same_iff a]
  | adt n as => cases b <;> simp [same, sameAll_iff as]
  | ctor n o ps as ls => cases b <;> simp [same, sameAll_iff ps, sameAll_iff as, and_assoc]
  | _ => cases b <;> simp [same]

theorem sameAll_iff (as bs : List Ty) : sameAll as bs = true ↔ as = bs := by
  cases as with
  | nil => cases bs <;> simp [sameAll]
  | cons a as => cases bs <;> simp [sameAll, same_iff a, sameAll_iff as]

end

instance : DecidableEq Ty := fun a b => decidable_of_iff _ (same_iff a b)

/-! ## Aliases -/

/-- The first type below all aliases. -/
def strip : Ty → Ty
  | named _ t => strip t
  | t => t

@[simp] theorem strip_named (n : String) (t : Ty) : strip (named n t) = strip t := rfl

/-- Stripping leaves no alias at the head. -/
theorem strip_ne_named (t : Ty) (n : String) (u : Ty) : strip t ≠ named n u := by
  fun_induction strip t with
  | case1 _ _ ih => exact ih
  | case2 t h => rintro rfl; exact h _ _ rfl

@[simp] theorem strip_strip (t : Ty) : strip (strip t) = strip t := by
  fun_induction strip t with
  | case1 _ _ ih => exact ih
  | case2 t h => cases t <;> first | rfl | exact absurd rfl (h _ _)

/-! ## Shapes -/

/-- Whether the type is `void`, aliases aside. -/
def isVoid (t : Ty) : Bool :=
  match t.strip with
  | void => true
  | _ => false

/-- Whether the type is a tuple type, aliases aside. -/
def isTuple (t : Ty) : Bool :=
  match t.strip with
  | tuple .. => true
  | _ => false

/-- Whether the type is a relation type, aliases aside. -/
def isRel (t : Ty) : Bool :=
  match t.strip with
  | rel .. => true
  | _ => false

/-- Whether the type is a set type, aliases aside; a relation type is none. -/
def isSet (t : Ty) : Bool :=
  match t.strip with
  | set _ => true
  | _ => false

/-- Whether values of the type are nodes: `node`, an abstract data type or a constructor. -/
def isNodeLike (t : Ty) : Bool :=
  match t.strip with
  | node | adt .. | ctor .. => true
  | _ => false

/-- The element type of a list, set or relation type; the elements of a relation are tuples. -/
def elem? (t : Ty) : Option Ty :=
  match t.strip with
  | list e | set e => some e
  | rel fs ls => some (tuple fs ls)
  | _ => none

mutual

/-- Whether a type parameter occurs anywhere inside the type. -/
def isOpen : Ty → Bool
  | param _ => true
  | list e | set e => isOpen e
  | map k v => isOpen k || isOpen v
  | tuple fs _ | rel fs _ => anyOpen fs
  | named _ t => isOpen t
  | adt _ ps => anyOpen ps
  | ctor _ _ ps fs _ => anyOpen ps || anyOpen fs
  | _ => false

/-- Whether a type parameter occurs inside one of the types. -/
def anyOpen : List Ty → Bool
  | [] => false
  | t :: ts => isOpen t || anyOpen ts

end

end Ty

end ValueLattice

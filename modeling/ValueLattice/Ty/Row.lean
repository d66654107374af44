import ValueLattice.Fault
/-!
# Rows

A row is the list of field types of a tuple type, a relation type or a constructor, with an
optional list of labels. A row made by `Row.labelled` has as many labels as fields, and no
label twice; every operation on rows keeps this.

* `Row.labelled`: the checked construction;
* `Row.field`, `Row.label?`, `Row.position?`: the field and the label at a position, and the
  position of a label;
* `Row.select`: the fields at given positions;
* `Ty.row?`, `Ty.field`, `Ty.position`: the same on the types that have rows.
-/

namespace ValueLattice

/-- Field types with optional labels. -/
structure Row where
  fields : List Ty
  labels : Option (List String)
  deriving DecidableEq, Inhabited

/-- The first text of a list that occurs earlier in it, or among `seen`. -/
def firstRepeated (seen : List String) : List String → Option String
  | [] => none
  | l :: ls => if l ∈ seen then some l else firstRepeated (l :: seen) ls

namespace Row

/-- The row of unlabelled fields. -/
def plain (fields : List Ty) : Row := ⟨fields, none⟩

/-- The row of labelled fields; the labels are as many as the fields and pairwise different. -/
def labelled (fields : List Ty) (labels : List String) : Except Fault Row :=
  if fields.length ≠ labels.length then
    .error (.shape .labels fields.length labels.length)
  else
    match firstRepeated [] labels with
    | some l => .error (.repeatedLabel l)
    | none => .ok ⟨fields, some labels⟩

/-- The row of the given fields and, if there are any, the given labels. -/
def make (fields : List Ty) : Option (List String) → Except Fault Row
  | none => .ok (plain fields)
  | some ls => labelled fields ls

/-- The number of fields. -/
def arity (r : Row) : Nat := r.fields.length

/-- The type of tuples with this row. -/
def toTuple (r : Row) : Ty := .tuple r.fields r.labels

/-- The type of relations with this row. -/
def toRel (r : Row) : Ty := .rel r.fields r.labels

/-- The text of the row. -/
def text (r : Row) : String := Ty.rowText r.fields r.labels

/-- The type of the field at position `i`. -/
def field (r : Row) (i : Nat) : Except Fault Ty :=
  match r.fields[i]? with
  | some t => .ok t
  | none => .error (.outOfBounds i r.arity)

/-- The label of the field at position `i`. -/
def label? (r : Row) (i : Nat) : Option String :=
  r.labels.bind fun ls => ls[i]?

/-- The position of the field labelled `l`. -/
def position? (r : Row) (l : String) : Option Nat :=
  r.labels.bind fun ls => ls.idxOf? l

/-- The fields at the given positions, in that order. The labels carry over unless one of them
would then occur twice. -/
def select (r : Row) (is : List Nat) : Except Fault Row := do
  let fields ← is.mapM r.field
  let labels := (r.labels.bind fun ls => is.mapM fun i => ls[i]?).filter fun ls =>
    (firstRepeated [] ls).isNone
  return ⟨fields, labels⟩

end Row

namespace Ty

/-- The row of a tuple, relation or constructor type, aliases aside. -/
def row? (t : Ty) : Option Row :=
  match t.strip with
  | tuple fs ls | rel fs ls | ctor _ _ _ fs ls => some ⟨fs, ls⟩
  | _ => none

/-- The number of fields, none where there is no row. -/
def arity (t : Ty) : Nat := (t.row?.map Row.arity).getD 0

/-- The type that a child at position `i` has to be below. A plain node takes any value at any
position. -/
def field (t : Ty) (i : Nat) : Except Fault Ty :=
  match t.strip with
  | node => .ok value
  | s =>
    match s.row? with
    | some r => r.field i
    | none => .error (.outOfBounds i 0)

/-- The position of the field labelled `l`. -/
def position (t : Ty) (l : String) : Except Fault Nat :=
  match t.row?.bind fun r => r.position? l with
  | some i => .ok i
  | none => .error (.unknownField l t)

/-- The type of relations over the tuples of a tuple type. -/
def relationOf (t : Ty) : Except Fault Ty :=
  match t.strip with
  | tuple fs ls => .ok (rel fs ls)
  | other => .error (.mismatch .tupleShape other)

end Ty

end ValueLattice

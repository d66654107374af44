import ValueLattice.Assoc
import ValueLattice.Ty.Row
/-!
# Declarations

A registry holds the declared abstract data types with their constructors, the aliases, and
the annotations that nodes may carry. Annotations are declared for an owner: one constructor,
an abstract data type with all its constructors, or every node. A label is looked up at the
most specific owner first.

* `Registry`: the declarations;
* `declareAdt`, `declareCtor`, `declareAlias`, `declareAnno`: the declarations, which leave the
  registry as it is when they fail;
* `adt?`, `ctor?`, `ctorsOf`, `alias?`, `annoType`: the look-ups.
-/

namespace ValueLattice

/-- Whom an annotation is declared for. -/
inductive Owner
  /-- Every node, abstract data type and constructor. -/
  | anyNode
  /-- Every constructor of an abstract data type. -/
  | adt (name : String)
  /-- One constructor of an abstract data type. -/
  | ctor (adt name : String)
  deriving DecidableEq

/-- The owner that stands for a type, if annotations can be declared for it. -/
def Ty.owner? (t : Ty) : Option Owner :=
  match t.strip with
  | .node => some .anyNode
  | .adt n _ => some (.adt n)
  | .ctor n o .. => some (.ctor o n)
  | _ => none

/-- The owners whose annotations a node of the given type may carry, the most specific
first. -/
def Ty.owners (t : Ty) : List Owner :=
  t.owner?.toList ++
    (match t.strip with
    | .ctor _ o .. => [.adt o]
    | _ => []) ++ [.anyNode]

/-- A declared constructor: its name, the parameters of its abstract data type, its fields. -/
structure Ctor where
  name : String
  params : List Ty
  row : Row
  deriving DecidableEq

/-- The type of a constructor of the abstract data type `owner`. -/
def Ctor.toTy (owner : String) (c : Ctor) : Ty :=
  .ctor c.name owner c.params c.row.fields c.row.labels

/-- The declarations for one family of types. -/
structure Registry where
  /-- The abstract data types with their parameters. -/
  adts : Assoc String (List Ty)
  /-- The constructors of each abstract data type, in the order of their first declaration. -/
  ctors : Assoc String (List Ctor)
  /-- The aliases with their targets. -/
  aliases : Assoc String Ty
  /-- The labels that each owner's nodes may carry, with the types of their values. -/
  annos : Assoc Owner (Assoc String Ty)

namespace Registry

/-- The registry without declarations. -/
def empty : Registry := ⟨[], [], [], []⟩

/-! ## Look-ups -/

/-- The declared abstract data type of the given name. -/
def adt? (r : Registry) (name : String) : Option Ty :=
  (r.adts.get? name).map fun ps => .adt name ps

/-- The declared alias of the given name. -/
def alias? (r : Registry) (name : String) : Option Ty :=
  (r.aliases.get? name).map fun t => .named name t

/-- The constructors declared for the abstract data type `adt`, in the order of their first
declaration. -/
def ctorsOf (r : Registry) (adt : String) : List Ty :=
  ((r.ctors.get? adt).getD []).map (Ctor.toTy adt)

/-- The constructor `name` of the abstract data type `adt`. -/
def ctor? (r : Registry) (adt name : String) : Option Ty := do
  let family ← r.ctors.get? adt
  let c ← family.find? fun c => c.name = name
  return c.toTy adt

/-- The declared type of the annotation `label` on nodes of type `on`. -/
def annoType (r : Registry) (on : Ty) (label : String) : Option Ty :=
  on.owners.findSome? fun o => (r.annos.get? o).bind fun m => m.get? label

/-- Whether the annotation `label` is declared for nodes of type `on`. -/
def declaresAnno (r : Registry) (on : Ty) (label : String) : Bool :=
  (r.annoType on label).isSome

/-! ## Declarations -/

/-- Declares an abstract data type. A second declaration returns the first one, and fails if
it has another number of parameters. -/
def declareAdt (r : Registry) (name : String) (params : List Ty) :
    Except Fault (Ty × Registry) :=
  match r.adts.get? name with
  | some ps =>
    if ps.length = params.length then .ok (.adt name ps, r)
    else .error (.shape (.redeclaration name) ps.length params.length)
  | none => .ok (.adt name params, { r with adts := r.adts.insert name params })

/-- A family of constructors with `c` in the place of its namesake, or at the end. -/
def replaceCtor (c : Ctor) : List Ctor → List Ctor
  | [] => [c]
  | d :: ds => if d.name = c.name then c :: ds else d :: replaceCtor c ds

/-- Declares a constructor of a declared abstract data type. -/
def declareCtor (r : Registry) (adt : Ty) (name : String) (fields : List Ty)
    (labels : Option (List String)) : Except Fault (Ty × Registry) := do
  match adt.strip with
  | .adt owner _ =>
    match r.adts.get? owner with
    | none => throw (.undeclaredType owner)
    | some params =>
      let row ← Row.make fields labels
      let c : Ctor := ⟨name, params, row⟩
      let family := (r.ctors.get? owner).getD []
      return (c.toTy owner, { r with ctors := r.ctors.insert owner (replaceCtor c family) })
  | other => throw (.mismatch .abstractType other)

/-- Declares an alias. -/
def declareAlias (r : Registry) (name : String) (target : Ty) : Ty × Registry :=
  (.named name target, { r with aliases := r.aliases.insert name target })

/-- Declares that nodes of type `on` may carry the annotation `label` with values of type
`t`. -/
def declareAnno (r : Registry) (on : Ty) (label : String) (t : Ty) : Except Fault Registry :=
  match on.owner? with
  | none => .error (.mismatch .nodeType on)
  | some o =>
    let declared := (r.annos.get? o).getD []
    .ok { r with annos := r.annos.insert o (declared.insert label t) }

end Registry

end ValueLattice

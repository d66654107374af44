import ValueLattice.Ty.Matching
import ValueLattice.Value.Node
/-!
# Construction of nodes

A constructor may have type parameters. To build a node of it, its fields are matched against
the types of the children, which binds each parameter of the abstract data type to the join of
the types that it meets, and to `void` where it meets none; the node is then built for the
instantiated constructor.

* `construct`: the node of a constructor type with given children;
* `constructNamed`: the same for a declared constructor.
-/

namespace ValueLattice

/-- The bindings before any field is matched: each parameter among the given types is bound to
`void`. -/
def Subst.ofParams (ps : List Ty) : Subst :=
  Assoc.ofList (ps.filterMap fun p =>
    match p with
    | .param n => some (n, .void)
    | _ => none)

/-- The bindings under which the fields of a constructor match the types of children. -/
def matchChildren (params fields : List Ty) (labels : Option (List String))
    (children : List Value) : Checked Subst := do
  let actual := Ty.tuple (children.map Value.ty) none
  let (answer, bound) ←
    (Action.start ((Ty.tuple fields labels).matchWith actual) (Subst.ofParams params) :
      Logged (Except Fault Unit × Subst))
  match answer with
  | .ok () => return bound
  | .error e => throw e

/-- The node of the constructor type `t` with the given children. -/
def construct (childrenId : Nat) (t : Ty) (children : List Value) : Checked Node := do
  match t.strip with
  | .ctor _ _ ps fs ls =>
    if t.isOpen then
      let bound ← matchChildren ps fs ls children
      Node.ofCtor childrenId (t.subst bound) children
    else Node.ofCtor childrenId t children
  | other => throw (.mismatch .constructorType other)

/-- The node of the declared constructor `name` of the abstract data type `adt`. -/
def constructNamed (childrenId : Nat) (r : Registry) (adt name : String)
    (children : List Value) : Checked Node := do
  match r.ctor? adt name with
  | some t => construct childrenId t children
  | none => throw (.undeclaredType (adt ++ "." ++ name))

/-- The plain node with the given children and annotations, each checked against the
registry. -/
def plainWithAnnos (childrenId annosId : Nat) (r : Registry) (name : String)
    (children : List Value) (annos : List (String × Value)) : Except Fault Node :=
  (Node.plain childrenId name children).setAnnos annosId r annos

/-- The node of a constructor type with the given children and annotations, each checked
against the registry. -/
def constructWithAnnos (childrenId annosId : Nat) (r : Registry) (t : Ty)
    (children : List Value) (annos : List (String × Value)) : Checked Node := do
  let n ← construct childrenId t children
  n.setAnnos annosId r annos

end ValueLattice

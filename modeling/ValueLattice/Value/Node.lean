import ValueLattice.Registry
import ValueLattice.Value.Tuple
/-!
# Nodes

A plain node takes any children. A constructed node has as many children as its constructor
has fields, each of a type below that of its field. Every node may carry annotations, which a
registry declares for its type.

A node shares its children and its annotations with others: an update of a child makes new
children and shares the annotations, an update of annotations makes new annotations and shares
the children. Operations that make a new part take the identity of that part as an argument;
the identity of the annotations of a node without any made for it is `Node.noAnnos`.

* `Node.plain`, `Node.ofCtor`: the constructions;
* `get`, `getLabel`, `set`, `setLabel`: access to children and their update;
* `hasAnno`, `getAnno`, `setAnno`, `setAnnos`, `removeAnno`, `removeAnnos`: annotations.
-/

namespace ValueLattice

namespace Node

/-- The identity of the empty annotations that all newly built nodes share. -/
def noAnnos : Nat := 0

/-- The plain node with the given name and children. -/
def plain (childrenId : Nat) (name : String) (children : List Value) : Node :=
  ⟨.node, name, childrenId, children, noAnnos, []⟩

/-- The node of a constructor type with the given children. -/
def ofCtor (childrenId : Nat) (t : Ty) (children : List Value) : Except Fault Node :=
  match t.strip with
  | .ctor n o ps fs ls =>
    if fs.length = children.length then do
      checkFields fs children
      return ⟨.ctor n o ps fs ls, n, childrenId, children, noAnnos, []⟩
    else .error (.shape (.construction n) fs.length children.length)
  | other => .error (.mismatch .constructorType other)

/-- The number of children. -/
def arity (n : Node) : Nat := n.children.length

/-! ## Children -/

/-- The child at position `i`. -/
def get (n : Node) (i : Nat) : Except Fault Value :=
  match n.children[i]? with
  | some x => .ok x
  | none => .error (.outOfBounds i n.arity)

/-- The child in the field labelled `l`. -/
def getLabel (n : Node) (l : String) : Except Fault Value := do
  n.get (← n.ty.position l)

/-- The node with `x` as its child at position `i`. -/
def set (childrenId : Nat) (n : Node) (i : Nat) (x : Value) : Except Fault Node :=
  if i < n.arity then do
    let t ← n.ty.field i
    if x.ty.leq t then
      return { n with childrenId := childrenId, children := n.children.set i x }
    else throw (.notBelow t x.ty)
  else .error (.outOfBounds i n.arity)

/-- The node with `x` as its child in the field labelled `l`. -/
def setLabel (childrenId : Nat) (n : Node) (l : String) (x : Value) : Except Fault Node := do
  n.set childrenId (← n.ty.position l) x

/-! ## Annotations -/

/-- Whether a node carries annotations. -/
def hasAnnos (n : Node) : Bool := !n.annos.isEmpty

/-- The annotation that a node carries under `l`. -/
def anno? (n : Node) (l : String) : Option Value := n.annos.lookup l

/-- Whether a node carries an annotation under `l`. It fails for a label that is neither
carried nor declared. -/
def hasAnno (n : Node) (r : Registry) (l : String) : Except Fault Bool :=
  if (n.anno? l).isSome then .ok true
  else if r.declaresAnno n.ty l then .ok false
  else .error (.undeclaredLabel l n.ty)

/-- The annotation under a declared label, if the node carries one. -/
def getAnno (n : Node) (r : Registry) (l : String) : Except Fault (Option Value) :=
  if r.declaresAnno n.ty l then .ok (n.anno? l) else .error (.undeclaredLabel l n.ty)

/-- Checks that a node may carry `x` under `l`. -/
def checkAnno (n : Node) (r : Registry) (l : String) (x : Value) : Except Fault Unit :=
  match r.annoType n.ty l with
  | none => .error (.undeclaredLabel l n.ty)
  | some t => if x.ty.leq t then .ok () else .error (.notBelow t x.ty)

/-- Annotations with `x` under `l`, in the order of their labels. -/
def insertAnno (l : String) (x : Value) : List (String × Value) → List (String × Value)
  | [] => [(l, x)]
  | (m, y) :: rest =>
    if l < m then (l, x) :: (m, y) :: rest
    else if l = m then (l, x) :: rest
    else (m, y) :: insertAnno l x rest

/-- The annotations made by inserting the given ones one by one. -/
def annosOf (entries : List (String × Value)) : List (String × Value) :=
  entries.foldl (fun as e => insertAnno e.1 e.2 as) []

/-- The node with `x` under `l`. -/
def setAnno (annosId : Nat) (n : Node) (r : Registry) (l : String) (x : Value) :
    Except Fault Node := do
  n.checkAnno r l x
  return { n with annosId := annosId, annos := insertAnno l x n.annos }

/-- The node with all given annotations. They are checked, in the order given, before any is
set. -/
def setAnnos (annosId : Nat) (n : Node) (r : Registry) (updates : List (String × Value)) :
    Except Fault Node := do
  updates.forM fun e => n.checkAnno r e.1 e.2
  return { n with
    annosId := annosId
    annos := updates.foldl (fun as e => insertAnno e.1 e.2 as) n.annos }

/-- The node without an annotation under `l`. -/
def removeAnno (annosId : Nat) (n : Node) (l : String) : Node :=
  { n with annosId := annosId, annos := n.annos.filter fun e => e.1 ≠ l }

/-- The node without annotations. -/
def removeAnnos (n : Node) : Node := { n with annosId := noAnnos, annos := [] }

/-! ## Sharing -/

/-- Whether two nodes share their children. -/
def sharesChildren (n m : Node) : Bool := n.childrenId = m.childrenId

/-- Whether two nodes share their annotations. -/
def sharesAnnos (n m : Node) : Bool := n.annosId = m.annosId

end Node

end ValueLattice

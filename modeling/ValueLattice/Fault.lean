import ValueLattice.Ty.Printer
/-!
# Faults

What can go wrong when types, values and builders are put together. A fault records its cause
in terms of types and counts; its wording is in one place, `Fault.message`.

* `Fault`: the causes;
* `Fault.Kind`, `Fault.kind`: their coarse classification;
* `Fault.message`: the wording.
-/

namespace ValueLattice

/-- The five kinds of builders. -/
inductive BuilderKind
  | set
  | relation
  | list
  | map
  | tuple
  deriving DecidableEq

/-- The name of a kind of builder. -/
def BuilderKind.name : BuilderKind → String
  | set => "set"
  | relation => "relation"
  | list => "list"
  | map => "map"
  | tuple => "tuple"

/-- What was required of a type. -/
inductive Requirement
  /-- A type below `bound`. -/
  | below (bound : Ty)
  /-- The type of a tuple. -/
  | tuple
  /-- A tuple type. -/
  | tupleType
  /-- A tuple type, to make a relation type of it. -/
  | tupleShape
  /-- A constructor type. -/
  | constructorType
  /-- An abstract data type. -/
  | abstractType
  /-- A type that owns annotations. -/
  | nodeType
  /-- The type of an entry of a map: a pair of key and value. -/
  | entry
  deriving DecidableEq

/-- The wording of a requirement. -/
def Requirement.text : Requirement → String
  | below t => t.text
  | tuple => "a tuple"
  | tupleType => "a tuple type"
  | tupleShape => "tuple[...]"
  | constructorType => "a constructor type"
  | abstractType => "an abstract data type"
  | nodeType => "a node, ADT or constructor type"
  | entry => "a <key, value> tuple"

/-- Where two counts have to agree. -/
inductive Site
  /-- The labels of a row against its fields. -/
  | labels
  /-- The elements of a tuple against the fields of its type. -/
  | tuple
  /-- The children of a node against the fields of its constructor. -/
  | construction (name : String)
  /-- The parameters of an abstract data type that is declared twice. -/
  | redeclaration (name : String)
  /-- The fields of two rows that are matched. -/
  | fieldTypes
  /-- The parameters of two types that are matched. -/
  | typeParams
  /-- The fields of the tuples of a relation. -/
  | relation
  /-- The fields of a relation that is composed with another. -/
  | composition
  /-- The fields of a relation that is closed transitively. -/
  | closure
  /-- The fields of the tuples inserted by a relation builder. -/
  | relationInsert
  /-- The elements of a tuple builder against its declared fields. -/
  | tupleBuilder
  deriving DecidableEq

namespace Site

/-- The wording of a site. -/
def context : Site → String
  | labels => "tuple field names"
  | tuple => "tuple construction"
  | construction n => "construction of " ++ n
  | redeclaration n => "redeclaration of " ++ n
  | fieldTypes => "field types"
  | typeParams => "type parameters"
  | relation => "relation"
  | composition => "composition"
  | closure => "closure"
  | relationInsert => "relation insert"
  | tupleBuilder => "tuple writer"

/-- The wording of a count found at a site. -/
def foundText (s : Site) (n : Nat) : String :=
  match s with
  | labels => toString n ++ " names"
  | tuple | tupleBuilder => toString n ++ " fields"
  | construction _ => toString n ++ " children"
  | redeclaration _ => toString n ++ " parameters"
  | typeParams => toString n
  | fieldTypes | relation | composition | closure | relationInsert => "arity " ++ toString n

/-- The wording of a count required at a site. -/
def requiredText (s : Site) (n : Nat) : String :=
  match s with
  | composition | closure => "a binary relation"
  | s => s.foundText n

end Site

/-- The causes of failure. -/
inductive Fault
  /-- The type `found` does not meet a requirement. -/
  | mismatch (required : Requirement) (found : Ty)
  /-- No annotation `label` is declared for nodes of type `owner`. -/
  | undeclaredLabel (label : String) (owner : Ty)
  /-- No actual type is left for the type parameter `param`. -/
  | unboundParam (param : String)
  /-- A builder was changed after it had produced its value. -/
  | finished (kind : BuilderKind)
  /-- Two counts differ. -/
  | shape (site : Site) (required found : Nat)
  /-- A row has the label `label` twice. -/
  | repeatedLabel (label : String)
  /-- The type `owner` has no field labelled `label`. -/
  | unknownField (label : String) (owner : Ty)
  /-- The position `index` is not below `length`. -/
  | outOfBounds (index length : Nat)
  /-- The type name `name` is not declared. -/
  | undeclaredType (name : String)
  deriving DecidableEq

namespace Fault

/-- The coarse classification of faults. -/
inductive Kind
  | mismatch
  | undeclaredLabel
  | instantiation
  | finished
  | shape
  | lookup
  deriving DecidableEq

/-- The class of a fault. A repeated label is a matter of shape, a missing name or position
one of lookup. -/
def kind : Fault → Kind
  | mismatch .. => .mismatch
  | undeclaredLabel .. => .undeclaredLabel
  | unboundParam _ => .instantiation
  | finished _ => .finished
  | shape .. | repeatedLabel _ => .shape
  | unknownField .. | outOfBounds .. | undeclaredType _ => .lookup

/-- The wording of a fault. -/
def message : Fault → String
  | mismatch r t => "type mismatch: expected a subtype of " ++ r.text ++ ", got " ++ t.text
  | undeclaredLabel l t => "no annotation named '" ++ l ++ "' is declared for " ++ t.text
  | unboundParam p => "not enough actual types to instantiate parameter &" ++ p
  | finished k => "mutation of a finalized " ++ k.name ++ " writer is not supported"
  | shape s m n =>
    "shape mismatch in " ++ s.context ++ ": expected " ++ s.requiredText m ++ ", got " ++
      s.foundText n
  | repeatedLabel l => "duplicate field name '" ++ l ++ "'"
  | unknownField l t => "type " ++ t.text ++ " has no field named '" ++ l ++ "'"
  | outOfBounds i n =>
    "index " ++ toString i ++ " out of bounds for arity " ++ toString n
  | undeclaredType n => "undeclared type '" ++ n ++ "'"

end Fault

/-- The fault of a type `found` that should be below `bound`. -/
def Fault.notBelow (bound found : Ty) : Fault := .mismatch (.below bound) found

end ValueLattice

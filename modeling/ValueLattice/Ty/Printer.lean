import ValueLattice.Ty.Basic
/-!
# The text of a type

Types are written with their parameters in square brackets, the fields of a row separated by
a comma and a blank, and a label after its field. An alias is written by its name alone, a
type parameter behind an ampersand, and a constructor as `owner.name(fields)`.

* `Ty.kindName`: the one-word name of the shape;
* `Ty.text`: the text of a type;
* `Ty.rowText`: the text of a row of fields.
-/

namespace ValueLattice.Ty

/-- The one-word name of the shape of a type. -/
def kindName : Ty → String
  | void => "void"
  | value => "value"
  | bool => "bool"
  | int => "int"
  | double => "double"
  | str => "str"
  | loc => "loc"
  | range => "range"
  | node => "node"
  | list _ => "list"
  | set _ => "set"
  | rel .. => "rel"
  | map .. => "map"
  | tuple .. => "tuple"
  | named .. => "alias"
  | adt .. => "adt"
  | ctor .. => "constructor"
  | param _ => "parameter"

/-- Each text followed by its label, as far as there are labels. -/
def withLabels : List String → List String → List String
  | t :: ts, l :: ls => (t ++ " " ++ l) :: withLabels ts ls
  | ts, _ => ts

/-- The texts of the fields of a row with their labels, separated by commas. -/
def joinFields (texts : List String) (labels : Option (List String)) : String :=
  ", ".intercalate (withLabels texts (labels.getD []))

/-- The text of an abstract data type whose parameters have the given texts. -/
def headText (name : String) (params : List String) : String :=
  if params.isEmpty then name else name ++ "[" ++ ", ".intercalate params ++ "]"

mutual

/-- The text of a type. -/
def text : Ty → String
  | list e => "list[" ++ text e ++ "]"
  | set e => "set[" ++ text e ++ "]"
  | rel fs ls => "rel[" ++ joinFields (texts fs) ls ++ "]"
  | map k v => "map[" ++ text k ++ ", " ++ text v ++ "]"
  | tuple fs ls => "tuple[" ++ joinFields (texts fs) ls ++ "]"
  | named n _ => n
  | adt n ps => headText n (texts ps)
  | ctor n o ps fs ls => headText o (texts ps) ++ "." ++ n ++ "(" ++ joinFields (texts fs) ls ++ ")"
  | param n => "&" ++ n
  | leaf => leaf.kindName

/-- The texts of the types of a list. -/
def texts : List Ty → List String
  | [] => []
  | t :: ts => text t :: texts ts

end

/-- The text of a row of fields. -/
def rowText (fields : List Ty) (labels : Option (List String)) : String :=
  joinFields (texts fields) labels

end ValueLattice.Ty

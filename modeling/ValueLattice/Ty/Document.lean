import ValueLattice.Ty.Row
/-!
# Types as documents

Types are exchanged as documents: nested texts, lists and objects. A leaf type is a text, any
other type an object with one entry, whose key names the shape. A row is an object with the
entries `fields` and `names`, of which the second may be missing or null; an abstract data
type has the entries `name` and `parameters`. Further entries are passed over. A row may also
be given as the list of its two entries in that order, likewise an abstract data type or a
constructor, and a leaf as an object with a null entry. A named type is given as an object only.

The entries of an object and the items of a list are read in the order in which they stand, and
the first fault wins. So a list of a wrong length is at fault only after the items that it has.

* `Doc`: documents;
* `Ty.toDoc`: the document of a type;
* `Ty.ofDoc`: reads a type from a document.
-/

namespace ValueLattice

/-- Documents. A number is a mantissa with a count of decimal places. -/
inductive Doc
  | null
  | bool (b : Bool)
  | num (mantissa : Int) (places : Nat)
  | str (s : String)
  | arr (items : List Doc)
  | obj (entries : List (String × Doc))
  deriving Inhabited

/-- Why a document is no type. -/
inductive DocFault
  /-- It does not have the form of a type. -/
  | malformed
  /-- It has the form of a type, but a row in it is at fault. -/
  | row (fault : Fault)
  deriving DecidableEq

namespace Ty

/-! ## Writing -/

/-- The document of labels. -/
def labelsDoc : Option (List String) → Doc
  | none => .null
  | some ls => .arr (ls.map .str)

/-- The document of a row, given those of its fields. -/
def rowDoc (fields : List Doc) (labels : Option (List String)) : Doc :=
  .obj [("fields", .arr fields), ("names", labelsDoc labels)]

/-- The document of an abstract data type, given those of its parameters. -/
def adtDoc (name : String) (params : List Doc) : Doc :=
  .obj [("name", .str name), ("parameters", .arr params)]

mutual

/-- The document of a type. -/
def toDoc : Ty → Doc
  | void => .str "Void"
  | value => .str "Value"
  | bool => .str "Bool"
  | int => .str "Integer"
  | double => .str "Double"
  | str => .str "String"
  | loc => .str "SourceLocation"
  | range => .str "SourceRange"
  | node => .str "Node"
  | list e => .obj [("List", toDoc e)]
  | set e => .obj [("Set", toDoc e)]
  | rel fs ls => .obj [("Relation", rowDoc (toDocs fs) ls)]
  | map k v => .obj [("Map", .arr [toDoc k, toDoc v])]
  | tuple fs ls => .obj [("Tuple", rowDoc (toDocs fs) ls)]
  | named n t => .obj [("Named", .obj [("alias", .str n), ("aliased", toDoc t)])]
  | adt n ps => .obj [("AbstractData", adtDoc n (toDocs ps))]
  | ctor n o ps fs ls =>
    .obj [("Constructor",
      .obj [("adt", adtDoc o (toDocs ps)), ("fields", rowDoc (toDocs fs) ls),
        ("name", .str n)])]
  | param n => .obj [("Parameter", .str n)]

/-- The documents of the types of a list. -/
def toDocs : List Ty → List Doc
  | [] => []
  | t :: ts => toDoc t :: toDocs ts

end

/-! ## Reading -/

/-- The leaf type with the given name. -/
def leafOfName : String → Option Ty
  | "Void" => some void
  | "Value" => some value
  | "Bool" => some bool
  | "Integer" => some int
  | "Double" => some double
  | "String" => some str
  | "SourceLocation" => some loc
  | "SourceRange" => some range
  | "Node" => some node
  | _ => none

/-- Reads a text. -/
def readText : Doc → Except DocFault String
  | .str s => .ok s
  | _ => .error .malformed

/-- Reads labels. -/
def readLabels : Doc → Except DocFault (Option (List String))
  | .null => .ok none
  | .arr items => some <$> items.mapM readText
  | _ => .error .malformed

/-- The row with the given fields and labels, which may be at fault. -/
def readRowOf (fields : List Ty) (labels : Option (List String)) : Except DocFault Row :=
  match Row.make fields labels with
  | .ok r => .ok r
  | .error e => .error (.row e)

/-- Fails where an entry is missing. -/
def needEntry {α : Type} : Option α → Except DocFault α
  | some a => .ok a
  | none => .error .malformed

/-- Fails where an entry was read before. -/
def onceOnly {α : Type} : Option α → Except DocFault Unit
  | some _ => .error .malformed
  | none => .ok ()

/-- Fails where items are left over. -/
def noMore : List Doc → Except DocFault Unit
  | [] => .ok ()
  | _ :: _ => .error .malformed

mutual

/-- Reads a type from a document that is at hand as a whole, as `from_value` does. There a named
type given as the list of its two entries is refused; `from_str`, which reads while it parses,
takes it. -/
def ofDoc : Doc → Except DocFault Ty
  | .str s => needEntry (leafOfName s)
  | .obj [(key, d)] =>
    match key with
    | "List" => return list (← ofDoc d)
    | "Set" => return set (← ofDoc d)
    | "Relation" => return (← readRow d).toRel
    | "Map" =>
      match d with
      | .arr (k :: rest) => do
        let k ← ofDoc k
        match rest with
        | [] => .error .malformed
        | v :: more => do
          let v ← ofDoc v
          noMore more
          return map k v
      | _ => .error .malformed
    | "Tuple" => return (← readRow d).toTuple
    | "Named" =>
      match d with
      | .obj entries => readNamed none none entries
      | _ => .error .malformed
    | "AbstractData" => do
      let a ← readAdt d
      return adt a.1 a.2
    | "Constructor" => readCtor d
    | "Parameter" => return param (← readText d)
    | name =>
      match d with
      | .null => needEntry (leafOfName name)
      | _ => .error .malformed
  | _ => .error .malformed

/-- Reads the types of a list. -/
def readEach : List Doc → Except DocFault (List Ty)
  | [] => return []
  | d :: ds => return (← ofDoc d) :: (← readEach ds)

/-- Reads a list of types. -/
def readTypes : Doc → Except DocFault (List Ty)
  | .arr ds => readEach ds
  | _ => .error .malformed

/-- Reads a row. -/
def readRow : Doc → Except DocFault Row
  | .arr (fs :: rest) => do
    let fs ← readTypes fs
    match rest with
    | [ls] => readRowOf fs (← readLabels ls)
    | _ => .error .malformed
  | .obj entries => readRowEntries none none entries
  | _ => .error .malformed

/-- Reads the entries of a row, given the fields and labels read before. -/
def readRowEntries (fields : Option (List Ty)) (labels : Option (Option (List String))) :
    List (String × Doc) → Except DocFault Row
  | [] => do readRowOf (← needEntry fields) (labels.getD none)
  | (key, d) :: rest => do
    if key = "fields" then
      onceOnly fields
      readRowEntries (some (← readTypes d)) labels rest
    else if key = "names" then
      onceOnly labels
      readRowEntries fields (some (← readLabels d)) rest
    else readRowEntries fields labels rest

/-- Reads an abstract data type: its name and parameters. -/
def readAdt : Doc → Except DocFault (String × List Ty)
  | .arr (n :: ps :: more) => do
    let n ← readText n
    let ps ← readTypes ps
    noMore more
    return (n, ps)
  | .obj entries => readAdtEntries none none entries
  | _ => .error .malformed

/-- Reads the entries of an abstract data type, given the name and parameters read before. -/
def readAdtEntries (name : Option String) (params : Option (List Ty)) :
    List (String × Doc) → Except DocFault (String × List Ty)
  | [] => return (← needEntry name, ← needEntry params)
  | (key, d) :: rest => do
    if key = "name" then
      onceOnly name
      readAdtEntries (some (← readText d)) params rest
    else if key = "parameters" then
      onceOnly params
      readAdtEntries name (some (← readTypes d)) rest
    else readAdtEntries name params rest

/-- Reads a constructor type. -/
def readCtor : Doc → Except DocFault Ty
  | .arr (n :: a :: rest) => do
    let n ← readText n
    let a ← readAdt a
    match rest with
    | [] => .error .malformed
    | r :: more => do
      let r ← readRow r
      noMore more
      return ctor n a.1 a.2 r.fields r.labels
  | .obj entries => readCtorEntries none none none entries
  | _ => .error .malformed

/-- Reads the entries of a constructor type, given the parts read before. -/
def readCtorEntries (name : Option String) (owner : Option (String × List Ty))
    (row : Option Row) : List (String × Doc) → Except DocFault Ty
  | [] => do
    let n ← needEntry name
    let a ← needEntry owner
    let r ← needEntry row
    return ctor n a.1 a.2 r.fields r.labels
  | (key, d) :: rest => do
    if key = "name" then
      onceOnly name
      readCtorEntries (some (← readText d)) owner row rest
    else if key = "adt" then
      onceOnly owner
      readCtorEntries name (some (← readAdt d)) row rest
    else if key = "fields" then
      onceOnly row
      readCtorEntries name owner (some (← readRow d)) rest
    else readCtorEntries name owner row rest

/-- Reads the entries of a named type, given the parts read before. -/
def readNamed (name : Option String) (target : Option Ty) :
    List (String × Doc) → Except DocFault Ty
  | [] => return named (← needEntry name) (← needEntry target)
  | (key, d) :: rest => do
    if key = "alias" then
      onceOnly name
      readNamed (some (← readText d)) target rest
    else if key = "aliased" then
      onceOnly target
      readNamed name (some (← ofDoc d)) rest
    else readNamed name target rest

end

end Ty

end ValueLattice

import ValueLattice.Decimal.Double
import ValueLattice.Ty.Row
/-!
# Values

Values are immutable and carry enough to recover their type: a tuple its row, a collection
the types that bound its contents, a node its own type. The contents of sets and relations are
listed in the order in which they were put in, and so are the entries of maps.

A node owns two parts that other nodes may share with it, its children and its annotations.
Each part has an identity, a number given out when the part is made; two nodes share a part
when the identities agree. Identities show in nothing else.

* `Value`, `Value.ty`: the values and their types;
* `Tuple`, `Node`, `TypedSet`, `Relation`, `TypedList`, `TypedMap`: the composite values, with
  a way into `Value` and back.
-/

namespace ValueLattice

/-- A span of text: offset and length, and the lines and columns of both ends. -/
structure Span where
  offset : Nat
  length : Nat
  startLine : Nat
  startColumn : Nat
  endLine : Nat
  endColumn : Nat
  deriving DecidableEq, Inhabited

/-- A span inside a named source. -/
structure Location where
  path : String
  span : Span
  deriving DecidableEq, Inhabited

/-- How a node is presented: as a plain node or as a constructed one. -/
inductive Guise
  | plain
  | constructed
  deriving DecidableEq, Inhabited

/-- The values. -/
inductive Value
  | bool (b : Bool)
  | int (n : Int)
  | double (d : Double)
  | str (s : String)
  | loc (l : Location)
  | range (s : Span)
  | tuple (fields : List Ty) (labels : Option (List String)) (elems : List Value)
  /-- A node of type `ty` with its children and annotations, and the identities of both. -/
  | node (guise : Guise) (ty : Ty) (name : String) (childrenId : Nat) (children : List Value)
      (annosId : Nat) (annos : List (String × Value))
  | set (elem : Ty) (elems : List Value)
  | rel (fields : List Ty) (labels : Option (List String)) (elems : List Value)
  | list (elem : Ty) (elems : List Value)
  | map (key val : Ty) (entries : List (Value × Value))
  deriving Inhabited

/-- The type of a value. -/
def Value.ty : Value → Ty
  | bool _ => .bool
  | int _ => .int
  | double _ => .double
  | str _ => .str
  | loc _ => .loc
  | range _ => .range
  | tuple fs ls _ => .tuple fs ls
  | node _ t .. => t
  | set e _ => .set e
  | rel fs ls _ => .rel fs ls
  | list e _ => .list e
  | map k v _ => .map k v

/-! ## Composite values -/

/-- A tuple: its row and its elements. -/
structure Tuple where
  row : Row
  elems : List Value

/-- A node: its type and name, its children and its annotations with their identities. The
annotations stand in the order of their labels. -/
structure Node where
  ty : Ty
  name : String
  childrenId : Nat
  children : List Value
  annosId : Nat
  annos : List (String × Value)

/-- A set with a bound on its elements. -/
structure TypedSet where
  elem : Ty
  elems : List Value

/-- A set of tuples with a bound on their rows. -/
structure Relation where
  row : Row
  elems : List Value

/-- A list with a bound on its elements. -/
structure TypedList where
  elem : Ty
  elems : List Value

/-- A map with bounds on its keys and values. -/
structure TypedMap where
  key : Ty
  val : Ty
  entries : List (Value × Value)

/-- A tuple as a value. -/
def Tuple.toValue (t : Tuple) : Value := .tuple t.row.fields t.row.labels t.elems

/-- A set as a value. -/
def TypedSet.toValue (s : TypedSet) : Value := .set s.elem s.elems

/-- A relation as a value. -/
def Relation.toValue (r : Relation) : Value := .rel r.row.fields r.row.labels r.elems

/-- A list as a value. -/
def TypedList.toValue (l : TypedList) : Value := .list l.elem l.elems

/-- A map as a value. -/
def TypedMap.toValue (m : TypedMap) : Value := .map m.key m.val m.entries

/-- A node as a value in the given guise. -/
def Node.inGuise (n : Node) (g : Guise) : Value :=
  .node g n.ty n.name n.childrenId n.children n.annosId n.annos

/-- Whether the type of a node is a constructor. -/
def Node.isConstructed (n : Node) : Bool :=
  match n.ty with
  | .ctor .. => true
  | _ => false

/-- A node as a value, in the guise that its type tells. -/
def Node.toValue (n : Node) : Value :=
  n.inGuise (if n.isConstructed then .constructed else .plain)

namespace Value

/-- The tuple that a value is. -/
def tuple? : Value → Option Tuple
  | tuple fs ls xs => some ⟨⟨fs, ls⟩, xs⟩
  | _ => none

/-- The node that a value is, in either guise. -/
def node? : Value → Option Node
  | node _ t n i xs j as => some ⟨t, n, i, xs, j, as⟩
  | _ => none

/-- The set that a value is. -/
def set? : Value → Option TypedSet
  | set e xs => some ⟨e, xs⟩
  | _ => none

/-- The relation that a value is. -/
def rel? : Value → Option Relation
  | rel fs ls xs => some ⟨⟨fs, ls⟩, xs⟩
  | _ => none

/-- The list that a value is. -/
def list? : Value → Option TypedList
  | list e xs => some ⟨e, xs⟩
  | _ => none

/-- The map that a value is. -/
def map? : Value → Option TypedMap
  | map k v es => some ⟨k, v, es⟩
  | _ => none

/-- The truth value that a value is. -/
def bool? : Value → Option Bool
  | bool b => some b
  | _ => none

/-- The integer that a value is. -/
def int? : Value → Option Int
  | int n => some n
  | _ => none

/-- The integer that a value is, if it is one of 64 bits with a sign. -/
def int64? (v : Value) : Option Int :=
  v.int?.filter fun n => -Int.pow 2 63 ≤ n && n < Int.pow 2 63

/-- The double that a value is. -/
def double? : Value → Option Double
  | double d => some d
  | _ => none

/-- The text that a value is. -/
def str? : Value → Option String
  | str s => some s
  | _ => none

/-- Whether the value is a leaf. -/
def isLeaf : Value → Bool
  | bool _ | int _ | double _ | str _ | loc _ | range _ => true
  | _ => false

/-- The number of parts of a composite value, one for a leaf. -/
def count : Value → Nat
  | tuple _ _ xs | set _ xs | rel _ _ xs | list _ xs => xs.length
  | node _ _ _ _ xs _ _ => xs.length
  | map _ _ es => es.length
  | _ => 1

/-- The values that a composite value is made of: elements, children and annotations, or keys and
values. -/
def contents : Value → List Value
  | tuple _ _ xs | set _ xs | rel _ _ xs | list _ xs => xs
  | node _ _ _ _ xs _ as => xs ++ as.map Prod.snd
  | map _ _ es => es.map Prod.fst ++ es.map Prod.snd
  | _ => []

end Value

@[simp] theorem Tuple.ty_toValue (t : Tuple) : t.toValue.ty = t.row.toTuple := rfl

theorem Value.eq_toValue_of_tuple? {x : Value} {t : Tuple} (h : x.tuple? = some t) :
    x = t.toValue := by
  cases x with
  | tuple fs ls xs =>
    cases h
    rfl
  | _ => nomatch h

@[simp] theorem Relation.ty_toValue (r : Relation) : r.toValue.ty = r.row.toRel := rfl

@[simp] theorem Node.ty_inGuise (n : Node) (g : Guise) : (n.inGuise g).ty = n.ty := rfl

@[simp] theorem Node.node?_inGuise (n : Node) (g : Guise) : (n.inGuise g).node? = some n := rfl

end ValueLattice

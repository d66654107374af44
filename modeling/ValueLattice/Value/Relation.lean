import ValueLattice.Value.Tuple
import ValueLattice.Value.TypedSet
/-!
# Relations

A relation is a set of tuples with a row that bounds theirs. Besides the operations of set
algebra, which fail for tuples of another number of fields, relations have projections, the
composition of binary relations and the transitive closure.

* `Relation.ofValues`: the relation of given tuples, bounded by the join of their rows;
* `insert`, `erase`, `union`, `inter`, `diff`, `subset`: set algebra;
* `project`, `domain`, `range`, `carrier`: projections;
* `compose`, `closure`: composition and transitive closure.
-/

namespace ValueLattice

/-- The row of a tuple. -/
def Value.needRow (v : Value) : Except Fault Row :=
  match v.tuple? with
  | some t => .ok t.row
  | none => .error (.mismatch .tuple v.ty)

/-- The join of two rows, which fails for rows of different length. -/
def Row.joinSame (r s : Row) : Checked Row := do
  match ← (r.join? s : Logged (Option Row)) with
  | some t => return t
  | none => throw (.shape .relation r.arity s.arity)

namespace Relation

/-- The relation of the given values, put in one by one, bounded by `r`; nothing is checked. -/
def ofTable (r : Row) (xs : List Value) : Relation := ⟨r, Table.ofList xs⟩

/-- The relation without tuples. -/
def empty (r : Row) : Relation := ⟨r, []⟩

/-- The join of the rows of all values of a list and, if there is one, of `bound`. -/
def joinRows : Option Row → List Value → Checked (Option Row)
  | bound, [] => return bound
  | bound, x :: xs => do
    let r ← x.needRow
    match bound with
    | none => joinRows (some r) xs
    | some b =>
      let joined ← b.joinSame r
      joinRows (some joined) xs

/-- The relation of the given tuples, bounded by the join of their rows. Without any tuple
there is no row to infer. -/
def ofValues (xs : List Value) : Checked Relation := do
  match ← joinRows none xs with
  | some r => return ofTable r xs
  | none => throw (.mismatch .tupleType .void)

/-- The number of fields. -/
def arity (r : Relation) : Nat := r.row.arity

/-- The number of tuples. -/
def size (r : Relation) : Nat := r.elems.length

/-- Whether `x` is in the relation. -/
def has (r : Relation) (x : Value) : Bool := Table.has r.elems x

/-- The tuples of the relation. -/
def tuples (r : Relation) : List Tuple := r.elems.filterMap Value.tuple?

/-! ## Set algebra -/

/-- The relation with the tuple `x`. -/
def insert (r : Relation) (x : Value) : Checked Relation := do
  let row ← x.needRow
  let joined ← r.row.joinSame row
  return ⟨joined, Table.insert r.elems x⟩

/-- The relation without `x`. -/
def erase (r : Relation) (x : Value) : Relation := ⟨r.row, Table.erase r.elems x⟩

/-- The union of two relations. -/
def union (r s : Relation) : Checked Relation := do
  let joined ← r.row.joinSame s.row
  return ⟨joined, Table.union r.elems s.elems⟩

/-- The intersection of two relations. -/
def inter (r s : Relation) : Checked Relation := do
  let joined ← r.row.joinSame s.row
  return ⟨joined, Table.inter r.elems s.elems⟩

/-- The tuples of `r` that are not in `s`. -/
def diff (r s : Relation) : Relation := ⟨r.row, Table.diff r.elems s.elems⟩

/-- Whether each tuple of `r` is in `s`. -/
def subset (r s : Relation) : Bool := Table.subset r.elems s.elems

/-! ## Projections -/

/-- The projection onto the given fields. One field gives the set of its values, several give
the relation of the selected tuples. -/
def project (r : Relation) (is : List Nat) : Except Fault Value :=
  match is with
  | [i] => do
    let t ← r.row.field i
    return collect t (Table.ofList (r.tuples.filterMap fun x => x.elems[i]?))
  | is => do
    let row ← r.row.select is
    let selected ← r.tuples.mapM fun x => x.select is
    return (ofTable row (selected.map Tuple.toValue)).toValue

/-- The values of the first field. -/
def domain (r : Relation) : Except Fault Value := r.project [0]

/-- The values of the last field. -/
def range (r : Relation) : Except Fault Value :=
  match r.arity with
  | 0 => .error (.outOfBounds 0 0)
  | n + 1 => r.project [n]

/-- The values of all fields. -/
def carrier (r : Relation) : Logged Value := do
  let t ← Ty.joinAll .void r.row.fields
  return collect t (Table.ofList (r.tuples.flatMap Tuple.elems))

/-! ## Composition and closure -/

/-- The two columns of a binary relation. -/
def columns (r : Relation) (site : Site) : Except Fault (Ty × Ty) :=
  match r.row.fields with
  | [a, b] => .ok (a, b)
  | fs => .error (.shape site 2 fs.length)

/-- The tuples of two elements, as pairs. -/
def pairs (r : Relation) : List (Value × Value) :=
  r.tuples.filterMap fun t =>
    match t.elems with
    | [a, b] => some (a, b)
    | _ => none

/-- The tuple of two values. -/
def pair (p : Value × Value) : Value := (Tuple.ofValues [p.1, p.2]).toValue

/-- Adds `b` to the successors of `a`. -/
def addSuccessor (table : List (Value × List Value)) (a b : Value) :
    List (Value × List Value) :=
  match table with
  | [] => [(a, [b])]
  | e :: rest =>
    if a.finds e.1 then (e.1, e.2 ++ [b]) :: rest else e :: addSuccessor rest a b

/-- The second elements of pairs, grouped by the first. -/
def successors (ps : List (Value × Value)) : List (Value × List Value) :=
  ps.foldl (fun table p => addSuccessor table p.1 p.2) []

/-- The successors of `a`. -/
def successorsOf (table : List (Value × List Value)) (a : Value) : List Value :=
  match table.find? fun e => a.finds e.1 with
  | some e => e.2
  | none => []

/-- The composition of two binary relations: from `(a, b)` and `(b, c)` to `(a, c)`. -/
def compose (r s : Relation) : Except Fault Relation := do
  let (left, middle) ← r.columns .composition
  let (middle', right) ← s.columns .composition
  if middle.comparable middle' then
    let table := successors s.pairs
    let composed := r.pairs.flatMap fun p => (successorsOf table p.2).map fun c => pair (p.1, c)
    return ofTable (.plain [left, right]) composed
  else throw (.notBelow middle middle')

/-- Whether a pair is among others, component by component. -/
def hasPair (closed : List (Value × Value)) (p : Value × Value) : Bool :=
  closed.any fun q => p.1.finds q.1 && p.2.finds q.2

/-- Adds the pairs of a list that are not found, and returns those added. -/
def addPairs (closed added : List (Value × Value)) :
    List (Value × Value) → List (Value × Value) × List (Value × Value)
  | [] => (closed, added)
  | p :: ps =>
    if hasPair closed p then addPairs closed added ps
    else addPairs (closed ++ [p]) (p :: added) ps

/-- Closes pairs under the successors of their second elements: takes the first pending pair,
adds its extensions, and goes on with the new ones first, for at most `fuel` pairs. -/
def close (table : List (Value × List Value)) :
    Nat → List (Value × Value) → List (Value × Value) → List (Value × Value)
  | 0, closed, _ => closed
  | _ + 1, closed, [] => closed
  | fuel + 1, closed, p :: pending =>
    let extensions := (successorsOf table p.2).map fun c => (p.1, c)
    let (closed', added) := addPairs closed [] extensions
    close table fuel closed' (added ++ pending)

/-- The transitive closure of a list of pairs. Each pair of the closure is pending once; those
that are added are made of a first and a second element of given pairs, so they are at most
the square of the given ones. -/
def closePairs (ps : List (Value × Value)) : List (Value × Value) :=
  let (given, pending) := addPairs [] [] ps
  close (successors ps) (ps.length + ps.length * ps.length + 1) given pending

/-- The transitive closure of a binary relation between comparable columns. -/
def closure (r : Relation) : Checked Relation := do
  let (left, right) ← r.columns .closure
  if left.comparable right then
    let t ← (left.join right : Logged Ty)
    return ofTable (.plain [t, t]) ((closePairs r.pairs).map pair)
  else throw (.notBelow left right)

end Relation

end ValueLattice

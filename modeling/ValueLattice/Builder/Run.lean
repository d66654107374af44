import ValueLattice.Builder.Any
/-!
# Runs of builders

What each kind of builder can be asked to do, and what a sequence of requests comes to. All
kinds insert and delete; a list builder also inserts and replaces at positions, and a map
builder takes a key and a value apart.

* `BuilderOf`, `Fresh`: the builders of one kind, and those just made;
* `Edit`, `Edit.run`: the changes that builders of a kind offer;
* `BuilderCall`, `BuilderCall.run`: a change, the insertion of several values, or the request
  for the value;
* `runCalls`: the calls of a sequence one after another, with all answers and the whole log;
* `effects`: the changes that took effect in such a sequence.
-/

namespace ValueLattice

/-! ## Builders of one kind -/

/-- The builders of one kind. -/
abbrev BuilderOf : BuilderKind → Type
  | .set => SetBuilder
  | .relation => RelationBuilder
  | .list => ListBuilder
  | .map => MapBuilder
  | .tuple => TupleBuilder

/-- The bounds that a builder can start with: nothing inferred yet, or a declared type. -/
inductive Bound.Initial : Bound → Prop
  | inferred : Initial .start
  | declared (t : Ty) : Initial (.declared t)

/-- A builder that was just made. -/
inductive Fresh : {k : BuilderKind} → BuilderOf k → Prop
  | set {b : Bound} (h : b.Initial) : Fresh (k := .set) (SetBuilder.new b)
  | relation : Fresh (k := .relation) (RelationBuilder.new .start)
  | relationOf (r : Row) : Fresh (k := .relation) (RelationBuilder.ofRow r)
  | list {b : Bound} (h : b.Initial) : Fresh (k := .list) (ListBuilder.new b)
  | map : Fresh (k := .map) (MapBuilder.new .start .start)
  | mapOf (key val : Ty) : Fresh (k := .map) (MapBuilder.new (.declared key) (.declared val))
  | tuple : Fresh (k := .tuple) TupleBuilder.new
  | tupleOf {t : Ty} {b : TupleBuilder} (h : TupleBuilder.ofType t = .ok b) :
    Fresh (k := .tuple) b

namespace BuilderOf

/-- A builder of one kind as a builder of any kind. -/
def toBuilder : {k : BuilderKind} → BuilderOf k → Builder
  | .set, b => .set b
  | .relation, b => .relation b
  | .list, b => .list b
  | .map, b => .map b
  | .tuple, b => .tuple b

variable {k : BuilderKind}

/-- Whether the builder is closed. -/
def isClosed (b : BuilderOf k) : Bool := b.toBuilder.isClosed

/-- The number of elements. -/
def size (b : BuilderOf k) : Nat := b.toBuilder.size

/-- Produces the value, building it the first time only. -/
def done : {k : BuilderKind} → Action (BuilderOf k) Value
  | .set => SetBuilder.done
  | .relation => RelationBuilder.done
  | .list => ListBuilder.done
  | .map => MapBuilder.done
  | .tuple => TupleBuilder.done

end BuilderOf

/-! ## Calls -/

/-- The changes of a builder of kind `k`. -/
inductive Edit : BuilderKind → Type
  | insert {k : BuilderKind} (x : Value) : Edit k
  | delete {k : BuilderKind} (x : Value) : Edit k
  | append (x : Value) : Edit .list
  | insertAt (i : Nat) (x : Value) : Edit .list
  | replaceAt (i : Nat) (x : Value) : Edit .list
  | put (key val : Value) : Edit .map

namespace Edit

/-- Makes the change. -/
def run : {k : BuilderKind} → Edit k → Action (BuilderOf k) Unit
  | .set, insert x => SetBuilder.insert x
  | .set, delete x => SetBuilder.delete x
  | .relation, insert x => RelationBuilder.insert x
  | .relation, delete x => RelationBuilder.delete x
  | .list, insert x => ListBuilder.insert x
  | .list, delete x => ListBuilder.delete x
  | .list, append x => ListBuilder.insert x
  | .list, insertAt i x => ListBuilder.insertAt i x
  | .list, replaceAt i x => ListBuilder.replaceAt i x
  | .map, insert x => MapBuilder.insert x
  | .map, delete x => MapBuilder.delete x
  | .map, put key val => MapBuilder.put key val
  | .tuple, insert x => TupleBuilder.insert x
  | .tuple, delete x => TupleBuilder.delete x

/-- The values that the change is given. -/
def values {k : BuilderKind} : Edit k → List Value
  | insert x | delete x | append x | insertAt _ x | replaceAt _ x => [x]
  | put key val => [key, val]

end Edit

variable {k : BuilderKind}

/-- Adds the values of a list one by one, up to the first failure. -/
def BuilderOf.insertAll (xs : List Value) : Action (BuilderOf k) Unit :=
  insertEach k BuilderOf.isClosed (fun x => (Edit.insert x).run) xs

/-- What a builder of kind `k` can be asked. The last call `finish` asks for the value like
`done`, and gives the builder up. -/
inductive BuilderCall (k : BuilderKind)
  | edit (e : Edit k)
  | insertAll (xs : List Value)
  | done
  | finish

namespace BuilderCall

/-- Does what is asked. A call for the value answers with it, any other with nothing. -/
def run : BuilderCall k → Action (BuilderOf k) (Option Value)
  | edit e => do
    e.run
    return none
  | insertAll xs => do
    BuilderOf.insertAll xs
    return none
  | done | finish => do
    let v ← BuilderOf.done
    return some v

/-- The values that the call is given. -/
def values : BuilderCall k → List Value
  | edit e => e.values
  | insertAll xs => xs
  | done | finish => []

end BuilderCall

/-- Runs calls one after another, whatever they answer: the answers, the builder in the end and
the log of all calls. -/
def runCalls : List (BuilderCall k) → BuilderOf k →
    Logged (List (Except Fault (Option Value)) × BuilderOf k)
  | [], b => return ([], b)
  | c :: cs, b => do
    let (answer, b) ← c.run.start b
    let (answers, b) ← runCalls cs b
    return (answer :: answers, b)

/-- The builder that a sequence of calls leaves. -/
def builderAfter (calls : List (BuilderCall k)) (b : BuilderOf k) : BuilderOf k :=
  (runCalls calls b).val.2

/-! ## What took effect -/

/-- The insertions of values one by one up to the first that fails. -/
def insertEffects : List Value → BuilderOf k → List (Edit k)
  | [], _ => []
  | x :: xs, b =>
    match ((Edit.insert x).run.start b).val with
    | (.ok (), b') => .insert x :: insertEffects xs b'
    | (.error _, _) => []

/-- The changes that a call makes. -/
def BuilderCall.effects (b : BuilderOf k) : BuilderCall k → List (Edit k)
  | edit e =>
    match (e.run.start b).val.1 with
    | .ok () => [e]
    | .error _ => []
  | insertAll xs => insertEffects xs b
  | done | finish => []

/-- The changes that a sequence of calls makes, in order. -/
def effects : List (BuilderCall k) → BuilderOf k → List (Edit k)
  | [], _ => []
  | c :: cs, b => c.effects b ++ effects cs (c.run.start b).val.2

end ValueLattice

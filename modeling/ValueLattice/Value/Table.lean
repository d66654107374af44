import ValueLattice.Value.Equality
/-!
# Tables

The contents of sets, relations and maps. A table lists its elements in the order in which
they were put in, and holds none that finds an earlier one. Putting in an element that is
found already changes nothing; binding a key that is found already keeps the old key and takes
the new value.

Equality of values is not transitive, so it matters whose elements an operation takes: a union
takes all of the larger table, an intersection takes from the smaller, and of two tables of one
size the first counts as the larger in a union and as the smaller in an intersection.

For the same reason a value may find several elements of one table. Wherever one of them has to be
chosen it is the one that was put in first. This is an assumption: a hash table promises no order
among them, and may change their order when it grows.

* `Table`: membership, insertion and removal, and the operations of set algebra;
* `EntryTable`: the same for the entries of maps.
-/

namespace ValueLattice

namespace Table

/-- Whether `x` is found in a table. -/
def has (t : List Value) (x : Value) : Bool := t.any x.finds

/-- The table with `x`, unless it is found already. -/
def insert (t : List Value) (x : Value) : List Value := if has t x then t else t ++ [x]

/-- The table of the values of a list, put in one by one. -/
def ofList (xs : List Value) : List Value := xs.foldl insert []

/-- The table without the first element that `x` finds. -/
def erase (t : List Value) (x : Value) : List Value := t.eraseP x.finds

/-- The elements of `t` that are not found in `u`. -/
def diff (t u : List Value) : List Value := t.filter fun x => !has u x

/-- All elements of the larger table, then those of the other that are not found there. -/
def union (t u : List Value) : List Value :=
  if u.length ≤ t.length then t ++ diff u t else u ++ diff t u

/-- The elements of the smaller table that are found in the other. -/
def inter (t u : List Value) : List Value :=
  if t.length ≤ u.length then t.filter (has u) else u.filter (has t)

/-- Whether `t` has no more elements than `u` and each of them is found there. -/
def subset (t u : List Value) : Bool := t.length ≤ u.length && t.all (has u)

@[simp] theorem has_nil (x : Value) : has [] x = false := rfl

end Table

namespace EntryTable

/-- The entry whose key `k` finds. Of several entries with such a key it is the one that was put in
first, which a hash table does not promise. -/
def find? (t : List (Value × Value)) (k : Value) : Option (Value × Value) :=
  t.find? fun e => k.finds e.1

/-- The value bound to `k`. -/
def get? (t : List (Value × Value)) (k : Value) : Option Value := (find? t k).map (·.2)

/-- Whether `k` is bound. -/
def has (t : List (Value × Value)) (k : Value) : Bool := (find? t k).isSome

/-- Binds `k` to `v`. A key that is found already is kept and takes the new value. -/
def put (t : List (Value × Value)) (k v : Value) : List (Value × Value) :=
  match t with
  | [] => [(k, v)]
  | e :: rest => if k.finds e.1 then (e.1, v) :: rest else e :: put rest k v

/-- Binds the entries of a list one by one. -/
def putAll (t es : List (Value × Value)) : List (Value × Value) :=
  es.foldl (fun t e => put t e.1 e.2) t

/-- The table without the first entry whose key `k` finds. -/
def erase (t : List (Value × Value)) (k : Value) : List (Value × Value) :=
  t.eraseP fun e => k.finds e.1

/-- Whether `t` binds `e`'s key to a value equal to `e`'s. -/
def binds (t : List (Value × Value)) (e : Value × Value) : Bool :=
  match get? t e.1 with
  | some v => v == e.2
  | none => false

end EntryTable

end ValueLattice

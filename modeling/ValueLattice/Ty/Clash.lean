import ValueLattice.Ty.Join
/-!
# Clashes

A join falls to the top where two shapes have nothing in common. `clashes` lists the pairs of
types, aliases stripped, at which the join of two types does so, in the order in which the join
visits them: fields from left to right, keys before values, the parameters of a constructor
before its fields. A join with a pair of strictly ordered or equal types visits nothing.

Two shapes have an order of their own: a relation against a set compares the tuples of the
relation with the elements of the set, and a constructor against an abstract data type
compares the type that owns the constructor with the other, on whichever side they stand. So
the recursion, which follows the first type, carries a flag for pairs that are to be listed
the other way round.

* `Ty.clashes`: the pairs at which a join falls to the top.
-/

namespace ValueLattice.Ty

/-- The pair of two types, listed the other way round when `flip` is set. -/
def oriented (flip : Bool) (a b : Ty) : Ty × Ty := if flip then (b, a) else (a, b)

/-- Whether the join of two types is one of them without a look at their shapes. -/
def settled (a b : Ty) : Bool := decide (a = b.strip) || (leq a b != leq b a)

/-- The clashes of two abstract data types, given those of their parameters. -/
def adtClashes (n : String) (ps : List Ty) (m : String) (qs : List Ty)
    (below : List (Ty × Ty)) : List (Ty × Ty) :=
  if settled (adt n ps) (adt m qs) then []
  else if n = m ∧ ps.length = qs.length then below else []

mutual

/-- The clashes of the join of `a` and `b`, or of `b` and `a` when `flip` is set. -/
def clashesFrom (flip : Bool) : Ty → Ty → List (Ty × Ty)
  | named _ t, b => clashesFrom flip t b
  | list e, b =>
    if settled (list e) b then []
    else
      match b.strip with
      | list f => clashesFrom flip e f
      | c => [oriented flip (list e) c]
  | set e, b =>
    if settled (set e) b then []
    else
      match b.strip with
      | set f => clashesFrom flip e f
      | rel gs ms => clashesFrom true e (tuple gs ms)
      | c => [oriented flip (set e) c]
  | rel fs ls, b =>
    if settled (rel fs ls) b then []
    else
      match b.strip with
      | rel gs ms =>
        if fs.length = gs.length then clashesAll flip fs gs
        else [oriented flip (tuple fs ls) (tuple gs ms)]
      | set f =>
        if settled (tuple fs ls) f then []
        else
          match f.strip with
          | tuple gs ms =>
            if fs.length = gs.length then clashesAll false fs gs
            else [(tuple fs ls, tuple gs ms)]
          | c => [(tuple fs ls, c)]
      | c => [oriented flip (rel fs ls) c]
  | map k v, b =>
    if settled (map k v) b then []
    else
      match b.strip with
      | map l w => clashesFrom flip k l ++ clashesFrom flip v w
      | c => [oriented flip (map k v) c]
  | tuple fs ls, b =>
    if settled (tuple fs ls) b then []
    else
      match b.strip with
      | tuple gs ms =>
        if fs.length = gs.length then clashesAll flip fs gs
        else [oriented flip (tuple fs ls) (tuple gs ms)]
      | c => [oriented flip (tuple fs ls) c]
  | adt n ps, b =>
    if settled (adt n ps) b then []
    else
      match b.strip with
      | adt m qs => if n = m ∧ ps.length = qs.length then clashesAll flip ps qs else []
      | ctor _ m qs _ _ => adtClashes n ps m qs (clashesAll true ps qs)
      | c => [oriented flip (adt n ps) c]
  | ctor n o ps fs ls, b =>
    if settled (ctor n o ps fs ls) b then []
    else
      match b.strip with
      | adt m qs => adtClashes o ps m qs (clashesAll false ps qs)
      | ctor m p qs gs _ =>
        if n = m ∧ o = p ∧ ps.length = qs.length then
          clashesAll flip ps qs ++
            (if fs.length = gs.length then clashesAll flip fs gs
             else adtClashes o ps p qs (clashesAll flip ps qs))
        else adtClashes o ps p qs (clashesAll flip ps qs)
      | c => [oriented flip (ctor n o ps fs ls) c]
  | a, b => if settled a b then [] else [oriented flip a b.strip]

/-- The clashes of the joins of two lists, position by position. -/
def clashesAll (flip : Bool) : List Ty → List Ty → List (Ty × Ty)
  | a :: as, b :: bs => clashesFrom flip a b ++ clashesAll flip as bs
  | _, _ => []

end

/-- The pairs of types at which the join of `a` and `b` falls to the top. -/
def clashes (a b : Ty) : List (Ty × Ty) := clashesFrom false a b

/-- The clashes of two rows of equal length. -/
def clashesRows (r s : Row) : List (Ty × Ty) :=
  if r.arity = s.arity then clashesAll false r.fields s.fields else []

end ValueLattice.Ty

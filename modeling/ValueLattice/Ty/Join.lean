import ValueLattice.Ty.Order
import ValueLattice.Ty.Row
/-!
# Joins

`a.lub b` is the least upper bound of two types. Where one of them is strictly below the
other, the join is the larger one as it is written. Otherwise it is rebuilt from the shapes
below the aliases: field by field where the shapes agree, and `node` or `value` where they do
not. Labels survive in a join only when both rows carry the same ones.

* `Ty.lub`: the join of two types;
* `Row.lub?`: the join of two rows of equal length;
* `lub_self`: a type joined with itself.
-/

namespace ValueLattice

namespace Ty

/-- The choice between two types and a third, rebuilt from both: the larger of the two where
exactly one is below the other. -/
def choose (a b rebuilt : Ty) : Ty :=
  if a = b then a
  else
    match leq a b, leq b a with
    | true, false => b
    | false, true => a
    | _, _ => rebuilt

/-- The labels of a joined row: those that both sides have. -/
def commonLabels (ls ms : Option (List String)) : Option (List String) :=
  if ls = ms then ls else none

/-- The join of two abstract data types, given the joins of their parameters. -/
def joinAdt (n : String) (ps : List Ty) (m : String) (qs joined : List Ty) : Ty :=
  choose (adt n ps) (adt m qs) (if n = m ∧ ps.length = qs.length then adt n joined else node)

mutual

/-- The type rebuilt from the shapes of two types, aliases stripped. -/
def rebuild : Ty → Ty → Ty
  | named _ t, b => rebuild t b
  | list e, b =>
    match b.strip with
    | list f => list (choose e f (rebuild e f))
    | _ => value
  | set e, b =>
    match b.strip with
    | set f => set (choose e f (rebuild e f))
    | rel gs ms => set (choose e (tuple gs ms) (rebuild e (tuple gs ms)))
    | _ => value
  | rel fs ls, b =>
    match b.strip with
    | rel gs ms =>
      if fs.length = gs.length then rel (lubAll fs gs) (commonLabels ls ms) else set value
    | set f =>
      set (choose (tuple fs ls) f
        (match f.strip with
        | tuple gs ms =>
          if fs.length = gs.length then tuple (lubAll fs gs) (commonLabels ls ms) else value
        | _ => value))
    | _ => value
  | map k v, b =>
    match b.strip with
    | map l w => map (choose k l (rebuild k l)) (choose v w (rebuild v w))
    | _ => value
  | tuple fs ls, b =>
    match b.strip with
    | tuple gs ms =>
      if fs.length = gs.length then tuple (lubAll fs gs) (commonLabels ls ms) else value
    | _ => value
  | adt n ps, b =>
    match b.strip with
    | adt m qs => if n = m ∧ ps.length = qs.length then adt n (lubAll ps qs) else node
    | ctor _ m qs _ _ => joinAdt n ps m qs (lubAll ps qs)
    | _ => value
  | ctor n o ps fs ls, b =>
    match b.strip with
    | adt m qs => joinAdt o ps m qs (lubAll ps qs)
    | ctor m p qs gs ms =>
      if n = m ∧ o = p ∧ ps.length = qs.length ∧ fs.length = gs.length then
        ctor n o (lubAll ps qs) (lubAll fs gs) (commonLabels ls ms)
      else joinAdt o ps p qs (lubAll ps qs)
    | _ => value
  | a, b => if a = b.strip then a else value

/-- The joins of the types of two lists, position by position. -/
def lubAll : List Ty → List Ty → List Ty
  | a :: as, b :: bs => choose a b (rebuild a b) :: lubAll as bs
  | _, _ => []

end

/-- The least upper bound of two types. -/
def lub (a b : Ty) : Ty := choose a b (rebuild a b)

/-! ## First laws -/

theorem lubAll_cons (a b : Ty) (as bs : List Ty) :
    lubAll (a :: as) (b :: bs) = lub a b :: lubAll as bs := by
  simp [lubAll, lub]

theorem length_lubAll {as bs : List Ty} (h : as.length = bs.length) :
    (lubAll as bs).length = as.length := by
  induction as generalizing bs with
  | nil => simp [lubAll]
  | cons a as ih =>
    cases bs with
    | nil => simp at h
    | cons b bs => simp [lubAll, ih (Nat.succ.inj h)]

@[simp] theorem choose_self (a c : Ty) : choose a a c = a := by simp [choose]

@[simp] theorem lub_self (a : Ty) : lub a a = a := choose_self a _

end Ty

/-- The join of two rows of equal length, field by field. -/
def Row.lub? (r s : Row) : Option Row :=
  if r.arity = s.arity then
    some ⟨Ty.lubAll r.fields s.fields, Ty.commonLabels r.labels s.labels⟩
  else none

end ValueLattice

import ValueLattice.Ty.Basic
/-!
# The order of types

`a.leq b` says that every value of type `a` may stand where a `b` is asked for. The bottom is
below everything and everything is below the top; collections and rows are covariant, rows of
different length are unrelated and labels play no part; a relation is also a set of its tuples;
a constructor is below its abstract data type, which is below `node`. Aliases are looked
through on both sides.

* `Ty.leq`: the order;
* `Ty.comparable`, `Ty.equivalent`: related in one direction, in both;
* `leq_value`, `leq_strip_right`, `leq_strip_left`: the top, and that aliases are transparent.
-/

namespace ValueLattice.Ty

mutual

/-- The order of types. It follows the shape of the left type, aliases stripped on the right. -/
def leq : Ty → Ty → Bool
  | void, _ => true
  | named _ t, b => leq t b
  | list e, b =>
    match b.strip with
    | value => true
    | list f => leq e f
    | _ => false
  | set e, b =>
    match b.strip with
    | value => true
    | set f => leq e f
    | _ => false
  | rel fs _, b =>
    match b.strip with
    | value => true
    | rel gs _ => leqAll fs gs
    | set f =>
      match f.strip with
      | value => true
      | tuple gs _ => leqAll fs gs
      | _ => false
    | _ => false
  | map k v, b =>
    match b.strip with
    | value => true
    | map l w => leq k l && leq v w
    | _ => false
  | tuple fs _, b =>
    match b.strip with
    | value => true
    | tuple gs _ => leqAll fs gs
    | _ => false
  | adt n ps, b =>
    match b.strip with
    | value | node => true
    | adt m qs => decide (n = m) && leqAll ps qs
    | _ => false
  | ctor n o ps fs _, b =>
    match b.strip with
    | value | node => true
    | adt m qs => decide (o = m) && leqAll ps qs
    | ctor m p qs gs _ => decide (n = m) && decide (o = p) && leqAll ps qs && leqAll fs gs
    | _ => false
  | a, b =>
    match b.strip with
    | value => true
    | c => decide (a = c)

/-- The order of rows: equal length, and each field below the other's. -/
def leqAll : List Ty → List Ty → Bool
  | [], [] => true
  | a :: as, b :: bs => leq a b && leqAll as bs
  | _, _ => false

end

/-- Two types are comparable when one is below the other. -/
def comparable (a b : Ty) : Bool := leq a b || leq b a

/-- Two types are equivalent when each is below the other. -/
def equivalent (a b : Ty) : Bool := leq a b && leq b a

/-- Two rows are comparable when one is below the other as a whole. -/
def comparableRows (as bs : List Ty) : Bool := leqAll as bs || leqAll bs as

/-! ## The top and the aliases -/

/-- Everything is below the top. -/
theorem leq_value (a : Ty) : leq a value = true := by
  fun_induction strip a with
  | case1 n t ih => simpa [leq] using ih
  | case2 a h => cases a <;> simp_all [leq, strip]

/-- An alias on the left stands for its target. -/
theorem leq_strip_left (a b : Ty) : leq a.strip b = leq a b := by
  fun_induction strip a with
  | case1 n t ih => simpa [leq] using ih
  | case2 a h => rfl

/-- An alias on the right stands for its target. -/
theorem leq_strip_right (a b : Ty) : leq a b.strip = leq a b := by
  fun_induction strip a with
  | case1 n t ih => simpa [leq] using ih
  | case2 a h => cases a <;> simp_all [leq]

theorem leqAll_length {as bs : List Ty} (h : leqAll as bs = true) : as.length = bs.length := by
  induction as generalizing bs with
  | nil => cases bs <;> simp_all [leqAll]
  | cons a as ih =>
    cases bs with
    | nil => simp [leqAll] at h
    | cons b bs => simp [leqAll] at h; simp [ih h.2]

end ValueLattice.Ty

import ValueLattice.Ty.Substitution
/-!
# Matching for type parameters

A type with parameters is matched against an actual type. Each parameter is bound to the join
of all types that it is matched with, beginning with the binding it had before, if any. An
actual type without values matches everything and binds nothing. Where no parameter is at
stake, the actual type has to be below the type it is matched with.

* `Ty.matchWith`: matches a type, changing the bindings; a failure keeps the bindings made
  before it.
-/

namespace ValueLattice

/-- Binds the parameter `n` to the join of its binding, if any, and `t`. -/
def Subst.widen (n : String) (t : Ty) : Action Subst Unit := do
  let s ← get
  match s.get? n with
  | none => set (s.insert n t)
  | some u =>
    let joined ← (u.join t : Logged Ty)
    set (s.insert n joined)

namespace Ty

/-- Matches a type without a shape in common with `actual`: it passes if no parameter is at
stake and `actual` is below it. -/
def matchBelow (expected actual : Ty) : Action Subst Unit :=
  if !expected.isOpen && leq actual expected then return ()
  else throw (.notBelow expected actual)

/-- Fails where two counts differ. -/
def matchCounts (site : Site) (expected actual : Nat) : Action Subst Unit :=
  if expected = actual then return () else throw (.shape site expected actual)

mutual

/-- Matches a type with an actual type, widening the bindings of its parameters. -/
def matchWith : Ty → Ty → Action Subst Unit
  | param n, actual => if actual.isVoid then return () else Subst.widen n actual
  | named _ t, actual => if actual.isVoid then return () else matchWith t actual
  | list e, actual =>
    if actual.isVoid then return ()
    else
      match actual.strip with
      | list a => matchWith e a
      | _ => matchBelow (list e) actual
  | set e, actual =>
    if actual.isVoid then return ()
    else
      match actual.strip with
      | set a => matchWith e a
      | rel as ls => matchWith e (tuple as ls)
      | _ => matchBelow (set e) actual
  | map k v, actual =>
    if actual.isVoid then return ()
    else
      match actual.strip with
      | map a b => do
        matchWith k a
        matchWith v b
      | _ => matchBelow (map k v) actual
  | tuple fs ls, actual =>
    if actual.isVoid then return ()
    else
      match actual.strip with
      | tuple as _ => do
        matchCounts .fieldTypes fs.length as.length
        matchAll fs as
      | _ => matchBelow (tuple fs ls) actual
  | rel fs ls, actual =>
    if actual.isVoid then return ()
    else
      match actual.strip with
      | rel as _ => do
        matchCounts .fieldTypes fs.length as.length
        matchAll fs as
      | _ => matchBelow (rel fs ls) actual
  | adt n ps, actual =>
    if actual.isVoid then return ()
    else
      match actual.strip with
      | adt m qs | ctor _ m qs _ _ =>
        if n = m then do
          matchCounts .typeParams ps.length qs.length
          matchAll ps qs
        else matchBelow (adt n ps) actual
      | _ => matchBelow (adt n ps) actual
  | ctor n o ps fs ls, actual =>
    if actual.isVoid then return ()
    else
      match actual.strip with
      | ctor m _ qs as _ =>
        if n = m then do
          matchCounts .typeParams ps.length qs.length
          matchAll ps qs
          matchCounts .fieldTypes fs.length as.length
          matchAll fs as
        else matchBelow (ctor n o ps fs ls) actual
      | _ => matchBelow (ctor n o ps fs ls) actual
  | t, actual => if actual.isVoid then return () else matchBelow t actual

/-- Matches the types of two lists, from left to right. -/
def matchAll : List Ty → List Ty → Action Subst Unit
  | t :: ts, a :: as => do
    matchWith t a
    matchAll ts as
  | _, _ => return ()

end

end Ty

end ValueLattice

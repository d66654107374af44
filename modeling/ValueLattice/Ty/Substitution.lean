import ValueLattice.Assoc
import ValueLattice.Widening
/-!
# Substitution for type parameters

A substitution binds type parameters to types; parameters that it does not bind stay. Types
can also be instantiated with a list of actual types: a parameter that is met for the first
time takes the next actual type, and every later occurrence resolves to that binding. A
constructor meets the parameters of its abstract data type before its fields.

* `Ty.subst`: replaces the bound parameters of a type;
* `Positional`, `Ty.instantiate`: instantiation by position, which fails when the actual
  types run out and keeps the bindings made until then.
-/

namespace ValueLattice

/-- Types bound to type parameters. -/
abbrev Subst := Assoc String Ty

namespace Ty

mutual

/-- Replaces each parameter that `s` binds. -/
def subst (s : Subst) : Ty → Ty
  | param n => (s.get? n).getD (param n)
  | list e => list (subst s e)
  | set e => set (subst s e)
  | rel fs ls => rel (substAll s fs) ls
  | map k v => map (subst s k) (subst s v)
  | tuple fs ls => tuple (substAll s fs) ls
  | named n t => named n (subst s t)
  | adt n ps => adt n (substAll s ps)
  | ctor n o ps fs ls => ctor n o (substAll s ps) (substAll s fs) ls
  | t => t

/-- Replaces each bound parameter in the types of a list. -/
def substAll (s : Subst) : List Ty → List Ty
  | [] => []
  | t :: ts => subst s t :: substAll s ts

end

@[simp] theorem length_substAll (s : Subst) (ts : List Ty) :
    (substAll s ts).length = ts.length := by
  induction ts with
  | nil => rfl
  | cons t ts ih => simp [substAll, ih]

end Ty

/-- The state of an instantiation by position: the actual types not yet taken, and the
bindings made. -/
structure Positional where
  actuals : List Ty
  bound : Subst

namespace Positional

/-- The state before any parameter is met. -/
def new (actuals : List Ty) : Positional := ⟨actuals, []⟩

/-- The type for the parameter `n`: its binding, or else the next actual type. -/
def bind (n : String) : Action Positional Ty := do
  let s ← get
  match s.bound.get? n with
  | some t => return t
  | none =>
    match s.actuals with
    | [] => throw (.unboundParam n)
    | t :: rest =>
      set (⟨rest, s.bound.insert n t⟩ : Positional)
      return t

end Positional

namespace Ty

mutual

/-- Replaces every parameter of a type, binding new ones from left to right. -/
def instantiate : Ty → Action Positional Ty
  | param n => Positional.bind n
  | list e => return list (← instantiate e)
  | set e => return set (← instantiate e)
  | rel fs ls => return rel (← instantiateAll fs) ls
  | map k v => return map (← instantiate k) (← instantiate v)
  | tuple fs ls => return tuple (← instantiateAll fs) ls
  | named n t => return named n (← instantiate t)
  | adt n ps => return adt n (← instantiateAll ps)
  | ctor n o ps fs ls => return ctor n o (← instantiateAll ps) (← instantiateAll fs) ls
  | t => return t

/-- Replaces every parameter in the types of a list, from left to right. -/
def instantiateAll : List Ty → Action Positional (List Ty)
  | [] => return []
  | t :: ts => return (← instantiate t) :: (← instantiateAll ts)

end

end Ty

end ValueLattice

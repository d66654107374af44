import ValueLattice.Registry
/-!
# Runs of declarations

What can be declared in a registry, and what a sequence of declarations comes to, whatever each of
them answers. A declaration that fails leaves the registry as it is.

* `Declaration`, `Declaration.run`: the declarations;
* `RegistryRun`, `RegistryRun.perform`: a registry with the declarations that made it, and the next
  declaration;
* `RegistryRun.after`: a sequence of declarations, from the start on.
-/

namespace ValueLattice

/-- What can be declared. -/
inductive Declaration
  | adt (name : String) (params : List Ty)
  | ctor (owner : Ty) (name : String) (fields : List Ty) (labels : Option (List String))
  | named (name : String) (target : Ty)
  | anno (on : Ty) (label : String) (t : Ty)

/-- Makes the declaration. It answers with the declared type, and for an annotation with nothing. -/
def Declaration.run (r : Registry) : Declaration → Except Fault (Option Ty × Registry)
  | adt name params => do
    let (t, s) ← r.declareAdt name params
    return (some t, s)
  | ctor owner name fields labels => do
    let (t, s) ← r.declareCtor owner name fields labels
    return (some t, s)
  | named name target =>
    let (t, s) := r.declareAlias name target
    return (some t, s)
  | anno on label t => do
    let s ← r.declareAnno on label t
    return (none, s)

/-- A registry, and the declarations that have succeeded, in order. -/
structure RegistryRun where
  registry : Registry
  history : List Declaration

namespace RegistryRun

/-- Before anything is declared. -/
def start : RegistryRun := ⟨.empty, []⟩

/-- Makes a declaration. A failure changes nothing. -/
def perform (s : RegistryRun) (d : Declaration) : RegistryRun :=
  match d.run s.registry with
  | .ok (_, r) => ⟨r, s.history ++ [d]⟩
  | .error _ => s

/-- What a sequence of declarations leaves, from the start on. -/
def after (ds : List Declaration) : RegistryRun := ds.foldl perform start

end RegistryRun

end ValueLattice

import ValueLattice.Proofs.Ty.Principal
/-!
# What a match may change

A match that fails half-way leaves the bindings that it has made until then, and bindings that one
match leaves are where the next one begins. What bindings may have become, after a match or after
many, is told by the parameters of the types that were matched, whatever the actual types were and
whichever of the matches failed: a binding of one of these parameters may be new or wider, and no
other binding has changed.

A match does nothing to the bindings but widen them (`Ty.steps_matchWith`), and so does one match
after another. It is enough that widenings of certain parameters change no more than that.

* `Subst.GrowsWithin`: what matches for certain parameters may make of bindings;
* `Subst.Steps.growsWithin`: widenings do no more;
* `Subst.afterMatches`, `steps_afterMatches`: matches one after the other;
* `growsWithin_params`: the bindings after a match, and after many.
-/

namespace ValueLattice

open Ty

namespace Subst

variable {ns ms : List String} {s b : Subst}

/-- The bindings `b` may come from `s` by matches for the parameters `ns`. -/
structure GrowsWithin (ns : List String) (s b : Subst) : Prop where
  /-- What was bound is bound to a type above the former one. -/
  widens : s.Widens b
  /-- What is newly bound is among the parameters. -/
  mem_of_new : ∀ n, s.get? n = none → (b.get? n).isSome = true → n ∈ ns
  /-- A parameter that is not among them has the binding that it had, or none still. -/
  get?_eq : ∀ n, n ∉ ns → b.get? n = s.get? n

/-- Each widening leaves the bindings wider. -/
theorem Steps.widens (h : Steps ns ms s b) : s.Widens b := by
  refine h.preserves (P := s.Widens) (.refl s) ?_
  rintro r - ⟨n, -, t, -, -, rfl⟩ hr
  exact hr.trans (widens_of_widen (returns_widen r n t)).1

theorem Steps.growsWithin (h : Steps ns ms s b) : GrowsWithin ns s b := by
  refine ⟨h.widens, fun n hs hb => ?_, fun n hn => h.get?_eq hn⟩
  by_contra hn
  rw [h.get?_eq hn, hs] at hb
  nomatch hb

/-- The bindings that are left when types are matched with actual types one after the other, each
time whether or not the match succeeds. -/
def afterMatches (s : Subst) (pairs : List (Ty × Ty)) : Subst :=
  pairs.foldl (fun r p => (p.1.matchWith p.2).after r) s

/-- Matches one after the other widen parameters of the types by parts of the actual types. -/
theorem steps_afterMatches (s : Subst) (pairs : List (Ty × Ty)) :
    Steps (paramsAll (pairs.map Prod.fst)) (paramsAll (pairs.map Prod.snd)) s
      (s.afterMatches pairs) := by
  induction pairs generalizing s with
  | nil => exact .refl s
  | cons p pairs ih =>
    have hfirst := (steps_matchWith p.1 p.2 s).mono
      (List.subset_append_left _ (paramsAll (pairs.map Prod.fst)))
      (List.subset_append_left _ (paramsAll (pairs.map Prod.snd)))
    have hrest := (ih ((p.1.matchWith p.2).after s)).mono
      (List.subset_append_right p.1.params _) (List.subset_append_right p.2.params _)
    exact hfirst.trans hrest

end Subst

/-- **A match changes only the bindings of the parameters that occur in the type, and only to wider
ones.** This holds whether or not the match succeeds, and of any number of matches that begin each
where the one before has ended. -/
theorem growsWithin_params :
    (∀ (t a : Ty) (s : Subst), Subst.GrowsWithin t.params s ((t.matchWith a).after s)) ∧
    ∀ (pairs : List (Ty × Ty)) (s : Subst),
      Subst.GrowsWithin (paramsAll (pairs.map Prod.fst)) s (s.afterMatches pairs) := by
  constructor
  · intro t a s
    exact (steps_matchWith t a s).growsWithin
  · intro pairs s
    exact (Subst.steps_afterMatches s pairs).growsWithin

/-- The keys have been widened when the values turn out not to be lists. -/
example : ((Ty.map (.param "K") (.list (.param "V"))).matchWith (.map .str .int)).after
    [("K", .int), ("X", .bool)] = [("K", .value), ("X", .bool)] := by
  decide

end ValueLattice

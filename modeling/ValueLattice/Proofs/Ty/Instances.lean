import ValueLattice.Proofs.Ty.Derivation
import ValueLattice.Proofs.Ty.Params
/-!
# Instances in order

Replacing parameters respects the order of types on both sides: larger types have larger instances,
and larger images make larger instances.

The first is shown of derivations of the order. A derivation stays one when parameters are replaced
throughout, since no rule asks for the name of a parameter. The order itself is computed from
shapes, which an instance does not keep: the image of a parameter may be of any shape, with aliases
at its head. The second is by induction on the type. All positions in a type are covariant, so
nothing but the images of its parameters counts, and each of them does (`subst_leq_subst_iff`).

* `Sub.subst`: derivations under a substitution;
* `Subst.Leq`: substitutions in order;
* `subst_leq_subst_iff`: instances of one type in order;
* `subst_respects_order`: instances of types in order, and under substitutions in order.
-/

namespace ValueLattice

/-- The two substitutions bind the same parameters, each to types in order. -/
def Subst.Leq (s u : Subst) : Prop :=
  ∀ n, Option.Rel (fun t v => t.leq v = true) (s.get? n) (u.get? n)

namespace Ty

/-! ## Types in order -/

mutual

/-- A derivation stays one when parameters are replaced throughout. -/
theorem Sub.subst (s : Subst) {a b : Ty} : Sub a b → Sub (a.subst s) (b.subst s)
  | .refl a => .refl _
  | .trans hab hbc => .trans (hab.subst s) (hbc.subst s)
  | .bottom b => .bottom _
  | .top a => .top _
  | .unfold n t => .unfold n _
  | .fold n t => .fold n _
  | .list h => .list (h.subst s)
  | .set h => .set (h.subst s)
  | .map hk hv => .map (hk.subst s) (hv.subst s)
  | .tuple h => .tuple (h.subst s)
  | .rel h => .rel (h.subst s)
  | .adt h => .adt (h.subst s)
  | .ctor ho hf => .ctor (ho.subst s) (hf.subst s)
  | .relSet fs ls => .relSet _ ls
  | .owner n o ps fs ls => .owner n o _ _ ls
  | .node n ps => .node n _

theorem SubAll.subst (s : Subst) {as bs : List Ty} :
    SubAll as bs → SubAll (substAll s as) (substAll s bs)
  | .nil => .nil
  | .cons h hs => .cons (h.subst s) (hs.subst s)

end

/-- Larger types have larger instances. -/
theorem leq_subst_of_leq {a b : Ty} (h : leq a b = true) (s : Subst) :
    leq (a.subst s) (b.subst s) = true :=
  leq_of_sub ((sub_of_leq a h).subst s)

/-! ## Substitutions in order -/

mutual

/-- Two instances of a type are in order exactly if the images of its parameters are. -/
theorem subst_leq_subst_iff (t : Ty) (s u : Subst) : leq (t.subst s) (t.subst u) = true ↔
    ∀ n ∈ t.params, leq ((param n).subst s) ((param n).subst u) = true := by
  cases t with
  | param n => simp [params]
  | list e => simpa [subst, params, leq, strip] using subst_leq_subst_iff e s u
  | set e => simpa [subst, params, leq, strip] using subst_leq_subst_iff e s u
  | named n t =>
    rw [subst, subst, leq_named, params]
    exact subst_leq_subst_iff t s u
  | rel fs ls =>
    simpa [subst, params, leq, strip] using substAll_leqAll_substAll_iff fs s u
  | tuple fs ls =>
    simpa [subst, params, leq, strip] using substAll_leqAll_substAll_iff fs s u
  | adt n ps =>
    simpa [subst, params, leq, strip] using substAll_leqAll_substAll_iff ps s u
  | map k v =>
    rw [params, List.forall_mem_append, ← subst_leq_subst_iff k s u, ← subst_leq_subst_iff v s u]
    simp [subst, leq, strip]
  | ctor n o ps fs ls =>
    rw [params, List.forall_mem_append, ← substAll_leqAll_substAll_iff ps s u,
      ← substAll_leqAll_substAll_iff fs s u]
    simp [subst, leq, strip]
  | _ => simp [subst, params, leq_refl]

theorem substAll_leqAll_substAll_iff (ts : List Ty) (s u : Subst) :
    leqAll (substAll s ts) (substAll u ts) = true ↔
      ∀ n ∈ paramsAll ts, leq ((param n).subst s) ((param n).subst u) = true := by
  cases ts with
  | nil => simp [substAll, leqAll, paramsAll]
  | cons t ts =>
    rw [paramsAll, List.forall_mem_append, ← subst_leq_subst_iff t s u,
      ← substAll_leqAll_substAll_iff ts s u, substAll, substAll, leqAll, Bool.and_eq_true]

end

/-- Larger images of the parameters make larger instances. -/
theorem subst_leq_subst (t : Ty) {s u : Subst}
    (h : ∀ n ∈ t.params, leq ((param n).subst s) ((param n).subst u) = true) :
    leq (t.subst s) (t.subst u) = true :=
  (subst_leq_subst_iff t s u).2 h

end Ty

/-- Every parameter has images in order under substitutions in order. -/
theorem Subst.Leq.image {s u : Subst} (h : s.Leq u) (n : String) :
    ((Ty.param n).subst s).leq ((Ty.param n).subst u) = true := by
  have hn : Option.Rel (fun t v => Ty.leq t v = true) (s.get? n) (u.get? n) := h n
  rw [Ty.subst, Ty.subst]
  generalize s.get? n = t at hn ⊢
  generalize u.get? n = v at hn ⊢
  cases hn with
  | some htv => exact htv
  | none => exact Ty.leq_refl (.param n)

namespace Ty

/-- **Substitution respects the order on both sides.** Larger types have larger instances under one
substitution, and a type has larger instances under a larger substitution of the same parameters.
The instances of a type are in order exactly if the images of the parameters are that occur
in it. -/
theorem subst_respects_order :
    (∀ (a b : Ty) (s : Subst), leq a b = true → leq (a.subst s) (b.subst s) = true) ∧
    (∀ (t : Ty) (s u : Subst), s.Leq u → leq (t.subst s) (t.subst u) = true) ∧
    ∀ (t : Ty) (s u : Subst), leq (t.subst s) (t.subst u) = true ↔
      ∀ n ∈ t.params, leq ((param n).subst s) ((param n).subst u) = true := by
  refine ⟨fun a b s h => leq_subst_of_leq h s, fun t s u h => ?_, subst_leq_subst_iff⟩
  apply subst_leq_subst t
  exact fun n _ => h.image n

/-- Relations of leaves of trees over a parameter. -/
def leafRelation : Ty :=
  rel [named "Leaf" (ctor "leaf" "Tree" [param "A"] [param "A"] (some ["item"])), param "B"] none

/-- Sets of pairs of a tree and a list, of one parameter each. -/
def treePairs : Ty :=
  set (tuple [adt "Tree" [param "A"], named "Any" value] (some ["tree", "rest"]))

/-- A relation is a set and a constructor its abstract data type also where one parameter becomes an
alias and the other a type of the same parameter; and so under a larger substitution. -/
theorem subst_leafRelation :
    let s : Subst := [("A", named "Id" int), ("B", list (param "A"))]
    let u : Subst := [("B", value), ("A", int)]
    leq leafRelation treePairs = true ∧ s.Leq u ∧
      leq (leafRelation.subst s) (treePairs.subst s) = true ∧
      leq (leafRelation.subst s) (leafRelation.subst u) = true := by
  intro s u
  have hleq : leq leafRelation treePairs = true := by decide
  have hsu : s.Leq u := by
    intro n
    by_cases hA : n = "A"
    · subst hA
      exact .some rfl
    by_cases hB : n = "B"
    · subst hB
      exact .some rfl
    have hs : s.get? n = none := by simp [s, Assoc.get?, Ne.symm hA, Ne.symm hB]
    have hu : u.get? n = none := by simp [u, Assoc.get?, Ne.symm hA, Ne.symm hB]
    rw [hs, hu]
    exact .none
  exact ⟨hleq, hsu, subst_respects_order.1 leafRelation treePairs s hleq,
    subst_respects_order.2.1 leafRelation s u hsu⟩

end Ty

end ValueLattice

import ValueLattice.Ty.Substitution
import ValueLattice.Proofs.Ty.Hereditary
/-!
# The parameters of a type

`Ty.params` lists the parameters that occur in a type, from left to right and with repetitions:
keys before values, and the parameters of an owner before the fields of its constructor. A type
is open exactly when the list is not empty.

Neither joins nor substitutions invent parameters. What occurs in a join occurs in one of the
joined types, and what occurs in an instantiated type occurs in the image of a parameter.

* `Ty.params`, `isOpen_eq_false_iff`: the parameters, and closed types;
* `mem_params_lub`: the parameters of a join;
* `mem_params_subst`: the parameters of an instantiated type.
-/

namespace ValueLattice.Ty

mutual

/-- The parameters that occur in a type, from left to right. -/
def params : Ty → List String
  | param n => [n]
  | list e | set e => params e
  | rel fs _ | tuple fs _ => paramsAll fs
  | map k v => params k ++ params v
  | named _ t => params t
  | adt _ ps => paramsAll ps
  | ctor _ _ ps fs _ => paramsAll ps ++ paramsAll fs
  | _ => []

/-- The parameters that occur in the types of a list, from left to right. -/
def paramsAll : List Ty → List String
  | [] => []
  | t :: ts => params t ++ paramsAll ts

end

variable {t : Ty} {ts : List Ty} {s : Subst} {n : String}

mutual

theorem isOpen_eq_false_iff (t : Ty) : t.isOpen = false ↔ t.params = [] := by
  cases t with
  | list e => exact isOpen_eq_false_iff e
  | set e => exact isOpen_eq_false_iff e
  | rel fs ls => exact anyOpen_eq_false_iff fs
  | tuple fs ls => exact anyOpen_eq_false_iff fs
  | named n t => exact isOpen_eq_false_iff t
  | adt n ps => exact anyOpen_eq_false_iff ps
  | map k v => simp [isOpen, params, isOpen_eq_false_iff k, isOpen_eq_false_iff v]
  | ctor n o ps fs ls => simp [isOpen, params, anyOpen_eq_false_iff ps, anyOpen_eq_false_iff fs]
  | _ => simp [isOpen, params]

theorem anyOpen_eq_false_iff (ts : List Ty) : anyOpen ts = false ↔ paramsAll ts = [] := by
  cases ts with
  | nil => simp [anyOpen, paramsAll]
  | cons t ts => simp [anyOpen, paramsAll, isOpen_eq_false_iff t, anyOpen_eq_false_iff ts]

end

@[simp] theorem params_strip (t : Ty) : t.strip.params = t.params := by
  fun_induction strip t with
  | case1 n t ih => rw [ih, params]
  | case2 t h => rfl

@[simp] theorem isOpen_strip (t : Ty) : t.strip.isOpen = t.isOpen := by
  fun_induction strip t with
  | case1 n t ih => rw [ih, isOpen]
  | case2 t h => rfl

/-! ## Joins -/

variable {a b : Ty} {m o : String} {ps fs : List Ty} {ls : Option (List String)}

theorem mem_paramsAll : n ∈ paramsAll ts ↔ ∃ t ∈ ts, n ∈ t.params := by
  induction ts with
  | nil => simp [paramsAll]
  | cons t ts ih => simp [paramsAll, ih]

/-- What follows from the presence of a parameter is decided by the parts of a type. -/
theorem hereditary_params (n : String) (p : Prop) :
    Hereditary (fun _ _ => True) (fun t => n ∈ t.params → p) where
  common _ _ := trivial
  value := nofun
  node := nofun
  target h := h
  list_iff := .rfl
  set_iff := .rfl
  map_iff := by simp [params, or_imp]
  tuple_iff := by simp [params, mem_paramsAll]
  rel_iff := .rfl
  adt_iff := by simp [params, mem_paramsAll]
  ctor_iff := by simp [params, or_imp]

theorem mem_params_lub (hn : n ∈ (lub a b).params) : n ∈ a.params ∨ n ∈ b.params :=
  (hereditary_params n _).lub .inl .inr hn

/-! ## Substitutions -/

mutual

theorem mem_params_subst (s : Subst) (t : Ty) (hn : n ∈ (t.subst s).params) :
    ∃ m ∈ t.params, n ∈ ((param m).subst s).params := by
  cases t with
  | param m => exact ⟨m, List.mem_singleton_self m, hn⟩
  | list e => exact mem_params_subst s e hn
  | set e => exact mem_params_subst s e hn
  | rel fs ls => exact mem_paramsAll_substAll s fs hn
  | tuple fs ls => exact mem_paramsAll_substAll s fs hn
  | named m t => exact mem_params_subst s t hn
  | adt o ps => exact mem_paramsAll_substAll s ps hn
  | map k v =>
    rcases List.mem_append.1 hn with hn | hn
    · obtain ⟨m, hm, h⟩ := mem_params_subst s k hn
      exact ⟨m, List.mem_append_left _ hm, h⟩
    · obtain ⟨m, hm, h⟩ := mem_params_subst s v hn
      exact ⟨m, List.mem_append_right _ hm, h⟩
  | ctor l o ps fs ls =>
    rcases List.mem_append.1 hn with hn | hn
    · obtain ⟨m, hm, h⟩ := mem_paramsAll_substAll s ps hn
      exact ⟨m, List.mem_append_left _ hm, h⟩
    · obtain ⟨m, hm, h⟩ := mem_paramsAll_substAll s fs hn
      exact ⟨m, List.mem_append_right _ hm, h⟩
  | _ => nomatch hn

theorem mem_paramsAll_substAll (s : Subst) (ts : List Ty) (hn : n ∈ paramsAll (substAll s ts)) :
    ∃ m ∈ paramsAll ts, n ∈ ((param m).subst s).params := by
  cases ts with
  | nil => nomatch hn
  | cons t ts =>
    rcases List.mem_append.1 hn with hn | hn
    · obtain ⟨m, hm, h⟩ := mem_params_subst s t hn
      exact ⟨m, List.mem_append_left _ hm, h⟩
    · obtain ⟨m, hm, h⟩ := mem_paramsAll_substAll s ts hn
      exact ⟨m, List.mem_append_right _ hm, h⟩

end

theorem subst_param_of_get? {u : Ty} (h : s.get? n = some u) : (param n).subst s = u := by
  rw [subst, h, Option.getD_some]

/-- An alias at the head stays where parameters are replaced below it. -/
theorem strip_subst_of_ctor (ht : t.strip = ctor m o ps fs ls) :
    (t.subst s).strip = (ctor m o ps fs ls).subst s := by
  fun_induction strip t with
  | case1 k t ih => exact ih ht
  | case2 t h => simp [ht, subst, strip]

end ValueLattice.Ty

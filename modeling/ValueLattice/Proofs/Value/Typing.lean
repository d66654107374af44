import Mathlib.Data.List.Forall2
import ValueLattice.Value.TypedSet
import ValueLattice.Proofs.Ty.Join
/-!
# Well-typed values

A value carries its type beside its contents. `WellTyped` says that the two agree at every
depth: the elements of a tuple and the children of a constructed node match the fields of the
type, and the contents of a collection are bounded by its element type, or by its key and value
types. A node is presented by the guise that its type tells.

The contents of every collection are governed by one predicate: `x.HasTy t`, a well-typed value
of a type below `t`. That serves relations as well, since such a value is a tuple when `t` is a
tuple type (`HasTy.exists_tuple`). The elements of a row are governed by the same predicate,
position by position (`forall₂_hasTy_iff`).

* `Value.WellTyped`: agreement of types and contents at every depth;
* `Value.HasTy`: a well-typed value with a bound, which may be widened (`HasTy.mono`);
* `wellTyped_tuple_iff`, `wellTyped_set_iff`, `wellTyped_rel_iff`, `wellTyped_list_iff`,
  `wellTyped_map_iff`: tuples and collections;
* `wellTyped_collect`: a bounded table is well-typed as a set or a relation.
-/

namespace ValueLattice

/-- Agreement of types and contents at every depth. -/
inductive Value.WellTyped : Value → Prop
  | leaf {v : Value} (h : v.isLeaf = true) : WellTyped v
  /-- A tuple has as many elements as its type has fields, each of a type below its field's. -/
  | tuple {fs : List Ty} {ls : Option (List String)} {xs : List Value}
    (h : Ty.leqAll (xs.map Value.ty) fs = true) (hx : ∀ x ∈ xs, WellTyped x) :
    WellTyped (tuple fs ls xs)
  | plain {n : String} {i j : Nat} {xs : List Value} {as : List (String × Value)}
    (hx : ∀ x ∈ xs, WellTyped x) (ha : ∀ a ∈ as, WellTyped a.2) :
    WellTyped (node .plain .node n i xs j as)
  /-- A constructed node has the name of its constructor, and as many children as it has fields,
  each of a type below its field's. -/
  | constructed {n o : String} {ps fs : List Ty} {ls : Option (List String)} {i j : Nat}
    {xs : List Value} {as : List (String × Value)}
    (h : Ty.leqAll (xs.map Value.ty) fs = true) (hx : ∀ x ∈ xs, WellTyped x)
    (ha : ∀ a ∈ as, WellTyped a.2) :
    WellTyped (node .constructed (.ctor n o ps fs ls) n i xs j as)
  | set {t : Ty} {xs : List Value} (h : ∀ x ∈ xs, x.ty.leq t = true)
    (hx : ∀ x ∈ xs, WellTyped x) : WellTyped (set t xs)
  /-- The elements of a relation are tuples, of types below that of its tuples. -/
  | rel {fs : List Ty} {ls : Option (List String)} {xs : List Value}
    (ht : ∀ x ∈ xs, ∃ t : Tuple, x = t.toValue)
    (h : ∀ x ∈ xs, x.ty.leq (.tuple fs ls) = true) (hx : ∀ x ∈ xs, WellTyped x) :
    WellTyped (rel fs ls xs)
  | list {t : Ty} {xs : List Value} (h : ∀ x ∈ xs, x.ty.leq t = true)
    (hx : ∀ x ∈ xs, WellTyped x) : WellTyped (list t xs)
  | map {k v : Ty} {es : List (Value × Value)}
    (hk : ∀ e ∈ es, e.1.ty.leq k = true) (hv : ∀ e ∈ es, e.2.ty.leq v = true)
    (hx : ∀ e ∈ es, WellTyped e.1) (hy : ∀ e ∈ es, WellTyped e.2) : WellTyped (map k v es)

open Value

/-- A well-typed value of a type below `t`. -/
def Value.HasTy (x : Value) (t : Ty) : Prop := x.WellTyped ∧ x.ty.leq t = true

theorem Value.WellTyped.hasTy {x : Value} (h : x.WellTyped) : x.HasTy x.ty := ⟨h, Ty.leq_refl x.ty⟩

theorem Value.HasTy.mono {x : Value} {t u : Ty} (h : x.HasTy t) (htu : t.leq u = true) :
    x.HasTy u :=
  ⟨h.1, Ty.leq_trans x.ty h.2 htu⟩

variable {t : Ty} {fs gs : List Ty} {ls : Option (List String)} {x : Value} {xs : List Value}

/-! ## Rows of values -/

/-- The two sides of a typed row: the order of the rows, and the elements one by one. -/
theorem forall₂_hasTy_iff : List.Forall₂ HasTy xs fs ↔
    Ty.leqAll (xs.map Value.ty) fs = true ∧ ∀ x ∈ xs, x.WellTyped := by
  induction xs generalizing fs with
  | nil => cases fs <;> simp [Ty.leqAll]
  | cons x xs ih =>
    cases fs with
    | nil => simp [Ty.leqAll]
    | cons f fs =>
      simp only [List.forall₂_cons, ih, HasTy, List.map_cons, Ty.leqAll, Bool.and_eq_true,
        List.forall_mem_cons]
      tauto

theorem forall₂_hasTy_mono (h : List.Forall₂ HasTy xs fs) (hfg : Ty.leqAll fs gs = true) :
    List.Forall₂ HasTy xs gs := by
  rw [forall₂_hasTy_iff] at h ⊢
  exact ⟨Ty.leqAll_trans _ h.1 hfg, h.2⟩

theorem hasTy_of_forall₂ (h : List.Forall₂ HasTy xs fs) {i : Nat} (hx : xs[i]? = some x)
    (ht : fs[i]? = some t) : x.HasTy t := by
  obtain ⟨hi, rfl⟩ := List.getElem?_eq_some_iff.1 hx
  obtain ⟨hj, rfl⟩ := List.getElem?_eq_some_iff.1 ht
  exact h.get hi hj

theorem hasTy_of_mem (h : List.Forall₂ HasTy xs fs) (hx : x ∈ xs) : ∃ t ∈ fs, x.HasTy t := by
  obtain ⟨i, hi, rfl⟩ := List.getElem_of_mem hx
  have hj : i < fs.length := h.length_eq ▸ hi
  exact ⟨fs[i], List.getElem_mem hj, h.get hi hj⟩

theorem forall₂_hasTy_set (h : List.Forall₂ HasTy xs fs) (hx : x.HasTy t) (i : Nat) :
    List.Forall₂ HasTy (xs.set i x) (fs.set i t) := by
  induction h generalizing i with
  | nil => exact .nil
  | cons hy h ih =>
    cases i with
    | zero => exact .cons hx h
    | succ i => exact .cons hy (ih i)

theorem forall₂_hasTy_self (h : ∀ x ∈ xs, x.WellTyped) :
    List.Forall₂ HasTy xs (xs.map Value.ty) :=
  forall₂_hasTy_iff.2 ⟨Ty.leqAll_refl _, h⟩

/-! ## Values below a tuple type -/

theorem wellTyped_tuple_iff : (Value.tuple fs ls xs).WellTyped ↔ List.Forall₂ HasTy xs fs := by
  rw [forall₂_hasTy_iff]
  constructor
  · intro h
    cases h with
    | leaf h => simp [isLeaf] at h
    | tuple h hx => exact ⟨h, hx⟩
  · rintro ⟨h, hx⟩
    exact .tuple h hx

theorem Value.WellTyped.strip_ty {v : Value} (h : v.WellTyped) : v.ty.strip = v.ty := by
  cases h with
  | leaf h => cases v <;> first | rfl | exact absurd h (by simp [isLeaf])
  | _ => rfl

/-- A well-typed value of a type below a tuple type is a tuple. -/
theorem Value.HasTy.exists_tuple (h : x.HasTy (.tuple fs ls)) :
    ∃ t : Tuple, x = t.toValue ∧ Ty.leqAll t.row.fields fs = true ∧
      List.Forall₂ HasTy t.elems fs := by
  obtain ⟨h, hx⟩ := h
  rw [Ty.leq_iff_below, h.strip_ty] at hx
  cases x with
  | tuple gs ms xs =>
    cases hx with
    | tuple hx =>
      exact ⟨⟨⟨gs, ms⟩, xs⟩, rfl, hx, forall₂_hasTy_mono (wellTyped_tuple_iff.1 h) hx⟩
  | node g t n i xs j as =>
    cases h with
    | leaf h => simp [isLeaf] at h
    | plain => nomatch hx
    | constructed => nomatch hx
  | _ => nomatch hx

/-! ## Collections -/

theorem wellTyped_set_iff : (Value.set t xs).WellTyped ↔ ∀ x ∈ xs, x.HasTy t := by
  constructor
  · intro h
    cases h with
    | leaf h => simp [isLeaf] at h
    | set h hx => exact fun x hm => ⟨hx x hm, h x hm⟩
  · intro h
    exact .set (fun x hx => (h x hx).2) fun x hx => (h x hx).1

theorem wellTyped_list_iff : (Value.list t xs).WellTyped ↔ ∀ x ∈ xs, x.HasTy t := by
  constructor
  · intro h
    cases h with
    | leaf h => simp [isLeaf] at h
    | list h hx => exact fun x hm => ⟨hx x hm, h x hm⟩
  · intro h
    exact .list (fun x hx => (h x hx).2) fun x hx => (h x hx).1

theorem wellTyped_rel_iff : (Value.rel fs ls xs).WellTyped ↔ ∀ x ∈ xs, x.HasTy (.tuple fs ls) := by
  constructor
  · intro h
    cases h with
    | leaf h => simp [isLeaf] at h
    | rel _ h hx => exact fun x hm => ⟨hx x hm, h x hm⟩
  · intro h
    refine .rel (fun x hx => ?_) (fun x hx => (h x hx).2) fun x hx => (h x hx).1
    obtain ⟨u, hu, -⟩ := (h x hx).exists_tuple
    exact ⟨u, hu⟩

theorem wellTyped_map_iff {k v : Ty} {es : List (Value × Value)} :
    (Value.map k v es).WellTyped ↔ ∀ e ∈ es, e.1.HasTy k ∧ e.2.HasTy v := by
  constructor
  · intro h
    cases h with
    | leaf h => simp [isLeaf] at h
    | map hk hv hx hy => exact fun e he => ⟨⟨hx e he, hk e he⟩, hy e he, hv e he⟩
  · intro h
    exact .map (fun e he => (h e he).1.2) (fun e he => (h e he).2.2)
      (fun e he => (h e he).1.1) fun e he => (h e he).2.1

/-- A bounded table is well-typed, as a relation when the bound is a tuple type and else as a
set. -/
theorem wellTyped_collect (h : ∀ x ∈ xs, x.HasTy t) : (collect t xs).WellTyped := by
  unfold collect
  split
  · next fs ls ht =>
    have hb : t.leq (.tuple fs ls) = true := by
      rw [← ht, Ty.leq_strip_right]
      exact Ty.leq_refl t
    exact wellTyped_rel_iff.2 fun x hx => (h x hx).mono hb
  · exact wellTyped_set_iff.2 h

end ValueLattice

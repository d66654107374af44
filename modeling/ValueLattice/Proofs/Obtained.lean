import ValueLattice.Proofs.Builder.Labels
import ValueLattice.Proofs.Ty.Document
/-!
# All rows that can be obtained are well-labelled

Only the checked construction of a row compares its labels with its fields. Every other row is
assembled from fields and labels that were there before, by joins, selections, substitutions,
instantiations and matches, by updates of tuples, or by builders. `Obtained` closes what can be made
from nothing under all of these, in any order. One step leads from well-labelled items to
well-labelled ones, whichever it is, so everything that is obtained is well-labelled, at every
depth.

* `Item`: types, rows, bindings, instantiations, declarations, values and builders;
* `TypeStep`, `RegistryStep`, `ValueStep`, `BuilderStep`, `Step`: what can be made of what;
* `Step.wellLabelled`, `Obtained.wellLabelled`: one step, and all of them;
* `labels_of_obtained`: labels and positions of the rows obtained, selections, and access by labels.
-/

namespace ValueLattice

open Ty

/-! ## Items -/

/-- What a program can get hold of. -/
inductive Item
  | ty (t : Ty)
  | row (r : Row)
  | bindings (s : Subst)
  | instantiation (p : Positional)
  | registry (r : Registry)
  | value (v : Value)
  | builder {k : BuilderKind} (b : BuilderOf k)

namespace Item

/-- All rows in the item are well-labelled. -/
def WellLabelled : Item → Prop
  | ty t => t.WellLabelled
  | row r => r.toTuple.WellLabelled
  | bindings s => s.All Ty.WellLabelled
  | instantiation p => p.WellLabelled
  | registry r => r.WellLabelled
  | value v => v.WellLabelled
  | builder b => b.WellLabelled

end Item

/-- The types and rows that a type is put together of. -/
def Ty.parts : Ty → List Item
  | list e | set e => [.ty e]
  | map k v => [.ty k, .ty v]
  | tuple fs ls | rel fs ls => [.row ⟨fs, ls⟩]
  | named _ t => [.ty t]
  | adt _ ps => ps.map .ty
  | ctor _ o ps fs ls => [.ty (.adt o ps), .row ⟨fs, ls⟩]
  | _ => []

/-- Whether the value is a collection, which can be made with any bounds. -/
def Value.isCollection : Value → Bool
  | set .. | rel .. | list .. | map .. => true
  | _ => false

/-! ## Steps -/

/-- Types, rows and bindings that can be made of others. -/
inductive TypeStep : List Item → Item → Prop
  | assemble (t : Ty) : TypeStep t.parts (.ty t)
  | part {t : Ty} {i : Item} (h : i ∈ t.parts) : TypeStep [.ty t] i
  | field {r : Row} {t : Ty} (h : t ∈ r.fields) : TypeStep [.row r] (.ty t)
  | make {fs : List Ty} {ls : Option (List String)} {r : Row} (h : Row.make fs ls = .ok r) :
    TypeStep (fs.map .ty) (.row r)
  | select {r s : Row} {is : List Nat} (h : r.select is = .ok s) : TypeStep [.row r] (.row s)
  | lubRow {r s j : Row} (h : r.lub? s = some j) : TypeStep [.row r, .row s] (.row j)
  | readRow {d : Doc} {r : Row} (h : Ty.readRow d = .ok r) : TypeStep [] (.row r)
  | read {d : Doc} {t : Ty} (h : Ty.ofDoc d = .ok t) : TypeStep [] (.ty t)
  | lub (a b : Ty) : TypeStep [.ty a, .ty b] (.ty (a.lub b))
  | relationOf {t u : Ty} (h : t.relationOf = .ok u) : TypeStep [.ty t] (.ty u)
  /-- Parameters are bound to any types. -/
  | bindings {ts : List Ty} {s : Subst} (h : s.All (· ∈ ts)) : TypeStep (ts.map .ty) (.bindings s)
  | bound {s : Subst} {n : String} {t : Ty} (h : s.get? n = some t) :
    TypeStep [.bindings s] (.ty t)
  | subst (s : Subst) (t : Ty) : TypeStep [.bindings s, .ty t] (.ty (t.subst s))
  | start (ts : List Ty) : TypeStep (ts.map .ty) (.instantiation (.new ts))
  | instantiate {p q : Positional} {t u : Ty} (h : t.instantiate.Returns p u q) :
    TypeStep [.instantiation p, .ty t] (.ty u)
  /-- What an instantiation leaves, also where it fails. -/
  | proceed (p : Positional) (t : Ty) :
    TypeStep [.instantiation p, .ty t] (.instantiation (t.instantiate.after p))
  | boundBy (p : Positional) : TypeStep [.instantiation p] (.bindings p.bound)
  /-- What a match leaves, also where it fails. -/
  | matchWith (s : Subst) (t a : Ty) :
    TypeStep [.bindings s, .ty t, .ty a] (.bindings ((t.matchWith a).after s))

/-- Declarations, and what can be looked up among them. -/
inductive RegistryStep : List Item → Item → Prop
  | empty : RegistryStep [] (.registry .empty)
  | declareAdt {r s : Registry} {n : String} {ps : List Ty} {t : Ty} {i : Item}
    (h : r.declareAdt n ps = .ok (t, s)) (hi : i ∈ [.ty t, .registry s]) :
    RegistryStep (.registry r :: ps.map .ty) i
  | declareCtor {r s : Registry} {u : Ty} {n : String} {fs : List Ty} {ls : Option (List String)}
    {t : Ty} {i : Item} (h : r.declareCtor u n fs ls = .ok (t, s)) (hi : i ∈ [.ty t, .registry s]) :
    RegistryStep (.registry r :: .ty u :: fs.map .ty) i
  | declareAlias (r : Registry) (n : String) (t : Ty) {i : Item}
    (hi : i ∈ [.ty (r.declareAlias n t).1, .registry (r.declareAlias n t).2]) :
    RegistryStep [.registry r, .ty t] i
  | declareAnno {r s : Registry} {u t : Ty} {l : String} (h : r.declareAnno u l t = .ok s) :
    RegistryStep [.registry r, .ty u, .ty t] (.registry s)
  | adt {r : Registry} {n : String} {t : Ty} (h : r.adt? n = some t) :
    RegistryStep [.registry r] (.ty t)
  | named {r : Registry} {n : String} {t : Ty} (h : r.alias? n = some t) :
    RegistryStep [.registry r] (.ty t)
  | ctor {r : Registry} {o n : String} {t : Ty} (h : r.ctor? o n = some t) :
    RegistryStep [.registry r] (.ty t)
  | ctorOf {r : Registry} {o : String} {t : Ty} (h : t ∈ r.ctorsOf o) :
    RegistryStep [.registry r] (.ty t)
  | annoType {r : Registry} {u t : Ty} {l : String} (h : r.annoType u l = some t) :
    RegistryStep [.registry r, .ty u] (.ty t)

/-- Values that can be made of others. -/
inductive ValueStep : List Item → Item → Prop
  | leaf {v : Value} (h : v.isLeaf = true) : ValueStep [] (.value v)
  | typeOf (v : Value) : ValueStep [.value v] (.ty v.ty)
  | content {v x : Value} (h : x ∈ v.contents) : ValueStep [.value v] (.value x)
  | ofValues (xs : List Value) : ValueStep (xs.map .value) (.value (Tuple.ofValues xs).toValue)
  | ofType {t : Ty} {xs : List Value} {u : Tuple} (h : Tuple.ofType t xs = .ok u) :
    ValueStep (.ty t :: xs.map .value) (.value u.toValue)
  | put {u w : Tuple} {i : Nat} {x : Value} (h : u.set i x = .ok w) :
    ValueStep [.value u.toValue, .value x] (.value w.toValue)
  | putLabel {u w : Tuple} {l : String} {x : Value} (h : u.setLabel l x = .ok w) :
    ValueStep [.value u.toValue, .value x] (.value w.toValue)
  | select {u w : Tuple} {is : List Nat} (h : u.select is = .ok w) :
    ValueStep [.value u.toValue] (.value w.toValue)
  | node {op : NodeOp} {r : Registry} {id : Nat} {n : Node} (h : (op.run r id).Returns n)
    (g : Guise) : ValueStep (.registry r :: (op.types.map .ty ++ op.values.map .value ++
      op.receiver?.toList.map fun m => .value m.toValue)) (.value (n.inGuise g))
  | guise (n : Node) (g g' : Guise) : ValueStep [.value (n.inGuise g)] (.value (n.inGuise g'))
  | collection {v : Value} (h : v.isCollection = true) :
    ValueStep (.ty v.ty :: v.contents.map .value) (.value v)
  | set {args : List Value} {v : Value} (h : SetCall args v) (hne : args ≠ []) :
    ValueStep (args.map .value) (.value v)
  | list {args : List Value} {v : Value} (h : ListCall args v) (hne : args ≠ []) :
    ValueStep (args.map .value) (.value v)
  | map {args : List Value} {v : Value} (h : MapCall args v) (hne : args ≠ []) :
    ValueStep (args.map .value) (.value v)
  | relation {args : List Value} {v : Value} (h : RelationCall args v) (hne : args ≠ []) :
    ValueStep (args.map .value) (.value v)

/-- Builders, and what they give. -/
inductive BuilderStep : List Item → Item → Prop
  | fresh {k : BuilderKind} {b : BuilderOf k} (h : Fresh b) :
    BuilderStep (b.types.map .ty) (.builder b)
  | call {k : BuilderKind} (b : BuilderOf k) (c : BuilderCall k) :
    BuilderStep (.builder b :: c.values.map .value) (.builder (c.run.after b))
  | done {k : BuilderKind} {b b' : BuilderOf k} {v : Value} (h : BuilderOf.done.Returns b v b') :
    BuilderStep [.builder b] (.value v)
  | typeOf {k : BuilderKind} {b : BuilderOf k} {t : Ty} (h : t ∈ b.types) :
    BuilderStep [.builder b] (.ty t)

/-- What can be made of what. -/
inductive Step : List Item → Item → Prop
  | type {args : List Item} {i : Item} (h : TypeStep args i) : Step args i
  | registry {args : List Item} {i : Item} (h : RegistryStep args i) : Step args i
  | value {args : List Item} {i : Item} (h : ValueStep args i) : Step args i
  | builder {args : List Item} {i : Item} (h : BuilderStep args i) : Step args i

/-- What can be obtained in any number of steps. -/
inductive Obtained : Item → Prop
  | step {args : List Item} {i : Item} (h : Step args i) (ha : ∀ a ∈ args, Obtained a) : Obtained i

/-! ## One step -/

variable {args : List Item} {i : Item}

/-- A type is well-labelled exactly when its parts are. -/
theorem Ty.wellLabelled_iff_parts (t : Ty) : t.WellLabelled ↔ ∀ i ∈ t.parts, i.WellLabelled := by
  cases t with
  | list e | set e | named n t | tuple fs ls | rel fs ls =>
    rw [parts, List.forall_mem_singleton]
    exact .rfl
  | map k v => exact wellLabelled_map.trans (by simp [parts, Item.WellLabelled])
  | adt n ps => exact wellLabelled_adt.trans (by simp [parts, Item.WellLabelled])
  | ctor n o ps fs ls =>
    exact wellLabelled_ctor.trans (by simp [parts, Item.WellLabelled, Row.toTuple])
  | _ => exact ⟨fun _ => List.forall_mem_nil _, fun _ => List.forall_mem_nil _⟩

theorem forall_mem_map_ty {ts : List Ty} :
    (∀ i ∈ ts.map Item.ty, i.WellLabelled) ↔ ∀ t ∈ ts, t.WellLabelled := List.forall_mem_map

theorem forall_mem_map_value {xs : List Value} :
    (∀ i ∈ xs.map Item.value, i.WellLabelled) ↔ ∀ x ∈ xs, x.WellLabelled := List.forall_mem_map

theorem TypeStep.wellLabelled (h : TypeStep args i) (ha : ∀ a ∈ args, a.WellLabelled) :
    i.WellLabelled := by
  cases h with
  | assemble t => exact t.wellLabelled_iff_parts.2 ha
  | @part t i h => exact t.wellLabelled_iff_parts.1 (ha (.ty t) (by simp)) i h
  | @field r t h =>
    have hr : r.toTuple.WellLabelled := ha (.row r) (by simp)
    exact (wellLabelled_tuple.1 hr).2 t h
  | make h => exact Row.wellLabelled_make (forall_mem_map_ty.1 ha) h
  | @select r s is h => exact Row.wellLabelled_select (ha (.row r) (by simp)) h
  | @lubRow r s j h => exact Row.wellLabelled_lub? (ha (.row r) (by simp)) (ha (.row s) (by simp)) h
  | readRow h => exact wellLabelled_readRow _ h
  | read h => exact wellLabelled_ofDoc _ h
  | lub a b => exact Ty.WellLabelled.lub (ha (.ty a) (by simp)) (ha (.ty b) (by simp))
  | @relationOf t u h => exact Ty.WellLabelled.relationOf (ha (.ty t) (by simp)) h
  | bindings h => exact fun n t ht => forall_mem_map_ty.1 ha t (h n t ht)
  | @bound s n t h => exact ha (.bindings s) (by simp) n t h
  | subst s t => exact Ty.WellLabelled.subst (ha (.bindings s) (by simp)) t (ha (.ty t) (by simp))
  | start ts => exact ⟨forall_mem_map_ty.1 ha, Assoc.all_nil⟩
  | @instantiate p q t u h =>
    exact (keeps_instantiate t (ha (.ty t) (by simp)) p (ha (.instantiation p) (by simp))).2 u q h
  | proceed p t =>
    exact (keeps_instantiate t (ha (.ty t) (by simp)) p (ha (.instantiation p) (by simp))).1
  | boundBy p =>
    have hp : p.WellLabelled := ha (.instantiation p) (by simp)
    exact hp.bound
  | matchWith s t a =>
    exact (hereditary_wellLabelled.keeps_matchWith t a (ha (.ty a) (by simp)) s
      (ha (.bindings s) (by simp))).1

theorem RegistryStep.wellLabelled (h : RegistryStep args i) (ha : ∀ a ∈ args, a.WellLabelled) :
    i.WellLabelled := by
  have hboth {t : Ty} {s : Registry} (hts : t.WellLabelled ∧ s.WellLabelled)
      (hi : i ∈ [.ty t, .registry s]) : i.WellLabelled := by
    rcases List.mem_pair.1 hi with rfl | rfl
    · exact hts.1
    · exact hts.2
  cases h with
  | empty => exact Registry.wellLabelled_empty
  | declareAdt h hi =>
    obtain ⟨hr, hps⟩ := List.forall_mem_cons.1 ha
    exact hboth (Registry.WellLabelled.declareAdt hr (forall_mem_map_ty.1 hps) h) hi
  | declareCtor h hi =>
    obtain ⟨hr, ha⟩ := List.forall_mem_cons.1 ha
    obtain ⟨-, hfs⟩ := List.forall_mem_cons.1 ha
    exact hboth (Registry.WellLabelled.declareCtor hr (forall_mem_map_ty.1 hfs) h) hi
  | declareAlias r n t hi =>
    exact hboth (Registry.WellLabelled.declareAlias (ha (.registry r) (by simp))
      (ha (.ty t) (by simp)) n) hi
  | @declareAnno r s u t l h =>
    exact Registry.WellLabelled.declareAnno (ha (.registry r) (by simp)) (ha (.ty t) (by simp)) h
  | @adt r n t h => exact Registry.WellLabelled.adt? (ha (.registry r) (by simp)) h
  | @named r n t h => exact Registry.WellLabelled.alias? (ha (.registry r) (by simp)) h
  | @ctor r o n t h => exact Registry.WellLabelled.ctor? (ha (.registry r) (by simp)) h
  | @ctorOf r o t h => exact Registry.WellLabelled.ctorsOf (ha (.registry r) (by simp)) h
  | @annoType r u t l h => exact Registry.WellLabelled.annoType (ha (.registry r) (by simp)) h

theorem ValueStep.wellLabelled (h : ValueStep args i) (ha : ∀ a ∈ args, a.WellLabelled) :
    i.WellLabelled := by
  cases h with
  | leaf h => exact Value.wellLabelled_of_isLeaf h
  | typeOf v => exact Value.WellLabelled.ty (ha (.value v) (by simp))
  | @content v x h => exact Value.WellLabelled.contents (ha (.value v) (by simp)) h
  | ofValues xs => exact Tuple.wellLabelled_ofValues (forall_mem_map_value.1 ha)
  | ofType h =>
    obtain ⟨ht, hxs⟩ := List.forall_mem_cons.1 ha
    exact Tuple.wellLabelled_ofType ht (forall_mem_map_value.1 hxs) h
  | @put u w i x h =>
    exact Tuple.wellLabelled_set (ha (.value u.toValue) (by simp)) (ha (.value x) (by simp)) h
  | @putLabel u w l x h =>
    obtain ⟨i, -, h⟩ := bind_eq_ok.1 h
    exact Tuple.wellLabelled_set (ha (.value u.toValue) (by simp)) (ha (.value x) (by simp)) h
  | @select u w is h => exact Tuple.wellLabelled_select (ha (.value u.toValue) (by simp)) h
  | @node op r id n h g =>
    obtain ⟨hr, ha⟩ := List.forall_mem_cons.1 ha
    obtain ⟨ha, hm⟩ := List.forall_mem_append.1 ha
    obtain ⟨ht, hx⟩ := List.forall_mem_append.1 ha
    refine NodeOp.wellLabelled hr (forall_mem_map_ty.1 ht) (forall_mem_map_value.1 hx)
      (fun m hmr => ?_) h g
    exact List.forall_mem_map.1 hm m (Option.mem_toList.2 hmr)
  | guise n g g' =>
    have hn : (n.inGuise g).WellLabelled := ha (.value (n.inGuise g)) (by simp)
    exact Node.wellLabelled_iff.2 (Node.wellLabelled_iff.1 hn)
  | @collection v h =>
    obtain ⟨ht, hx⟩ := List.forall_mem_cons.1 ha
    refine ⟨ht, ?_, forall_mem_map_value.1 hx⟩
    cases v <;> first | exact trivial | nomatch h
  | set h hne => exact h.wellLabelled hne (forall_mem_map_value.1 ha)
  | list h hne => exact h.wellLabelled hne (forall_mem_map_value.1 ha)
  | map h hne => exact h.wellLabelled hne (forall_mem_map_value.1 ha)
  | relation h hne => exact h.wellLabelled hne (forall_mem_map_value.1 ha)

theorem BuilderStep.wellLabelled (h : BuilderStep args i) (ha : ∀ a ∈ args, a.WellLabelled) :
    i.WellLabelled := by
  cases h with
  | fresh h => exact BuilderOf.wellLabelled_of_fresh h (forall_mem_map_ty.1 ha)
  | call b c =>
    obtain ⟨hb, hx⟩ := List.forall_mem_cons.1 ha
    exact BuilderOf.WellLabelled.call hb (forall_mem_map_value.1 hx)
  | @done k b b' v h =>
    have hb : b.WellLabelled := ha (.builder b) (by simp)
    exact hb.result (BuilderOf.returns_done.1 h).1
  | @typeOf k b t h =>
    have hb : b.WellLabelled := ha (.builder b) (by simp)
    exact hb.types t h

theorem Step.wellLabelled (h : Step args i) (ha : ∀ a ∈ args, a.WellLabelled) :
    i.WellLabelled := by
  cases h with
  | type h => exact h.wellLabelled ha
  | registry h => exact h.wellLabelled ha
  | value h => exact h.wellLabelled ha
  | builder h => exact h.wellLabelled ha

/-! ## All steps -/

namespace Obtained

theorem wellLabelled (h : Obtained i) : i.WellLabelled := by
  induction h with
  | step h _ ih => exact h.wellLabelled ih

theorem part {t : Ty} (h : Obtained (.ty t)) (hi : i ∈ t.parts) : Obtained i :=
  .step (.type (.part hi)) (List.forall_mem_singleton.2 h)

theorem field {r : Row} {t : Ty} (h : Obtained (.row r)) (ht : t ∈ r.fields) : Obtained (.ty t) :=
  .step (.type (.field ht)) (List.forall_mem_singleton.2 h)

mutual

/-- The rows in a type, at any depth, are obtained from it. -/
theorem row_of_mem_rows (t : Ty) (h : Obtained (.ty t)) : ∀ r ∈ t.rows, Obtained (.row r) := by
  cases t with
  | list e => exact row_of_mem_rows e (h.part List.mem_cons_self)
  | set e => exact row_of_mem_rows e (h.part List.mem_cons_self)
  | named n t => exact row_of_mem_rows t (h.part List.mem_cons_self)
  | map k v =>
    exact List.forall_mem_append.2 ⟨row_of_mem_rows k (h.part List.mem_cons_self),
      row_of_mem_rows v (h.part (List.mem_cons_of_mem _ List.mem_cons_self))⟩
  | tuple fs ls | rel fs ls =>
    have hrow : Obtained (.row ⟨fs, ls⟩) := h.part List.mem_cons_self
    exact List.forall_mem_cons.2 ⟨hrow, row_of_mem_rowsAll fs fun t ht => hrow.field ht⟩
  | adt n ps => exact row_of_mem_rowsAll ps fun t ht => h.part (List.mem_map_of_mem ht)
  | ctor n o ps fs ls =>
    have hadt : Obtained (.ty (.adt o ps)) := h.part List.mem_cons_self
    have hrow : Obtained (.row ⟨fs, ls⟩) :=
      h.part (List.mem_cons_of_mem _ List.mem_cons_self)
    exact List.forall_mem_append.2
      ⟨row_of_mem_rowsAll ps fun t ht => hadt.part (List.mem_map_of_mem ht),
        List.forall_mem_cons.2 ⟨hrow, row_of_mem_rowsAll fs fun t ht => hrow.field ht⟩⟩
  | _ => exact List.forall_mem_nil _

theorem row_of_mem_rowsAll (ts : List Ty) (h : ∀ t ∈ ts, Obtained (.ty t)) :
    ∀ r ∈ rowsAll ts, Obtained (.row r) := by
  cases ts with
  | nil => exact List.forall_mem_nil _
  | cons t ts =>
    obtain ⟨ht, hts⟩ := List.forall_mem_cons.1 h
    exact List.forall_mem_append.2 ⟨row_of_mem_rows t ht, row_of_mem_rowsAll ts hts⟩

end

end Obtained

/-- **Labels and fields agree in every row that can be obtained**, whether by itself or at some
depth of a type. A row has no labels or as many different ones as fields, so positions and labels
determine each other. Fields can be selected exactly at the positions that there are, and their
labels are kept exactly if no position is selected twice; they are the labels at these positions.
On tuples and nodes a label never leads out of bounds, and where the row of a tuple can be selected
its elements can. -/
theorem labels_of_obtained :
    (∀ t, Obtained (.ty t) → ∀ r ∈ t.rows, Obtained (.row r)) ∧
    (∀ r, Obtained (.row r) →
      r.WellLabelled ∧
      (∀ l i, r.position? l = some i ↔ i < r.arity ∧ r.label? i = some l) ∧
      (∀ is, (∃ s, r.select is = .ok s) ↔ ∀ i ∈ is, i < r.arity) ∧
      ∀ is s, r.select is = .ok s →
        (s.labels.isSome = true ↔ r.labels.isSome = true ∧ is.Nodup) ∧
        (s.labels.isSome = true → ∀ j, s.label? j = is[j]?.bind r.label?)) ∧
    (∀ u : Tuple, Obtained (.value u.toValue) →
      (∀ l, WithinBounds (u.getLabel l)) ∧ (∀ l x, WithinBounds (u.setLabel l x)) ∧
      ∀ is r, u.row.select is = .ok r → ∃ w, u.select is = .ok w ∧ w.row = r) ∧
    ∀ (n : Node) (g : Guise), Obtained (.value (n.inGuise g)) →
      (∀ l, WithinBounds (n.getLabel l)) ∧ ∀ id l x, WithinBounds (n.setLabel id l x) := by
  refine ⟨Obtained.row_of_mem_rows, fun r hr => ?_, fun u hu => ?_, fun n g hn => ?_⟩
  · have hr : r.WellLabelled := Row.wellLabelled_of_toTuple hr.wellLabelled
    exact ⟨hr, fun l i => Row.position?_eq_some hr, fun is => Row.exists_select_iff, fun is s hs =>
      ⟨Row.isSome_labels_of_select hr hs, Row.label?_of_select hr hs⟩⟩
  · have hu : u.toValue.WellLabelled := hu.wellLabelled
    exact ⟨Tuple.withinBounds_getLabel hu, Tuple.withinBounds_setLabel hu,
      fun is r hr => Tuple.exists_select hu hr⟩
  · have hn : (n.inGuise g).WellLabelled := hn.wellLabelled
    exact ⟨Node.withinBounds_getLabel hn, Node.withinBounds_setLabel hn⟩

/-! ## A labelled row -/

/-- A number with a text. -/
def labelledRow : Row := ⟨[.int, .str], some ["id", "tag"]⟩

/-- A tuple with the row. -/
def labelledPair : Tuple := ⟨labelledRow, [.int 1, .str "a"]⟩

/-- A constructor with the row. -/
def labelledCtor : Ty := .ctor "pair" "Pair" [] labelledRow.fields labelledRow.labels

/-- A node of that constructor. -/
def labelledNode : Node := ⟨labelledCtor, "pair", 1, [.int 1, .str "a"], Node.noAnnos, []⟩

theorem obtained_of_parts_nil {t : Ty} (h : t.parts = []) : Obtained (.ty t) :=
  .step (.type (.assemble t)) (h ▸ List.forall_mem_nil _)

theorem obtained_labelledRow : Obtained (.row labelledRow) := by
  have hmake : Row.make [.int, .str] (some ["id", "tag"]) = .ok labelledRow := rfl
  refine .step (.type (.make hmake)) fun i hi => ?_
  rcases List.mem_pair.1 hi with rfl | rfl <;> exact obtained_of_parts_nil rfl

theorem obtained_elems : ∀ i ∈ [Value.int 1, .str "a"].map Item.value, Obtained i := by
  intro i hi
  rcases List.mem_pair.1 hi with rfl | rfl <;>
    exact .step (.value (.leaf rfl)) (List.forall_mem_nil _)

theorem obtained_labelledPair : Obtained (.value labelledPair.toValue) := by
  have hof : Tuple.ofType labelledRow.toTuple [.int 1, .str "a"] = .ok labelledPair := rfl
  have htuple : Obtained (.ty labelledRow.toTuple) :=
    .step (.type (.assemble _)) (List.forall_mem_singleton.2 obtained_labelledRow)
  exact .step (.value (.ofType hof)) (List.forall_mem_cons.2 ⟨htuple, obtained_elems⟩)

theorem obtained_labelledNode : Obtained (.value (labelledNode.inGuise .constructed)) := by
  let op : NodeOp := .ofCtor labelledCtor [.int 1, .str "a"]
  have hrun : (op.run .empty 1).Returns labelledNode := rfl
  have hctor : Obtained (.ty labelledCtor) :=
    .step (.type (.assemble _)) (List.forall_mem_cons.2 ⟨obtained_of_parts_nil rfl,
      List.forall_mem_singleton.2 obtained_labelledRow⟩)
  have hempty : Obtained (.registry .empty) := .step (.registry .empty) (List.forall_mem_nil _)
  refine .step (.value (.node hrun .constructed)) (List.forall_mem_cons.2 ⟨hempty, ?_⟩)
  refine List.forall_mem_append.2 ⟨List.forall_mem_append.2 ⟨?_, obtained_elems⟩, ?_⟩
  · exact List.forall_mem_singleton.2 hctor
  · exact List.forall_mem_nil _

/-- The labels of a row that is made stay with its positions, in the row, in a tuple and in a
node. -/
theorem labels_of_obtained_labelled :
    labelledRow.position? "tag" = some 1 ∧
    (∃ s, labelledRow.select [1, 0] = .ok s ∧ s.labels.isSome = true ∧ s.label? 0 = some "tag") ∧
    (¬ ∃ s, labelledRow.select [0, 2] = .ok s) ∧
    (∃ w, labelledPair.select [1, 0] = .ok w) ∧ WithinBounds (labelledPair.getLabel "tag") ∧
    WithinBounds (labelledNode.setLabel 2 "tag" (.str "b")) := by
  obtain ⟨-, hrows, htuples, hnodes⟩ := labels_of_obtained
  obtain ⟨-, hpos, hsel, hlabels⟩ := hrows labelledRow obtained_labelledRow
  obtain ⟨hget, -, hselect⟩ := htuples labelledPair obtained_labelledPair
  obtain ⟨s, hs⟩ : ∃ s, labelledRow.select [1, 0] = .ok s := (hsel [1, 0]).2 (by decide)
  have hsome : s.labels.isSome = true := (hlabels [1, 0] s hs).1.2 ⟨rfl, by decide⟩
  obtain ⟨w, hw, -⟩ := hselect [1, 0] s hs
  refine ⟨(hpos "tag" 1).2 ⟨by decide, rfl⟩, ⟨s, hs, hsome, (hlabels [1, 0] s hs).2 hsome 0⟩, ?_,
    ⟨w, hw⟩, hget "tag", (hnodes labelledNode .constructed obtained_labelledNode).2 2 "tag" _⟩
  exact fun h => absurd ((hsel [0, 2]).1 h) (by decide)

end ValueLattice

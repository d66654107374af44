import ValueLattice.Proofs.Builder.Run
import ValueLattice.Proofs.Builder.Typing
import ValueLattice.Proofs.Value.CollectionLabels
/-!
# Well-labelled builders

A builder has types, which bound its elements or are declared for them, and it holds the values that
it has collected or the value that it has produced. All of them stay well-labelled as long as the
values that it is given are: an inferred type only grows by joins, and a tuple is produced only when
each declared field has its element.

* `BuilderOf.types`, `BuilderOf.held`: the types and the values of a builder;
* `BuilderOf.WellLabelled`: well-labelled builders;
* `BuilderOf.invariant_wellLabelled`: what every change keeps;
* `BuilderOf.WellLabelled.result`: the value that is produced.
-/

namespace ValueLattice

open Ty Value

variable {k : BuilderKind} {v : Value}

/-- The values that a builder has collected, or the one that it has produced. -/
def Stage.held {α : Type} (values : α → List Value) : Stage α → List Value
  | opened a => values a
  | closed v => [v]

/-- What holds of every value that can be built from what was collected holds of the value that is
produced. -/
theorem Stage.wellLabelled_value {α : Type} {values : α → List Value} {s : Stage α}
    {build : α → Except Fault Value} (hs : ∀ x ∈ s.held values, x.WellLabelled)
    (hb : ∀ a, (∀ x ∈ values a, x.WellLabelled) → build a = .ok v → v.WellLabelled)
    (h : s.value build = .ok v) : v.WellLabelled := by
  cases s with
  | opened a => exact hb a hs h
  | closed w => exact Except.ok.inj h ▸ hs w List.mem_cons_self

namespace BuilderOf

/-- The types that bound the elements, or the declared type of a tuple. -/
def types : {k : BuilderKind} → BuilderOf k → List Ty
  | .set, b => [b.bound.current]
  | .relation, b => [b.bound.current]
  | .list, b => [b.bound.current]
  | .map, b => [b.key.current, b.val.current]
  | .tuple, b => (b.declared.map Row.toTuple).toList

/-- The keys and the values of entries. -/
def entryValues (es : List (Value × Value)) : List Value := es.map Prod.fst ++ es.map Prod.snd

/-- The values that the builder has collected, or the one that it has produced. -/
def held : {k : BuilderKind} → BuilderOf k → List Value
  | .set, b => b.stage.held id
  | .relation, b => b.stage.held id
  | .list, b => b.stage.held id
  | .map, b => b.stage.held entryValues
  | .tuple, b => b.stage.held id

/-- The types and the values of the builder are well-labelled. -/
structure WellLabelled (b : BuilderOf k) : Prop where
  types : ∀ t ∈ b.types, t.WellLabelled
  held : ∀ x ∈ b.held, x.WellLabelled

end BuilderOf

/-! ## Changes -/

theorem Bound.wellLabelled_widen {b : Bound} {t : Ty} (hb : b.current.WellLabelled)
    (ht : t.WellLabelled) : (b.widen t).current.WellLabelled := by
  cases b with
  | declared d => exact hb
  | inferred s => exact hb.lub ht

namespace BuilderOf

/-- The elements of a builder with one bound, and a new one among them. -/
theorem forall_widen {b : Bound} {x : Value} {xs ys : List Value}
    (hb : ∀ t ∈ [b.current], t.WellLabelled) (hxs : ∀ y ∈ xs, y.WellLabelled) (hx : x.WellLabelled)
    (hys : ∀ y ∈ ys, y ∈ xs ∨ y = x) :
    (∀ t ∈ [(b.widen x.ty).current], t.WellLabelled) ∧ ∀ y ∈ ys, y.WellLabelled := by
  rw [List.forall_mem_singleton] at hb ⊢
  refine ⟨Bound.wellLabelled_widen hb hx.ty, fun y hy => ?_⟩
  rcases hys y hy with hy | rfl
  · exact hxs y hy
  · exact hx

theorem forall_entries {es : List (Value × Value)} :
    (∀ x ∈ entryValues es, x.WellLabelled) ↔ ∀ e ∈ es, e.1.WellLabelled ∧ e.2.WellLabelled := by
  rw [entryValues, List.forall_mem_append, List.forall_mem_map, List.forall_mem_map]
  exact ⟨fun ⟨hk, hv⟩ e he => ⟨hk e he, hv e he⟩,
    fun h => ⟨fun e he => (h e he).1, fun e he => (h e he).2⟩⟩

theorem WellLabelled.put {b c : Bound} {es : List (Value × Value)} {x y : Value}
    (h : WellLabelled (k := .map) ⟨b, c, .opened es⟩) (hx : x.WellLabelled) (hy : y.WellLabelled) :
    WellLabelled (k := .map) ⟨b.widen x.ty, c.widen y.ty, .opened (EntryTable.put es x y)⟩ := by
  obtain ⟨ht, hh⟩ := h
  obtain ⟨hkey, hval⟩ := List.forall_mem_cons.1 ht
  have hval : c.current.WellLabelled := List.forall_mem_singleton.1 hval
  have hold : ∀ e ∈ es, e.1.WellLabelled ∧ e.2.WellLabelled := forall_entries.1 hh
  refine ⟨List.forall_mem_cons.2 ⟨Bound.wellLabelled_widen hkey hx.ty, ?_⟩, ?_⟩
  · exact List.forall_mem_singleton.2 (Bound.wellLabelled_widen hval hy.ty)
  · exact forall_entries.2 (EntryTable.forall_put hold hx hy)

/-- A change that is given well-labelled values keeps the builder well-labelled. -/
theorem WellLabelled.edit {b : BuilderOf k} {e : Edit k} {r : Effect (BuilderOf k) Unit}
    (h : b.WellLabelled) (hx : ∀ x ∈ e.values, x.WellLabelled) (ho : e.outcome b = .ok r) :
    r.state.WellLabelled := by
  obtain ⟨ht, hh⟩ := h
  cases Edit.succeeds_of_outcome ho with
  | setInsert | relationInsert =>
    obtain ⟨ht', hh'⟩ := forall_widen ht hh (hx _ List.mem_cons_self) fun y => Table.mem_insert
    exact ⟨ht', hh'⟩
  | @listInsert _ xs x | @listAppend _ xs x =>
    have hxs (y : Value) (hy : y ∈ xs ++ [x]) : y ∈ xs ∨ y = x := by simpa using hy
    obtain ⟨ht', hh'⟩ := forall_widen ht hh (hx x List.mem_cons_self) hxs
    exact ⟨ht', hh'⟩
  | listInsertAt hi =>
    obtain ⟨ht', hh'⟩ := forall_widen ht hh (hx _ List.mem_cons_self) fun y hy =>
      ((List.mem_insertIdx hi).1 hy).symm
    exact ⟨ht', hh'⟩
  | listReplaceAt =>
    obtain ⟨ht', hh'⟩ := forall_widen ht hh (hx _ List.mem_cons_self) fun y =>
      List.mem_or_eq_of_mem_set
    exact ⟨ht', hh'⟩
  | setDelete | relationDelete | listDelete =>
    exact ⟨ht, fun y hy => hh y (List.mem_of_mem_eraseP hy)⟩
  | mapInsert =>
    have hpair := hx _ List.mem_cons_self
    exact WellLabelled.put ⟨ht, hh⟩ (hpair.contents List.mem_cons_self)
      (hpair.contents (List.mem_cons_of_mem _ List.mem_cons_self))
  | mapPut =>
    obtain ⟨hkey, hval⟩ := List.forall_mem_cons.1 hx
    exact WellLabelled.put ⟨ht, hh⟩ hkey (List.forall_mem_singleton.1 hval)
  | mapDelete =>
    have hold := forall_entries.1 hh
    exact ⟨ht, forall_entries.2 fun e he => hold e (List.mem_of_mem_eraseP he)⟩
  | tupleInsert => exact ⟨ht, List.forall_mem_append.2 ⟨hh, hx⟩⟩
  | tupleDelete =>
    refine ⟨ht, fun y hy => hh y ?_⟩
    exact List.mem_reverse.1 (List.mem_of_mem_eraseP (List.mem_reverse.1 hy))

/-! ## The value -/

theorem WellLabelled.result {b : BuilderOf k} (h : b.WellLabelled) (hv : b.result = .ok v) :
    v.WellLabelled := by
  obtain ⟨ht, hh⟩ := h
  cases k with
  | set =>
    refine Stage.wellLabelled_value hh (fun xs hxs hbuild => ?_) hv
    obtain rfl := Except.ok.inj hbuild
    exact wellLabelled_collect (List.forall_mem_singleton.1 ht) hxs
  | relation =>
    refine Stage.wellLabelled_value hh (fun xs hxs hbuild => ?_) hv
    obtain rfl := Except.ok.inj hbuild
    refine Relation.wellLabelled_iff.2 ⟨?_, hxs⟩
    have hb : b.bound.current.WellLabelled := List.forall_mem_singleton.1 ht
    unfold RelationBuilder.row
    split
    · next fs ls hrow =>
      have hb : (Ty.tuple fs ls).WellLabelled := hrow ▸ hb
      exact hb
    · exact Row.wellLabelled_plain (List.forall_mem_nil _)
  | list =>
    refine Stage.wellLabelled_value hh (fun xs hxs hbuild => ?_) hv
    obtain rfl := Except.ok.inj hbuild
    exact wellLabelled_list_iff.2 ⟨List.forall_mem_singleton.1 ht, hxs⟩
  | map =>
    refine Stage.wellLabelled_value hh (fun es hes hbuild => ?_) hv
    obtain rfl := Except.ok.inj hbuild
    obtain ⟨hkey, hval⟩ := List.forall_mem_cons.1 ht
    exact wellLabelled_map_iff.2
      ⟨⟨hkey, List.forall_mem_singleton.1 hval⟩, forall_entries.1 hes⟩
  | tuple =>
    refine Stage.wellLabelled_value hh (fun xs hxs hbuild => ?_) hv
    obtain ⟨_, hfull, hbuild⟩ := bind_eq_ok.1 hbuild
    obtain rfl := Except.ok.inj hbuild
    cases hd : b.declared with
    | none => exact Tuple.wellLabelled_ofValues hxs
    | some r =>
      have hrow : r.toTuple ∈ BuilderOf.types (k := .tuple) b := by simp [BuilderOf.types, hd]
      simp only [hd, TupleBuilder.checkFull] at hfull
      split at hfull
      · next hlen => exact Tuple.wellLabelled_iff.2 ⟨ht r.toTuple hrow, hlen, hxs⟩
      · cases hfull

/-- Every change keeps builders well-labelled, and so does the production of the value. -/
theorem invariant_wellLabelled :
    Invariant (k := k) Value.WellLabelled fun _ b => b.WellLabelled where
  edit := by
    intro es b e r h hx ho
    exact h.edit hx ho
  close := by
    intro es b v h hv
    have hvalue : ∀ x ∈ [v], x.WellLabelled := List.forall_mem_singleton.2 (h.result hv)
    cases k <;> exact ⟨h.types, hvalue⟩

/-- Calls with well-labelled values keep a builder well-labelled. -/
theorem WellLabelled.call {b : BuilderOf k} {c : BuilderCall k} (h : b.WellLabelled)
    (hc : ∀ x ∈ c.values, x.WellLabelled) : (c.run.after b).WellLabelled :=
  -- the invariant does not look at the changes made so far
  @Invariant.call k Value.WellLabelled (fun _ b => b.WellLabelled) [] b invariant_wellLabelled c
    hc h

theorem wellLabelled_of_fresh {b : BuilderOf k} (hb : Fresh b)
    (ht : ∀ t ∈ b.types, t.WellLabelled) : b.WellLabelled := by
  refine ⟨ht, ?_⟩
  cases hb with
  | tupleOf h =>
    unfold TupleBuilder.ofType at h
    split at h
    · obtain rfl := Except.ok.inj h
      exact List.forall_mem_nil _
    · cases h
  | _ => exact List.forall_mem_nil _

end BuilderOf

end ValueLattice

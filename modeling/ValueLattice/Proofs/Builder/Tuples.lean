import ValueLattice.Proofs.Builder.Inference
import ValueLattice.Proofs.Builder.Protocol
import ValueLattice.Proofs.Value.Relation
/-!
# Tuples collected in different ways

Tuples of one length make a relation in four ways: as the relation of given tuples, as the set of
given values, and through a set builder or a relation builder that takes them one by one. All four
succeed, and hold the same tuples under equivalent rows. The first way joins the rows of the tuples
field by field; the others join their types, and where one of two types is strictly below the other
their join is the larger as it is written. So the rows are the same as long as the larger of two
rows is what their fields join to. It is not where it has labels that the smaller row lacks: these
are kept in three of the ways, and are lost in the first.

* `Relation.returns_ofValues`, `SetBuilder.collects`, `RelationBuilder.collects`: the four ways;
* `CollectedAlike`, `collectedAlike_iff`: when they agree.
-/

namespace ValueLattice

/-! ## The ways to collect tuples -/

/-- The tuple has `n` elements, and as many fields. -/
structure Tuple.HasArity (t : Tuple) (n : Nat) : Prop where
  elems : t.arity = n
  fields : t.row.arity = n

variable {t : Tuple} {ts : List Tuple} {n : Nat}

theorem Tuple.HasArity.arity_eq {u : Tuple} (ht : t.HasArity n) (hu : u.HasArity n) :
    t.row.arity = u.row.arity :=
  ht.fields.trans hu.fields.symm

namespace Relation

theorem returns_joinRows {r : Row} (h : ∀ u ∈ ts, r.arity = u.row.arity) :
    (joinRows (some r) (ts.map Tuple.toValue)).Returns
      (some ((ts.map Tuple.row).foldl Row.joinWith r)) := by
  induction ts generalizing r with
  | nil => rfl
  | cons u ts ih =>
    obtain ⟨hu, hts⟩ := List.forall_mem_cons.1 h
    have hjoin : (r.joinSame u.row).Returns (r.joinWith u.row) :=
      Row.returns_joinSame_iff.2 ⟨hu, rfl⟩
    refine Checked.returns_bind.2 ⟨u.row, rfl, Checked.returns_bind.2 ⟨_, hjoin, ?_⟩⟩
    exact ih fun w hw => (Row.arity_joinWith hu).trans (hts w hw)

/-- The relation of tuples of one length is bounded by their rows, joined one after another. -/
theorem returns_ofValues (h : ∀ u ∈ ts, t.row.arity = u.row.arity) :
    (ofValues ((t :: ts).map Tuple.toValue)).Returns
      ⟨(ts.map Tuple.row).foldl Row.joinWith t.row,
        Table.ofList ((t :: ts).map Tuple.toValue)⟩ := by
  refine Checked.returns_bind.2 ⟨some ((ts.map Tuple.row).foldl Row.joinWith t.row), ?_, rfl⟩
  exact Checked.returns_bind.2 ⟨t.row, rfl, returns_joinRows h⟩

end Relation

variable {k : BuilderKind}

/-- Values that are inserted one by one are all taken, and the builder then produces `v`. -/
def BuilderOf.Collects (b : BuilderOf k) (xs : List Value) (v : Value) : Prop :=
  (runCalls (BuilderCall.inserts xs ++ [.done]) b).val.1 =
    xs.map (fun _ => .ok none) ++ [.ok (some v)]

namespace BuilderOf

variable {b : BuilderOf k} {v x : Value} {xs : List Value}

theorem collects_nil (h : b.result = .ok v) : b.Collects [] v := by
  have hdone : (BuilderCall.done.run.start b).val.1 = .ok (some v) := by
    rw [BuilderCall.start_done, h]
    rfl
  exact congrArg (· :: []) hdone

theorem Collects.cons {r : Effect (BuilderOf k) Unit} (ho : (Edit.insert x).outcome b = .ok r)
    (h : r.state.Collects xs v) : b.Collects (x :: xs) v := by
  have hrun := runCalls_edit_of_ok ho (BuilderCall.inserts xs ++ [.done])
  exact (congrArg (fun l => l.val.1) hrun).trans (congrArg (.ok none :: ·) h)

end BuilderOf

theorem SetBuilder.collects (u : Ty) (es xs : List Value) :
    BuilderOf.Collects (k := .set) (⟨.inferred u, .opened es⟩ : SetBuilder) xs
      (collect ((xs.map Value.ty).foldl Ty.lub u) (xs.foldl Table.insert es)) := by
  induction xs generalizing u es with
  | nil => exact BuilderOf.collects_nil rfl
  | cons x xs ih => exact BuilderOf.Collects.cons rfl (ih (u.lub x.ty) (Table.insert es x))

namespace RelationBuilder

/-- From its first tuple on a relation builder is bounded by a row of the length of that tuple, so
it takes each tuple of that length. -/
theorem collects_of_row {r : Row} (es : List Value) (hr : r.arity = n)
    (h : ∀ u ∈ ts, u.HasArity n) :
    BuilderOf.Collects (k := .relation) (⟨.inferred r.toTuple, .opened es⟩ : RelationBuilder)
      (ts.map Tuple.toValue)
      (⟨row (.inferred (((ts.map Tuple.row).map Row.toTuple).foldl Ty.lub r.toTuple)),
        (ts.map Tuple.toValue).foldl Table.insert es⟩ : Relation).toValue := by
  induction ts generalizing r es with
  | nil => exact BuilderOf.collects_nil rfl
  | cons u ts ih =>
    obtain ⟨hu, hts⟩ := List.forall_mem_cons.1 h
    obtain ⟨j, hj, hjr⟩ := Row.exists_lub (hr.trans hu.fields.symm)
    have harity : checkArity (.inferred r.toTuple) u.elems.length = .ok () :=
      if_pos (hr.trans hu.elems.symm)
    have hinsert : Edit.outcome (k := .relation) (.insert u.toValue)
        ⟨.inferred r.toTuple, .opened es⟩ =
        .ok ⟨(), ⟨.inferred j.toTuple, .opened (Table.insert es u.toValue)⟩,
          (Bound.inferred r.toTuple).events .relation u.row.toTuple⟩ := by
      rw [← hj]
      change (checkArity (.inferred r.toTuple) u.elems.length >>= fun _ => _) = _
      rw [harity]
      rfl
    refine BuilderOf.Collects.cons hinsert ?_
    rw [List.map_cons, List.map_cons, List.map_cons, List.foldl_cons, List.foldl_cons, hj]
    exact ih (Table.insert es u.toValue) (hjr.trans hr) hts

theorem collects (h : ∀ u ∈ t :: ts, u.HasArity n) :
    BuilderOf.Collects (k := .relation) (new .start) ((t :: ts).map Tuple.toValue)
      (⟨row (.inferred (((ts.map Tuple.row).map Row.toTuple).foldl Ty.lub t.row.toTuple)),
        Table.ofList ((t :: ts).map Tuple.toValue)⟩ : Relation).toValue := by
  obtain ⟨ht, hts⟩ := List.forall_mem_cons.1 h
  exact BuilderOf.Collects.cons rfl (collects_of_row [t.toValue] ht.fields hts)

end RelationBuilder

/-! ## Agreement -/

/-- All four ways make the same relation of the values. -/
def CollectedAlike (xs : List Value) : Prop :=
  ∃ r : Relation, r.elems = Table.ofList xs ∧ (Relation.ofValues xs).Returns r ∧
    (collectValues xs).val = r.toValue ∧
    BuilderOf.Collects (k := .set) (SetBuilder.new .start) xs r.toValue ∧
    BuilderOf.Collects (k := .relation) (RelationBuilder.new .start) xs r.toValue

/-- The join of the types of tuples is that of their rows' types. -/
theorem joined_tuples (t : Tuple) (ts : List Tuple) :
    joined ((t :: ts).map Tuple.toValue) =
      ((ts.map Tuple.row).map Row.toTuple).foldl Ty.lub t.row.toTuple := by
  rw [List.map_map, joined, List.map_map]
  rfl

/-- Three of the ways bound the tuples by the join of their types. -/
theorem collected_of_joined {j : Row} (h : ∀ u ∈ t :: ts, u.HasArity n)
    (hj : ((ts.map Tuple.row).map Row.toTuple).foldl Ty.lub t.row.toTuple = j.toTuple) :
    let xs := (t :: ts).map Tuple.toValue
    let r : Relation := ⟨j, Table.ofList xs⟩
    (collectValues xs).val = r.toValue ∧
      BuilderOf.Collects (k := .set) (SetBuilder.new .start) xs r.toValue ∧
      BuilderOf.Collects (k := .relation) (RelationBuilder.new .start) xs r.toValue := by
  intro xs r
  have hjoined : joined xs = j.toTuple := (joined_tuples t ts).trans hj
  have hcollect : collect (joined xs) (Table.ofList xs) = r.toValue := by
    rw [hjoined]
    rfl
  refine ⟨?_, ?_, ?_⟩
  · rw [collectValues_val, hcollect]
  · rw [← hcollect]
    exact SetBuilder.collects .void [] xs
  · have hrel := RelationBuilder.collects h
    rw [hj] at hrel
    exact hrel

/-- The ways agree exactly when the joined rows are those of the joined types. -/
theorem collectedAlike_iff (h : ∀ u ∈ t :: ts, u.HasArity n) :
    CollectedAlike ((t :: ts).map Tuple.toValue) ↔
      ((ts.map Tuple.row).map Row.toTuple).foldl Ty.lub t.row.toTuple =
        ((ts.map Tuple.row).foldl Row.joinWith t.row).toTuple := by
  obtain ⟨ht, hts⟩ := List.forall_mem_cons.1 h
  have hvalues : (Relation.ofValues ((t :: ts).map Tuple.toValue)).Returns _ :=
    Relation.returns_ofValues fun u hu => ht.arity_eq (hts u hu)
  constructor
  · rintro ⟨r, -, hr, hcollect, -⟩
    obtain ⟨j, hj⟩ : ∃ j : Row, ((ts.map Tuple.row).map Row.toTuple).foldl Ty.lub t.row.toTuple =
        j.toTuple :=
      Row.exists_foldl_lub (List.forall_mem_map.2 fun u hu => ht.arity_eq (hts u hu))
    obtain rfl := Except.ok.inj (hvalues.symm.trans hr)
    obtain ⟨hfields, hlabels, -⟩ := Value.rel.inj ((collected_of_joined h hj).1.symm.trans hcollect)
    rw [hj, Row.toTuple_inj]
    exact congrArg₂ Row.mk hfields hlabels
  · intro hj
    exact ⟨_, rfl, hvalues, collected_of_joined h hj⟩

/-- The ways agree on tuples with the same labels whose fields have no aliases and labels inside. -/
theorem collectedAlike_of_isBareWith {ls : Option (List String)}
    (h : ∀ u ∈ t :: ts, u.HasArity n) (hbare : ∀ u ∈ t :: ts, u.row.IsBareWith ls) :
    CollectedAlike ((t :: ts).map Tuple.toValue) := by
  obtain ⟨ht, hts⟩ := List.forall_mem_cons.1 h
  obtain ⟨hbt, hbts⟩ := List.forall_mem_cons.1 hbare
  have harity : ∀ r ∈ ts.map Tuple.row, t.row.arity = r.arity :=
    List.forall_mem_map.2 fun u hu => ht.arity_eq (hts u hu)
  have halike : t.row.joinsAlikeAll (ts.map Tuple.row) = true :=
    hbt.joinsAlikeAll (List.forall_mem_map.2 hbts) harity
  exact (collectedAlike_iff h).2 ((Row.joinsAlikeAll_iff harity).1 halike _ List.prefix_rfl)

/-- **Tuples collected in four ways.** From tuples of one length all four ways make a relation of
the same elements, with equivalent rows; three of them make the same relation. The fourth makes it
too, for these tuples and for any number of them from the first on, exactly when their rows join
alike. So it does where all tuples have the same labels and their fields have no aliases and labels
inside. -/
theorem tuples_collected (h : ∀ u ∈ t :: ts, u.HasArity n) :
    (∃ r s : Relation, (Relation.ofValues ((t :: ts).map Tuple.toValue)).Returns r ∧
      (collectValues ((t :: ts).map Tuple.toValue)).val = s.toValue ∧
      BuilderOf.Collects (k := .set) (SetBuilder.new .start) ((t :: ts).map Tuple.toValue)
        s.toValue ∧
      BuilderOf.Collects (k := .relation) (RelationBuilder.new .start)
        ((t :: ts).map Tuple.toValue) s.toValue ∧
      r.elems = s.elems ∧ r.row.toTuple.equivalent s.row.toTuple = true) ∧
    (t.row.joinsAlikeAll (ts.map Tuple.row) = true ↔
      ∀ us, us <+: ts → CollectedAlike ((t :: us).map Tuple.toValue)) ∧
    ∀ ls, (∀ u ∈ t :: ts, u.row.IsBareWith ls) →
      CollectedAlike ((t :: ts).map Tuple.toValue) := by
  obtain ⟨ht, hts⟩ := List.forall_mem_cons.1 h
  have harity : ∀ r ∈ ts.map Tuple.row, t.row.arity = r.arity :=
    List.forall_mem_map.2 fun u hu => ht.arity_eq (hts u hu)
  have hfirst {us : List Tuple} (hus : us <+: ts) : ∀ u ∈ t :: us, u.HasArity n :=
    List.forall_mem_cons.2 ⟨ht, fun u hu => hts u (hus.subset hu)⟩
  refine ⟨?_, ?_, fun ls => collectedAlike_of_isBareWith h⟩
  · obtain ⟨j, hj⟩ := Row.exists_foldl_lub harity
    obtain ⟨hset, hbuilder, hrel⟩ := collected_of_joined h hj
    refine ⟨_, _, Relation.returns_ofValues fun u hu => ht.arity_eq (hts u hu), hset, hbuilder,
      hrel, rfl, ?_⟩
    have hjoin : Ty.IsJoinOf (((t :: ts).map Tuple.row).map Row.toTuple) j.toTuple := by
      rw [← hj]
      exact Ty.isJoinOf_foldl_lub _
    exact (Row.isJoinOf_foldl_joinWith harity).equivalent_of_perm hjoin (List.Perm.refl _)
  · rw [Row.joinsAlikeAll_iff harity]
    constructor
    · intro hall us hus
      exact (collectedAlike_iff (hfirst hus)).2 (hall _ (hus.map Tuple.row))
    · intro hall qs hqs
      -- the first rows are the rows of the first tuples
      obtain ⟨us, hus, rfl⟩ := List.prefix_map_iff.1 hqs
      exact (collectedAlike_iff (hfirst hus)).1 (hall us hus)

/-- Rows with the same labels join alike, and so does a row without labels above them. -/
theorem tuples_collected_labelled :
    let one : Tuple := ⟨⟨[.int], some ["x"]⟩, [.int 1]⟩
    let letter : Tuple := ⟨⟨[.str], some ["x"]⟩, [.str "a"]⟩
    let any : Tuple := ⟨⟨[.value], none⟩, [.bool true]⟩
    (∀ u ∈ [one, letter, any], u.HasArity 1) ∧
      one.row.joinsAlikeAll ([letter, any].map Tuple.row) = true ∧
      CollectedAlike ([one, letter, any].map Tuple.toValue) ∧
      (∀ u ∈ [one, letter], u.row.IsBareWith (some ["x"])) ∧
      CollectedAlike ([one, letter].map Tuple.toValue) := by
  intro one letter any
  have h : ∀ u ∈ [one, letter, any], u.HasArity 1 := by
    simp only [List.forall_mem_cons]
    exact ⟨⟨rfl, rfl⟩, ⟨rfl, rfl⟩, ⟨rfl, rfl⟩, nofun⟩
  have halike : one.row.joinsAlikeAll ([letter, any].map Tuple.row) = true := by decide
  have hshort : ∀ u ∈ [one, letter], u.HasArity 1 := fun u hu =>
    h u (List.mem_append_left [any] hu)
  have hbare : ∀ u ∈ [one, letter], u.row.IsBareWith (some ["x"]) := by
    simp only [List.forall_mem_cons]
    exact ⟨⟨rfl, rfl⟩, ⟨rfl, rfl⟩, nofun⟩
  exact ⟨h, halike, (tuples_collected h).2.1.1 halike [letter, any] List.prefix_rfl, hbare,
    (tuples_collected hshort).2.2 (some ["x"]) hbare⟩

/-- The label of a row that is above an unlabelled one is lost to the relation of the tuples, and
kept in the three other ways. -/
theorem not_collectedAlike_label :
    let one : Tuple := ⟨⟨[.int], none⟩, [.int 1]⟩
    let any : Tuple := ⟨⟨[.value], some ["x"]⟩, [.str "a"]⟩
    let xs := [one, any].map Tuple.toValue
    let r : Relation := ⟨⟨[.value], none⟩, Table.ofList xs⟩
    let s : Relation := ⟨⟨[.value], some ["x"]⟩, Table.ofList xs⟩
    (one.HasArity 1 ∧ any.HasArity 1) ∧
      (Relation.ofValues xs).Returns r ∧
      (collectValues xs).val = s.toValue ∧
      BuilderOf.Collects (k := .set) (SetBuilder.new .start) xs s.toValue ∧
      BuilderOf.Collects (k := .relation) (RelationBuilder.new .start) xs s.toValue ∧
      ¬CollectedAlike xs := by
  intro one any xs r s
  have hr : (Relation.ofValues xs).Returns r := rfl
  have hs : (collectValues xs).val = s.toValue := rfl
  refine ⟨⟨⟨rfl, rfl⟩, ⟨rfl, rfl⟩⟩, hr, hs, rfl, rfl, ?_⟩
  rintro ⟨q, -, hq, hset, -⟩
  obtain rfl := Except.ok.inj (hr.symm.trans hq)
  nomatch (Value.rel.inj (hs.symm.trans hset)).2.1

end ValueLattice

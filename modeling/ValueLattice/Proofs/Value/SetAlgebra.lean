import ValueLattice.Proofs.Value.Closure
import ValueLattice.Proofs.Value.InferredTable
/-!
# Set algebra is exact

On sets of values that are typed by their contents, the operations of set algebra find what the
operations on sets in the mathematical sense contain, whichever of the two sets is the larger, and
sizes add up. Element types play no part in it: they are joined by themselves.

The operations on relations find the same as those on sets of tuples, since both are operations on
tables. Only the bounds are computed in different ways, field by field and as the join of two tuple
types. Both are least upper bounds, so they are equivalent and the results are equal.

* `TypedSet.Exact`: what the operations on two sets find, and how large the results are;
* `Relation.AgreesAsSet`: a relation is, as a set, equal to another;
* `set_algebra_exact`: sets, and relations as sets.
-/

namespace ValueLattice

open Value

/-! ## Sets -/

namespace TypedSet

variable {s u : TypedSet} {x y : Value}

/-- Two sets of the same values, bounded by comparable types, are equal. -/
theorem beq_of_comparable {a b : Ty} {xs : List Value} (h : a.comparable b = true)
    (hx : ∀ x ∈ xs, Inferred x) :
    ((⟨a, xs⟩ : TypedSet).toValue == (⟨b, xs⟩ : TypedSet).toValue) = true := by
  have hself : foundAll xs xs = true :=
    foundAll_iff.2 fun x hm => ⟨x, hm, Table.finds_self (hx x hm)⟩
  change eqv (.set a xs) (.set b xs) = true
  simp [eqv, h, hself]

/-- An intersection is equal to its first set exactly if all elements of that are in the other. -/
theorem inter_beq_iff (hs : Table.OfInferred s.elems) (hu : Table.OfInferred u.elems) :
    ((s.inter u).val.toValue == s.toValue) = true ↔ ∀ x ∈ s.elems, u.has x = true := by
  have hbounds : (s.elem.lub u.elem).comparable s.elem = true :=
    Ty.comparable_lub_left s.elem u.elem
  have hfound : foundAll (Table.inter s.elems u.elems) s.elems = true := by
    refine foundAll_iff.2 fun x hx => Table.has_iff.1 ?_
    have hboth : (Table.has s.elems x && Table.has u.elems x) = true := by
      rw [← Table.has_inter hs.inferred hu.inferred]
      exact Table.has_of_mem (hs.inter hu).inferred hx
    exact (Bool.and_eq_true_iff.1 hboth).1
  change eqv (.set (s.elem.lub u.elem) (Table.inter s.elems u.elems)) (.set s.elem s.elems) =
    true ↔ _
  rw [eqv, hbounds, hfound, Bool.true_and, Bool.and_true, decide_eq_true_eq,
    Table.length_inter hs hu, List.length_filter_eq_length_iff]
  rfl

/-- On the two sets the operations of set algebra find what they should, the sizes add up, and the
first is included in the second exactly if nothing is left of it without the other, and exactly if
the intersection has the elements of the first. -/
structure Exact (s u : TypedSet) : Prop where
  union : ∀ x, (s.union u).val.has x = (s.has x || u.has x)
  inter : ∀ x, (s.inter u).val.has x = (s.has x && u.has x)
  diff : ∀ x, (s.diff u).has x = (s.has x && !u.has x)
  insert : ∀ x y, Inferred x → Inferred y → (s.insert y).val.has x = (s.has x || x == y)
  erase : ∀ x y, Inferred x → Inferred y → (s.erase y).has x = (s.has x && !(x == y))
  size : (s.union u).val.size + (s.inter u).val.size = s.size + u.size
  subset_iff : s.subset u = true ↔ ∀ x, s.has x = true → u.has x = true
  subset_iff_diff : s.subset u = true ↔ (s.diff u).size = 0
  subset_iff_inter : s.subset u = true ↔ ((s.inter u).val.toValue == s.toValue) = true

theorem exact_of_ofInferred (hs : Table.OfInferred s.elems) (hu : Table.OfInferred u.elems) :
    Exact s u where
  union := Table.has_union hs.inferred hu.inferred
  inter := Table.has_inter hs.inferred hu.inferred
  diff := Table.has_diff hs.inferred hu.inferred
  insert x y hx hy := by
    rw [hx.beq_eq hy, ← hx.finds_eq hy]
    exact Table.has_insert hs.inferred x hy
  erase x y hx hy := by
    rw [hx.beq_eq hy, ← hx.finds_eq hy]
    exact Table.has_erase hs x hy
  size := Table.length_union_add_length_inter hs hu
  subset_iff := by
    refine (Table.subset_iff hs).trans ⟨fun h x hx => ?_, fun h x hx => ?_⟩
    · obtain ⟨y, hy, hxy⟩ := Table.has_iff.1 hx
      exact (Table.has_eq_of_finds hu.inferred (hs.inferred y hy) hxy).trans (h y hy)
    · exact h x (Table.has_of_mem hs.inferred hx)
  subset_iff_diff := (Table.subset_iff_diff hs).trans List.length_eq_zero_iff.symm
  subset_iff_inter := (Table.subset_iff hs).trans (inter_beq_iff hs hu).symm

end TypedSet

/-! ## Relations as sets -/

namespace Relation

variable {r s w : Relation} {t : Tuple}

/-- The relation, seen as a set, is equal to the set. -/
def IsSet (r : Relation) (s : TypedSet) : Prop := (r.toSet.toValue == s.toValue) = true

/-- Tuples under a join of two rows are, as a set, those under the join of the tuple types. -/
theorem isSet_joinWith {q : Row} {xs : List Value} (h : r.arity = q.arity)
    (hx : ∀ x ∈ xs, Inferred x) :
    (⟨r.row.joinWith q, xs⟩ : Relation).IsSet ⟨r.row.toTuple.lub q.toTuple, xs⟩ := by
  have hrow := Row.isJoin_joinWith h
  have hty := Ty.isJoin_lub r.row.toTuple q.toTuple
  exact TypedSet.beq_of_comparable
    (Ty.comparable_of_leq (hrow.least _ hty.left hty.right)) hx

theorem returns_joined_iff {q : Row} {f : Row → Relation} :
    (r.row.joinSame q >>= fun j => (return f j : Checked Relation)).Returns w ↔
      r.arity = q.arity ∧ w = f (r.row.joinWith q) := by
  rw [Checked.returns_bind]
  constructor
  · rintro ⟨j, hj, h⟩
    obtain ⟨harity, rfl⟩ := Row.returns_joinSame_iff.1 hj
    exact ⟨harity, (Checked.returns_pure.1 h).symm⟩
  · rintro ⟨harity, rfl⟩
    exact ⟨_, Row.returns_joinSame_iff.2 ⟨harity, rfl⟩, Checked.returns_pure.2 rfl⟩

theorem returns_union_iff : (r.union s).Returns w ↔
    r.arity = s.arity ∧ w = ⟨r.row.joinWith s.row, Table.union r.elems s.elems⟩ :=
  returns_joined_iff

theorem returns_inter_iff : (r.inter s).Returns w ↔
    r.arity = s.arity ∧ w = ⟨r.row.joinWith s.row, Table.inter r.elems s.elems⟩ :=
  returns_joined_iff

theorem returns_insert_iff : (r.insert t.toValue).Returns w ↔
    r.arity = t.row.arity ∧ w = ⟨r.row.joinWith t.row, Table.insert r.elems t.toValue⟩ :=
  returns_joined_iff

/-- The operations on the relations, and on the first of them and the tuple, make the relations
that are, as sets, what the operations on sets make. -/
structure ActsAsSet (r s : Relation) (t : Tuple) : Prop where
  union : ∃ w, (r.union s).Returns w ∧ w.IsSet (r.toSet.union s.toSet).val
  inter : ∃ w, (r.inter s).Returns w ∧ w.IsSet (r.toSet.inter s.toSet).val
  diff : (r.diff s).IsSet (r.toSet.diff s.toSet)
  insert : r.arity = t.row.arity →
    ∃ w, (r.insert t.toValue).Returns w ∧ w.IsSet (r.toSet.insert t.toValue).val
  erase : (r.erase t.toValue).IsSet (r.toSet.erase t.toValue)

theorem actsAsSet (hr : r.InferredElems) (hs : s.InferredElems) (ht : Inferred t.toValue)
    (h : r.arity = s.arity) : r.ActsAsSet s t where
  union := by
    refine ⟨_, returns_union_iff.2 ⟨h, rfl⟩, isSet_joinWith h fun x hx => ?_⟩
    exact (Table.mem_union hx).elim (hr x) (hs x)
  inter := by
    refine ⟨_, returns_inter_iff.2 ⟨h, rfl⟩, isSet_joinWith h fun x hx => ?_⟩
    exact (Table.mem_inter hx).elim (hr x) (hs x)
  diff := TypedSet.beq_of_comparable (Ty.comparable_refl _) fun x hx => hr x (Table.mem_diff hx)
  insert harity := by
    refine ⟨_, returns_insert_iff.2 ⟨harity, rfl⟩, isSet_joinWith harity fun x hx => ?_⟩
    rcases Table.mem_insert hx with hx | rfl
    · exact hr x hx
    · exact ht
  erase := TypedSet.beq_of_comparable (Ty.comparable_refl _) fun x hx =>
    hr x (List.mem_of_mem_eraseP hx)

end Relation

/-! ## Exactness -/

/-- **Set algebra is exact, and relations agree with it.** The operations on sets of values that are
typed by their contents find what they should, whichever of the sets is the larger and whatever
their bounds are, and lead to such sets again. The union and the intersection of two relations fail
exactly if the relations have tuples of different lengths. The operations on relations of one length
make the relations that are, as sets, what the operations on sets make. -/
theorem set_algebra_exact :
    (∀ t xs, (∀ x ∈ xs, Inferred x) → Table.OfInferred (TypedSet.ofTable t xs).elems) ∧
    (∀ s u : TypedSet, Table.OfInferred s.elems → Table.OfInferred u.elems →
      s.Exact u ∧
      (∀ w ∈ [(s.union u).val, (s.inter u).val, s.diff u], Table.OfInferred w.elems) ∧
      ∀ x, Inferred x → ∀ w ∈ [(s.insert x).val, s.erase x], Table.OfInferred w.elems) ∧
    (∀ r s : Relation, r.InferredElems → s.InferredElems → r.arity = s.arity →
      ∀ t : Tuple, Inferred t.toValue → r.ActsAsSet s t) ∧
    ∀ r s : Relation, ((∃ e, (r.union s).start.val = .error e) ↔ r.arity ≠ s.arity) ∧
      ((∃ e, (r.inter s).start.val = .error e) ↔ r.arity ≠ s.arity) := by
  refine ⟨fun t xs h => .ofList h,
    fun s u hs hu => ⟨TypedSet.exact_of_ofInferred hs hu, ?_, fun x hx => ?_⟩,
    fun r s hr hs h t ht => Relation.actsAsSet hr hs ht h, fun r s => ⟨?_, ?_⟩⟩
  · simp only [List.forall_mem_cons]
    exact ⟨hs.union hu, hs.inter hu, hs.diff u.elems, List.forall_mem_nil _⟩
  · simp only [List.forall_mem_cons]
    exact ⟨hs.insert hx, hs.erase x, List.forall_mem_nil _⟩
  · simp [Checked.fails_iff, Relation.returns_union_iff]
  · simp [Checked.fails_iff, Relation.returns_inter_iff]

/-! ### Numbers and texts -/

/-- The numbers one and two. -/
def oneAndTwo : TypedSet := .ofTable .int [int 1, int 2, int 1]

/-- The number two, and a text. -/
def twoAndText : TypedSet := .ofTable .value [str "a", int 2, int 3]

/-- A number with a text. -/
def numberAndText : Tuple := .ofValues [int 1, str "a"]

/-- A relation of that tuple, with labels. -/
def labelledTexts : Relation := ⟨⟨[.int, .str], some ["id", "tag"]⟩, [numberAndText.toValue]⟩

/-- A relation of two texts, with a wider row. -/
def widerTexts : Relation :=
  ⟨.plain [.value, .str], [(Tuple.ofValues [str "b", str "c"]).toValue]⟩

theorem inferred_numberAndText : Inferred numberAndText.toValue :=
  .tuple (List.forall_mem_cons.2 ⟨.leaf rfl, List.forall_mem_singleton.2 (.leaf rfl)⟩)

theorem inferredElems_labelledTexts : labelledTexts.InferredElems :=
  List.forall_mem_singleton.2 inferred_numberAndText

theorem inferredElems_widerTexts : widerTexts.InferredElems :=
  List.forall_mem_singleton.2 <|
    .tuple (List.forall_mem_cons.2 ⟨.leaf rfl, List.forall_mem_singleton.2 (.leaf rfl)⟩)

/-- Two numbers, and a number with two other elements: the smaller set is not included in the
larger, sizes add up, and relations of pairs with different rows have a union like their sets. -/
theorem set_algebra_exact_texts :
    ((oneAndTwo.union twoAndText).val.size + (oneAndTwo.inter twoAndText).val.size = 5 ∧
      ¬ (oneAndTwo.diff twoAndText).size = 0 ∧
      (oneAndTwo.insert (int 3)).val.has (int 3) = true) ∧
    (∃ w, (labelledTexts.union widerTexts).Returns w ∧
      w.IsSet (labelledTexts.toSet.union widerTexts.toSet).val) ∧
    ∃ w, (labelledTexts.insert numberAndText.toValue).Returns w ∧
      w.IsSet (labelledTexts.toSet.insert numberAndText.toValue).val := by
  obtain ⟨hof, hsets, hrels, -⟩ := set_algebra_exact
  have hleaf (x) (hx : x ∈ [int 1, int 2, int 1, str "a", int 2, int 3]) : Inferred x := by
    simp only [List.mem_cons, List.not_mem_nil, or_false] at hx
    rcases hx with rfl | rfl | rfl | rfl | rfl | rfl <;> exact .leaf rfl
  have hs := hof .int [int 1, int 2, int 1] fun x hx => hleaf x (List.mem_append_left [_, _, _] hx)
  have hu := hof .value [str "a", int 2, int 3] fun x hx =>
    hleaf x (List.mem_append_right [_, _, _] hx)
  obtain ⟨hexact, -⟩ := hsets oneAndTwo twoAndText hs hu
  have hnot : ¬ oneAndTwo.subset twoAndText = true := by decide +kernel
  have hsize : oneAndTwo.size + twoAndText.size = 5 := by decide +kernel
  have hself : (int 3 == int 3) = true := by decide +kernel
  have hacts := hrels labelledTexts widerTexts inferredElems_labelledTexts inferredElems_widerTexts
    rfl numberAndText inferred_numberAndText
  refine ⟨⟨hexact.size.trans hsize, fun h => hnot (hexact.subset_iff_diff.2 h), ?_⟩, hacts.union,
    hacts.insert rfl⟩
  rw [hexact.insert (int 3) (int 3) (.leaf rfl) (.leaf rfl), hself, Bool.or_true]

end ValueLattice

import ValueLattice.Proofs.Value.Lookup
/-!
# Tables of values typed by their contents

Among values that are typed by their contents, those of one digest are interchangeable: every value
finds all of them or none. A table of such values holds one of each digest, so it is a finite set of
digests, and the operations on tables are those on sets. Which of the two tables an operation takes
its elements from, and in which order, does not show in what the result finds.

* `Table.OfInferred`: the tables, closed under all operations;
* `Table.has_insert`, `has_erase`, `has_union`, `has_inter`, `has_diff`: what the results of the
  operations find;
* `Table.OfInferred.length_le`: a table is as small as any list in which its elements are found;
* `Table.length_union_add_length_inter`, `Table.subset_iff`: sizes and inclusion.
-/

namespace ValueLattice

open Value

namespace Table

variable {t u xs : List Value} {x y z : Value}

/-- No value tells two values of one digest apart that are typed by their contents. -/
theorem finds_eq_of_sameDigest (x : Value) (hy : Inferred y) (hz : Inferred z)
    (h : sameDigest y z = true) : x.finds y = x.finds z :=
  Bool.eq_iff_iff.2 ⟨(steady x).finds hy hz h, (steady x).finds hz hy (sameDigest_symm h)⟩

theorem has_iff : has t x = true ↔ ∃ y ∈ t, x.finds y = true := List.any_eq_true

theorem finds_self (hx : Inferred x) : x.finds x = true := by
  rw [hx.finds_eq hx, sameDigest_refl]

theorem has_of_mem (ht : ∀ x ∈ t, Inferred x) (hx : x ∈ t) : has t x = true :=
  has_iff.2 ⟨x, hx, finds_self (ht x hx)⟩

/-- What finds one of two values that find each other finds the other. -/
theorem finds_of_finds (hx : Inferred x) (hy : Inferred y) (hzx : z.finds x = true)
    (hzy : z.finds y = true) : x.finds y = true := by
  rw [hx.finds_eq hy]
  exact sameDigest_trans (sameDigest_symm (sameDigest_of_finds hzx)) (sameDigest_of_finds hzy)

/-- A value finds the same as the values that it finds. -/
theorem finds_congr (hy : Inferred y) (hz : Inferred z) (hxy : x.finds y = true) :
    x.finds z = y.finds z := by
  rw [Bool.eq_iff_iff]
  constructor
  · exact finds_of_finds hy hz hxy
  · intro hyz
    rwa [← finds_eq_of_sameDigest x hy hz (sameDigest_of_finds hyz)]

/-- The values are typed by their contents, and none finds an earlier one. -/
structure OfInferred (t : List Value) : Prop where
  inferred : ∀ x ∈ t, Inferred x
  pairwise : t.Pairwise fun x y => y.finds x = false

namespace OfInferred

theorem ofList (h : ∀ x ∈ xs, Inferred x) : OfInferred (Table.ofList xs) :=
  ⟨fun x hx => h x (mem_ofList hx), pairwise_ofList xs⟩

theorem sublist (ht : OfInferred t) (h : u.Sublist t) : OfInferred u :=
  ⟨fun x hx => ht.inferred x (h.subset hx), ht.pairwise.sublist h⟩

theorem insert (ht : OfInferred t) (hx : Inferred x) : OfInferred (Table.insert t x) := by
  refine ⟨fun y hy => ?_, pairwise_insert ht.pairwise⟩
  rcases mem_insert hy with hy | rfl
  · exact ht.inferred y hy
  · exact hx

theorem erase (ht : OfInferred t) (x : Value) : OfInferred (Table.erase t x) :=
  ht.sublist List.eraseP_sublist

theorem diff (ht : OfInferred t) (u : List Value) : OfInferred (Table.diff t u) :=
  ht.sublist List.filter_sublist

theorem append_diff (ht : OfInferred t) (hu : OfInferred u) :
    OfInferred (t ++ Table.diff u t) := by
  refine ⟨List.forall_mem_append.2 ⟨ht.inferred, (hu.diff t).inferred⟩,
    List.pairwise_append.2 ⟨ht.pairwise, (hu.diff t).pairwise, fun x hx y hy => ?_⟩⟩
  have hy : (!has t y) = true := (List.mem_filter.1 hy).2
  rw [Bool.not_eq_true', Bool.eq_false_iff] at hy
  exact Bool.eq_false_iff.2 fun hyx => hy (has_iff.2 ⟨x, hx, hyx⟩)

theorem union (ht : OfInferred t) (hu : OfInferred u) : OfInferred (Table.union t u) := by
  unfold Table.union
  split
  · exact ht.append_diff hu
  · exact hu.append_diff ht

theorem inter (ht : OfInferred t) (hu : OfInferred u) : OfInferred (Table.inter t u) := by
  unfold Table.inter
  split
  · exact ht.sublist List.filter_sublist
  · exact hu.sublist List.filter_sublist

/-- No two elements of a table have one digest. -/
theorem countP_le_one (ht : OfInferred t) (y : Value) : t.countP (sameDigest · y) ≤ 1 := by
  refine countP_le_one_of_pairwise (ht.pairwise.imp_of_mem fun {a b} ha hb hba => ?_)
  rintro ⟨hay, hby⟩
  rw [(ht.inferred b hb).finds_eq (ht.inferred a ha),
    sameDigest_trans hby (sameDigest_symm hay)] at hba
  nomatch hba

/-- A table has no more elements than a list in which all of them are found. -/
theorem length_le (ht : OfInferred t) (h : ∀ x ∈ t, has u x = true) : t.length ≤ u.length := by
  have hfound (x) (hx : x ∈ t) : ∃ y ∈ u, x.finds y = true ∧ sameDigest x y = true := by
    obtain ⟨y, hy, hxy⟩ := has_iff.1 (h x hx)
    exact ⟨y, hy, hxy, sameDigest_of_finds hxy⟩
  obtain ⟨zs, hzs, hsub⟩ := exists_subperm_of_unshared hfound fun y _ => ht.countP_le_one y
  rw [hzs.length_eq]
  exact hsub.length_le

end OfInferred

/-! ## What is found -/

section Found

variable (ht : ∀ y ∈ t, Inferred y) (hu : ∀ y ∈ u, Inferred y)

include hu in
/-- A value is found where the values are that it finds. -/
theorem has_eq_of_finds (hy : Inferred y) (hxy : x.finds y = true) : has u x = has u y := by
  rw [Bool.eq_iff_iff, has_iff, has_iff]
  exact exists_congr fun z => and_congr_right fun hz => by rw [finds_congr hy (hu z hz) hxy]

/-- A selection that does not tell apart what a value finds. -/
theorem has_filter {p : Value → Bool} {b : Bool} (h : ∀ y ∈ t, x.finds y = true → p y = b) :
    has (t.filter p) x = (has t x && b) := by
  rw [Bool.eq_iff_iff, Bool.and_eq_true, has_iff, has_iff]
  constructor
  · rintro ⟨y, hy, hxy⟩
    obtain ⟨hy, hp⟩ := List.mem_filter.1 hy
    exact ⟨⟨y, hy, hxy⟩, h y hy hxy ▸ hp⟩
  · rintro ⟨⟨y, hy, hxy⟩, hb⟩
    exact ⟨y, List.mem_filter.2 ⟨hy, (h y hy hxy).trans hb⟩, hxy⟩

include ht in
theorem has_insert (x : Value) (hy : Inferred y) :
    has (insert t y) x = (has t x || x.finds y) := by
  unfold insert
  split
  · next hty =>
    rw [Bool.eq_iff_iff, Bool.or_eq_true]
    refine (or_iff_left_of_imp fun hxy => ?_).symm
    rwa [has_eq_of_finds ht hy hxy]
  · simp [has]

theorem has_erase (ht : OfInferred t) (x : Value) (hy : Inferred y) :
    has (erase t y) x = (has t x && !x.finds y) := by
  have herase : erase t y = t.filter fun z => !y.finds z := by
    refine eraseP_eq_filter (ht.pairwise.imp_of_mem fun {a b} ha hb hba => ?_)
    rintro ⟨hya, hyb⟩
    rw [finds_of_finds (ht.inferred b hb) (ht.inferred a ha) hyb hya] at hba
    nomatch hba
  rw [herase]
  refine has_filter fun z hz hxz => congrArg (!·) ?_
  rw [Bool.eq_iff_iff]
  constructor
  · intro hyz
    rwa [finds_eq_of_sameDigest x hy (ht.inferred z hz) (sameDigest_of_finds hyz)]
  · exact fun hxy => finds_of_finds hy (ht.inferred z hz) hxy hxz

include ht hu

theorem has_diff (x : Value) : has (diff t u) x = (has t x && !has u x) :=
  has_filter fun y hy hxy => by rw [has_eq_of_finds hu (ht y hy) hxy]

theorem has_inter (x : Value) : has (inter t u) x = (has t x && has u x) := by
  unfold inter
  split
  · exact has_filter fun y hy hxy => (has_eq_of_finds hu (ht y hy) hxy).symm
  · rw [Bool.and_comm]
    exact has_filter fun y hy hxy => (has_eq_of_finds ht (hu y hy) hxy).symm

theorem has_union (x : Value) : has (union t u) x = (has t x || has u x) := by
  have happend (t u : List Value) : has (t ++ u) x = (has t x || has u x) := List.any_append
  unfold union
  split
  · rw [happend, has_diff hu ht]
    cases has t x <;> cases has u x <;> rfl
  · rw [happend, has_diff ht hu]
    cases has t x <;> cases has u x <;> rfl

end Found

/-! ## Sizes and inclusion -/

section Sizes

variable (ht : OfInferred t) (hu : OfInferred u)

include ht hu

/-- As many elements of either table are in the other. -/
theorem length_filter_has : (t.filter (has u)).length = (u.filter (has t)).length := by
  have hle {t u : List Value} (ht : OfInferred t) (hu : OfInferred u) :
      (t.filter (has u)).length ≤ (u.filter (has t)).length := by
    refine (ht.sublist List.filter_sublist).length_le fun x hx => ?_
    obtain ⟨hx, hux⟩ := List.mem_filter.1 hx
    rw [has_filter fun y hy hxy =>
      (has_eq_of_finds ht.inferred (hu.inferred y hy) hxy).symm, hux]
    exact has_of_mem ht.inferred hx
  exact Nat.le_antisymm (hle ht hu) (hle hu ht)

theorem length_inter : (inter t u).length = (t.filter (has u)).length := by
  unfold inter
  split
  · rfl
  · exact (length_filter_has ht hu).symm

theorem length_union_add_length_inter :
    (union t u).length + (inter t u).length = t.length + u.length := by
  have hsplit (t u : List Value) : t.length = (t.filter (has u)).length + (diff t u).length := by
    rw [List.length_eq_length_filter_add (has u), diff]
  have hboth := length_filter_has ht hu
  have ht' := hsplit t u
  have hu' := hsplit u t
  rw [length_inter ht hu]
  unfold union
  split <;> rw [List.length_append] <;> omega

omit hu in
theorem subset_iff : subset t u = true ↔ ∀ x ∈ t, has u x = true := by
  rw [subset, Bool.and_eq_true, List.all_eq_true, decide_eq_true_eq]
  exact and_iff_right_of_imp ht.length_le

omit hu in
theorem subset_iff_diff : subset t u = true ↔ diff t u = [] := by
  rw [subset_iff ht, diff, List.filter_eq_nil_iff]
  simp

/-- Tables in which the same values are found are equal as tables. -/
theorem length_eq_and_foundAll (htu : ∀ x ∈ t, has u x = true) (hut : ∀ x ∈ u, has t x = true) :
    t.length = u.length ∧ foundAll t u = true :=
  ⟨Nat.le_antisymm (ht.length_le htu) (hu.length_le hut),
    foundAll_iff.2 fun x hx => has_iff.1 (htu x hx)⟩

end Sizes

end Table

end ValueLattice

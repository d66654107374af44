import ValueLattice.Value.Table
/-!
# Contents of tables

Whatever an operation on tables leaves in a table was in one of the tables that it was given, or
was put in. The look-up decides which of several equal elements stays, and none of the facts
here depend on it.

* `Table.mem_insert`, `Table.mem_ofList`, `Table.mem_union`, `Table.mem_inter`: elements of tables;
* `Table.pairwise_ofList`, `Table.exists_mem_ofList`: no element finds an earlier one, and every
  value put in has its place;
* `EntryTable.forall_put`, `EntryTable.forall_putAll`: keys and values of tables of entries;
* `EntryTable.pairwise_putAll`: no key finds an earlier one.
-/

namespace ValueLattice

namespace Table

variable {t u xs : List Value} {x y : Value}

theorem mem_insert (h : y ∈ insert t x) : y ∈ t ∨ y = x := by
  unfold insert at h
  split at h
  · exact .inl h
  · simpa using h

theorem mem_foldl_insert (h : y ∈ xs.foldl insert t) : y ∈ t ∨ y ∈ xs := by
  induction xs generalizing t with
  | nil => exact .inl h
  | cons x xs ih =>
    rcases ih h with h | h
    · rcases mem_insert h with h | rfl
      · exact .inl h
      · exact .inr List.mem_cons_self
    · exact .inr (List.mem_cons_of_mem x h)

theorem mem_ofList (h : y ∈ ofList xs) : y ∈ xs := by
  rcases mem_foldl_insert h with h | h
  · cases h
  · exact h

/-- Nothing changes before the place where a value is put. -/
theorem insert_cons (h : x.finds y = false) : insert (y :: t) x = y :: insert t x := by
  unfold insert has
  rw [List.any_cons, h, Bool.false_or]
  cases t.any x.finds <;> rfl

theorem ofList_snoc (xs : List Value) (x : Value) :
    ofList (xs ++ [x]) = insert (ofList xs) x :=
  List.foldl_append

theorem pairwise_insert (h : t.Pairwise fun a b => b.finds a = false) :
    (insert t x).Pairwise fun a b => b.finds a = false := by
  unfold insert
  split
  · exact h
  · next hx =>
    refine List.pairwise_append.2 ⟨h, List.pairwise_singleton _ x, fun a ha b hb => ?_⟩
    rw [List.mem_singleton.1 hb]
    exact Bool.eq_false_iff.2 fun hf => hx (List.any_eq_true.2 ⟨a, ha, hf⟩)

theorem pairwise_foldl_insert (h : t.Pairwise fun a b => b.finds a = false) :
    (xs.foldl insert t).Pairwise fun a b => b.finds a = false := by
  induction xs generalizing t with
  | nil => exact h
  | cons x xs ih => exact ih (pairwise_insert h)

/-- No element of a table finds an earlier one. -/
theorem pairwise_ofList (xs : List Value) :
    (ofList xs).Pairwise fun a b => b.finds a = false :=
  pairwise_foldl_insert List.Pairwise.nil

/-- A value that finds none is put at the end. -/
theorem insert_eq_append (h : ∀ y ∈ t, x.finds y = false) : insert t x = t ++ [x] := by
  unfold insert
  refine if_neg fun hhas => ?_
  obtain ⟨y, hy, hxy⟩ := List.any_eq_true.1 hhas
  exact Bool.eq_false_iff.1 (h y hy) hxy

theorem foldl_insert_eq_append (h : (t ++ xs).Pairwise fun a b => b.finds a = false) :
    xs.foldl insert t = t ++ xs := by
  induction xs generalizing t with
  | nil => exact (List.append_nil t).symm
  | cons x xs ih =>
    have hx : insert t x = t ++ [x] :=
      insert_eq_append fun y hy => (List.pairwise_append.1 h).2.2 y hy x List.mem_cons_self
    have hassoc : t ++ x :: xs = t ++ [x] ++ xs := by rw [List.append_assoc, List.singleton_append]
    rw [hassoc] at h ⊢
    rw [List.foldl_cons, hx, ih h]

/-- Values of which none finds an earlier one are put in as they are listed. -/
theorem ofList_eq_self (h : xs.Pairwise fun a b => b.finds a = false) : ofList xs = xs :=
  foldl_insert_eq_append (t := []) h

theorem subset_insert (t : List Value) (x : Value) : t ⊆ insert t x := by
  unfold insert
  split
  · exact List.Subset.refl t
  · exact List.subset_append_left t [x]

theorem subset_foldl_insert (t xs : List Value) : t ⊆ xs.foldl insert t := by
  induction xs generalizing t with
  | nil => exact List.Subset.refl t
  | cons x xs ih => exact List.Subset.trans (subset_insert t x) (ih (insert t x))

theorem exists_mem_insert (t : List Value) (x : Value) :
    ∃ y ∈ insert t x, y = x ∨ x.finds y = true := by
  unfold insert
  split
  · next h =>
    obtain ⟨y, hy, hxy⟩ := List.any_eq_true.1 h
    exact ⟨y, hy, .inr hxy⟩
  · exact ⟨x, List.mem_append_right t (List.mem_singleton_self x), .inl rfl⟩

/-- A value that is put in is in the table, or finds an element of it. -/
theorem exists_mem_ofList (h : x ∈ xs) : ∃ y ∈ ofList xs, y = x ∨ x.finds y = true := by
  obtain ⟨as, bs, rfl⟩ := List.append_of_mem h
  have hfold : ofList (as ++ x :: bs) = bs.foldl insert (insert (as.foldl insert []) x) := by
    rw [ofList, List.foldl_append, List.foldl_cons]
  obtain ⟨y, hy, hxy⟩ := exists_mem_insert (as.foldl insert []) x
  rw [hfold]
  exact ⟨y, subset_foldl_insert _ bs hy, hxy⟩

theorem mem_diff (h : y ∈ diff t u) : y ∈ t := (List.mem_filter.1 h).1

theorem mem_union (h : y ∈ union t u) : y ∈ t ∨ y ∈ u := by
  unfold union at h
  split at h
  · exact (List.mem_append.1 h).imp_right mem_diff
  · exact (List.mem_append.1 h).symm.imp_left mem_diff

theorem mem_inter (h : y ∈ inter t u) : y ∈ t ∨ y ∈ u := by
  unfold inter at h
  split at h
  · exact .inl (List.mem_filter.1 h).1
  · exact .inr (List.mem_filter.1 h).1

end Table

namespace EntryTable

variable {p q : Value → Prop} {t es : List (Value × Value)} {k v : Value}

/-- A property of all keys and one of all values are kept when a key is bound. -/
theorem forall_put (ht : ∀ e ∈ t, p e.1 ∧ q e.2) (hk : p k) (hv : q v) :
    ∀ e ∈ put t k v, p e.1 ∧ q e.2 := by
  induction t with
  | nil =>
    intro e he
    rw [List.mem_singleton.1 he]
    exact ⟨hk, hv⟩
  | cons f rest ih =>
    obtain ⟨hf, hrest⟩ := List.forall_mem_cons.1 ht
    unfold put
    split
    · exact List.forall_mem_cons.2 ⟨⟨hf.1, hv⟩, hrest⟩
    · exact List.forall_mem_cons.2 ⟨hf, ih hrest⟩

/-- A key is put where a table of keys has it. -/
theorem map_fst_put (t : List (Value × Value)) (k v : Value) :
    (put t k v).map Prod.fst = Table.insert (t.map Prod.fst) k := by
  induction t with
  | nil => rfl
  | cons e t ih =>
    unfold put
    split
    · next he => simp [Table.insert, Table.has, he]
    · next he =>
      rw [List.map_cons, List.map_cons, ih, Table.insert_cons (Bool.eq_false_iff.2 he)]

theorem pairwise_put (h : t.Pairwise fun e f => f.1.finds e.1 = false) :
    (put t k v).Pairwise fun e f => f.1.finds e.1 = false := by
  have hkeys : ((put t k v).map Prod.fst).Pairwise fun a b => b.finds a = false := by
    rw [map_fst_put]
    exact Table.pairwise_insert (List.pairwise_map.2 h)
  exact List.pairwise_map.1 hkeys

/-- No key of a table finds an earlier one. -/
theorem pairwise_putAll (h : t.Pairwise fun e f => f.1.finds e.1 = false) :
    (putAll t es).Pairwise fun e f => f.1.finds e.1 = false := by
  induction es generalizing t with
  | nil => exact h
  | cons e es ih => exact ih (pairwise_put h)

/-- A key that finds none is put at the end. -/
theorem put_eq_append (h : ∀ e ∈ t, k.finds e.1 = false) : put t k v = t ++ [(k, v)] := by
  induction t with
  | nil => rfl
  | cons e rest ih =>
    obtain ⟨he, hrest⟩ := List.forall_mem_cons.1 h
    rw [put, if_neg (Bool.eq_false_iff.1 he), ih hrest, List.cons_append]

/-- Entries of which no key finds an earlier one are put in as they are listed. -/
theorem putAll_eq_append (h : (t ++ es).Pairwise fun e f => f.1.finds e.1 = false) :
    putAll t es = t ++ es := by
  induction es generalizing t with
  | nil => exact (List.append_nil t).symm
  | cons f es ih =>
    have hf : put t f.1 f.2 = t ++ [f] :=
      put_eq_append fun e he => (List.pairwise_append.1 h).2.2 e he f List.mem_cons_self
    have hassoc : t ++ f :: es = t ++ [f] ++ es := by rw [List.append_assoc, List.singleton_append]
    rw [hassoc] at h ⊢
    rw [← ih h, ← hf]
    rfl

theorem putAll_snoc (t es : List (Value × Value)) (e : Value × Value) :
    putAll t (es ++ [e]) = put (putAll t es) e.1 e.2 :=
  List.foldl_append

theorem forall_putAll (ht : ∀ e ∈ t, p e.1 ∧ q e.2) (hes : ∀ e ∈ es, p e.1 ∧ q e.2) :
    ∀ e ∈ putAll t es, p e.1 ∧ q e.2 := by
  induction es generalizing t with
  | nil => exact ht
  | cons f es ih =>
    obtain ⟨hf, hes⟩ := List.forall_mem_cons.1 hes
    exact ih (forall_put ht hf.1 hf.2) hes

end EntryTable

end ValueLattice

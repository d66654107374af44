import ValueLattice.Proofs.Value.Table
import ValueLattice.Proofs.Value.Typing
import ValueLattice.Value.TypedList
import ValueLattice.Value.TypedMap
/-!
# Sets, lists and maps are well-typed

Each operation on a collection computes a bound apart from the contents. Here the two are
compared: every operation turns well-typed arguments into a well-typed value. Additions widen
the bound to a join, which is above the bound of each argument (`HasTy.lub_left`,
`HasTy.lub_right`); removals keep the bound, and leave nothing that was not there.

`SetCall args v` says that one operation on sets turns the arguments `args` into `v`, and
`ListCall` and `MapCall` say the same of lists and maps.

* `SetCall.wellTyped`, `ListCall.wellTyped`, `MapCall.wellTyped`: the calls.
-/

namespace ValueLattice

open Value

variable {t u : Ty} {v x : Value} {xs args : List Value}

theorem Value.HasTy.lub_left (h : x.HasTy t) (u : Ty) : x.HasTy (t.lub u) :=
  h.mono (Ty.isJoin_lub t u).left

theorem Value.HasTy.lub_right (h : x.HasTy u) (t : Ty) : x.HasTy (t.lub u) :=
  h.mono (Ty.isJoin_lub t u).right

/-- The join of the types of values bounds each of them. -/
theorem hasTy_joinAll (h : ∀ x ∈ xs, x.WellTyped) :
    ∀ x ∈ xs, x.HasTy (Ty.joinAll .void (xs.map Value.ty)).val := by
  intro x hx
  rw [Ty.joinAll_val]
  exact (h x hx).hasTy.mono ((Ty.leq_foldl_lub _ _).2 _ (List.mem_map_of_mem hx))

/-! ## Sets -/

namespace TypedSet

variable {s r : TypedSet}

theorem wellTyped_iff : s.toValue.WellTyped ↔ ∀ x ∈ s.elems, x.HasTy s.elem := wellTyped_set_iff

theorem wellTyped_ofValues (h : ∀ x ∈ xs, x.WellTyped) : (ofValues xs).val.toValue.WellTyped :=
  wellTyped_iff.2 fun x hx => hasTy_joinAll h x (Table.mem_ofList hx)

theorem wellTyped_insert (hs : s.toValue.WellTyped) (hx : x.WellTyped) :
    (s.insert x).val.toValue.WellTyped := by
  rw [wellTyped_iff] at hs ⊢
  intro y hy
  rcases Table.mem_insert hy with hy | rfl
  · exact (hs y hy).lub_left x.ty
  · exact hx.hasTy.lub_right s.elem

theorem wellTyped_erase (hs : s.toValue.WellTyped) : (s.erase x).toValue.WellTyped := by
  rw [wellTyped_iff] at hs ⊢
  exact fun y hy => hs y (List.mem_of_mem_eraseP hy)

/-- Elements of two sets are bounded by the join of the two bounds. -/
theorem wellTyped_joined (hs : s.toValue.WellTyped) (hr : r.toValue.WellTyped)
    (hx : ∀ x ∈ xs, x ∈ s.elems ∨ x ∈ r.elems) :
    (toValue ⟨s.elem.lub r.elem, xs⟩).WellTyped := by
  rw [wellTyped_iff] at hs hr ⊢
  intro x hm
  rcases hx x hm with hm | hm
  · exact (hs x hm).lub_left r.elem
  · exact (hr x hm).lub_right s.elem

theorem wellTyped_union (hs : s.toValue.WellTyped) (hr : r.toValue.WellTyped) :
    (s.union r).val.toValue.WellTyped :=
  wellTyped_joined hs hr fun _ => Table.mem_union

theorem wellTyped_inter (hs : s.toValue.WellTyped) (hr : r.toValue.WellTyped) :
    (s.inter r).val.toValue.WellTyped :=
  wellTyped_joined hs hr fun _ => Table.mem_inter

theorem wellTyped_diff (hs : s.toValue.WellTyped) : (s.diff r).toValue.WellTyped := by
  rw [wellTyped_iff] at hs ⊢
  exact fun y hy => hs y (Table.mem_diff hy)

end TypedSet

theorem wellTyped_collectValues (h : ∀ x ∈ xs, x.WellTyped) : (collectValues xs).val.WellTyped :=
  wellTyped_collect fun x hx => hasTy_joinAll h x (Table.mem_ofList hx)

/-- The calls on sets. -/
inductive SetCall : List Value → Value → Prop
  | empty (t : Ty) : SetCall [] (TypedSet.empty t).toValue
  | ofValues (xs : List Value) : SetCall xs (TypedSet.ofValues xs).val.toValue
  | collect (xs : List Value) : SetCall xs (collectValues xs).val
  | elem {s : TypedSet} {x : Value} (h : x ∈ s.elems) : SetCall [s.toValue] x
  | insert (s : TypedSet) (x : Value) : SetCall [s.toValue, x] (s.insert x).val.toValue
  | erase (s : TypedSet) (x : Value) : SetCall [s.toValue, x] (s.erase x).toValue
  | union (s r : TypedSet) : SetCall [s.toValue, r.toValue] (s.union r).val.toValue
  | inter (s r : TypedSet) : SetCall [s.toValue, r.toValue] (s.inter r).val.toValue
  | diff (s r : TypedSet) : SetCall [s.toValue, r.toValue] (s.diff r).toValue

theorem SetCall.wellTyped (h : SetCall args v) (ha : ∀ x ∈ args, x.WellTyped) : v.WellTyped := by
  cases h with
  | empty t => exact wellTyped_set_iff.2 nofun
  | ofValues xs => exact TypedSet.wellTyped_ofValues ha
  | collect xs => exact wellTyped_collectValues ha
  | elem h => exact (TypedSet.wellTyped_iff.1 (ha _ (by simp)) v h).1
  | insert s x => exact TypedSet.wellTyped_insert (ha _ (by simp)) (ha x (by simp))
  | erase s x => exact TypedSet.wellTyped_erase (ha _ (by simp))
  | union s r => exact TypedSet.wellTyped_union (ha _ (by simp)) (ha r.toValue (by simp))
  | inter s r => exact TypedSet.wellTyped_inter (ha _ (by simp)) (ha r.toValue (by simp))
  | diff s r => exact TypedSet.wellTyped_diff (ha _ (by simp))

/-! ## Lists -/

namespace TypedList

variable {l m : TypedList} {i n : Nat}

theorem wellTyped_iff : l.toValue.WellTyped ↔ ∀ x ∈ l.elems, x.HasTy l.elem := wellTyped_list_iff

theorem wellTyped_get (hl : l.toValue.WellTyped) (h : l.get i = .ok x) : x.WellTyped := by
  unfold get at h
  split at h
  · next y hy =>
    obtain rfl := Except.ok.inj h
    exact (wellTyped_iff.1 hl y (List.mem_of_getElem? hy)).1
  · nomatch h

theorem wellTyped_append (hl : l.toValue.WellTyped) (hx : x.WellTyped) :
    (l.append x).val.toValue.WellTyped := by
  rw [wellTyped_iff] at hl ⊢
  intro y hy
  rcases List.mem_append.1 hy with hy | hy
  · exact (hl y hy).lub_left x.ty
  · rw [List.mem_singleton.1 hy]
    exact hx.hasTy.lub_right l.elem

theorem wellTyped_prepend (hl : l.toValue.WellTyped) (hx : x.WellTyped) :
    (l.prepend x).val.toValue.WellTyped := by
  rw [wellTyped_iff] at hl ⊢
  intro y hy
  rcases List.mem_cons.1 hy with rfl | hy
  · exact hx.hasTy.lub_right l.elem
  · exact (hl y hy).lub_left x.ty

theorem wellTyped_concat (hl : l.toValue.WellTyped) (hm : m.toValue.WellTyped) :
    (l.concat m).val.toValue.WellTyped := by
  rw [wellTyped_iff] at hl hm ⊢
  intro y hy
  rcases List.mem_append.1 hy with hy | hy
  · exact (hl y hy).lub_left m.elem
  · exact (hm y hy).lub_right l.elem

theorem wellTyped_reverse (hl : l.toValue.WellTyped) : l.reverse.toValue.WellTyped := by
  rw [wellTyped_iff] at hl ⊢
  exact fun y hy => hl y (List.mem_reverse.1 hy)

theorem wellTyped_sublist (hl : l.toValue.WellTyped) (h : l.sublist i n = .ok m) :
    m.toValue.WellTyped := by
  unfold sublist at h
  split at h
  · obtain rfl := Except.ok.inj h
    rw [wellTyped_iff] at hl ⊢
    exact fun y hy => hl y (List.mem_of_mem_drop (List.mem_of_mem_take hy))
  · nomatch h

end TypedList

/-- The calls on lists. -/
inductive ListCall : List Value → Value → Prop
  | empty (t : Ty) : ListCall [] (TypedList.empty t).toValue
  | ofValues (xs : List Value) : ListCall xs (TypedList.ofValues xs).val.toValue
  | get {l : TypedList} {i : Nat} {x : Value} (h : l.get i = .ok x) : ListCall [l.toValue] x
  | append (l : TypedList) (x : Value) : ListCall [l.toValue, x] (l.append x).val.toValue
  | prepend (l : TypedList) (x : Value) : ListCall [l.toValue, x] (l.prepend x).val.toValue
  | concat (l m : TypedList) : ListCall [l.toValue, m.toValue] (l.concat m).val.toValue
  | reverse (l : TypedList) : ListCall [l.toValue] l.reverse.toValue
  | sublist {l m : TypedList} {i n : Nat} (h : l.sublist i n = .ok m) :
    ListCall [l.toValue] m.toValue

theorem ListCall.wellTyped (h : ListCall args v) (ha : ∀ x ∈ args, x.WellTyped) :
    v.WellTyped := by
  cases h with
  | empty t => exact wellTyped_list_iff.2 nofun
  | ofValues xs => exact wellTyped_list_iff.2 (hasTy_joinAll ha)
  | get h => exact TypedList.wellTyped_get (ha _ (by simp)) h
  | append l x => exact TypedList.wellTyped_append (ha _ (by simp)) (ha x (by simp))
  | prepend l x => exact TypedList.wellTyped_prepend (ha _ (by simp)) (ha x (by simp))
  | concat l m => exact TypedList.wellTyped_concat (ha _ (by simp)) (ha m.toValue (by simp))
  | reverse l => exact TypedList.wellTyped_reverse (ha _ (by simp))
  | sublist h => exact TypedList.wellTyped_sublist (ha _ (by simp)) h

/-! ## Maps -/

namespace TypedMap

variable {m o : TypedMap} {k : Value} {es : List (Value × Value)}

theorem wellTyped_iff : m.toValue.WellTyped ↔ ∀ e ∈ m.entries, e.1.HasTy m.key ∧ e.2.HasTy m.val :=
  wellTyped_map_iff

/-- The joins of given bounds with the types of entries bound the entries and all that the given
bounds do. -/
theorem joinEntries_bounds (key val : Ty) (h : ∀ e ∈ es, e.1.WellTyped ∧ e.2.WellTyped) :
    (key.leq (joinEntries key val es).val.1 = true ∧
        val.leq (joinEntries key val es).val.2 = true) ∧
      ∀ e ∈ es, e.1.HasTy (joinEntries key val es).val.1 ∧
        e.2.HasTy (joinEntries key val es).val.2 := by
  induction es generalizing key val with
  | nil => exact ⟨⟨Ty.leq_refl key, Ty.leq_refl val⟩, nofun⟩
  | cons e es ih =>
    obtain ⟨he, hes⟩ := List.forall_mem_cons.1 h
    obtain ⟨⟨hk, hv⟩, hb⟩ := ih (key.lub e.1.ty) (val.lub e.2.ty) hes
    have hjk : Ty.IsJoin key e.1.ty (key.lub e.1.ty) := Ty.isJoin_lub key e.1.ty
    have hjv : Ty.IsJoin val e.2.ty (val.lub e.2.ty) := Ty.isJoin_lub val e.2.ty
    refine ⟨⟨Ty.leq_trans key hjk.left hk, Ty.leq_trans val hjv.left hv⟩, ?_⟩
    exact List.forall_mem_cons.2 ⟨⟨(he.1.hasTy.mono hjk.right).mono hk,
      (he.2.hasTy.mono hjv.right).mono hv⟩, hb⟩

theorem wellTyped_ofEntries (h : ∀ e ∈ es, e.1.WellTyped ∧ e.2.WellTyped) :
    (ofEntries es).val.toValue.WellTyped :=
  wellTyped_iff.2 (EntryTable.forall_putAll (p := fun x => x.HasTy _) (q := fun x => x.HasTy _)
    nofun (joinEntries_bounds .void .void h).2)

theorem wellTyped_put (hm : m.toValue.WellTyped) (hk : k.WellTyped) (hx : x.WellTyped) :
    (m.put k x).val.toValue.WellTyped := by
  rw [wellTyped_iff] at hm ⊢
  exact EntryTable.forall_put (p := fun x => x.HasTy _) (q := fun x => x.HasTy _)
    (fun e he => ⟨(hm e he).1.lub_left k.ty, (hm e he).2.lub_left x.ty⟩)
    (hk.hasTy.lub_right m.key) (hx.hasTy.lub_right m.val)

theorem wellTyped_erase (hm : m.toValue.WellTyped) : (m.erase k).toValue.WellTyped := by
  rw [wellTyped_iff] at hm ⊢
  exact fun e he => hm e (List.mem_of_mem_eraseP he)

theorem wellTyped_merge (hm : m.toValue.WellTyped) (ho : o.toValue.WellTyped) :
    (m.merge o).val.toValue.WellTyped := by
  rw [wellTyped_iff] at hm ho ⊢
  exact EntryTable.forall_putAll (p := fun x => x.HasTy _) (q := fun x => x.HasTy _)
    (fun e he => ⟨(hm e he).1.lub_left o.key, (hm e he).2.lub_left o.val⟩)
    fun e he => ⟨(ho e he).1.lub_right m.key, (ho e he).2.lub_right m.val⟩

theorem wellTyped_common (hm : m.toValue.WellTyped) : (m.common o).val.toValue.WellTyped := by
  rw [wellTyped_iff] at hm ⊢
  intro e he
  have he : e ∈ m.entries := (List.mem_filter.1 he).1
  exact ⟨(hm e he).1.lub_left o.key, (hm e he).2.lub_left o.val⟩

theorem wellTyped_get? (hm : m.toValue.WellTyped) (h : m.get? k = some x) : x.WellTyped := by
  obtain ⟨e, he, rfl⟩ := Option.map_eq_some_iff.1 h
  exact (wellTyped_iff.1 hm e (List.mem_of_find?_eq_some he)).2.1

end TypedMap

/-- The calls on maps. The arguments of a map of entries are their keys and values in turn. -/
inductive MapCall : List Value → Value → Prop
  | empty (key val : Ty) : MapCall [] (TypedMap.empty key val).toValue
  | ofEntries (es : List (Value × Value)) :
    MapCall (es.flatMap fun e => [e.1, e.2]) (TypedMap.ofEntries es).val.toValue
  | get {m : TypedMap} {k x : Value} (h : m.get? k = some x) : MapCall [m.toValue, k] x
  | key {m : TypedMap} {e : Value × Value} (h : e ∈ m.entries) : MapCall [m.toValue] e.1
  | val {m : TypedMap} {e : Value × Value} (h : e ∈ m.entries) : MapCall [m.toValue] e.2
  | put (m : TypedMap) (k x : Value) : MapCall [m.toValue, k, x] (m.put k x).val.toValue
  | erase (m : TypedMap) (k : Value) : MapCall [m.toValue, k] (m.erase k).toValue
  | merge (m o : TypedMap) : MapCall [m.toValue, o.toValue] (m.merge o).val.toValue
  | common (m o : TypedMap) : MapCall [m.toValue, o.toValue] (m.common o).val.toValue

theorem MapCall.wellTyped (h : MapCall args v) (ha : ∀ x ∈ args, x.WellTyped) : v.WellTyped := by
  cases h with
  | empty key val => exact wellTyped_map_iff.2 nofun
  | ofEntries es =>
    refine TypedMap.wellTyped_ofEntries fun e he => ⟨ha e.1 ?_, ha e.2 ?_⟩ <;>
      exact List.mem_flatMap.2 ⟨e, he, by simp⟩
  | get h => exact TypedMap.wellTyped_get? (ha _ (by simp)) h
  | @key m e h => exact (TypedMap.wellTyped_iff.1 (ha m.toValue (by simp)) e h).1.1
  | @val m e h => exact (TypedMap.wellTyped_iff.1 (ha m.toValue (by simp)) e h).2.1
  | put m k x =>
    exact TypedMap.wellTyped_put (ha _ (by simp)) (ha k (by simp)) (ha x (by simp))
  | erase m k => exact TypedMap.wellTyped_erase (ha _ (by simp))
  | merge m o => exact TypedMap.wellTyped_merge (ha _ (by simp)) (ha o.toValue (by simp))
  | common m o => exact TypedMap.wellTyped_common (ha _ (by simp))

end ValueLattice

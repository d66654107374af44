import ValueLattice.Proofs.Value.Labels
import ValueLattice.Proofs.Value.Relation
/-!
# Well-labelled collections

The operations on sets, lists, maps and relations keep values well-labelled. Their results are
bounded by the bound of an argument, by a part of it or by a join, and hold what the arguments hold.
Only a relation makes new tuples: projections of those that it has, and pairs of their elements.

A collection that is made of no values has a bound that is given for it, so the calls without
arguments are left aside here.

* `wellLabelled_set_iff` and the like: well-labelled collections;
* `SetCall.wellLabelled`, `ListCall.wellLabelled`, `MapCall.wellLabelled`,
  `RelationCall.wellLabelled`: the calls.
-/

namespace ValueLattice

open Ty Value

variable {t k : Ty} {v x : Value} {xs args : List Value} {fs : List Ty} {ls : Option (List String)}
  {row : Row}

/-! ## Collections -/

theorem wellLabelled_set_iff : (Value.set t xs).WellLabelled ↔
    t.WellLabelled ∧ ∀ x ∈ xs, x.WellLabelled :=
  wellLabelled_iff.trans (and_congr_right fun _ => ⟨And.right, And.intro trivial⟩)

theorem wellLabelled_list_iff : (Value.list t xs).WellLabelled ↔
    t.WellLabelled ∧ ∀ x ∈ xs, x.WellLabelled :=
  wellLabelled_iff.trans (and_congr_right fun _ => ⟨And.right, And.intro trivial⟩)

theorem wellLabelled_rel_iff : (Value.rel fs ls xs).WellLabelled ↔
    (Ty.tuple fs ls).WellLabelled ∧ ∀ x ∈ xs, x.WellLabelled :=
  wellLabelled_iff.trans (and_congr_right fun _ => ⟨And.right, And.intro trivial⟩)

theorem wellLabelled_map_iff {es : List (Value × Value)} : (Value.map k t es).WellLabelled ↔
    (k.WellLabelled ∧ t.WellLabelled) ∧ ∀ e ∈ es, e.1.WellLabelled ∧ e.2.WellLabelled := by
  rw [wellLabelled_iff, Value.ty, wellLabelled_map, Value.contents, List.forall_mem_append,
    List.forall_mem_map, List.forall_mem_map]
  simp only [Fits, true_and, forall_and]

theorem wellLabelled_collect (ht : t.WellLabelled) (hx : ∀ x ∈ xs, x.WellLabelled) :
    (collect t xs).WellLabelled := by
  unfold collect
  split
  · next fs ls hs => exact wellLabelled_rel_iff.2 ⟨hs ▸ ht.strip, hx⟩
  · exact wellLabelled_set_iff.2 ⟨ht, hx⟩

/-! ## Sets -/

namespace TypedSet

variable {s r : TypedSet}

theorem wellLabelled_iff : s.toValue.WellLabelled ↔
    s.elem.WellLabelled ∧ ∀ x ∈ s.elems, x.WellLabelled := wellLabelled_set_iff

/-- Elements of two sets, with the join of the two bounds. -/
theorem wellLabelled_joined (hs : s.toValue.WellLabelled) (hr : r.toValue.WellLabelled)
    (hx : ∀ x ∈ xs, x ∈ s.elems ∨ x ∈ r.elems) :
    (toValue ⟨s.elem.lub r.elem, xs⟩).WellLabelled := by
  obtain ⟨hst, hs⟩ := wellLabelled_iff.1 hs
  obtain ⟨hrt, hr⟩ := wellLabelled_iff.1 hr
  exact wellLabelled_iff.2 ⟨hst.lub hrt, fun x hm => (hx x hm).elim (hs x) (hr x)⟩

/-- Some elements of a set, with its bound. -/
theorem wellLabelled_of_subset (hs : s.toValue.WellLabelled) (hx : ∀ x ∈ xs, x ∈ s.elems) :
    (toValue ⟨s.elem, xs⟩).WellLabelled := by
  obtain ⟨ht, hs⟩ := wellLabelled_iff.1 hs
  exact wellLabelled_iff.2 ⟨ht, fun x hm => hs x (hx x hm)⟩

theorem wellLabelled_insert (hs : s.toValue.WellLabelled) (hx : x.WellLabelled) :
    (s.insert x).val.toValue.WellLabelled := by
  obtain ⟨ht, hs⟩ := wellLabelled_iff.1 hs
  refine wellLabelled_iff.2 ⟨ht.lub hx.ty, fun y hy => ?_⟩
  rcases Table.mem_insert hy with hy | rfl
  · exact hs y hy
  · exact hx

end TypedSet

/-- The calls on sets of values. -/
theorem SetCall.wellLabelled (h : SetCall args v) (hne : args ≠ [])
    (ha : ∀ x ∈ args, x.WellLabelled) : v.WellLabelled := by
  cases h with
  | empty t => exact absurd rfl hne
  | ofValues xs =>
    rw [TypedSet.ofValues_val]
    exact wellLabelled_set_iff.2
      ⟨wellLabelled_joinAll wellLabelled_void ha, fun x hx => ha x (Table.mem_ofList hx)⟩
  | collect xs =>
    refine wellLabelled_collect ?_ fun x hx => ha x (Table.mem_ofList hx)
    exact Ty.joinAll_val _ _ ▸ wellLabelled_joinAll wellLabelled_void ha
  | @elem s x h => exact (ha s.toValue (by simp)).contents h
  | insert s x => exact TypedSet.wellLabelled_insert (ha _ (by simp)) (ha x (by simp))
  | erase s x =>
    exact TypedSet.wellLabelled_of_subset (ha _ (by simp)) fun x => List.mem_of_mem_eraseP
  | union s r =>
    exact TypedSet.wellLabelled_joined (ha _ (by simp)) (ha r.toValue (by simp))
      fun x => Table.mem_union
  | inter s r =>
    exact TypedSet.wellLabelled_joined (ha _ (by simp)) (ha r.toValue (by simp))
      fun x => Table.mem_inter
  | diff s r => exact TypedSet.wellLabelled_of_subset (ha _ (by simp)) fun x => Table.mem_diff

/-! ## Lists -/

/-- The calls on lists of values. -/
theorem ListCall.wellLabelled (h : ListCall args v) (hne : args ≠ [])
    (ha : ∀ x ∈ args, x.WellLabelled) : v.WellLabelled := by
  cases h with
  | empty t => exact absurd rfl hne
  | ofValues xs =>
    rw [TypedList.ofValues_val]
    exact wellLabelled_list_iff.2 ⟨wellLabelled_joinAll wellLabelled_void ha, ha⟩
  | @get l i x h =>
    unfold TypedList.get at h
    split at h
    · next hx =>
      obtain rfl := Except.ok.inj h
      exact (ha l.toValue (by simp)).contents (List.mem_of_getElem? hx)
    · nomatch h
  | append l x =>
    obtain ⟨ht, hl⟩ := wellLabelled_list_iff.1 (ha l.toValue (by simp))
    have hx : x.WellLabelled := ha x (by simp)
    refine wellLabelled_list_iff.2 ⟨ht.lub hx.ty, List.forall_mem_append.2 ⟨hl, ?_⟩⟩
    exact List.forall_mem_singleton.2 hx
  | prepend l x =>
    obtain ⟨ht, hl⟩ := wellLabelled_list_iff.1 (ha l.toValue (by simp))
    have hx : x.WellLabelled := ha x (by simp)
    exact wellLabelled_list_iff.2 ⟨ht.lub hx.ty, List.forall_mem_cons.2 ⟨hx, hl⟩⟩
  | concat l m =>
    obtain ⟨ht, hl⟩ := wellLabelled_list_iff.1 (ha l.toValue (by simp))
    obtain ⟨hu, hm⟩ := wellLabelled_list_iff.1 (ha m.toValue (by simp))
    exact wellLabelled_list_iff.2 ⟨ht.lub hu, List.forall_mem_append.2 ⟨hl, hm⟩⟩
  | reverse l =>
    obtain ⟨ht, hl⟩ := wellLabelled_list_iff.1 (ha l.toValue (by simp))
    exact wellLabelled_list_iff.2 ⟨ht, fun x hx => hl x (List.mem_reverse.1 hx)⟩
  | @sublist l m i n h =>
    obtain ⟨ht, hl⟩ := wellLabelled_list_iff.1 (ha l.toValue (by simp))
    unfold TypedList.sublist at h
    split at h
    · obtain rfl := Except.ok.inj h
      exact wellLabelled_list_iff.2
        ⟨ht, fun x hx => hl x (List.mem_of_mem_drop (List.mem_of_mem_take hx))⟩
    · nomatch h

/-! ## Maps -/

namespace TypedMap

variable {m o : TypedMap} {es : List (Value × Value)}

theorem wellLabelled_iff : m.toValue.WellLabelled ↔ (m.key.WellLabelled ∧ m.val.WellLabelled) ∧
    ∀ e ∈ m.entries, e.1.WellLabelled ∧ e.2.WellLabelled := wellLabelled_map_iff

theorem wellLabelled_ofEntries (h : ∀ e ∈ es, e.1.WellLabelled ∧ e.2.WellLabelled) :
    (ofEntries es).val.toValue.WellLabelled := by
  rw [ofEntries_val]
  refine wellLabelled_iff.2 ⟨⟨?_, ?_⟩, EntryTable.forall_putAll nofun h⟩
  · exact wellLabelled_joinAll wellLabelled_void (List.forall_mem_map.2 fun e he => (h e he).1)
  · exact wellLabelled_joinAll wellLabelled_void (List.forall_mem_map.2 fun e he => (h e he).2)

/-- Entries of two maps, with the joins of the bounds. -/
theorem wellLabelled_joined (hm : m.toValue.WellLabelled) (ho : o.toValue.WellLabelled)
    (he : ∀ e ∈ es, e.1.WellLabelled ∧ e.2.WellLabelled) :
    (toValue ⟨m.key.lub o.key, m.val.lub o.val, es⟩).WellLabelled := by
  obtain ⟨⟨hmk, hmv⟩, -⟩ := wellLabelled_iff.1 hm
  obtain ⟨⟨hok, hov⟩, -⟩ := wellLabelled_iff.1 ho
  exact wellLabelled_iff.2 ⟨⟨hmk.lub hok, hmv.lub hov⟩, he⟩

end TypedMap

/-- The calls on maps of values. -/
theorem MapCall.wellLabelled (h : MapCall args v) (hne : args ≠ [])
    (ha : ∀ x ∈ args, x.WellLabelled) : v.WellLabelled := by
  cases h with
  | empty key val => exact absurd rfl hne
  | ofEntries es =>
    refine TypedMap.wellLabelled_ofEntries fun e he => ⟨ha e.1 ?_, ha e.2 ?_⟩ <;>
      exact List.mem_flatMap.2 ⟨e, he, by simp⟩
  | @get m k x h =>
    obtain ⟨e, he, rfl⟩ := Option.map_eq_some_iff.1 h
    exact ((TypedMap.wellLabelled_iff.1 (ha m.toValue (by simp))).2 e
      (List.mem_of_find?_eq_some he)).2
  | @key m e h => exact ((TypedMap.wellLabelled_iff.1 (ha m.toValue (by simp))).2 e h).1
  | @val m e h => exact ((TypedMap.wellLabelled_iff.1 (ha m.toValue (by simp))).2 e h).2
  | put m k x =>
    obtain ⟨⟨hkt, hvt⟩, hm⟩ := TypedMap.wellLabelled_iff.1 (ha m.toValue (by simp))
    have hk : k.WellLabelled := ha k (by simp)
    have hx : x.WellLabelled := ha x (by simp)
    exact TypedMap.wellLabelled_iff.2
      ⟨⟨hkt.lub hk.ty, hvt.lub hx.ty⟩, EntryTable.forall_put hm hk hx⟩
  | erase m k =>
    obtain ⟨ht, hm⟩ := TypedMap.wellLabelled_iff.1 (ha m.toValue (by simp))
    exact TypedMap.wellLabelled_iff.2 ⟨ht, fun e he => hm e (List.mem_of_mem_eraseP he)⟩
  | merge m o =>
    have hm := ha m.toValue (by simp)
    have ho := ha o.toValue (by simp)
    exact TypedMap.wellLabelled_joined hm ho (EntryTable.forall_putAll
      (TypedMap.wellLabelled_iff.1 hm).2 (TypedMap.wellLabelled_iff.1 ho).2)
  | common m o =>
    have hm := ha m.toValue (by simp)
    exact TypedMap.wellLabelled_joined hm (ha o.toValue (by simp)) fun e he =>
      (TypedMap.wellLabelled_iff.1 hm).2 e (List.mem_filter.1 he).1

/-! ## Relations -/

theorem Row.wellLabelled_joinSame {r s j : Row} (hr : r.toTuple.WellLabelled)
    (hs : s.toTuple.WellLabelled) (h : (r.joinSame s).Returns j) : j.toTuple.WellLabelled :=
  wellLabelled_lub? hr hs (lub?_of_joinSame h)

theorem wellLabelled_needRow (hx : x.WellLabelled) (h : x.needRow = .ok row) :
    row.toTuple.WellLabelled := by
  unfold needRow at h
  split at h
  · next u hu =>
    obtain rfl := Except.ok.inj h
    obtain rfl := eq_toValue_of_tuple? hu
    exact hx.ty
  · nomatch h

namespace Relation

variable {r s w : Relation} {u : Tuple} {p : Value × Value} {is : List Nat}

theorem wellLabelled_iff : r.toValue.WellLabelled ↔
    r.row.toTuple.WellLabelled ∧ ∀ x ∈ r.elems, x.WellLabelled := wellLabelled_rel_iff

theorem wellLabelled_ofTable (hr : row.toTuple.WellLabelled) (hx : ∀ x ∈ xs, x.WellLabelled) :
    (ofTable row xs).toValue.WellLabelled :=
  wellLabelled_iff.2 ⟨hr, fun x hm => hx x (Table.mem_ofList hm)⟩

/-- The row that is joined from well-labelled values. -/
theorem wellLabelled_joinRows {bound : Option Row} (hb : ∀ b ∈ bound, b.toTuple.WellLabelled)
    (hx : ∀ x ∈ xs, x.WellLabelled) (h : (joinRows bound xs).Returns (some row)) :
    row.toTuple.WellLabelled := by
  induction xs generalizing bound with
  | nil => exact hb row (Checked.returns_pure.1 h)
  | cons x xs ih =>
    obtain ⟨hx, hxs⟩ := List.forall_mem_cons.1 hx
    obtain ⟨b, hxb, h⟩ := Checked.returns_bind.1 h
    have hrow : b.toTuple.WellLabelled := wellLabelled_needRow hx (Checked.returns_except.1 hxb)
    cases bound with
    | none => exact ih (fun c hc => Option.some.inj hc ▸ hrow) hxs h
    | some c =>
      obtain ⟨j, hj, h⟩ := Checked.returns_bind.1 h
      have hjoined : j.toTuple.WellLabelled := Row.wellLabelled_joinSame (hb c rfl) hrow hj
      exact ih (fun d hd => Option.some.inj hd ▸ hjoined) hxs h

theorem wellLabelled_ofValues (hx : ∀ x ∈ xs, x.WellLabelled) (h : (ofValues xs).Returns r) :
    r.toValue.WellLabelled := by
  obtain ⟨o, ho, h⟩ := Checked.returns_bind.1 h
  cases o with
  | none => exact absurd h Checked.returns_throw
  | some row =>
    obtain rfl := Checked.returns_pure.1 h
    have hnone : ∀ b ∈ (none : Option Row), b.toTuple.WellLabelled :=
      fun b hb => absurd hb (Option.not_mem_none b)
    exact wellLabelled_ofTable (wellLabelled_joinRows hnone hx ho) hx

theorem wellLabelled_insert (hr : r.toValue.WellLabelled) (hx : x.WellLabelled)
    (h : (r.insert x).Returns s) : s.toValue.WellLabelled := by
  obtain ⟨row, hrow, h⟩ := Checked.returns_bind.1 h
  obtain ⟨j, hj, h⟩ := Checked.returns_bind.1 h
  obtain rfl := Checked.returns_pure.1 h
  obtain ⟨ht, hr⟩ := wellLabelled_iff.1 hr
  have hrow : row.toTuple.WellLabelled := wellLabelled_needRow hx (Checked.returns_except.1 hrow)
  refine wellLabelled_iff.2 ⟨Row.wellLabelled_joinSame ht hrow hj, fun y hy => ?_⟩
  rcases Table.mem_insert hy with hy | rfl
  · exact hr y hy
  · exact hx

/-- Tuples of two relations, with the join of the two rows. -/
theorem wellLabelled_joined {j : Row} (hr : r.toValue.WellLabelled) (hs : s.toValue.WellLabelled)
    (hj : (r.row.joinSame s.row).Returns j) (hx : ∀ x ∈ xs, x ∈ r.elems ∨ x ∈ s.elems) :
    (toValue ⟨j, xs⟩).WellLabelled := by
  obtain ⟨hrt, hr⟩ := wellLabelled_iff.1 hr
  obtain ⟨hst, hs⟩ := wellLabelled_iff.1 hs
  exact wellLabelled_iff.2
    ⟨Row.wellLabelled_joinSame hrt hst hj, fun x hm => (hx x hm).elim (hr x) (hs x)⟩

/-- Some tuples of a relation, with its row. -/
theorem wellLabelled_of_subset (hr : r.toValue.WellLabelled) (hx : ∀ x ∈ xs, x ∈ r.elems) :
    (toValue ⟨r.row, xs⟩).WellLabelled := by
  obtain ⟨ht, hr⟩ := wellLabelled_iff.1 hr
  exact wellLabelled_iff.2 ⟨ht, fun x hm => hr x (hx x hm)⟩

/-! ### Tuples of a relation -/

theorem wellLabelled_of_mem_tuples (hr : r.toValue.WellLabelled) (hu : u ∈ r.tuples) :
    u.toValue.WellLabelled := by
  obtain ⟨x, hx, hxu⟩ := List.mem_filterMap.1 hu
  exact eq_toValue_of_tuple? hxu ▸ hr.contents hx

theorem wellLabelled_of_mem_pairs (hr : r.toValue.WellLabelled) (hp : p ∈ r.pairs) :
    p.1.WellLabelled ∧ p.2.WellLabelled := by
  obtain ⟨u, hu, hup⟩ := List.mem_filterMap.1 hp
  have helems : ∀ x ∈ u.elems, x.WellLabelled :=
    (Tuple.wellLabelled_iff.1 (wellLabelled_of_mem_tuples hr hu)).2.2
  split at hup
  · next he =>
    obtain rfl := Option.some.inj hup
    rw [he] at helems
    exact ⟨helems _ (by simp), helems _ (by simp)⟩
  · nomatch hup

theorem wellLabelled_pair (h : p.1.WellLabelled ∧ p.2.WellLabelled) : (pair p).WellLabelled :=
  Tuple.wellLabelled_ofValues (List.forall_mem_cons.2 ⟨h.1, List.forall_mem_singleton.2 h.2⟩)

theorem wellLabelled_project (hr : r.toValue.WellLabelled) (h : r.project is = .ok v) :
    v.WellLabelled := by
  obtain ⟨hrow, -⟩ := wellLabelled_iff.1 hr
  unfold project at h
  split at h
  · next i =>
    obtain ⟨t, ht, h⟩ := bind_eq_ok.1 h
    obtain rfl := pure_eq_ok.1 h
    have hfield : t.WellLabelled :=
      (wellLabelled_tuple.1 hrow).2 t (List.mem_of_getElem? (Row.field_eq_ok.1 ht))
    refine wellLabelled_collect hfield fun x hx => ?_
    obtain ⟨u, hu, hux⟩ := List.mem_filterMap.1 (Table.mem_ofList hx)
    exact (Tuple.wellLabelled_iff.1 (wellLabelled_of_mem_tuples hr hu)).2.2 x
      (List.mem_of_getElem? hux)
  · obtain ⟨row, hsel, h⟩ := bind_eq_ok.1 h
    obtain ⟨ws, hws, h⟩ := bind_eq_ok.1 h
    obtain rfl := pure_eq_ok.1 h
    refine wellLabelled_ofTable (Row.wellLabelled_select hrow hsel) fun x hx => ?_
    obtain ⟨w, hw, rfl⟩ := List.mem_map.1 hx
    obtain ⟨u, hu, huw⟩ := exists_of_mem_mapM hws hw
    exact Tuple.wellLabelled_select (wellLabelled_of_mem_tuples hr hu) huw

theorem wellLabelled_range (hr : r.toValue.WellLabelled) (h : r.range = .ok v) :
    v.WellLabelled := by
  unfold range at h
  split at h
  · nomatch h
  · exact wellLabelled_project hr h

theorem wellLabelled_carrier (hr : r.toValue.WellLabelled) : r.carrier.val.WellLabelled := by
  obtain ⟨hrow, -⟩ := wellLabelled_iff.1 hr
  refine wellLabelled_collect ?_ fun x hx => ?_
  · rw [Ty.joinAll_val]
    exact hereditary_wellLabelled.foldl_lub wellLabelled_void (wellLabelled_tuple.1 hrow).2
  · obtain ⟨u, hu, hxu⟩ := List.mem_flatMap.1 (Table.mem_ofList hx)
    exact (Tuple.wellLabelled_iff.1 (wellLabelled_of_mem_tuples hr hu)).2.2 x hxu

/-! ### Composition and closure -/

/-- The columns of a relation are well-labelled. -/
theorem wellLabelled_columns {site : Site} (hr : r.toValue.WellLabelled)
    (h : r.columns site = .ok (t, k)) : t.WellLabelled ∧ k.WellLabelled := by
  have hfields := (wellLabelled_tuple.1 (wellLabelled_iff.1 hr).1).2
  rw [fields_of_columns h] at hfields
  exact ⟨hfields t (by simp), hfields k (by simp)⟩

theorem wellLabelled_plain_pair (ht : t.WellLabelled) (hk : k.WellLabelled) :
    (Row.plain [t, k]).toTuple.WellLabelled :=
  Row.wellLabelled_plain (List.forall_mem_cons.2 ⟨ht, List.forall_mem_singleton.2 hk⟩)

theorem wellLabelled_compose (hr : r.toValue.WellLabelled) (hs : s.toValue.WellLabelled)
    (h : r.compose s = .ok w) : w.toValue.WellLabelled := by
  obtain ⟨⟨left, middle⟩, hleft, h⟩ := bind_eq_ok.1 h
  obtain ⟨⟨middle', right⟩, hright, h⟩ := bind_eq_ok.1 h
  dsimp only at h
  split at h
  · obtain rfl := pure_eq_ok.1 h
    have hrow : (Row.plain [left, right]).toTuple.WellLabelled :=
      wellLabelled_plain_pair (wellLabelled_columns hr hleft).1 (wellLabelled_columns hs hright).2
    refine wellLabelled_ofTable hrow fun x hx => ?_
    obtain ⟨p, hp, hx⟩ := List.mem_flatMap.1 hx
    obtain ⟨c, hc, rfl⟩ := List.mem_map.1 hx
    have hsecond : ∀ q ∈ s.pairs, q.2.WellLabelled :=
      fun q hq => (wellLabelled_of_mem_pairs hs hq).2
    exact wellLabelled_pair
      ⟨(wellLabelled_of_mem_pairs hr hp).1, forall_successorsOf hsecond p.2 c hc⟩
  · nomatch h

theorem wellLabelled_closure (hr : r.toValue.WellLabelled) (h : r.closure.Returns s) :
    s.toValue.WellLabelled := by
  obtain ⟨⟨left, right⟩, hcol, h⟩ := Checked.returns_bind.1 h
  obtain ⟨hleft, hright⟩ := wellLabelled_columns hr (Checked.returns_except.1 hcol)
  dsimp only at h
  split at h
  · obtain ⟨t, ht, h⟩ := Checked.returns_bind.1 h
    have hval : left.lub right = t := Checked.returns_logged.1 ht
    have hjoin : t.WellLabelled := hval ▸ hleft.lub hright
    obtain rfl := Checked.returns_pure.1 h
    have hpairs : ∀ p ∈ closePairs r.pairs, p.1.WellLabelled ∧ p.2.WellLabelled :=
      forall_closePairs fun p => wellLabelled_of_mem_pairs hr
    refine wellLabelled_ofTable (wellLabelled_plain_pair hjoin hjoin) ?_
    exact List.forall_mem_map.2 fun p hp => wellLabelled_pair (hpairs p hp)
  · exact absurd h Checked.returns_throw

end Relation

open ValueLattice.Relation in
/-- The calls on relations of values. -/
theorem RelationCall.wellLabelled (h : RelationCall args v) (hne : args ≠ [])
    (ha : ∀ x ∈ args, x.WellLabelled) : v.WellLabelled := by
  cases h with
  | empty row => exact absurd rfl hne
  | ofValues h => exact wellLabelled_ofValues ha h
  | @elem r x h => exact (ha r.toValue (by simp)).contents h
  | toSet r =>
    exact wellLabelled_set_iff.2 (wellLabelled_iff.1 (ha r.toValue (by simp)))
  | insert h => exact wellLabelled_insert (ha _ (by simp)) (ha _ (by simp)) h
  | erase r x => exact wellLabelled_of_subset (ha _ (by simp)) fun x => List.mem_of_mem_eraseP
  | @union r s w h =>
    obtain ⟨j, hj, h⟩ := Checked.returns_bind.1 h
    obtain rfl := Checked.returns_pure.1 h
    exact wellLabelled_joined (ha r.toValue (by simp)) (ha s.toValue (by simp)) hj
      fun x => Table.mem_union
  | @inter r s w h =>
    obtain ⟨j, hj, h⟩ := Checked.returns_bind.1 h
    obtain rfl := Checked.returns_pure.1 h
    exact wellLabelled_joined (ha r.toValue (by simp)) (ha s.toValue (by simp)) hj
      fun x => Table.mem_inter
  | diff r s => exact wellLabelled_of_subset (ha r.toValue (by simp)) fun x => Table.mem_diff
  | project h => exact wellLabelled_project (ha _ (by simp)) h
  | domain h => exact wellLabelled_project (ha _ (by simp)) h
  | range h => exact wellLabelled_range (ha _ (by simp)) h
  | carrier r => exact wellLabelled_carrier (ha _ (by simp))
  | @compose r s w h =>
    exact wellLabelled_compose (ha r.toValue (by simp)) (ha s.toValue (by simp)) h
  | closure h => exact wellLabelled_closure (ha _ (by simp)) h

end ValueLattice

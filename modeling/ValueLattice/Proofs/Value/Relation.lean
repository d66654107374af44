import ValueLattice.Value.Relation
import ValueLattice.Proofs.Ty.RowJoin
import ValueLattice.Proofs.Value.Collections
import ValueLattice.Proofs.Value.Records
/-!
# Relations are well-typed

Set algebra on relations joins rows of equal length, and the join is above both. A projection
selects the same positions of the row and of every tuple. Composition and closure take tuples
apart and put their elements together again: the pairs they make have the first element of a
given pair and the second element of another, whose bounds are the columns of the result.

The closure works on a list of pending pairs. What each step adds is made of elements already
there, so every property of all first elements and every property of all second elements is kept
from one step to the next (`forall_close`), and the bounds of the columns are such properties.

* `Row.returns_joinSame_iff`, `Row.leq_of_joinSame`: the join of two rows, and that it is above
  both;
* `Relation.forall_closePairs`: what holds of the elements of pairs holds in their closure;
* `RelationCall.wellTyped`: the calls.
-/

namespace ValueLattice

open Value

variable {t a b : Ty} {x v : Value} {xs args : List Value}

/-! ## Rows -/

/-- Rows of one length have a join, and others have none. -/
theorem Row.returns_joinSame_iff {r s j : Row} :
    (r.joinSame s).Returns j ↔ r.arity = s.arity ∧ j = r.joinWith s := by
  unfold joinSame
  rw [Checked.returns_bind]
  constructor
  · rintro ⟨o, ho, h⟩
    have hj : r.lub? s = o := Checked.returns_logged.1 ho
    unfold lub? at hj
    split at hj
    · next hl =>
      obtain rfl := hj
      exact ⟨hl, (Checked.returns_pure.1 h).symm⟩
    · obtain rfl := hj
      exact absurd h Checked.returns_throw
  · rintro ⟨hl, rfl⟩
    exact ⟨some (r.joinWith s), Checked.returns_logged.2 (lub?_of_arity hl), rfl⟩

theorem Row.lub?_of_joinSame {r s j : Row} (h : (r.joinSame s).Returns j) : r.lub? s = some j := by
  obtain ⟨hl, rfl⟩ := returns_joinSame_iff.1 h
  exact lub?_of_arity hl

theorem Row.leq_of_joinSame {r s j : Row} (h : (r.joinSame s).Returns j) :
    r.toTuple.leq j.toTuple = true ∧ s.toTuple.leq j.toTuple = true := by
  obtain ⟨hl, rfl⟩ := returns_joinSame_iff.1 h
  exact ⟨(isJoin_joinWith hl).left, (isJoin_joinWith hl).right⟩

theorem leqAll_of_select {r s r' s' : Row} {is : List Nat} (h : Ty.leqAll r.fields s.fields = true)
    (hr : r.select is = .ok r') (hs : s.select is = .ok s') :
    Ty.leqAll r'.fields s'.fields = true := by
  rw [Ty.leqAll_iff_forall₂] at h ⊢
  refine forall₂_of_mapM₂ (fun i t u ht hu => ?_) (Row.fields_of_select hr)
    (Row.fields_of_select hs)
  obtain ⟨hi, rfl⟩ := List.getElem?_eq_some_iff.1 (Row.field_eq_ok.1 ht)
  obtain ⟨hj, rfl⟩ := List.getElem?_eq_some_iff.1 (Row.field_eq_ok.1 hu)
  exact h.get hi hj

theorem hasTy_of_needRow {r : Row} (hx : x.WellTyped) (h : x.needRow = .ok r) :
    x.HasTy r.toTuple := by
  unfold needRow at h
  split at h
  · next u hu =>
    obtain rfl := Except.ok.inj h
    obtain rfl := eq_toValue_of_tuple? hu
    exact hx.hasTy
  · nomatch h

namespace Relation

variable {r s : Relation} {u : Tuple} {p : Value × Value} {ps closed : List (Value × Value)}
  {P Q : Value → Prop}

theorem wellTyped_iff : r.toValue.WellTyped ↔ ∀ x ∈ r.elems, x.HasTy r.row.toTuple :=
  wellTyped_rel_iff

theorem wellTyped_ofTable {row : Row} (h : ∀ x ∈ xs, x.HasTy row.toTuple) :
    (ofTable row xs).toValue.WellTyped :=
  wellTyped_iff.2 fun x hx => h x (Table.mem_ofList hx)

/-! ## Construction and set algebra -/

/-- The joined row is above a given bound and bounds all tuples. -/
theorem joinRows_bounds {bound : Option Row} {row : Row}
    (h : (joinRows bound xs).Returns (some row)) (hx : ∀ x ∈ xs, x.WellTyped) :
    (∀ b ∈ bound, b.toTuple.leq row.toTuple = true) ∧ ∀ x ∈ xs, x.HasTy row.toTuple := by
  induction xs generalizing bound with
  | nil =>
    have hb : bound = some row := Checked.returns_pure.1 h
    refine ⟨fun b hm => ?_, nofun⟩
    rw [Option.mem_unique hm hb]
    exact Ty.leq_refl _
  | cons x xs ih =>
    obtain ⟨hx, hxs⟩ := List.forall_mem_cons.1 hx
    obtain ⟨b, hb, h⟩ := Checked.returns_bind.1 h
    have hxb : x.HasTy b.toTuple := hasTy_of_needRow hx (Checked.returns_except.1 hb)
    cases bound with
    | none =>
      obtain ⟨hrow, hrest⟩ := ih h hxs
      exact ⟨nofun, List.forall_mem_cons.2 ⟨hxb.mono (hrow b rfl), hrest⟩⟩
    | some c =>
      obtain ⟨j, hj, h⟩ := Checked.returns_bind.1 h
      obtain ⟨hcj, hbj⟩ := Row.leq_of_joinSame hj
      obtain ⟨hrow, hrest⟩ := ih h hxs
      have hjrow : j.toTuple.leq row.toTuple = true := hrow j rfl
      refine ⟨fun d hd => ?_, List.forall_mem_cons.2 ⟨(hxb.mono hbj).mono hjrow, hrest⟩⟩
      obtain rfl := Option.some.inj hd
      exact Ty.leq_trans _ hcj hjrow

theorem wellTyped_ofValues (h : (ofValues xs).Returns r) (hx : ∀ x ∈ xs, x.WellTyped) :
    r.toValue.WellTyped := by
  obtain ⟨o, ho, h⟩ := Checked.returns_bind.1 h
  cases o with
  | none => exact absurd h Checked.returns_throw
  | some row =>
    rw [← Checked.returns_pure.1 h]
    exact wellTyped_ofTable (joinRows_bounds ho hx).2

theorem wellTyped_insert (hr : r.toValue.WellTyped) (hx : x.WellTyped)
    (h : (r.insert x).Returns s) : s.toValue.WellTyped := by
  obtain ⟨row, hrow, h⟩ := Checked.returns_bind.1 h
  obtain ⟨j, hj, h⟩ := Checked.returns_bind.1 h
  have hxr : x.HasTy row.toTuple := hasTy_of_needRow hx (Checked.returns_except.1 hrow)
  obtain ⟨hl, hr'⟩ := Row.leq_of_joinSame hj
  rw [← Checked.returns_pure.1 h]
  rw [wellTyped_iff] at hr ⊢
  intro y hy
  rcases Table.mem_insert hy with hy | rfl
  · exact (hr y hy).mono hl
  · exact hxr.mono hr'

theorem wellTyped_erase (hr : r.toValue.WellTyped) : (r.erase x).toValue.WellTyped := by
  rw [wellTyped_iff] at hr ⊢
  exact fun y hy => hr y (List.mem_of_mem_eraseP hy)

/-- Tuples of two relations are bounded by the join of the two rows. -/
theorem wellTyped_joined {j : Row} (hr : r.toValue.WellTyped) (hs : s.toValue.WellTyped)
    (hj : (r.row.joinSame s.row).Returns j) (hx : ∀ x ∈ xs, x ∈ r.elems ∨ x ∈ s.elems) :
    (toValue ⟨j, xs⟩).WellTyped := by
  obtain ⟨hrj, hsj⟩ := Row.leq_of_joinSame hj
  rw [wellTyped_iff] at hr hs ⊢
  intro x hm
  rcases hx x hm with hm | hm
  · exact (hr x hm).mono hrj
  · exact (hs x hm).mono hsj

theorem wellTyped_union (hr : r.toValue.WellTyped) (hs : s.toValue.WellTyped) {w : Relation}
    (h : (r.union s).Returns w) : w.toValue.WellTyped := by
  obtain ⟨j, hj, h⟩ := Checked.returns_bind.1 h
  rw [← Checked.returns_pure.1 h]
  exact wellTyped_joined hr hs hj fun x => Table.mem_union

theorem wellTyped_inter (hr : r.toValue.WellTyped) (hs : s.toValue.WellTyped) {w : Relation}
    (h : (r.inter s).Returns w) : w.toValue.WellTyped := by
  obtain ⟨j, hj, h⟩ := Checked.returns_bind.1 h
  rw [← Checked.returns_pure.1 h]
  exact wellTyped_joined hr hs hj fun x => Table.mem_inter

theorem wellTyped_diff (hr : r.toValue.WellTyped) : (r.diff s).toValue.WellTyped := by
  rw [wellTyped_iff] at hr ⊢
  exact fun y hy => hr y (Table.mem_diff hy)

theorem wellTyped_toSet (hr : r.toValue.WellTyped) : r.toSet.toValue.WellTyped :=
  wellTyped_set_iff.2 (wellTyped_iff.1 hr)

/-! ## Tuples of a relation -/

/-- The tuples of a well-typed relation are well-typed, and their rows and their elements are
within its row. -/
theorem bounds_of_mem_tuples (hr : r.toValue.WellTyped) (hu : u ∈ r.tuples) :
    u.toValue.WellTyped ∧ Ty.leqAll u.row.fields r.row.fields = true ∧
      List.Forall₂ HasTy u.elems r.row.fields := by
  obtain ⟨x, hx, hxu⟩ := List.mem_filterMap.1 hu
  have hty : x.HasTy r.row.toTuple := wellTyped_iff.1 hr x hx
  obtain ⟨w, rfl, hrow, helems⟩ := hty.exists_tuple
  obtain rfl := Option.some.inj hxu
  exact ⟨hty.1, hrow, helems⟩

theorem wellTyped_project {is : List Nat} (hr : r.toValue.WellTyped) (h : r.project is = .ok v) :
    v.WellTyped := by
  unfold project at h
  split at h
  · next i =>
    obtain ⟨t, ht, h⟩ := bind_eq_ok.1 h
    rw [← pure_eq_ok.1 h]
    refine wellTyped_collect fun x hx => ?_
    obtain ⟨u, hu, hux⟩ := List.mem_filterMap.1 (Table.mem_ofList hx)
    have helems := (bounds_of_mem_tuples hr hu).2.2
    exact hasTy_of_forall₂ helems hux (Row.field_eq_ok.1 ht)
  · obtain ⟨row, hrow, h⟩ := bind_eq_ok.1 h
    obtain ⟨ws, hws, h⟩ := bind_eq_ok.1 h
    rw [← pure_eq_ok.1 h]
    refine wellTyped_ofTable fun x hx => ?_
    obtain ⟨w, hw, rfl⟩ := List.mem_map.1 hx
    obtain ⟨u, hu, huw⟩ := exists_of_mem_mapM hws hw
    obtain ⟨hwell, hleq, -⟩ := bounds_of_mem_tuples hr hu
    have hselected : u.row.select is = .ok w.row := Tuple.row_of_select huw
    exact ⟨Tuple.wellTyped_select hwell huw,
      Ty.leq_of_below (.tuple (leqAll_of_select hleq hselected hrow))⟩

theorem wellTyped_range (hr : r.toValue.WellTyped) (h : r.range = .ok v) : v.WellTyped := by
  unfold range at h
  split at h
  · nomatch h
  · exact wellTyped_project hr h

theorem wellTyped_carrier (hr : r.toValue.WellTyped) : r.carrier.val.WellTyped := by
  refine wellTyped_collect fun x hx => ?_
  obtain ⟨u, hu, hxu⟩ := List.mem_flatMap.1 (Table.mem_ofList hx)
  obtain ⟨f, hf, hxf⟩ := hasTy_of_mem (bounds_of_mem_tuples hr hu).2.2 hxu
  rw [Ty.joinAll_val]
  exact hxf.mono ((Ty.leq_foldl_lub r.row.fields .void).2 f hf)

/-! ## Pairs -/

theorem fields_of_columns {site : Site} (h : r.columns site = .ok (a, b)) :
    r.row.fields = [a, b] := by
  unfold columns at h
  split at h
  · next hf =>
    cases h
    exact hf
  · nomatch h

theorem bounds_of_mem_pairs (hr : r.toValue.WellTyped) (hf : r.row.fields = [a, b])
    (hp : p ∈ r.pairs) : p.1.HasTy a ∧ p.2.HasTy b := by
  obtain ⟨u, hu, hup⟩ := List.mem_filterMap.1 hp
  have helems := (bounds_of_mem_tuples hr hu).2.2
  rw [hf] at helems
  split at hup
  · next he =>
    obtain rfl := Option.some.inj hup
    rw [he] at helems
    simpa using helems
  · nomatch hup

theorem hasTy_pair (h : p.1.HasTy a ∧ p.2.HasTy b) :
    (pair p).HasTy (Row.plain [a, b]).toTuple := by
  have helems : List.Forall₂ HasTy [p.1, p.2] [a, b] := .cons h.1 (.cons h.2 .nil)
  obtain ⟨hleq, hwell⟩ := forall₂_hasTy_iff.1 helems
  exact ⟨Tuple.wellTyped_ofValues hwell, Ty.leq_of_below (.tuple hleq)⟩

/-! ## Composition -/

theorem forall_addSuccessor {table : List (Value × List Value)} (x : Value)
    (ht : ∀ e ∈ table, ∀ y ∈ e.2, Q y) (hv : Q v) :
    ∀ e ∈ addSuccessor table x v, ∀ y ∈ e.2, Q y := by
  induction table with
  | nil => simpa [addSuccessor] using hv
  | cons e table ih =>
    obtain ⟨he, ht⟩ := List.forall_mem_cons.1 ht
    unfold addSuccessor
    split
    · refine List.forall_mem_cons.2 ⟨fun y hy => ?_, ht⟩
      rcases List.mem_append.1 hy with hy | hy
      · exact he y hy
      · exact List.mem_singleton.1 hy ▸ hv
    · exact List.forall_mem_cons.2 ⟨he, ih ht⟩

theorem forall_successors (h : ∀ p ∈ ps, Q p.2) : ∀ e ∈ successors ps, ∀ y ∈ e.2, Q y := by
  have hfold : ∀ table : List (Value × List Value), (∀ e ∈ table, ∀ y ∈ e.2, Q y) →
      ∀ e ∈ ps.foldl (fun table p => addSuccessor table p.1 p.2) table, ∀ y ∈ e.2, Q y := by
    induction ps with
    | nil => exact fun table ht => ht
    | cons p ps ih =>
      obtain ⟨hp, hps⟩ := List.forall_mem_cons.1 h
      exact fun table ht => ih hps _ (forall_addSuccessor p.1 ht hp)
  exact hfold [] nofun

/-- Successors are second elements. -/
theorem forall_successorsOf (h : ∀ p ∈ ps, Q p.2) (x : Value) :
    ∀ y ∈ successorsOf (successors ps) x, Q y := by
  unfold successorsOf
  split
  · next e he => exact forall_successors h e (List.mem_of_find?_eq_some he)
  · nofun

theorem wellTyped_compose {w : Relation} (hr : r.toValue.WellTyped) (hs : s.toValue.WellTyped)
    (h : r.compose s = .ok w) : w.toValue.WellTyped := by
  obtain ⟨⟨left, middle⟩, hleft, h⟩ := bind_eq_ok.1 h
  obtain ⟨⟨middle', right⟩, hright, h⟩ := bind_eq_ok.1 h
  have hfr : r.row.fields = [left, middle] := fields_of_columns hleft
  have hfs : s.row.fields = [middle', right] := fields_of_columns hright
  dsimp only at h
  split at h
  · rw [← pure_eq_ok.1 h]
    refine wellTyped_ofTable fun x hx => ?_
    obtain ⟨p, hp, hx⟩ := List.mem_flatMap.1 hx
    obtain ⟨c, hc, rfl⟩ := List.mem_map.1 hx
    have hsecond : ∀ q ∈ s.pairs, q.2.HasTy right :=
      fun q hq => (bounds_of_mem_pairs hs hfs hq).2
    have hcr : c.HasTy right :=
      forall_successorsOf (Q := fun x => x.HasTy right) hsecond p.2 c hc
    exact hasTy_pair ⟨(bounds_of_mem_pairs hr hfr hp).1, hcr⟩
  · nomatch h

/-! ## Closure -/

theorem forall_addPairs {R : Value × Value → Prop} (closed added : List (Value × Value))
    (hc : ∀ p ∈ closed, R p) (ha : ∀ p ∈ added, R p) (hp : ∀ p ∈ ps, R p) :
    (∀ p ∈ (addPairs closed added ps).1, R p) ∧ ∀ p ∈ (addPairs closed added ps).2, R p := by
  induction ps generalizing closed added with
  | nil => exact ⟨hc, ha⟩
  | cons p ps ih =>
    obtain ⟨hp, hps⟩ := List.forall_mem_cons.1 hp
    unfold addPairs
    split
    · exact ih _ _ hc ha hps
    · refine ih _ _ (fun q hq => ?_) (List.forall_mem_cons.2 ⟨hp, ha⟩) hps
      rcases List.mem_append.1 hq with hq | hq
      · exact hc q hq
      · exact List.mem_singleton.1 hq ▸ hp

/-- Every step keeps what holds of all first elements and what holds of all second elements. -/
theorem forall_close {table : List (Value × List Value)} (fuel : Nat)
    (ht : ∀ x, ∀ y ∈ successorsOf table x, Q y) (hc : ∀ p ∈ closed, P p.1 ∧ Q p.2)
    (hp : ∀ p ∈ ps, P p.1 ∧ Q p.2) : ∀ p ∈ close table fuel closed ps, P p.1 ∧ Q p.2 := by
  induction fuel generalizing closed ps with
  | zero => exact hc
  | succ fuel ih =>
    cases ps with
    | nil => exact hc
    | cons p ps =>
      obtain ⟨hp, hps⟩ := List.forall_mem_cons.1 hp
      have hext : ∀ q ∈ (successorsOf table p.2).map fun c => (p.1, c), P q.1 ∧ Q q.2 := by
        intro q hq
        obtain ⟨c, hc, rfl⟩ := List.mem_map.1 hq
        exact ⟨hp.1, ht p.2 c hc⟩
      obtain ⟨hclosed, hadded⟩ :=
        forall_addPairs (R := fun q => P q.1 ∧ Q q.2) closed [] hc nofun hext
      refine ih hclosed fun q hq => ?_
      rcases List.mem_append.1 hq with hq | hq
      · exact hadded q hq
      · exact hps q hq

/-- The pairs of a closure have first elements and second elements of the given ones. -/
theorem forall_closePairs (h : ∀ p ∈ ps, P p.1 ∧ Q p.2) :
    ∀ p ∈ closePairs ps, P p.1 ∧ Q p.2 := by
  have hstart := forall_addPairs (R := fun p => P p.1 ∧ Q p.2) [] [] nofun nofun h
  exact forall_close _ (forall_successorsOf fun p hp => (h p hp).2) hstart.1 hstart.2

theorem wellTyped_closure (hr : r.toValue.WellTyped) (h : r.closure.Returns s) :
    s.toValue.WellTyped := by
  obtain ⟨⟨left, right⟩, hcol, h⟩ := Checked.returns_bind.1 h
  have hf : r.row.fields = [left, right] := fields_of_columns (Checked.returns_except.1 hcol)
  dsimp only at h
  split at h
  · obtain ⟨t, ht, h⟩ := Checked.returns_bind.1 h
    have hjoin : Ty.IsJoin left right t := by
      have hval : left.lub right = t := Checked.returns_logged.1 ht
      exact hval ▸ Ty.isJoin_lub left right
    have hpairs : ∀ p ∈ closePairs r.pairs, p.1.HasTy t ∧ p.2.HasTy t := by
      refine forall_closePairs (P := fun x => x.HasTy t) (Q := fun x => x.HasTy t) fun p hp => ?_
      obtain ⟨h1, h2⟩ := bounds_of_mem_pairs hr hf hp
      exact ⟨h1.mono hjoin.left, h2.mono hjoin.right⟩
    rw [← Checked.returns_pure.1 h]
    refine wellTyped_ofTable fun x hx => ?_
    obtain ⟨p, hp, rfl⟩ := List.mem_map.1 hx
    exact hasTy_pair (hpairs p hp)
  · exact absurd h Checked.returns_throw

end Relation

/-- The calls on relations. -/
inductive RelationCall : List Value → Value → Prop
  | empty (row : Row) : RelationCall [] (Relation.empty row).toValue
  | ofValues {xs : List Value} {r : Relation} (h : (Relation.ofValues xs).Returns r) :
    RelationCall xs r.toValue
  | elem {r : Relation} {x : Value} (h : x ∈ r.elems) : RelationCall [r.toValue] x
  | toSet (r : Relation) : RelationCall [r.toValue] r.toSet.toValue
  | insert {r s : Relation} {x : Value} (h : (r.insert x).Returns s) :
    RelationCall [r.toValue, x] s.toValue
  | erase (r : Relation) (x : Value) : RelationCall [r.toValue, x] (r.erase x).toValue
  | union {r s w : Relation} (h : (r.union s).Returns w) :
    RelationCall [r.toValue, s.toValue] w.toValue
  | inter {r s w : Relation} (h : (r.inter s).Returns w) :
    RelationCall [r.toValue, s.toValue] w.toValue
  | diff (r s : Relation) : RelationCall [r.toValue, s.toValue] (r.diff s).toValue
  | project {r : Relation} {is : List Nat} {x : Value} (h : r.project is = .ok x) :
    RelationCall [r.toValue] x
  | domain {r : Relation} {x : Value} (h : r.domain = .ok x) : RelationCall [r.toValue] x
  | range {r : Relation} {x : Value} (h : r.range = .ok x) : RelationCall [r.toValue] x
  | carrier (r : Relation) : RelationCall [r.toValue] r.carrier.val
  | compose {r s w : Relation} (h : r.compose s = .ok w) :
    RelationCall [r.toValue, s.toValue] w.toValue
  | closure {r s : Relation} (h : r.closure.Returns s) : RelationCall [r.toValue] s.toValue

open ValueLattice.Relation in
theorem RelationCall.wellTyped (h : RelationCall args v) (ha : ∀ x ∈ args, x.WellTyped) :
    v.WellTyped := by
  cases h with
  | empty row => exact wellTyped_rel_iff.2 nofun
  | ofValues h => exact wellTyped_ofValues h ha
  | elem h => exact (wellTyped_iff.1 (ha _ (by simp)) v h).1
  | toSet r => exact wellTyped_toSet (ha _ (by simp))
  | insert h => exact wellTyped_insert (ha _ (by simp)) (ha _ (by simp)) h
  | erase r x => exact wellTyped_erase (ha _ (by simp))
  | @union r s w h => exact wellTyped_union (ha r.toValue (by simp)) (ha s.toValue (by simp)) h
  | @inter r s w h => exact wellTyped_inter (ha r.toValue (by simp)) (ha s.toValue (by simp)) h
  | diff r s => exact wellTyped_diff (ha _ (by simp))
  | project h => exact wellTyped_project (ha _ (by simp)) h
  | domain h => exact wellTyped_project (ha _ (by simp)) h
  | range h => exact wellTyped_range (ha _ (by simp)) h
  | carrier r => exact wellTyped_carrier (ha _ (by simp))
  | @compose r s w h =>
    exact wellTyped_compose (ha r.toValue (by simp)) (ha s.toValue (by simp)) h
  | closure h => exact wellTyped_closure (ha _ (by simp)) h

end ValueLattice

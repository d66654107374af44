import ValueLattice.Proofs.Value.Closure
import ValueLattice.Proofs.Value.InferredTable
/-!
# Projections are exact and compose

A projection picks the same positions of the row and of every tuple. What is picked of a tuple is
its image: the element by itself where one position is picked, and a tuple otherwise. The projection
succeeds where the row has all positions, and holds the images of the tuples. It is a relation
unless one position is picked whose field takes values that are no tuples.

What is picked of what was picked is picked at once by positions that are picked of positions, and
so are images. A table keeps one of several equal images, so a projection of a projection has its
own images only up to equality; but equal tuples have equal images.

* `Picks`: the values at given positions of a list, and positions of positions;
* `Tuple.Image`, `Relation.gather`: what becomes of a tuple and of the whole relation;
* `Relation.exists_images`: a projection is made of the images of the tuples;
* `projections_exact`: success, contents, composition, and the values of all fields.
-/

namespace ValueLattice

open Value

/-! ## Positions -/

section Picks

variable {α : Type} {xs ys zs : List α} {is js ks : List Nat} {i : Nat}

/-- The values at the positions `is` of `xs` are `ys`. -/
def Picks (xs : List α) (is : List Nat) (ys : List α) : Prop :=
  List.Forall₂ (fun i y => xs[i]? = some y) is ys

theorem exists_picks (h : ∀ i ∈ is, i < xs.length) : ∃ ys, Picks xs is ys := by
  induction is with
  | nil => exact ⟨[], .nil⟩
  | cons i is ih =>
    obtain ⟨hi, his⟩ := List.forall_mem_cons.1 h
    obtain ⟨ys, hys⟩ := ih his
    exact ⟨xs[i] :: ys, .cons (List.getElem?_eq_getElem hi) hys⟩

theorem Picks.unique (hy : Picks xs is ys) (hz : Picks xs is zs) : ys = zs :=
  List.right_unique_forall₂' (fun _ _ _ hy hz => Option.some.inj (hy.symm.trans hz)) hy hz

theorem Picks.forall_lt (h : Picks xs is ys) : ∀ i ∈ is, i < xs.length := by
  intro i hi
  obtain ⟨j, hj, rfl⟩ := List.getElem_of_mem hi
  obtain ⟨hlt, -⟩ := List.getElem?_eq_some_iff.1 (h.get hj (h.length_eq ▸ hj))
  exact hlt

theorem Picks.getElem? (h : Picks xs is ys) (j : Nat) : ys[j]? = is[j]?.bind fun i => xs[i]? :=
  Row.getElem?_of_forall₂ h j

/-- To pick of what was picked is to pick at once. -/
theorem Picks.picks_iff (h : Picks xs is ys) (hk : Picks is js ks) :
    Picks ys js zs ↔ Picks xs ks zs := by
  unfold Picks at hk ⊢
  induction hk generalizing zs with
  | nil => rw [List.forall₂_nil_left_iff, List.forall₂_nil_left_iff]
  | @cons j k js ks hjk _ ih =>
    have hget : ys[j]? = xs[k]? := by rw [h.getElem?, hjk, Option.bind_some]
    rw [List.forall₂_cons_left_iff, List.forall₂_cons_left_iff]
    simp only [hget, ih]

theorem Picks.map {β : Type} (h : Picks xs is ys) (f : α → β) : Picks (xs.map f) is (ys.map f) := by
  refine List.forall₂_map_right_iff.2 (h.imp fun i y hy => ?_)
  rw [List.getElem?_map, hy, Option.map_some]

theorem Picks.forall_mem {p : α → Prop} (h : Picks xs is ys) (hp : ∀ x ∈ xs, p x) :
    ∀ y ∈ ys, p y := by
  intro y hy
  obtain ⟨j, hj⟩ := List.mem_iff_getElem?.1 hy
  rw [h.getElem?, Option.bind_eq_some_iff] at hj
  obtain ⟨i, -, hi⟩ := hj
  exact hp y (List.mem_of_getElem? hi)

end Picks

/-- What is picked of values of the same digests has the same digests. -/
theorem Picks.exists_sameDigests {xs xs' ys : List Value} {is : List Nat} (h : Picks xs is ys)
    (hx : sameDigests xs xs' = true) : ∃ ys', Picks xs' is ys' ∧ sameDigests ys ys' = true := by
  rw [sameDigests_iff] at hx
  induction h with
  | nil => exact ⟨[], .nil, by rw [sameDigests]⟩
  | @cons i y is ys hy _ ih =>
    obtain ⟨ys', hys', hd⟩ := ih
    obtain ⟨hi, rfl⟩ := List.getElem?_eq_some_iff.1 hy
    have hi' : i < xs'.length := hx.length_eq ▸ hi
    refine ⟨xs'[i] :: ys', .cons (List.getElem?_eq_getElem hi') hys', ?_⟩
    exact (sameDigests.eq_def _ _).trans (Bool.and_eq_true_iff.2 ⟨hx.get hi hi', hd⟩)

theorem Row.picks_of_select {r s : Row} {is : List Nat} (h : r.select is = .ok s) :
    Picks r.fields is s.fields :=
  (forall₂_of_mapM (fields_of_select h)).imp fun _ _ => field_eq_ok.1

/-- The first position without a field is the one that is reported. -/
theorem Row.select_eq_error {r : Row} {js : List Nat} {i : Nat} (h : ∀ j ∈ js, j < r.arity)
    (hi : r.arity ≤ i) (ks : List Nat) :
    r.select (js ++ i :: ks) = .error (.outOfBounds i r.arity) := by
  have hmap : (js ++ i :: ks).mapM r.field = .error (.outOfBounds i r.arity) := by
    induction js with
    | nil =>
      have hf : r.field i = .error (.outOfBounds i r.arity) := by
        rw [field, List.getElem?_eq_none hi]
      rw [List.nil_append, List.mapM_cons, hf]
      rfl
    | cons j js ih =>
      obtain ⟨hj, hjs⟩ := List.forall_mem_cons.1 h
      obtain ⟨t, ht⟩ := exists_field_iff.2 hj
      rw [List.cons_append, List.mapM_cons, ht]
      exact congrArg (· >>= fun ts => Except.ok (t :: ts)) (ih hjs)
  rw [select, hmap]
  rfl

/-- A selection of unlabelled fields has no labels. -/
theorem Row.eq_plain_of_select {fs : List Ty} {s : Row} {is : List Nat}
    (h : (plain fs).select is = .ok s) : s = plain s.fields := by
  obtain ⟨gs, -, h⟩ := bind_eq_ok.1 h
  obtain rfl := pure_eq_ok.1 h
  rfl

/-! ## Images -/

namespace Tuple

variable {u w : Tuple} {x y : Value} {xs ys zs : List Value} {is js ks : List Nat}

/-- What becomes of the picked elements: one by itself, and several as a tuple. -/
def ofPicked : List Value → Value
  | [y] => y
  | ys => (ofValues ys).toValue

/-- What a projection onto `is` makes of the tuple. -/
def Image (u : Tuple) (is : List Nat) (y : Value) : Prop :=
  ∃ ys, Picks u.elems is ys ∧ y = ofPicked ys

theorem ofPicked_of_length (h : ys.length ≠ 1) : ofPicked ys = (ofValues ys).toValue := by
  unfold ofPicked
  split
  · exact absurd rfl h
  · rfl

theorem inferred_ofPicked (h : ∀ y ∈ ys, Inferred y) : Inferred (ofPicked ys) := by
  unfold ofPicked
  split
  · exact h _ List.mem_cons_self
  · exact .tuple h

theorem sameDigest_ofPicked (h : sameDigests ys zs = true) :
    sameDigest (ofPicked ys) (ofPicked zs) = true := by
  have hlen : ys.length = zs.length := (sameDigests_iff.1 h).length_eq
  by_cases hone : ys.length = 1
  · obtain ⟨y, rfl⟩ := List.length_eq_one_iff.1 hone
    obtain ⟨z, rfl⟩ := List.length_eq_one_iff.1 (hlen ▸ hone)
    rw [sameDigests, Bool.and_eq_true] at h
    exact h.1
  · rw [ofPicked_of_length hone, ofPicked_of_length (hlen ▸ hone)]
    exact (sameDigest.eq_def _ _).trans h

/-- The elements of a tuple that is typed by its contents are typed so as well. -/
theorem inferred_elems (h : Inferred u.toValue) : ∀ x ∈ u.elems, Inferred x := h.shape.2.2

theorem eq_ofValues (h : Inferred u.toValue) : u = ofValues u.elems := by
  obtain ⟨⟨fs, ls⟩, xs⟩ := u
  obtain ⟨hfs, hls, -⟩ := h.shape
  subst hls
  exact congrArg (fun fs => (⟨⟨fs, none⟩, xs⟩ : Tuple)) hfs

theorem image_singleton {i : Nat} : u.Image [i] y ↔ u.elems[i]? = some y := by
  constructor
  · rintro ⟨ys, hys, rfl⟩
    cases hys with
    | cons hy hys =>
      cases hys
      exact hy
  · exact fun hy => ⟨[y], .cons hy .nil, rfl⟩

theorem Image.inferred (h : u.Image is y) (hu : Inferred u.toValue) : Inferred y := by
  obtain ⟨ys, hys, rfl⟩ := h
  exact inferred_ofPicked (hys.forall_mem (inferred_elems hu))

theorem Image.unique (hx : u.Image is x) (hy : u.Image is y) : x = y := by
  obtain ⟨xs, hxs, rfl⟩ := hx
  obtain ⟨ys, hys, rfl⟩ := hy
  rw [hxs.unique hys]

theorem exists_select_of_lt (hu : u.row.arity = u.elems.length)
    (h : ∀ i ∈ is, i < u.elems.length) : ∃ w, u.select is = .ok w := by
  obtain ⟨p, hp⟩ := Row.exists_select_iff.2 (hu ▸ h)
  obtain ⟨ys, hys⟩ : ∃ ys, is.mapM u.get = .ok ys := exists_mapM_iff.2 fun i hi =>
    ⟨u.elems.get ⟨i, h i hi⟩, get_eq_ok.2 (List.getElem?_eq_getElem (h i hi))⟩
  exact ⟨_, bind_eq_ok.2 ⟨p, hp, bind_eq_ok.2 ⟨ys, hys, rfl⟩⟩⟩

theorem picks_of_mapM_get (h : is.mapM u.get = .ok ys) : Picks u.elems is ys :=
  (forall₂_of_mapM h).imp fun _ _ => get_eq_ok.1

/-- Where not one element is picked, a selection is the image. -/
theorem image_of_select (hu : Inferred u.toValue) (hone : is.length ≠ 1)
    (h : u.select is = .ok w) : u.Image is w.toValue := by
  obtain ⟨row, hrow, h⟩ := bind_eq_ok.1 h
  obtain ⟨ys, hys, h⟩ := bind_eq_ok.1 h
  obtain rfl := pure_eq_ok.1 h
  have hpicks : Picks u.elems is ys := picks_of_mapM_get hys
  have hselect : (Row.plain (u.elems.map Value.ty)).select is = .ok row := eq_ofValues hu ▸ hrow
  have hfields : row.fields = ys.map Value.ty :=
    (Row.picks_of_select hselect).unique (hpicks.map Value.ty)
  refine ⟨ys, hpicks, ?_⟩
  rw [ofPicked_of_length (hpicks.length_eq ▸ hone), Row.eq_plain_of_select hselect, hfields]
  rfl

end Tuple

/-! ## Projections -/

/-- Whether `x` is found in a set or in a relation. -/
def Value.holds : Value → Value → Bool
  | .set _ xs, x | .rel _ _ xs, x => Table.has xs x
  | _, _ => false

theorem Value.holds_collect (t : Ty) (xs : List Value) (x : Value) :
    (collect t xs).holds x = Table.has xs x := by
  unfold collect
  split <;> rfl

theorem Value.contents_collect (t : Ty) (xs : List Value) : (collect t xs).contents = xs := by
  unfold collect
  split <;> rfl

namespace Relation

variable {r s w : Relation} {u : Tuple} {v x y : Value} {xs ys zs : List Value} {i : Nat}
  {is js ks : List Nat} {p q : Row} {t : Ty}

theorem mem_tuples : u ∈ r.tuples ↔ u.toValue ∈ r.elems := by
  rw [tuples, List.mem_filterMap]
  constructor
  · rintro ⟨x, hx, hu⟩
    exact Value.eq_toValue_of_tuple? hu ▸ hx
  · exact fun hu => ⟨u.toValue, hu, rfl⟩

/-- The table under a row: a single field bounds values, and other rows bound tuples. -/
def gather (p : Row) (xs : List Value) : Value :=
  match p.fields with
  | [t] => collect t xs
  | _ => (⟨p, xs⟩ : Relation).toValue

theorem gather_of_length (h : p.fields.length ≠ 1) :
    gather p xs = (⟨p, xs⟩ : Relation).toValue := by
  unfold gather
  split
  · next ht => exact absurd (congrArg List.length ht) h
  · rfl

theorem holds_gather (p : Row) (xs : List Value) (x : Value) :
    (gather p xs).holds x = Table.has xs x := by
  unfold gather
  split
  · exact holds_collect _ xs x
  · rfl

/-- Tables in which the same values are found are equal under rows of the same fields. -/
theorem gather_beq (hpq : p.fields = q.fields) (hx : Table.OfInferred xs)
    (hy : Table.OfInferred ys) (h : ∀ x, Table.has xs x = Table.has ys x) :
    (gather p xs == gather q ys) = true := by
  obtain ⟨hlen, hfound⟩ := Table.length_eq_and_foundAll hx hy
    (fun x hm => h x ▸ Table.has_of_mem hx.inferred hm)
    fun y hm => (h y).trans (Table.has_of_mem hy.inferred hm)
  have hset (t : Ty) : (Value.set t xs == Value.set t ys) = true := by
    change eqv _ _ = true
    simp [eqv, Ty.comparable_refl, hlen, hfound]
  have hrel (fs : List Ty) (ls ms : Option (List String)) :
      (Value.rel fs ls xs == Value.rel fs ms ys) = true := by
    change eqv _ _ = true
    simp [eqv, Ty.comparableRows, Ty.leqAll_refl, hlen, hfound]
  unfold gather collect
  rw [← hpq]
  split
  · split
    · exact hrel _ _ _
    · exact hset _
  · change (Value.rel p.fields _ _ == Value.rel q.fields _ _) = true
    rw [hpq]
    exact hrel _ _ _

theorem length_elems_of_mem (hr : r.toValue.WellTyped) (hu : u ∈ r.tuples) :
    u.elems.length = r.arity :=
  (bounds_of_mem_tuples hr hu).2.2.length_eq

theorem forall₂_filterMap {α β : Type} {f : α → Option β} {as : List α}
    (h : ∀ a ∈ as, ∃ b, f a = some b) :
    List.Forall₂ (fun a b => f a = some b) as (as.filterMap f) := by
  induction as with
  | nil => exact .nil
  | cons a as ih =>
    obtain ⟨⟨b, hb⟩, has⟩ := List.forall_mem_cons.1 h
    rw [List.filterMap_cons_some hb]
    exact .cons hb (ih has)

/-- A projection gathers the images of the tuples under the selected row. -/
theorem exists_images (hr : r.toValue.WellTyped) (hi : r.InferredElems)
    (h : r.project is = .ok v) : ∃ p ys, r.row.select is = .ok p ∧
      List.Forall₂ (fun u y => Tuple.Image u is y) r.tuples ys ∧
      v = gather p (Table.ofList ys) := by
  unfold project at h
  split at h
  · next i =>
    obtain ⟨t, ht, h⟩ := bind_eq_ok.1 h
    obtain rfl := pure_eq_ok.1 h
    have hlt : i < r.row.arity := Row.exists_field_iff.1 ⟨t, ht⟩
    obtain ⟨p, hp⟩ := Row.exists_select_iff.2 (List.forall_mem_singleton.2 hlt)
    have hfields : p.fields = [t] :=
      (Row.picks_of_select hp).unique (.cons (Row.field_eq_ok.1 ht) .nil)
    have hget (u) (hu : u ∈ r.tuples) : ∃ y, u.elems[i]? = some y := by
      have hi : i < u.elems.length := length_elems_of_mem hr hu ▸ hlt
      exact ⟨u.elems[i], List.getElem?_eq_getElem hi⟩
    refine ⟨p, _, hp, (forall₂_filterMap hget).imp fun _ _ => Tuple.image_singleton.2, ?_⟩
    rw [gather, hfields]
  · next hone =>
    have hone : is.length ≠ 1 := by
      intro hlen
      obtain ⟨i, rfl⟩ := List.length_eq_one_iff.1 hlen
      exact hone i rfl
    obtain ⟨p, hp, h⟩ := bind_eq_ok.1 h
    obtain ⟨ws, hws, h⟩ := bind_eq_ok.1 h
    obtain rfl := pure_eq_ok.1 h
    refine ⟨p, ws.map Tuple.toValue, hp, ?_, ?_⟩
    · refine List.forall₂_map_right_iff.2 (forall₂_imp_of_mem (forall₂_of_mapM hws) ?_)
      exact fun u hu w huw => Tuple.image_of_select (hi _ (mem_tuples.1 hu)) hone huw
    · rw [gather_of_length ((Row.picks_of_select hp).length_eq ▸ hone)]
      rfl

/-- A projection succeeds exactly if the row has all positions. -/
theorem exists_project_iff (hr : r.toValue.WellTyped) (hi : r.InferredElems) :
    (∃ v, r.project is = .ok v) ↔ ∀ i ∈ is, i < r.arity := by
  constructor
  · rintro ⟨v, hv⟩
    obtain ⟨p, -, hp, -⟩ := exists_images hr hi hv
    exact Row.exists_select_iff.1 ⟨p, hp⟩
  · intro h
    unfold project
    split
    · obtain ⟨t, ht⟩ := Row.exists_field_iff.2 (h _ List.mem_cons_self)
      exact ⟨_, bind_eq_ok.2 ⟨t, ht, rfl⟩⟩
    · obtain ⟨p, hp⟩ := Row.exists_select_iff.2 h
      obtain ⟨ws, hws⟩ : ∃ ws, r.tuples.mapM (fun u => u.select is) = .ok ws := by
        refine exists_mapM_iff.2 fun u hu => Tuple.exists_select_of_lt ?_ fun i hi => ?_
        · exact Ty.leqAll_length (bounds_of_mem_tuples hr hu).2.1 |>.trans
            (length_elems_of_mem hr hu).symm
        · exact length_elems_of_mem hr hu ▸ h i hi
      exact ⟨_, bind_eq_ok.2 ⟨p, hp, bind_eq_ok.2 ⟨ws, hws, rfl⟩⟩⟩

/-- The first position that the row does not have is the one that is reported. -/
theorem project_eq_error (h : ∀ j ∈ js, j < r.arity) (hi : r.arity ≤ i) (ks : List Nat) :
    r.project (js ++ i :: ks) = .error (.outOfBounds i r.arity) := by
  have hselect : r.row.select (js ++ i :: ks) = .error (.outOfBounds i r.arity) :=
    Row.select_eq_error h hi ks
  unfold project
  split
  · next k hk =>
    rw [hk] at hselect
    cases hf : r.row.field k with
    | error e =>
      rw [Row.select, List.mapM_cons, hf] at hselect
      rw [Except.error.inj (show (.error e : Except Fault Row) = _ from hselect)]
      rfl
    | ok t =>
      rw [Row.select, List.mapM_cons, hf] at hselect
      nomatch hselect
  · rw [hselect]
    rfl

/-- The projection onto one field is bounded by its type: a relation for a tuple type, and else a
set. -/
theorem project_one (hr : r.toValue.WellTyped) (hi : r.InferredElems)
    (h : r.project [i] = .ok v) (ht : r.row.field i = .ok t) : v = collect t v.contents := by
  obtain ⟨p, ys, hp, -, rfl⟩ := exists_images hr hi h
  have hfields : p.fields = [t] :=
    (Row.picks_of_select hp).unique (.cons (Row.field_eq_ok.1 ht) .nil)
  rw [gather, hfields, Value.contents_collect]

/-- Other projections are relations, bounded by the selected row. -/
theorem project_several (hr : r.toValue.WellTyped) (hi : r.InferredElems) (hone : is.length ≠ 1)
    (h : r.project is = .ok v) (hp : r.row.select is = .ok p) :
    v = (⟨p, v.contents⟩ : Relation).toValue := by
  obtain ⟨q, ys, hq, -, rfl⟩ := exists_images hr hi h
  obtain rfl : p = q := Except.ok.inj (hp.symm.trans hq)
  rw [gather_of_length ((Row.picks_of_select hp).length_eq ▸ hone)]
  rfl

theorem inferred_images (hi : r.InferredElems)
    (hys : List.Forall₂ (fun u y => Tuple.Image u is y) r.tuples ys) : ∀ y ∈ ys, Inferred y := by
  have himages : OneToOne (fun u y => Tuple.Image u is y) r.tuples ys := ⟨ys, hys, .refl ys⟩
  intro y hy
  obtain ⟨u, hu, huy⟩ := himages.exists_left hy
  exact huy.inferred (hi _ (mem_tuples.1 hu))

/-- A projection holds the images of the tuples. -/
theorem holds_project_iff (hr : r.toValue.WellTyped) (hi : r.InferredElems)
    (h : r.project is = .ok v) (x : Value) : v.holds x = true ↔
      ∃ u ∈ r.tuples, ∃ y, u.Image is y ∧ x.finds y = true := by
  obtain ⟨p, ys, -, hys, rfl⟩ := exists_images hr hi h
  have himages : OneToOne (fun u y => Tuple.Image u is y) r.tuples ys := ⟨ys, hys, .refl ys⟩
  rw [holds_gather, Table.has_ofList_iff (inferred_images hi hys)]
  constructor
  · rintro ⟨y, hy, hxy⟩
    obtain ⟨u, hu, huy⟩ := himages.exists_left hy
    exact ⟨u, hu, y, huy, hxy⟩
  · rintro ⟨u, hu, y, huy, hxy⟩
    obtain ⟨z, hz, huz⟩ := himages.exists_right hu
    exact ⟨z, hz, huy.unique huz ▸ hxy⟩

/-! ## Projections of projections -/

/-- The images of images are those under the picked positions, up to the choice that a table makes
among images of one digest. -/
theorem exists_image_iff (hi : r.InferredElems) (hone : is.length ≠ 1) (hks : Picks is js ks)
    (hys : List.Forall₂ (fun u y => Tuple.Image u is y) r.tuples ys)
    (hw : w.elems = Table.ofList ys) (x : Value) :
    (∃ u ∈ w.tuples, ∃ y, u.Image js y ∧ x.finds y = true) ↔
      ∃ u ∈ r.tuples, ∃ y, u.Image ks y ∧ x.finds y = true := by
  have himages : OneToOne (fun u y => Tuple.Image u is y) r.tuples ys := ⟨ys, hys, .refl ys⟩
  have hinferred := inferred_images hi hys
  -- each image is a tuple, whose elements are picked of a tuple of the relation
  have htuple (y) (hy : y ∈ ys) : ∃ u ∈ r.tuples, ∃ zs, Picks u.elems is zs ∧
      y = (Tuple.ofValues zs).toValue := by
    obtain ⟨u, hu, zs, hzs, rfl⟩ := himages.exists_left hy
    exact ⟨u, hu, zs, hzs, Tuple.ofPicked_of_length (hzs.length_eq ▸ hone)⟩
  constructor
  · rintro ⟨u', hu', y, ⟨qs, hqs, rfl⟩, hxy⟩
    rw [mem_tuples, hw] at hu'
    obtain ⟨u, hu, zs, hzs, heq⟩ := htuple u'.toValue (Table.mem_ofList hu')
    have helems : u'.elems = zs := (Value.tuple.inj heq).2.2
    rw [helems, hzs.picks_iff hks] at hqs
    exact ⟨u, hu, _, ⟨qs, hqs, rfl⟩, hxy⟩
  · rintro ⟨u, hu, y, ⟨qs, hqs, rfl⟩, hxy⟩
    obtain ⟨y₀, hy₀, zs, hzs, rfl⟩ := himages.exists_right hu
    obtain ⟨y₁, hy₁, hd⟩ := Table.exists_sameDigest hy₀
    obtain ⟨-, -, zs₁, -, rfl⟩ := htuple y₁ (Table.mem_ofList hy₁)
    have hdigests : sameDigests zs zs₁ = true := by
      rw [Tuple.ofPicked_of_length (hzs.length_eq ▸ hone)] at hd
      exact (sameDigest.eq_def _ _).symm.trans hd
    obtain ⟨qs₁, hqs₁, hdq⟩ := ((hzs.picks_iff hks).2 hqs).exists_sameDigests hdigests
    have himage : (Tuple.ofValues zs₁).Image js (Tuple.ofPicked qs₁) := ⟨qs₁, hqs₁, rfl⟩
    refine ⟨_, mem_tuples.2 (hw ▸ hy₁), _, himage, ?_⟩
    rwa [← Table.finds_eq_of_sameDigest x _ (himage.inferred (hinferred _ (Table.mem_ofList hy₁)))
      (Tuple.sameDigest_ofPicked hdq)]
    exact Tuple.Image.inferred ⟨qs, hqs, rfl⟩ (hi _ (mem_tuples.1 hu))

/-- A projection of a projection is equal to the projection onto the picked positions. -/
theorem project_project (hr : r.toValue.WellTyped) (hi : r.InferredElems) (hone : is.length ≠ 1)
    (hks : Picks is js ks) (h : r.project is = .ok v) : ∃ w a b, v.rel? = some w ∧
      w.project js = .ok a ∧ r.project ks = .ok b ∧ (a == b) = true := by
  obtain ⟨p, ys, hp, hys, rfl⟩ := exists_images hr hi h
  have hlen : is.length = p.fields.length := (Row.picks_of_select hp).length_eq
  have hgather : gather p (Table.ofList ys) = (⟨p, Table.ofList ys⟩ : Relation).toValue :=
    gather_of_length (hlen ▸ hone)
  have hwell : (⟨p, Table.ofList ys⟩ : Relation).toValue.WellTyped :=
    hgather ▸ wellTyped_project hr h
  have hinferred : (⟨p, Table.ofList ys⟩ : Relation).InferredElems := fun y hy =>
    inferred_images hi hys y (Table.mem_ofList hy)
  obtain ⟨a, ha⟩ := (exists_project_iff hwell hinferred).2 fun j hj =>
    Nat.lt_of_lt_of_eq (hks.forall_lt j hj) hlen
  obtain ⟨b, hb⟩ := (exists_project_iff hr hi).2
    (hks.forall_mem ((exists_project_iff hr hi).1 ⟨_, h⟩))
  refine ⟨⟨p, Table.ofList ys⟩, a, b, by rw [hgather]; rfl, ha, hb, ?_⟩
  have hsame (x : Value) : a.holds x = b.holds x := by
    rw [Bool.eq_iff_iff, holds_project_iff hwell hinferred ha, holds_project_iff hr hi hb]
    exact exists_image_iff hi hone hks hys rfl x
  obtain ⟨q, as, hq, has, rfl⟩ := exists_images hwell hinferred ha
  obtain ⟨q', bs, hq', hbs, rfl⟩ := exists_images hr hi hb
  refine gather_beq ?_ (.ofList (inferred_images hinferred has)) (.ofList (inferred_images hi hbs))
    fun x => by simpa only [holds_gather] using hsame x
  exact (((Row.picks_of_select hp).picks_iff hks).1 (Row.picks_of_select hq)).unique
    (Row.picks_of_select hq')

/-! ## The values of all fields -/

theorem carrier_val : r.carrier.val = collect (r.row.fields.foldl Ty.lub .void)
    (Table.ofList (r.tuples.flatMap Tuple.elems)) := by
  rw [← Ty.joinAll_val]
  rfl

/-- A value is in some field exactly if it is in the projection onto it. -/
theorem holds_carrier_iff (hr : r.toValue.WellTyped) (hi : r.InferredElems) (x : Value) :
    r.carrier.val.holds x = true ↔ ∃ i v, r.project [i] = .ok v ∧ v.holds x = true := by
  have helems (y) (hy : y ∈ r.tuples.flatMap Tuple.elems) : Inferred y := by
    obtain ⟨u, hu, hy⟩ := List.mem_flatMap.1 hy
    exact Tuple.inferred_elems (hi _ (mem_tuples.1 hu)) y hy
  rw [carrier_val, holds_collect, Table.has_ofList_iff helems]
  constructor
  · rintro ⟨y, hy, hxy⟩
    obtain ⟨u, hu, hy⟩ := List.mem_flatMap.1 hy
    obtain ⟨i, hlt, rfl⟩ := List.getElem_of_mem hy
    obtain ⟨v, hv⟩ := (exists_project_iff hr hi).2
      (List.forall_mem_singleton.2 (length_elems_of_mem hr hu ▸ hlt))
    refine ⟨i, v, hv, (holds_project_iff hr hi hv x).2 ⟨u, hu, u.elems[i], ?_, hxy⟩⟩
    exact Tuple.image_singleton.2 (List.getElem?_eq_getElem hlt)
  · rintro ⟨i, v, hv, hx⟩
    obtain ⟨u, hu, y, hy, hxy⟩ := (holds_project_iff hr hi hv x).1 hx
    have hy : y ∈ u.elems := List.mem_of_getElem? (Tuple.image_singleton.1 hy)
    exact ⟨y, List.mem_flatMap.2 ⟨u, hu, hy⟩, hxy⟩

/-- **Projections are exact and compose.** Onto given positions a relation is projected exactly if
its row has all of them, and otherwise the first that it lacks is reported. The projection holds
what its tuples become: the values of a field where one position is given, in a relation if the
field takes tuples and else in a set, and otherwise the selected tuples, in a relation. Unless one
position is given, a projection can be projected again, and is then equal to the projection of the
relation onto the composed positions. The carrier holds the values that are in some field. -/
theorem projections_exact (r : Relation) (hr : r.toValue.WellTyped) (hi : r.InferredElems) :
    (∀ is, (∃ v, r.project is = .ok v) ↔ ∀ i ∈ is, i < r.arity) ∧
    (∀ js i ks, (∀ j ∈ js, j < r.arity) → r.arity ≤ i →
      r.project (js ++ i :: ks) = .error (.outOfBounds i r.arity)) ∧
    (∀ is v, r.project is = .ok v → ∀ x,
      v.holds x = true ↔ ∃ u ∈ r.tuples, ∃ y, u.Image is y ∧ x.finds y = true) ∧
    (∀ i v t, r.project [i] = .ok v → r.row.field i = .ok t → v = collect t v.contents) ∧
    (∀ is v p, is.length ≠ 1 → r.project is = .ok v → r.row.select is = .ok p →
      v = (⟨p, v.contents⟩ : Relation).toValue) ∧
    (∀ is js : List Nat, is.length ≠ 1 → (∀ j ∈ js, j < is.length) →
      ∃ ks, Picks is js ks ∧ ∀ v, r.project is = .ok v → ∃ w a b, v.rel? = some w ∧
        w.project js = .ok a ∧ r.project ks = .ok b ∧ (a == b) = true) ∧
    ∀ x, r.carrier.val.holds x = true ↔ ∃ i v, r.project [i] = .ok v ∧ v.holds x = true := by
  refine ⟨fun is => exists_project_iff hr hi, fun js i ks hjs hk => project_eq_error hjs hk ks,
    fun is v h => holds_project_iff hr hi h, fun i v t => project_one hr hi,
    fun is v p hone => project_several hr hi hone, fun is js hone hjs => ?_,
    holds_carrier_iff hr hi⟩
  obtain ⟨ks, hks⟩ := exists_picks hjs
  exact ⟨ks, hks, fun v => project_project hr hi hone hks⟩

/-- Points with texts, two of them at one point. -/
def notes : Relation :=
  ⟨⟨[.tuple [.int, .int] (some ["x", "y"]), .str], some ["at", "text"]⟩,
    [pair (pair (int 1, int 2), str "a"), pair (pair (int 1, int 2), str "b")]⟩

theorem inferred_point : Inferred (pair (int 1, int 2)) := inferred_pair ⟨.leaf rfl, .leaf rfl⟩

theorem inferredElems_notes : notes.InferredElems :=
  List.forall_mem_cons.2 ⟨inferred_pair ⟨inferred_point, .leaf rfl⟩,
    List.forall_mem_singleton.2 (inferred_pair ⟨inferred_point, .leaf rfl⟩)⟩

theorem wellTyped_notes : notes.toValue.WellTyped := by
  refine wellTyped_iff.2 fun x hx => ⟨(inferredElems_notes x hx).wellTyped, ?_⟩
  rcases List.mem_pair.1 hx with rfl | rfl <;> decide

/-- The points of notes are a relation, which holds the one point; the second field of the swapped
notes is their first; and there is no third field. -/
theorem projections_exact_notes :
    (∃ v, notes.project [0] = .ok v ∧
      v = collect (.tuple [.int, .int] (some ["x", "y"])) v.contents ∧
      v.holds (pair (int 1, int 2)) = true ∧ notes.carrier.val.holds (pair (int 1, int 2)) = true) ∧
    notes.project [1, 2, 3] = .error (.outOfBounds 2 2) ∧
    ∃ v w a b, notes.project [1, 0] = .ok v ∧ v.rel? = some w ∧ w.project [1] = .ok a ∧
      notes.project [0] = .ok b ∧ (a == b) = true := by
  obtain ⟨hok, herror, himages, hone, -, hcomp, hcarrier⟩ :=
    projections_exact notes wellTyped_notes inferredElems_notes
  refine ⟨?_, herror [1] 2 [3] (by decide) (by decide), ?_⟩
  · obtain ⟨v, hv⟩ := (hok [0]).2 (by decide)
    have hnote : Tuple.ofValues [pair (int 1, int 2), str "a"] ∈ notes.tuples :=
      mem_tuples.2 List.mem_cons_self
    have hpoint : v.holds (pair (int 1, int 2)) = true := (himages [0] v hv _).2
      ⟨_, hnote, _, Tuple.image_singleton.2 rfl, Table.finds_self inferred_point⟩
    exact ⟨v, hv, hone 0 v _ hv rfl, hpoint, (hcarrier _).2 ⟨0, v, hv, hpoint⟩⟩
  · obtain ⟨ks, hks, hproject⟩ := hcomp [1, 0] [1] (by decide) (by decide)
    obtain rfl : ks = [0] := hks.unique (.cons rfl .nil)
    obtain ⟨v, hv⟩ := (hok [1, 0]).2 (by decide)
    obtain ⟨w, a, b, hw, ha, hb, hab⟩ := hproject v hv
    exact ⟨v, w, a, b, hv, hw, ha, hb, hab⟩

end Relation

end ValueLattice

import ValueLattice.Proofs.Node.Outcome
import ValueLattice.Proofs.Ty.Labels
import ValueLattice.Proofs.Value.Construct
import ValueLattice.Proofs.Value.Records
/-!
# Well-labelled values

A value is well-labelled when its type is, when a tuple has as many elements as fields and a node as
many children as its constructor has fields, and when all of this holds of its contents. Then the
label of a field leads to an element or a child, and never beyond the last.

Operations keep values well-labelled: the result has a type made of the types of the arguments, and
contents that are taken over from them. This module has those on tuples and nodes.

* `Value.WellLabelled`: well-labelled values;
* `Tuple.wellLabelled_set`, `Tuple.wellLabelled_select` and the like: tuples;
* `NodeOp.wellLabelled`: nodes;
* `WithinBounds`, `Tuple.withinBounds_getLabel`, `Node.withinBounds_getLabel`: access by labels.
-/

namespace ValueLattice

/-- A tuple has as many elements as fields, and a node as many children as its type asks for. -/
def Value.Fits : Value → Prop
  | tuple fs _ xs => fs.length = xs.length
  | node _ t _ _ xs _ _ => Node.Fits t xs
  | _ => True

/-- The rows of the type are well-labelled, tuples and nodes fit their types, and so it is with the
contents, at every depth. -/
inductive Value.WellLabelled : Value → Prop
  | intro {v : Value} (ht : v.ty.WellLabelled) (hf : v.Fits)
    (hx : ∀ x ∈ v.contents, WellLabelled x) : WellLabelled v

open Ty Value

variable {t k : Ty} {v x : Value} {xs : List Value} {fs : List Ty} {ls : Option (List String)}
  {i : Nat}

theorem Value.wellLabelled_iff : v.WellLabelled ↔
    v.ty.WellLabelled ∧ v.Fits ∧ ∀ x ∈ v.contents, x.WellLabelled :=
  ⟨fun ⟨ht, hf, hx⟩ => ⟨ht, hf, hx⟩, fun ⟨ht, hf, hx⟩ => ⟨ht, hf, hx⟩⟩

theorem Value.WellLabelled.ty (h : v.WellLabelled) : v.ty.WellLabelled := (wellLabelled_iff.1 h).1

theorem Value.WellLabelled.contents (h : v.WellLabelled) (hx : x ∈ v.contents) : x.WellLabelled :=
  (wellLabelled_iff.1 h).2.2 x hx

theorem Value.wellLabelled_of_isLeaf (h : v.isLeaf = true) : v.WellLabelled := by
  cases v <;> first
    | exact ⟨List.forall_mem_nil _, trivial, List.forall_mem_nil _⟩
    | exact absurd h (by simp [isLeaf])

theorem wellLabelled_map_ty (h : ∀ x ∈ xs, x.WellLabelled) :
    ∀ t ∈ xs.map Value.ty, t.WellLabelled :=
  List.forall_mem_map.2 fun x hx => (h x hx).ty

theorem wellLabelled_joinAll (hk : k.WellLabelled) (h : ∀ x ∈ xs, x.WellLabelled) :
    ((xs.map Value.ty).foldl Ty.lub k).WellLabelled :=
  hereditary_wellLabelled.foldl_lub hk (wellLabelled_map_ty h)

theorem wellLabelled_void : Ty.void.WellLabelled := nofun

/-! ## Tuples -/

namespace Tuple

variable {u w : Tuple} {is : List Nat}

theorem wellLabelled_iff : u.toValue.WellLabelled ↔
    u.row.toTuple.WellLabelled ∧ u.row.arity = u.arity ∧ ∀ x ∈ u.elems, x.WellLabelled :=
  Value.wellLabelled_iff

theorem wellLabelled_ofValues (h : ∀ x ∈ xs, x.WellLabelled) : (ofValues xs).toValue.WellLabelled :=
  wellLabelled_iff.2 ⟨Row.wellLabelled_plain (wellLabelled_map_ty h), List.length_map _, h⟩

theorem wellLabelled_ofType (ht : t.WellLabelled) (hx : ∀ x ∈ xs, x.WellLabelled)
    (h : ofType t xs = .ok u) : u.toValue.WellLabelled := by
  unfold ofType at h
  split at h
  · next fs ls hs =>
    split at h
    · next hl =>
      obtain ⟨⟨⟩, -, h⟩ := bind_eq_ok.1 h
      obtain rfl := pure_eq_ok.1 h
      have hrow : (Ty.tuple fs ls).WellLabelled := hs ▸ ht.strip
      exact wellLabelled_iff.2 ⟨hrow, hl, hx⟩
    · cases h
  · cases h

theorem wellLabelled_set (hu : u.toValue.WellLabelled) (hx : x.WellLabelled)
    (h : u.set i x = .ok w) : w.toValue.WellLabelled := by
  unfold set at h
  split at h
  · obtain rfl := Except.ok.inj h
    obtain ⟨hrow, hlen, helems⟩ := wellLabelled_iff.1 hu
    refine wellLabelled_iff.2 ⟨?_, ?_, fun y hy => ?_⟩
    · refine wellLabelled_tuple_of_length hrow List.length_set fun t ht => ?_
      rcases List.mem_or_eq_of_mem_set ht with ht | rfl
      · exact (wellLabelled_tuple.1 hrow).2 t ht
      · exact hx.ty
    · rw [arity, List.length_set, Row.arity, List.length_set]
      exact hlen
    · rcases List.mem_or_eq_of_mem_set hy with hy | rfl
      · exact helems y hy
      · exact hx
  · nomatch h

theorem wellLabelled_select (hu : u.toValue.WellLabelled) (h : u.select is = .ok w) :
    w.toValue.WellLabelled := by
  obtain ⟨hrow, -, helems⟩ := wellLabelled_iff.1 hu
  obtain ⟨r, hr, h⟩ := bind_eq_ok.1 h
  obtain ⟨ys, hys, h⟩ := bind_eq_ok.1 h
  obtain rfl := pure_eq_ok.1 h
  have hfields : is.length = r.arity := (forall₂_of_mapM (Row.fields_of_select hr)).length_eq
  refine wellLabelled_iff.2 ⟨Row.wellLabelled_select hrow hr, ?_, fun y hy => ?_⟩
  · exact hfields.symm.trans (forall₂_of_mapM hys).length_eq
  · obtain ⟨i, -, hi⟩ := exists_of_mem_mapM hys hy
    exact helems y (List.mem_of_getElem? (get_eq_ok.1 hi))

end Tuple

/-! ## Nodes -/

namespace Node

variable {n m : Node} {id : Nat} {r : Registry} {g : Guise}

theorem wellLabelled_iff : (n.inGuise g).WellLabelled ↔
    n.ty.WellLabelled ∧ Fits n.ty n.children ∧ ∀ x ∈ n.parts, x.WellLabelled :=
  Value.wellLabelled_iff

theorem wellLabelled_ty_ofCtor (ht : t.WellLabelled) (h : ofCtor id t xs = .ok n) :
    n.ty.WellLabelled := by
  unfold ofCtor at h
  split at h
  · next hs =>
    split at h
    · obtain ⟨⟨⟩, -, h⟩ := bind_eq_ok.1 h
      obtain rfl := pure_eq_ok.1 h
      exact hs ▸ ht.strip
    · cases h
  · cases h

/-- The parameters of a constructor are bound to joins of parts of the types of the children. -/
theorem wellLabelled_matched {ps : List Ty} {b : Subst} (hx : ∀ x ∈ xs, x.WellLabelled)
    (h : Subst.Matched ps fs ls xs b) : b.All Ty.WellLabelled := by
  have hactual : (Ty.tuple (xs.map Value.ty) none).WellLabelled :=
    Row.wellLabelled_plain (wellLabelled_map_ty hx)
  have hstart : (Subst.ofParams ps).All Ty.WellLabelled := fun n u hu =>
    Subst.eq_void_of_get?_ofParams hu ▸ wellLabelled_void
  have hkeeps := hereditary_wellLabelled.keeps_matchWith (Ty.tuple fs ls) _ hactual
  exact Action.after_eq_of_returns h ▸ (hkeeps _ hstart).1

theorem wellLabelled_ty_construct (ht : t.WellLabelled) (hx : ∀ x ∈ xs, x.WellLabelled)
    (h : (construct id t xs).Returns n) : n.ty.WellLabelled := by
  cases hs : t.strip with
  | ctor name owner ps fs ls =>
    obtain ⟨b, hb, -, -, rfl⟩ := (returns_construct_iff hs).1 h
    exact Ty.WellLabelled.subst (wellLabelled_matched hx hb) _ (hs ▸ ht.strip)
  | _ =>
    unfold construct at h
    rw [hs] at h
    exact absurd h Checked.returns_throw

end Node

namespace NodeOp

variable {op : NodeOp} {n : Node} {r : Registry} {id : Nat}

theorem wellLabelled_ty (hr : r.WellLabelled) (ht : ∀ t ∈ op.types, t.WellLabelled)
    (hx : ∀ x ∈ op.values, x.WellLabelled) (hm : ∀ m ∈ op.receiver?, m.ty.WellLabelled)
    (h : (op.run r id).Returns n) : n.ty.WellLabelled := by
  have hkept {m : Node} (hmr : m ∈ op.receiver?) : n.ty.WellLabelled :=
    (outcome_of_run h).ty_eq hmr ▸ hm m hmr
  cases op with
  | plain l xs =>
    obtain rfl := Checked.returns_pure.1 h
    exact List.forall_mem_nil _
  | plainWithAnnos l xs as =>
    obtain ⟨-, rfl⟩ := Node.setAnnos_eq_ok.1 (Checked.returns_except.1 h)
    exact List.forall_mem_nil _
  | ofCtor t xs =>
    exact Node.wellLabelled_ty_ofCtor (ht t List.mem_cons_self) (Checked.returns_except.1 h)
  | construct t xs => exact Node.wellLabelled_ty_construct (ht t List.mem_cons_self) hx h
  | constructNamed o l xs =>
    have h : (ValueLattice.constructNamed id r o l xs).Returns n := h
    unfold ValueLattice.constructNamed at h
    split at h
    · next t hct => exact Node.wellLabelled_ty_construct (hr.ctor? hct) hx h
    · exact absurd h Checked.returns_throw
  | constructWithAnnos t xs as =>
    obtain ⟨b, hb, h⟩ := Checked.returns_bind.1 h
    obtain ⟨-, rfl⟩ := Node.setAnnos_eq_ok.1 (Checked.returns_except.1 h)
    have hxs : ∀ x ∈ xs, x.WellLabelled := fun x hxs => hx x (List.mem_append_left _ hxs)
    have hb : b.ty.WellLabelled := Node.wellLabelled_ty_construct (ht t List.mem_cons_self) hxs hb
    exact hb
  | set m i x => exact hkept rfl
  | setLabel m l x => exact hkept rfl
  | setAnno m l x => exact hkept rfl
  | setAnnos m as => exact hkept rfl
  | removeAnno m l => exact hkept rfl
  | removeAnnos m => exact hkept rfl

/-- Every operation on nodes keeps them well-labelled. -/
theorem wellLabelled (hr : r.WellLabelled) (ht : ∀ t ∈ op.types, t.WellLabelled)
    (hx : ∀ x ∈ op.values, x.WellLabelled) (hm : ∀ m ∈ op.receiver?, m.toValue.WellLabelled)
    (h : (op.run r id).Returns n) (g : Guise) : (n.inGuise g).WellLabelled := by
  have hout : NodeOutcome r id op.change op.values n := outcome_of_run h
  refine Node.wellLabelled_iff.2 ⟨?_, ?_, fun x hxn => ?_⟩
  · exact wellLabelled_ty hr ht hx (fun m hmr => (Node.wellLabelled_iff.1 (hm m hmr)).1) h
  · exact hout.fits fun m hmr => (Node.wellLabelled_iff.1 (hm m hmr)).2.1
  · rcases hout.mem_parts hxn with hxv | ⟨m, hmr, hxm⟩
    · exact hx x hxv
    · exact (Node.wellLabelled_iff.1 (hm m hmr)).2.2 x hxm

end NodeOp

/-! ## Access by labels -/

/-- The access does not fail for a position out of bounds. -/
def WithinBounds {α : Type} (a : Except Fault α) : Prop := ∀ i n, a ≠ .error (.outOfBounds i n)

namespace WithinBounds

variable {α β : Type} {a : Except Fault α} {f : α → Except Fault β}

theorem ok (x : α) : WithinBounds (.ok x) := nofun

theorem bind (ha : WithinBounds a) (hf : ∀ x, a = .ok x → WithinBounds (f x)) :
    WithinBounds (a >>= f) := by
  cases a with
  | error e => exact fun i n h => ha i n (congrArg Except.error (Except.error.inj h))
  | ok x => exact hf x rfl

end WithinBounds

namespace Tuple

variable {u w : Tuple} {l : String} {is : List Nat} {r : Row}

theorem withinBounds_position : WithinBounds (u.position l) := by
  unfold position
  split <;> exact nofun

/-- A label of a well-labelled tuple leads to an element. -/
theorem lt_of_position (hu : u.toValue.WellLabelled) (h : u.position l = .ok i) : i < u.arity := by
  obtain ⟨hrow, hlen, -⟩ := wellLabelled_iff.1 hu
  unfold position at h
  split at h
  · next j hj =>
    obtain rfl := Except.ok.inj h
    exact hlen ▸ ((Row.position?_eq_some (Row.wellLabelled_of_toTuple hrow)).1 hj).1
  · nomatch h

theorem exists_get (h : i < u.arity) : ∃ x, u.get i = .ok x :=
  ⟨u.elems[i], get_eq_ok.2 (List.getElem?_eq_getElem h)⟩

theorem withinBounds_getLabel (hu : u.toValue.WellLabelled) (l : String) :
    WithinBounds (u.getLabel l) := by
  refine withinBounds_position.bind fun i hi => ?_
  obtain ⟨x, hx⟩ := exists_get (lt_of_position hu hi)
  exact hx ▸ .ok x

theorem withinBounds_setLabel (hu : u.toValue.WellLabelled) (l : String) (x : Value) :
    WithinBounds (u.setLabel l x) := by
  refine withinBounds_position.bind fun i hi => ?_
  rw [set, if_pos (lt_of_position hu hi)]
  exact .ok _

/-- Where the row can be selected the elements can. -/
theorem exists_select (hu : u.toValue.WellLabelled) (h : u.row.select is = .ok r) :
    ∃ w, u.select is = .ok w ∧ w.row = r := by
  obtain ⟨-, hlen, -⟩ := wellLabelled_iff.1 hu
  have hlt : ∀ i ∈ is, i < u.row.arity := Row.exists_select_iff.1 ⟨r, h⟩
  obtain ⟨ys, hys⟩ : ∃ ys, is.mapM u.get = .ok ys :=
    exists_mapM_iff.2 fun i hi => exists_get (hlen ▸ hlt i hi)
  exact ⟨⟨r, ys⟩, bind_eq_ok.2 ⟨r, h, bind_eq_ok.2 ⟨ys, hys, rfl⟩⟩, rfl⟩

end Tuple

namespace Node

variable {n : Node} {g : Guise} {l : String} {r : Row}

theorem withinBounds_position : WithinBounds (t.position l) := by
  unfold Ty.position
  split <;> exact nofun

/-- A node of a type with a row has a child for each field. -/
theorem Fits.row (h : Fits t xs) (hr : t.row? = some r) :
    r.arity = xs.length ∧ ∀ i, t.field i = r.field i := by
  cases h with
  | plain => nomatch hr
  | ctor h =>
    obtain rfl := Option.some.inj hr
    exact ⟨h, fun _ => rfl⟩

/-- A label of a well-labelled node leads to a child, and to the field of that child. -/
theorem lt_of_position (hn : (n.inGuise g).WellLabelled) (h : n.ty.position l = .ok i) :
    i < n.arity ∧ ∃ t, n.ty.field i = .ok t := by
  obtain ⟨hty, hfits, -⟩ := wellLabelled_iff.1 hn
  unfold Ty.position at h
  split at h
  · next j hj =>
    obtain rfl := Except.ok.inj h
    obtain ⟨r, hr, hl⟩ := Option.bind_eq_some_iff.1 hj
    obtain ⟨harity, hfield⟩ := hfits.row hr
    have hrow : r.WellLabelled := Row.wellLabelled_of_toTuple (hty.row? hr)
    have hlt : j < r.arity := ((Row.position?_eq_some hrow).1 hl).1
    refine ⟨Nat.lt_of_lt_of_eq hlt harity, ?_⟩
    rw [hfield j]
    exact Row.exists_field_iff.2 hlt
  · nomatch h

theorem withinBounds_getLabel (hn : (n.inGuise g).WellLabelled) (l : String) :
    WithinBounds (n.getLabel l) := by
  refine withinBounds_position.bind fun i hi => ?_
  have hlt : i < n.children.length := (lt_of_position hn hi).1
  rw [get, List.getElem?_eq_getElem hlt]
  exact .ok _

theorem withinBounds_setLabel (hn : (n.inGuise g).WellLabelled) (id : Nat) (l : String)
    (x : Value) : WithinBounds (n.setLabel id l x) := by
  refine withinBounds_position.bind fun i hi => ?_
  obtain ⟨hlt, t, ht⟩ := lt_of_position hn hi
  rw [set, if_pos hlt, ht]
  refine WithinBounds.bind (.ok t) fun u _ => ?_
  split
  · exact .ok _
  · exact nofun

end Node

end ValueLattice

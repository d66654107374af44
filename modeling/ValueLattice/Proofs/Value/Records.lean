import ValueLattice.Proofs.Node.Outcome
import ValueLattice.Proofs.Ty.Row
import ValueLattice.Proofs.Value.Typing
/-!
# Tuples and nodes are well-typed

A tuple changes its type with its elements, while a constructed node keeps its type and refuses
a child that does not fit. Both rest on rows of values: an element put in at a position fits the
field put in there, and what is selected fits the selected fields.

A node is well-typed when its type allows its name and its children (`Node.Allows`) and its
annotations are well-typed. Updates of annotations leave the first part alone, and updates of
children leave the second.

`TupleCall args v` says that one operation on tuples turns the arguments `args` into `v`, and
`NodeCall` says the same of nodes.

* `TupleCall.wellTyped`, `NodeCall.wellTyped`: the calls.
-/

namespace ValueLattice

open Value

variable {t : Ty} {x v : Value} {xs args : List Value} {fs gs : List Ty} {l : String} {i : Nat}

/-! ## Fields -/

theorem forall₂_of_checkFields (hl : fs.length = xs.length) (h : checkFields fs xs = .ok ())
    (hx : ∀ x ∈ xs, x.WellTyped) : List.Forall₂ HasTy xs fs := by
  induction fs generalizing xs with
  | nil =>
    rw [List.length_eq_zero_iff.1 hl.symm]
    exact .nil
  | cons f fs ih =>
    cases xs with
    | nil => simp at hl
    | cons x xs =>
      obtain ⟨hx, hxs⟩ := List.forall_mem_cons.1 hx
      unfold checkFields at h
      split at h
      · next hf => exact .cons ⟨hx, hf⟩ (ih (Nat.succ.inj hl) h hxs)
      · nomatch h

/-! ## Tuples -/

namespace Tuple

variable {u w : Tuple}

theorem wellTyped_iff : u.toValue.WellTyped ↔ List.Forall₂ HasTy u.elems u.row.fields :=
  wellTyped_tuple_iff

theorem wellTyped_ofValues (h : ∀ x ∈ xs, x.WellTyped) : (ofValues xs).toValue.WellTyped :=
  wellTyped_iff.2 (forall₂_hasTy_self h)

theorem wellTyped_ofType (h : ofType t xs = .ok u) (hx : ∀ x ∈ xs, x.WellTyped) :
    u.toValue.WellTyped := by
  unfold ofType at h
  split at h
  · next fs ls _ =>
    split at h
    · next hl =>
      obtain ⟨⟨⟩, hc, h⟩ := bind_eq_ok.1 h
      rw [← pure_eq_ok.1 h]
      exact wellTyped_iff.2 (forall₂_of_checkFields hl hc hx)
    · cases h
  · cases h

theorem get_eq_ok : u.get i = .ok x ↔ u.elems[i]? = some x := by
  unfold get
  cases u.elems[i]? <;> simp

theorem wellTyped_get (hu : u.toValue.WellTyped) (h : u.get i = .ok x) : x.WellTyped := by
  have hx : x ∈ u.elems := List.mem_of_getElem? (get_eq_ok.1 h)
  exact (forall₂_hasTy_iff.1 (wellTyped_iff.1 hu)).2 x hx

theorem wellTyped_set (hu : u.toValue.WellTyped) (hx : x.WellTyped) (h : u.set i x = .ok w) :
    w.toValue.WellTyped := by
  unfold set at h
  split at h
  · obtain rfl := Except.ok.inj h
    exact wellTyped_iff.2 (forall₂_hasTy_set (wellTyped_iff.1 hu) hx.hasTy i)
  · nomatch h

theorem row_of_select {is : List Nat} (h : u.select is = .ok w) :
    u.row.select is = .ok w.row := by
  obtain ⟨r, hr, h⟩ := bind_eq_ok.1 h
  obtain ⟨ys, -, h⟩ := bind_eq_ok.1 h
  rw [← pure_eq_ok.1 h]
  exact hr

theorem wellTyped_select {is : List Nat} (hu : u.toValue.WellTyped) (h : u.select is = .ok w) :
    w.toValue.WellTyped := by
  obtain ⟨r, hr, h⟩ := bind_eq_ok.1 h
  obtain ⟨ys, hys, h⟩ := bind_eq_ok.1 h
  rw [← pure_eq_ok.1 h]
  have hfields : is.mapM u.row.field = .ok r.fields := Row.fields_of_select hr
  refine wellTyped_iff.2 (forall₂_of_mapM₂ (fun i x t hx ht => ?_) hys hfields)
  exact hasTy_of_forall₂ (wellTyped_iff.1 hu) (get_eq_ok.1 hx) (Row.field_eq_ok.1 ht)

end Tuple

/-- The calls on tuples. -/
inductive TupleCall : List Value → Value → Prop
  | ofValues (xs : List Value) : TupleCall xs (Tuple.ofValues xs).toValue
  | ofType {t : Ty} {xs : List Value} {u : Tuple} (h : Tuple.ofType t xs = .ok u) :
    TupleCall xs u.toValue
  | get {u : Tuple} {i : Nat} {x : Value} (h : u.get i = .ok x) : TupleCall [u.toValue] x
  | getLabel {u : Tuple} {l : String} {x : Value} (h : u.getLabel l = .ok x) :
    TupleCall [u.toValue] x
  | set {u w : Tuple} {i : Nat} {x : Value} (h : u.set i x = .ok w) :
    TupleCall [u.toValue, x] w.toValue
  | setLabel {u w : Tuple} {l : String} {x : Value} (h : u.setLabel l x = .ok w) :
    TupleCall [u.toValue, x] w.toValue
  | select {u w : Tuple} {is : List Nat} (h : u.select is = .ok w) :
    TupleCall [u.toValue] w.toValue

theorem TupleCall.wellTyped (h : TupleCall args v) (ha : ∀ x ∈ args, x.WellTyped) :
    v.WellTyped := by
  cases h with
  | ofValues xs => exact Tuple.wellTyped_ofValues ha
  | ofType h => exact Tuple.wellTyped_ofType h ha
  | get h => exact Tuple.wellTyped_get (ha _ (by simp)) h
  | getLabel h =>
    obtain ⟨i, -, h⟩ := bind_eq_ok.1 h
    exact Tuple.wellTyped_get (ha _ (by simp)) h
  | set h => exact Tuple.wellTyped_set (ha _ (by simp)) (ha _ (by simp)) h
  | setLabel h =>
    obtain ⟨i, -, h⟩ := bind_eq_ok.1 h
    exact Tuple.wellTyped_set (ha _ (by simp)) (ha _ (by simp)) h
  | select h => exact Tuple.wellTyped_select (ha _ (by simp)) h

/-! ## Nodes -/

/-- The guise and the type of a node allow its name and its children. -/
inductive Node.Allows : Guise → Ty → String → List Value → Prop
  | plain {n : String} {xs : List Value} (h : ∀ x ∈ xs, x.WellTyped) : Allows .plain .node n xs
  | constructed {n o : String} {ps fs : List Ty} {ls : Option (List String)} {xs : List Value}
    (h : List.Forall₂ HasTy xs fs) : Allows .constructed (.ctor n o ps fs ls) n xs

namespace Node

variable {n m : Node} {g : Guise} {c j : Nat} {r : Registry} {as : List (String × Value)}

theorem wellTyped_node_iff : (Value.node g t l c xs j as).WellTyped ↔
    Allows g t l xs ∧ ∀ a ∈ as, a.2.WellTyped := by
  constructor
  · intro h
    cases h with
    | leaf h => simp [isLeaf] at h
    | plain hx ha => exact ⟨.plain hx, ha⟩
    | constructed h hx ha => exact ⟨.constructed (forall₂_hasTy_iff.2 ⟨h, hx⟩), ha⟩
  · rintro ⟨h, ha⟩
    cases h with
    | plain hx => exact .plain hx ha
    | constructed h =>
      obtain ⟨h, hx⟩ := forall₂_hasTy_iff.1 h
      exact .constructed h hx ha

theorem wellTyped_iff : (n.inGuise g).WellTyped ↔
    Allows g n.ty n.name n.children ∧ ∀ a ∈ n.annos, a.2.WellTyped := wellTyped_node_iff

/-- A node has the guise that its type tells. -/
theorem Allows.toValue_eq (h : Allows g n.ty l xs) : n.toValue = n.inGuise g := by
  obtain ⟨ty, name, i, ys, j, as⟩ := n
  cases h <;> rfl

theorem wellTyped_toValue (hn : (n.inGuise g).WellTyped) : n.toValue.WellTyped := by
  rw [(wellTyped_iff.1 hn).1.toValue_eq]
  exact hn

theorem Allows.children (h : Allows g t l xs) : ∀ x ∈ xs, x.WellTyped := by
  cases h with
  | plain h => exact h
  | constructed h => exact (forall₂_hasTy_iff.1 h).2

/-- A child of a type below that of its field may be put in. -/
theorem Allows.set {u : Ty} (h : Allows g t l xs) (hu : t.field i = .ok u) (hx : x.HasTy u) :
    Allows g t l (xs.set i x) := by
  cases h with
  | plain h =>
    refine .plain fun y hy => ?_
    rcases List.mem_or_eq_of_mem_set hy with hy | rfl
    · exact h y hy
    · exact hx.1
  | constructed h =>
    obtain ⟨hi, rfl⟩ := List.getElem?_eq_some_iff.1 (Row.field_eq_ok.1 hu)
    have hset := forall₂_hasTy_set h hx i
    rw [List.set_getElem_self] at hset
    exact .constructed hset

theorem wellTyped_plain (h : ∀ x ∈ xs, x.WellTyped) :
    ((plain c l xs).inGuise .plain).WellTyped := .plain h (List.forall_mem_nil _)

theorem wellTyped_ofCtor (h : ofCtor c t xs = .ok n) (hx : ∀ x ∈ xs, x.WellTyped) :
    (n.inGuise .constructed).WellTyped := by
  unfold ofCtor at h
  split at h
  · next _ o ps fs ls _ =>
    split at h
    · next hl =>
      obtain ⟨⟨⟩, hc, h⟩ := bind_eq_ok.1 h
      obtain ⟨hf, hx⟩ := forall₂_hasTy_iff.1 (forall₂_of_checkFields hl hc hx)
      rw [← pure_eq_ok.1 h]
      exact .constructed hf hx (List.forall_mem_nil _)
    · cases h
  · cases h

theorem wellTyped_construct (h : (construct c t xs).Returns n) (hx : ∀ x ∈ xs, x.WellTyped) :
    (n.inGuise .constructed).WellTyped := by
  unfold construct at h
  split at h
  · split at h
    · obtain ⟨bound, -, h⟩ := Checked.returns_bind.1 h
      exact wellTyped_ofCtor (Checked.returns_except.1 h) hx
    · exact wellTyped_ofCtor (Checked.returns_except.1 h) hx
  · exact absurd h Checked.returns_throw

theorem wellTyped_constructNamed {adt : String} (h : (constructNamed c r adt l xs).Returns n)
    (hx : ∀ x ∈ xs, x.WellTyped) : (n.inGuise .constructed).WellTyped := by
  unfold constructNamed at h
  split at h
  · exact wellTyped_construct h hx
  · exact absurd h Checked.returns_throw

theorem wellTyped_get (hn : (n.inGuise g).WellTyped) (h : n.get i = .ok x) : x.WellTyped := by
  unfold get at h
  split at h
  · next y hy =>
    obtain rfl := Except.ok.inj h
    exact (wellTyped_iff.1 hn).1.children y (List.mem_of_getElem? hy)
  · nomatch h

theorem wellTyped_set (hn : (n.inGuise g).WellTyped) (hx : x.WellTyped)
    (h : set c n i x = .ok m) : (m.inGuise g).WellTyped := by
  unfold set at h
  split at h
  · obtain ⟨u, hu, h⟩ := bind_eq_ok.1 h
    split at h
    · next hxu =>
      obtain ⟨hall, hannos⟩ := wellTyped_iff.1 hn
      rw [← pure_eq_ok.1 h]
      exact wellTyped_iff.2 ⟨hall.set hu ⟨hx, hxu⟩, hannos⟩
    · nomatch h
  · nomatch h

/-! ## Annotations -/

/-- Annotations may be exchanged for well-typed ones. -/
theorem wellTyped_withAnnos (hn : (n.inGuise g).WellTyped) (h : ∀ a ∈ as, a.2.WellTyped)
    (j : Nat) : (({ n with annosId := j, annos := as } : Node).inGuise g).WellTyped :=
  wellTyped_iff.2 ⟨(wellTyped_iff.1 hn).1, h⟩

theorem annos_wellTyped (hn : (n.inGuise g).WellTyped) : ∀ a ∈ n.annos, a.2.WellTyped :=
  (wellTyped_iff.1 hn).2

theorem wellTyped_setAnnos (hn : (n.inGuise g).WellTyped) (ha : ∀ a ∈ as, a.2.WellTyped)
    (h : setAnnos c n r as = .ok m) : (m.inGuise g).WellTyped := by
  obtain ⟨-, rfl⟩ := setAnnos_eq_ok.1 h
  refine wellTyped_withAnnos hn (fun a hm => ?_) c
  rcases mem_foldl_insertAnno hm with hm | hm
  · exact ha a hm
  · exact annos_wellTyped hn a hm

theorem wellTyped_setAnno (hn : (n.inGuise g).WellTyped) (hx : x.WellTyped)
    (h : setAnno c n r l x = .ok m) : (m.inGuise g).WellTyped :=
  wellTyped_setAnnos hn (List.forall_mem_singleton.2 hx) (setAnno_eq c n r l x ▸ h)

theorem wellTyped_removeAnno (hn : (n.inGuise g).WellTyped) :
    ((removeAnno c n l).inGuise g).WellTyped :=
  wellTyped_withAnnos hn (fun a ha => annos_wellTyped hn a (List.mem_filter.1 ha).1) c

theorem wellTyped_removeAnnos (hn : (n.inGuise g).WellTyped) :
    (n.removeAnnos.inGuise g).WellTyped :=
  wellTyped_withAnnos hn (List.forall_mem_nil _) noAnnos

theorem wellTyped_getAnno {o : Option Value} (hn : (n.inGuise g).WellTyped)
    (h : n.getAnno r l = .ok o) (hx : x ∈ o) : x.WellTyped := by
  unfold getAnno at h
  split at h
  · obtain rfl := Except.ok.inj h
    obtain ⟨as, bs, hl, -⟩ := List.lookup_eq_some_iff.1 hx
    exact annos_wellTyped hn (l, x) (by simp [hl])
  · nomatch h

theorem wellTyped_plainWithAnnos (h : plainWithAnnos c j r l xs as = .ok n)
    (hx : ∀ x ∈ xs, x.WellTyped) (ha : ∀ a ∈ as, a.2.WellTyped) : (n.inGuise .plain).WellTyped :=
  wellTyped_setAnnos (wellTyped_plain hx) ha h

theorem wellTyped_constructWithAnnos (h : (constructWithAnnos c j r t xs as).Returns n)
    (hx : ∀ x ∈ xs, x.WellTyped) (ha : ∀ a ∈ as, a.2.WellTyped) :
    (n.inGuise .constructed).WellTyped := by
  obtain ⟨m, hm, h⟩ := Checked.returns_bind.1 h
  exact wellTyped_setAnnos (wellTyped_construct hm hx) ha (Checked.returns_except.1 h)

end Node

/-- The calls on nodes. Parts that a call makes take any identities. The arguments of a node with
annotations are its children and its annotations. -/
inductive NodeCall : List Value → Value → Prop
  | plain (c : Nat) (l : String) (xs : List Value) :
    NodeCall xs ((Node.plain c l xs).inGuise .plain)
  | plainWithAnnos {c j : Nat} {r : Registry} {l : String} {xs : List Value}
    {as : List (String × Value)} {n : Node} (h : plainWithAnnos c j r l xs as = .ok n) :
    NodeCall (xs ++ as.map Prod.snd) (n.inGuise .plain)
  | ofCtor {c : Nat} {t : Ty} {xs : List Value} {n : Node} (h : Node.ofCtor c t xs = .ok n) :
    NodeCall xs n.toValue
  | construct {c : Nat} {t : Ty} {xs : List Value} {n : Node} (h : (construct c t xs).Returns n) :
    NodeCall xs (n.inGuise .constructed)
  | constructNamed {c : Nat} {r : Registry} {o l : String} {xs : List Value} {n : Node}
    (h : (constructNamed c r o l xs).Returns n) : NodeCall xs (n.inGuise .constructed)
  | constructWithAnnos {c j : Nat} {r : Registry} {t : Ty} {xs : List Value}
    {as : List (String × Value)} {n : Node} (h : (constructWithAnnos c j r t xs as).Returns n) :
    NodeCall (xs ++ as.map Prod.snd) (n.inGuise .constructed)
  | get {g : Guise} {n : Node} {i : Nat} {x : Value} (h : n.get i = .ok x) :
    NodeCall [n.inGuise g] x
  | getLabel {g : Guise} {n : Node} {l : String} {x : Value} (h : n.getLabel l = .ok x) :
    NodeCall [n.inGuise g] x
  | set {g : Guise} {c i : Nat} {n m : Node} {x : Value} (h : n.set c i x = .ok m) :
    NodeCall [n.inGuise g, x] m.toValue
  | setLabel {g : Guise} {c : Nat} {l : String} {n m : Node} {x : Value}
    (h : n.setLabel c l x = .ok m) : NodeCall [n.inGuise g, x] m.toValue
  | getAnno {g : Guise} {r : Registry} {l : String} {n : Node} {x : Value}
    (h : n.getAnno r l = .ok (some x)) : NodeCall [n.inGuise g] x
  | setAnno {g : Guise} {j : Nat} {r : Registry} {l : String} {n m : Node} {x : Value}
    (h : n.setAnno j r l x = .ok m) : NodeCall [n.inGuise g, x] m.toValue
  | setAnnos {g : Guise} {j : Nat} {r : Registry} {as : List (String × Value)} {n m : Node}
    (h : n.setAnnos j r as = .ok m) : NodeCall (n.inGuise g :: as.map Prod.snd) m.toValue
  | removeAnno (g : Guise) (j : Nat) (n : Node) (l : String) :
    NodeCall [n.inGuise g] (n.removeAnno j l).toValue
  | removeAnnos (g : Guise) (n : Node) : NodeCall [n.inGuise g] n.removeAnnos.toValue

theorem NodeCall.wellTyped (h : NodeCall args v) (ha : ∀ x ∈ args, x.WellTyped) :
    v.WellTyped := by
  cases h with
  | plain c l xs => exact Node.wellTyped_plain ha
  | plainWithAnnos h =>
    refine Node.wellTyped_plainWithAnnos h (fun x hx => ha x ?_) fun a hm => ha a.2 ?_
    · exact List.mem_append_left _ hx
    · exact List.mem_append_right _ (List.mem_map_of_mem hm)
  | ofCtor h => exact Node.wellTyped_toValue (Node.wellTyped_ofCtor h ha)
  | construct h => exact Node.wellTyped_construct h ha
  | constructNamed h => exact Node.wellTyped_constructNamed h ha
  | constructWithAnnos h =>
    refine Node.wellTyped_constructWithAnnos h (fun x hx => ha x ?_) fun a hm => ha a.2 ?_
    · exact List.mem_append_left _ hx
    · exact List.mem_append_right _ (List.mem_map_of_mem hm)
  | get h => exact Node.wellTyped_get (List.forall_mem_singleton.1 ha) h
  | getLabel h =>
    obtain ⟨i, -, h⟩ := bind_eq_ok.1 h
    exact Node.wellTyped_get (List.forall_mem_singleton.1 ha) h
  | set h =>
    obtain ⟨hn, ha⟩ := List.forall_mem_cons.1 ha
    exact Node.wellTyped_toValue (Node.wellTyped_set hn (List.forall_mem_singleton.1 ha) h)
  | setLabel h =>
    obtain ⟨hn, ha⟩ := List.forall_mem_cons.1 ha
    obtain ⟨i, -, h⟩ := bind_eq_ok.1 h
    exact Node.wellTyped_toValue (Node.wellTyped_set hn (List.forall_mem_singleton.1 ha) h)
  | getAnno h => exact Node.wellTyped_getAnno (List.forall_mem_singleton.1 ha) h rfl
  | setAnno h =>
    obtain ⟨hn, ha⟩ := List.forall_mem_cons.1 ha
    exact Node.wellTyped_toValue (Node.wellTyped_setAnno hn (List.forall_mem_singleton.1 ha) h)
  | setAnnos h =>
    obtain ⟨hn, has⟩ := List.forall_mem_cons.1 ha
    refine Node.wellTyped_toValue (Node.wellTyped_setAnnos hn (fun a hm => has a.2 ?_) h)
    exact List.mem_map_of_mem hm
  | removeAnno g j n l =>
    exact Node.wellTyped_toValue (Node.wellTyped_removeAnno (List.forall_mem_singleton.1 ha))
  | removeAnnos g n =>
    exact Node.wellTyped_toValue (Node.wellTyped_removeAnnos (List.forall_mem_singleton.1 ha))

end ValueLattice

import ValueLattice.Proofs.Builder.Typing
/-!
# Tuples of a declared type

A tuple builder with a declared type checks each value against the field at the position where it
is inserted, and produces the tuple when every field has its value. The tuple always has the
declared type and as many elements as fields. Its elements fit their fields as long as every value
stays where it was checked. A deletion moves the values behind the deleted one to the fields before
theirs, and nothing checks them again, so a builder without misfits stays without as long as every
deletion leaves none (`deletionsFit_iff`). No deletion leaves any where each field is above those
behind it, as where all fields have one type.

* `Row.Places`: the values fit the fields at their positions;
* `TupleBuilder.Holds`: what a builder with a declared row has collected, and what it produces;
* `Row.Places.sublist`: rows where values may move forward;
* `TupleBuilder.DeletionsFit`: runs without misfits;
* `wellTyped_declared_tuple`: the tuples that are produced.
-/

namespace ValueLattice

open Value

variable {r : Row} {t f : Ty} {fs : List Ty} {x v : Value} {xs ys : List Value}

/-! ## Values at their positions -/

/-- Each of the values, of which there may be fewer than fields, fits the field at its position. -/
def Row.Places (r : Row) (xs : List Value) : Prop :=
  List.Forall₂ HasTy xs (r.fields.take xs.length)

/-- Each type of the row is above those behind it. -/
def Ty.Descending (fs : List Ty) : Prop := fs.Pairwise fun f g => g.leq f = true

theorem TupleBuilder.checkAt_eq_ok {i : Nat} :
    checkAt (some r) i t = .ok () ↔ ∃ f, r.fields[i]? = some f ∧ t.leq f = true := by
  unfold checkAt
  cases hf : r.fields[i]? with
  | none => simp [hf]
  | some f => by_cases h : t.leq f = true <;> simp [hf, h]

theorem TupleBuilder.checkFull_eq_ok {n : Nat} :
    checkFull (some r) n = .ok () ↔ r.arity = n := by
  unfold checkFull
  by_cases h : r.arity = n <;> simp [h]

namespace Row.Places

theorem nil : r.Places [] := by
  unfold Places
  rw [List.length_nil, List.take_zero]
  exact .nil

/-- A value that passes the check at the next position fits there. -/
theorem snoc (h : r.Places xs) (hx : x.WellTyped)
    (hc : TupleBuilder.checkAt (some r) xs.length x.ty = .ok ()) : r.Places (xs ++ [x]) := by
  obtain ⟨f, hf, hle⟩ := TupleBuilder.checkAt_eq_ok.1 hc
  unfold Places
  rw [List.length_append, List.length_singleton, List.take_add_one, hf]
  exact List.rel_append h (.cons ⟨hx, hle⟩ .nil)

/-- Where every field has its value, they are the elements of a well-typed tuple. -/
theorem wellTyped (h : r.Places xs) (hl : xs.length = r.arity) :
    (⟨r, xs⟩ : Tuple).toValue.WellTyped := by
  unfold Places at h
  rw [hl, arity, List.take_length] at h
  exact wellTyped_tuple_iff.2 h

end Row.Places

/-- In a descending row the fields behind the first are below those before the last. -/
theorem Ty.Descending.leqAll_shift (h : Ty.Descending (f :: fs)) {n : Nat} (hn : n ≤ fs.length) :
    Ty.leqAll (fs.take n) ((f :: fs).take n) = true := by
  induction n generalizing f fs with
  | zero => rfl
  | succ n ih =>
    cases fs with
    | nil => simp at hn
    | cons g fs =>
      obtain ⟨hf, hfs⟩ := List.pairwise_cons.1 h
      rw [List.take_succ_cons, List.take_succ_cons, Ty.leqAll, Bool.and_eq_true]
      exact ⟨hf g List.mem_cons_self, ih hfs (Nat.le_of_succ_le_succ hn)⟩

/-- Values that fit a descending row still do when some of them are left out. -/
theorem forall₂_hasTy_sublist (h : List.Forall₂ HasTy xs fs) (hd : Ty.Descending fs)
    (hs : ys.Sublist xs) : List.Forall₂ HasTy ys (fs.take ys.length) := by
  induction hs generalizing fs with
  | slnil => exact .nil
  | cons x hs ih =>
    cases h with
    | @cons _ f _ fs hx hrest =>
      have hlen : fs.length = _ := hrest.length_eq.symm
      refine forall₂_hasTy_mono (ih hrest (List.pairwise_cons.1 hd).2) ?_
      exact hd.leqAll_shift (hlen ▸ hs.length_le)
  | cons_cons x hs ih =>
    cases h with
    | cons hx hrest => exact .cons hx (ih hrest (List.pairwise_cons.1 hd).2)

theorem Row.Places.sublist (h : r.Places xs) (hd : Ty.Descending r.fields) (hs : ys.Sublist xs) :
    r.Places ys := by
  have htake : Ty.Descending (r.fields.take xs.length) := hd.sublist (List.take_sublist _ _)
  have hys : List.Forall₂ HasTy ys _ := forall₂_hasTy_sublist h htake hs
  rwa [List.take_take, Nat.min_eq_left hs.length_le] at hys

/-! ## Builders with a declared row -/

namespace TupleBuilder

/-- A builder with the declared row `r` has collected values with the property `p`, and it would
produce a tuple with that row and as many such values as fields. -/
structure Holds (r : Row) (p : List Value → Prop) (b : TupleBuilder) : Prop where
  declared : b.declared = some r
  elems : ∀ xs, b.stage = .opened xs → p xs
  value : ∀ v, BuilderOf.result (k := .tuple) b = .ok v →
    ∃ xs, v = (⟨r, xs⟩ : Tuple).toValue ∧ xs.length = r.arity ∧ p xs

variable {p : List Value → Prop} {b : BuilderOf .tuple} {e : Effect (BuilderOf .tuple) Unit}

theorem holds_opened (h : p xs) : Holds r p ⟨some r, .opened xs⟩ where
  declared := rfl
  elems := by
    rintro ys ⟨⟩
    exact h
  value := by
    intro v hv
    obtain ⟨⟨⟩, hfull, hv⟩ := bind_eq_ok.1 hv
    obtain rfl := Except.ok.inj hv
    exact ⟨xs, rfl, (checkFull_eq_ok.1 hfull).symm, h⟩

theorem Holds.close (h : Holds r p b) (hv : b.result = .ok v) : Holds r p (b.close v) where
  declared := h.declared
  elems := nofun
  value := by
    intro w hw
    obtain rfl := Except.ok.inj hw
    exact h.value v hv

theorem Holds.insert
    (hp : ∀ xs, p xs → checkAt (some r) xs.length x.ty = .ok () → p (xs ++ [x]))
    (h : Holds r p b) (ho : (Edit.insert x).outcome b = .ok e) : Holds r p e.state := by
  cases Edit.succeeds_of_outcome ho with
  | tupleInsert hc =>
    cases h.declared
    exact holds_opened (hp _ (h.elems _ rfl) hc)

theorem Holds.delete (hp : ∀ xs ys, p xs → ys.Sublist xs → p ys)
    (h : Holds r p b) (ho : (Edit.delete x).outcome b = .ok e) : Holds r p e.state := by
  cases Edit.succeeds_of_outcome ho with
  | @tupleDelete d xs x =>
    cases h.declared
    refine holds_opened (hp xs _ (h.elems xs rfl) ?_)
    have hs : (xs.reverse.eraseP fun y => y == x).Sublist xs.reverse := List.eraseP_sublist
    simpa using hs.reverse

/-- A property that insertions keep, and that passes to the values that deletions leave, is kept by
every call. -/
theorem invariant_holds
    (hins : ∀ x xs, x.WellTyped → p xs → checkAt (some r) xs.length x.ty = .ok () → p (xs ++ [x]))
    (hdel : ∀ xs ys, p xs → ys.Sublist xs → p ys) :
    Invariant (k := .tuple) WellTyped fun _ b => Holds r p b where
  edit := by
    intro es b e s h hgood ho
    cases e with
    | insert x => exact h.insert (fun xs => hins x xs (hgood x List.mem_cons_self)) ho
    | delete x => exact h.delete hdel ho
  close h hv := h.close hv

/-- A property that insertions keep is kept until something is deleted. -/
theorem invariant_holds_of_inserts
    (hins : ∀ x xs, x.WellTyped → p xs → checkAt (some r) xs.length x.ty = .ok () → p (xs ++ [x])) :
    Invariant (k := .tuple) WellTyped fun es b => (∀ x, .delete x ∉ es) → Holds r p b where
  edit := by
    intro es b e s h hgood ho hes
    cases e with
    | insert x =>
      refine Holds.insert (fun xs => hins x xs (hgood x List.mem_cons_self)) (h fun y hy => ?_) ho
      exact hes y (List.mem_append_left _ hy)
    | delete x => exact absurd (List.mem_append_right _ List.mem_cons_self) (hes x)
  close h hv hes := (h hes).close hv

/-! ## Runs -/

theorem delete_notMem_insertEffects (b : BuilderOf .tuple) :
    .delete x ∉ insertEffects xs b := by
  induction xs generalizing b with
  | nil => exact List.not_mem_nil
  | cons y ys ih =>
    cases ho : (Edit.insert y).outcome b with
    | error f =>
      rw [insertEffects_of_error ho]
      exact List.not_mem_nil
    | ok s =>
      rw [insertEffects_of_ok ho, List.mem_cons]
      rintro (h | h)
      · nomatch h
      · exact ih s.state h

/-- Only the call to delete a value deletes one. -/
theorem eq_delete_of_mem_effects {c : BuilderCall .tuple} (h : .delete x ∈ c.effects b) :
    c = .edit (.delete x) := by
  cases c with
  | edit e =>
    rw [BuilderCall.effects] at h
    split at h
    · rw [List.mem_singleton.1 h]
    · exact absurd h List.not_mem_nil
  | insertAll xs => exact absurd h (delete_notMem_insertEffects b)
  | done => exact absurd h List.not_mem_nil
  | finish => exact absurd h List.not_mem_nil

/-- As long as the builder is open, its values fit the fields at their positions. -/
def InPlace (r : Row) (b : TupleBuilder) : Prop := ∀ xs, b.stage = .opened xs → r.Places xs

/-- After each deletion of a sequence of calls the values that are left are in place. -/
def DeletionsFit (r : Row) : List (BuilderCall .tuple) → BuilderOf .tuple → Prop
  | [], _ => True
  | c :: cs, b =>
    (∀ x, c = .edit (.delete x) → InPlace r (c.run.start b).val.2) ∧
      DeletionsFit r cs (c.run.start b).val.2

variable {c : BuilderCall .tuple} {calls : List (BuilderCall .tuple)}

/-- Every call but a deletion keeps the values in place, and a deletion may. -/
theorem Holds.call (h : Holds r r.Places b) (hc : ∀ x ∈ c.values, x.WellTyped)
    (hd : ∀ x, c = .edit (.delete x) → InPlace r (c.run.start b).val.2) :
    Holds r r.Places (c.run.start b).val.2 := by
  by_cases hdel : ∃ x, c = .edit (.delete x)
  · obtain ⟨x, rfl⟩ := hdel
    have hplace : InPlace r ((BuilderCall.edit (.delete x)).run.start b).val.2 := hd x rfl
    rw [BuilderCall.start_edit] at hplace ⊢
    cases ho : (Edit.delete x).outcome b with
    | error f => exact h
    | ok s =>
      -- nothing is known of what is left but that it is in place
      rw [ho] at hplace
      cases Edit.succeeds_of_outcome ho with
      | tupleDelete =>
        cases h.declared
        exact holds_opened (hplace _ rfl)
  · have hinv : Invariant (k := .tuple) WellTyped _ :=
      invariant_holds_of_inserts fun x xs hx (hp : r.Places xs) => hp.snoc hx
    have hcall : (∀ x, .delete x ∉ [] ++ c.effects b) → Holds r r.Places (c.run.start b).val.2 :=
      hinv.call hc fun _ => h
    exact hcall fun x hx => hdel ⟨x, eq_delete_of_mem_effects hx⟩

theorem DeletionsFit.holds (h : DeletionsFit r calls b) (hb : Holds r r.Places b)
    (hc : ∀ c ∈ calls, ∀ x ∈ c.values, x.WellTyped) :
    Holds r r.Places (builderAfter calls b) := by
  induction calls generalizing b with
  | nil => exact hb
  | cons c cs ih =>
    obtain ⟨hc, hcs⟩ := List.forall_mem_cons.1 hc
    rw [builderAfter_cons]
    exact ih h.2 (hb.call hc h.1) hcs

/-- The values are in place all along exactly if they are after each deletion. -/
theorem deletionsFit_iff (hb : Holds r r.Places b)
    (hc : ∀ c ∈ calls, ∀ x ∈ c.values, x.WellTyped) :
    DeletionsFit r calls b ↔ ∀ cs, cs <+: calls → InPlace r (builderAfter cs b) := by
  induction calls generalizing b with
  | nil =>
    refine iff_of_true trivial fun cs hcs => ?_
    rw [List.prefix_nil.1 hcs]
    exact hb.elems
  | cons c calls ih =>
    obtain ⟨hc, hrest⟩ := List.forall_mem_cons.1 hc
    constructor
    · rintro ⟨hd, hfit⟩ cs hcs
      have hafter : Holds r r.Places (c.run.start b).val.2 := hb.call hc hd
      rcases List.prefix_cons_iff.1 hcs with rfl | ⟨ds, rfl, hds⟩
      · exact hb.elems
      · rw [builderAfter_cons]
        exact (ih hafter hrest).1 hfit ds hds
    · intro h
      have hfirst : InPlace r (c.run.start b).val.2 :=
        h [c] (List.prefix_cons_iff.2 (.inr ⟨[], rfl, List.nil_prefix⟩))
      have hafter : Holds r r.Places (c.run.start b).val.2 := hb.call hc fun _ _ => hfirst
      refine ⟨fun _ _ => hfirst, (ih hafter hrest).2 fun ds hds => ?_⟩
      rw [← builderAfter_cons]
      exact h (c :: ds) (List.prefix_cons_iff.2 (.inr ⟨ds, rfl, hds⟩))

/-- In a descending row values may move forward, so deletions leave all in place. -/
theorem deletionsFit_of_descending (hd : Ty.Descending r.fields) (hb : Holds r r.Places b)
    (hc : ∀ c ∈ calls, ∀ x ∈ c.values, x.WellTyped) : DeletionsFit r calls b := by
  have hinv : Invariant (k := .tuple) WellTyped fun _ b => Holds r r.Places b :=
    invariant_holds (fun x xs hx hp => hp.snoc hx) fun xs ys hp => hp.sublist hd
  rw [deletionsFit_iff hb hc]
  intro cs hcs
  exact (hinv.run_start (fun c hm => hc c (hcs.subset hm)) hb).elems

/-- A builder with a declared type starts with the row of the type and without values. -/
theorem ofType_eq_ok {b : TupleBuilder} (h : ofType t = .ok b) :
    ∃ r : Row, t.strip = r.toTuple ∧ b = ⟨some r, .opened []⟩ := by
  unfold ofType at h
  split at h
  · next fs ls ht => exact ⟨⟨fs, ls⟩, ht, (Except.ok.inj h).symm⟩
  · cases h

end TupleBuilder

/-- **Tuples of a declared type.** From well-typed values a tuple builder with a declared type only
produces tuples with the row of that type, with as many well-typed elements as it has fields. Its
values are in place all along exactly if they are after each deletion; then the tuple that it
produces is well-typed, so each element is of a type below that of its field. Deletions leave the
values in place wherever each field of the row is above those behind it. -/
theorem wellTyped_declared_tuple {b : TupleBuilder} {calls : List (BuilderCall .tuple)}
    (hb : TupleBuilder.ofType t = .ok b) (hc : ∀ c ∈ calls, ∀ x ∈ c.values, x.WellTyped) :
    ∃ r : Row, t.strip = r.toTuple ∧
      (∀ v b', BuilderOf.done.Returns (builderAfter calls b) v b' →
        ∃ xs, v = (⟨r, xs⟩ : Tuple).toValue ∧ xs.length = r.arity ∧ ∀ x ∈ xs, x.WellTyped) ∧
      (TupleBuilder.DeletionsFit r calls b ↔
        ∀ cs, cs <+: calls → TupleBuilder.InPlace r (builderAfter cs b)) ∧
      (TupleBuilder.DeletionsFit r calls b →
        ∀ v b', BuilderOf.done.Returns (builderAfter calls b) v b' → v.WellTyped) ∧
      (Ty.Descending r.fields → TupleBuilder.DeletionsFit r calls b) := by
  obtain ⟨r, ht, rfl⟩ := TupleBuilder.ofType_eq_ok hb
  have hplaced : TupleBuilder.Holds r r.Places ⟨some r, .opened []⟩ :=
    TupleBuilder.holds_opened .nil
  have hstart : TupleBuilder.Holds r (fun xs => ∀ x ∈ xs, x.WellTyped) ⟨some r, .opened []⟩ :=
    TupleBuilder.holds_opened (List.forall_mem_nil _)
  have htyped : Invariant (k := .tuple) WellTyped fun _ b =>
      TupleBuilder.Holds r (fun xs => ∀ x ∈ xs, x.WellTyped) b :=
    TupleBuilder.invariant_holds
      (fun x xs hx hxs _ => List.forall_mem_append.2 ⟨hxs, List.forall_mem_singleton.2 hx⟩)
      fun xs ys hxs hs y hy => hxs y (hs.subset hy)
  refine ⟨r, ht, ?_, TupleBuilder.deletionsFit_iff hplaced hc, ?_, ?_⟩
  · intro v b' hv
    exact (htyped.run_start hc hstart).value v (BuilderOf.returns_done.1 hv).1
  · intro hfit v b' hv
    obtain ⟨xs, rfl, hl, hxs⟩ := (hfit.holds hplaced hc).value v (BuilderOf.returns_done.1 hv).1
    exact hxs.wellTyped hl
  · intro hd
    exact TupleBuilder.deletionsFit_of_descending hd hplaced hc

theorem eraseP_pair {y : Value} (hxx : (x == x) = true) (hyx : (y == x) = false) :
    ([y, x].eraseP fun z => z == x) = [y] := by
  simp [hxx, hyx]

/-- Where the first of two values is deleted, the second moves to its position. -/
theorem TupleBuilder.builderAfter_delete_first {y : Value}
    (hx : checkAt (some r) 0 x.ty = .ok ()) (hy : checkAt (some r) 1 y.ty = .ok ())
    (hxx : (x == x) = true) (hyx : (y == x) = false) (cs : List (BuilderCall .tuple)) :
    builderAfter (.edit (.insert x) :: .edit (.insert y) :: .edit (.delete x) :: cs)
      (⟨some r, .opened []⟩ : TupleBuilder) =
      builderAfter cs (⟨some r, .opened [y]⟩ : TupleBuilder) := by
  have hfirst : (Edit.insert (k := .tuple) x).outcome (⟨some r, .opened []⟩ : TupleBuilder) =
      .ok ⟨(), ⟨some r, .opened [x]⟩, []⟩ := by
    change (checkAt (some r) 0 x.ty >>= fun _ => _) = _
    rw [hx]
    rfl
  have hsecond : (Edit.insert (k := .tuple) y).outcome (⟨some r, .opened [x]⟩ : TupleBuilder) =
      .ok ⟨(), ⟨some r, .opened [x, y]⟩, []⟩ := by
    change (checkAt (some r) 1 y.ty >>= fun _ => _) = _
    rw [hy]
    rfl
  have hdelete : (Edit.delete (k := .tuple) x).outcome (⟨some r, .opened [x, y]⟩ : TupleBuilder) =
      .ok ⟨(), ⟨some r, .opened [y]⟩, []⟩ := by
    change Except.ok (Effect.mk () (TupleBuilder.mk _ (.opened ([y, x].eraseP _).reverse)) []) = _
    rw [eraseP_pair hxx hyx]
    rfl
  rw [builderAfter_edit_of_ok hfirst, builderAfter_edit_of_ok hsecond,
    builderAfter_edit_of_ok hdelete]

/-- The number behind the deleted one fits the first field as well. -/
theorem wellTyped_declared_tuple_deletion :
    let t : Ty := .named "Pair" (.tuple [.int, .value] (some ["n", "rest"]))
    let r : Row := ⟨[.int, .value], some ["n", "rest"]⟩
    let b : TupleBuilder := ⟨some r, .opened []⟩
    let calls : List (BuilderCall .tuple) :=
      [.edit (.insert (.int 1)), .edit (.insert (.int 2)), .edit (.delete (.int 1)),
        .edit (.insert (.str "a"))]
    let pair : Tuple := ⟨r, [.int 2, .str "a"]⟩
    TupleBuilder.ofType t = .ok b ∧ (∀ c ∈ calls, ∀ x ∈ c.values, x.WellTyped) ∧
      TupleBuilder.DeletionsFit r calls b ∧
      BuilderOf.done.Returns (builderAfter calls b) pair.toValue
        (⟨some r, .closed pair.toValue⟩ : TupleBuilder) ∧
      pair.toValue.WellTyped := by
  intro t r b calls pair
  have hint (n : Int) : (Value.int n).WellTyped := .leaf rfl
  have hstr (s : String) : (Value.str s).WellTyped := .leaf rfl
  have hb : TupleBuilder.ofType t = .ok b := rfl
  have hc : ∀ c ∈ calls, ∀ x ∈ c.values, x.WellTyped := by
    simp [calls, BuilderCall.values, Edit.values, hint, hstr]
  have hone : (Value.int 1 == .int 1) = true := by simp [BEq.beq, eqv]
  have htwo : (Value.int 2 == .int 1) = false := by simp [BEq.beq, eqv]
  have hfit : TupleBuilder.DeletionsFit r calls b := by
    have hinsert {b : TupleBuilder} {y : Value} : ∀ x, BuilderCall.edit (k := .tuple) (.insert y) =
        .edit (.delete x) → TupleBuilder.InPlace r b := by
      intro x hx
      cases hx
    refine ⟨hinsert, hinsert, fun _ _ => ?_, hinsert, trivial⟩
    rintro xs ⟨⟩
    change r.Places ([Value.int 2, .int 1].eraseP fun y => y == .int 1).reverse
    rw [eraseP_pair hone htwo]
    exact .cons (hint 2).hasTy .nil
  have hdone : BuilderOf.done.Returns (builderAfter calls b) pair.toValue
      (⟨some r, .closed pair.toValue⟩ : TupleBuilder) := by
    rw [TupleBuilder.builderAfter_delete_first rfl rfl hone htwo]
    rfl
  obtain ⟨s, hs, -, -, hwell, -⟩ := wellTyped_declared_tuple hb hc
  obtain rfl : r = s := congrArg₂ Row.mk (Ty.tuple.inj hs).1 (Ty.tuple.inj hs).2
  exact ⟨hb, hc, hfit, hdone, hwell hfit _ _ hdone⟩

/-- The text that moves to the first field, where a number belongs, is not checked again. -/
theorem not_wellTyped_declared_tuple :
    let t : Ty := .tuple [.int, .value] none
    let r : Row := ⟨[.int, .value], none⟩
    let b : TupleBuilder := ⟨some r, .opened []⟩
    let calls : List (BuilderCall .tuple) :=
      [.edit (.insert (.int 1)), .edit (.insert (.str "a")), .edit (.delete (.int 1)),
        .edit (.insert (.bool true))]
    let mixed : Tuple := ⟨r, [.str "a", .bool true]⟩
    TupleBuilder.ofType t = .ok b ∧ (∀ c ∈ calls, ∀ x ∈ c.values, x.WellTyped) ∧
      BuilderOf.done.Returns (builderAfter calls b) mixed.toValue
        (⟨some r, .closed mixed.toValue⟩ : TupleBuilder) ∧
      (Value.str "a").ty.leq .int = false ∧ ¬mixed.toValue.WellTyped := by
  intro t r b calls mixed
  have hint (n : Int) : (Value.int n).WellTyped := .leaf rfl
  have hstr (s : String) : (Value.str s).WellTyped := .leaf rfl
  have hbool (p : Bool) : (Value.bool p).WellTyped := .leaf rfl
  have hone : (Value.int 1 == .int 1) = true := by simp [BEq.beq, eqv]
  have htext : (Value.str "a" == .int 1) = false := by simp [BEq.beq, eqv]
  refine ⟨rfl, ?_, ?_, rfl, ?_⟩
  · simp [calls, BuilderCall.values, Edit.values, hint, hstr, hbool]
  · rw [TupleBuilder.builderAfter_delete_first rfl rfl hone htext]
    rfl
  · intro h
    cases wellTyped_tuple_iff.1 h with
    | cons h _ => exact absurd h.2 (by decide)

end ValueLattice

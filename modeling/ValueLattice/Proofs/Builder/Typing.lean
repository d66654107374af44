import ValueLattice.Proofs.Builder.Run
import ValueLattice.Proofs.Value.Collections
/-!
# Builders keep their elements typed

The type of a builder and its elements are updated apart. Here they are compared: at any time
each element of an open set, relation, list or map builder is of a type below the current one,
and the value is well-typed, with the current type as the type of its elements. Inferred types
only grow, so an element that was bounded once stays bounded.

* `SetBuilder.Typed`, `RelationBuilder.Typed`, `ListBuilder.Typed`, `MapBuilder.Typed`: what is
  kept;
* `SetBuilder.invariant_typed` and the like: every change keeps it, and so does the production
  of the value;
* `typed_builderAfter`: it holds after every sequence of calls.
-/

namespace ValueLattice

open Value

variable {k : BuilderKind}

/-- The builder would produce a value with the property `p`. -/
def BuilderOf.Yields (b : BuilderOf k) (p : Value → Prop) : Prop :=
  ∃ v b', done.Returns b v b' ∧ p v

theorem BuilderOf.yields_iff {b : BuilderOf k} {p : Value → Prop} :
    b.Yields p ↔ ∃ v, b.result = .ok v ∧ p v := by
  simp [Yields, returns_done]

theorem BuilderOf.Yields.close {b : BuilderOf k} {p : Value → Prop} {v : Value} (h : b.Yields p)
    (hv : b.result = .ok v) : (b.close v).Yields p := by
  obtain ⟨w, hw, hp⟩ := yields_iff.1 h
  obtain rfl := Except.ok.inj (hv.symm.trans hw)
  exact yields_iff.2 ⟨v, result_close b v, hp⟩

/-! ## Bounds -/

namespace Bound

variable {b : Bound} {t : Ty} {x y : Value} {xs ys : List Value}

/-- What a bound bounds it bounds for ever. -/
theorem hasTy_widen (h : y.HasTy b.current) (t : Ty) : y.HasTy (b.widen t).current := by
  cases b with
  | declared d => exact h
  | inferred s => exact h.lub_left t

/-- An element that passes the check is bounded. -/
theorem hasTy_of_check (h : b.check x.ty = .ok ()) (hx : x.WellTyped) :
    x.HasTy (b.widen x.ty).current := by
  cases b with
  | declared d =>
    by_cases hd : x.ty.leq d = true
    · exact ⟨hx, hd⟩
    · rw [check, if_neg hd] at h
      cases h
  | inferred s => exact hx.hasTy.lub_right s

/-- Elements with a new one among them. -/
theorem forall_hasTy_widen (hxs : ∀ y ∈ xs, y.HasTy b.current) (h : b.check x.ty = .ok ())
    (hx : x.WellTyped) (hys : ∀ y ∈ ys, y ∈ xs ∨ y = x) :
    ∀ y ∈ ys, y.HasTy (b.widen x.ty).current := by
  intro y hy
  rcases hys y hy with hy | rfl
  · exact hasTy_widen (hxs y hy) x.ty
  · exact hasTy_of_check h hx

end Bound

/-! ## Set builders -/

namespace SetBuilder

/-- The type of a set with elements of type `t`, or of the relation that takes its place. -/
def valueTy (t : Ty) : Ty :=
  match t.strip with
  | .tuple fs ls => .rel fs ls
  | _ => .set t

theorem ty_collect (t : Ty) (xs : List Value) : (collect t xs).ty = valueTy t := by
  unfold collect valueTy
  cases t.strip <;> rfl

/-- The elements of a set builder are bounded by its type, and so are those of its value. -/
structure Typed (b : SetBuilder) : Prop where
  elems : ∀ xs, b.stage = .opened xs → ∀ x ∈ xs, x.HasTy b.bound.current
  value : BuilderOf.Yields (k := .set) b fun v => v.WellTyped ∧ v.ty = valueTy b.bound.current

theorem typed_opened {b : Bound} {xs : List Value} (h : ∀ x ∈ xs, x.HasTy b.current) :
    Typed ⟨b, .opened xs⟩ where
  elems := by
    rintro ys ⟨⟩
    exact h
  value := BuilderOf.yields_iff.2 ⟨_, rfl, wellTyped_collect h, ty_collect b.current xs⟩

theorem invariant_typed : Invariant (k := .set) Value.WellTyped fun _ b => Typed b where
  edit := by
    intro es b e r h hgood ho
    cases Edit.succeeds_of_outcome ho with
    | setInsert hc =>
      exact typed_opened (Bound.forall_hasTy_widen (h.elems _ rfl) hc (hgood _ List.mem_cons_self)
        fun y => Table.mem_insert)
    | setDelete =>
      exact typed_opened fun y hy => h.elems _ rfl y (List.mem_of_mem_eraseP hy)
  close h hv := ⟨nofun, h.value.close hv⟩

end SetBuilder

/-! ## Relation builders -/

namespace RelationBuilder

/-- The elements of a relation builder are tuples bounded by its type, and so are those of its
value. The type is that of tuples as long as its elements are; only an inferred type is not, as
long as nothing was inserted. Insertions are looked up among the changes `es` made so far. -/
structure Typed (es : List (Edit .relation)) (b : RelationBuilder) : Prop where
  elems : ∀ xs, b.stage = .opened xs → ∀ x ∈ xs, x.HasTy b.bound.current
  tuples : ∀ xs, b.stage = .opened xs → ∀ x ∈ xs, ∃ (t : Tuple) (fs : List Ty)
    (ls : Option (List String)), x = t.toValue ∧ b.bound.current = .tuple fs ls ∧
      t.elems.length = fs.length
  void_iff : b.bound.current = .void ↔ b.bound.isInferred = true ∧ ∀ x, .insert x ∉ es
  tuple_of_ne_void : b.bound.current ≠ .void → ∃ fs ls, b.bound.current = .tuple fs ls
  value : BuilderOf.Yields (k := .relation) b fun v => v.WellTyped ∧
    (∀ fs ls, b.bound.current = .tuple fs ls → v.ty = .rel fs ls) ∧
    (b.bound.current = .void → v.ty = .rel [] none)

variable {es : List (Edit .relation)}

theorem typed_of_tuple {b : Bound} {fs : List Ty} {ls : Option (List String)} {xs : List Value}
    (hb : b.current = .tuple fs ls) (hes : b.isInferred = true → ∃ x, .insert x ∈ es)
    (h : ∀ x ∈ xs, x.HasTy b.current) : Typed es ⟨b, .opened xs⟩ where
  elems := by
    rintro ys ⟨⟩
    exact h
  tuples := by
    rintro ys ⟨⟩ x hx
    rw [hb] at h
    obtain ⟨t, rfl, -, helems⟩ := (h x hx).exists_tuple
    exact ⟨t, fs, ls, rfl, hb, helems.length_eq⟩
  void_iff := by
    rw [hb]
    refine ⟨nofun, fun ⟨hi, hnone⟩ => ?_⟩
    obtain ⟨x, hx⟩ := hes hi
    exact absurd hx (hnone x)
  tuple_of_ne_void _ := ⟨fs, ls, hb⟩
  value := by
    have hrow : RelationBuilder.row b = ⟨fs, ls⟩ := by rw [row, hb]
    refine BuilderOf.yields_iff.2 ⟨_, rfl, ?_, fun gs ms hg => ?_, fun hv => ?_⟩
    · rw [hrow]
      exact wellTyped_rel_iff.2 (hb ▸ h)
    · rw [hrow]
      cases hb.symm.trans hg
      rfl
    · cases hb.symm.trans hv

theorem typed_start (h : ∀ x, .insert x ∉ es) : Typed es (new .start) where
  elems := by
    rintro ys ⟨⟩
    exact nofun
  tuples := by
    rintro ys ⟨⟩
    exact nofun
  void_iff := ⟨fun _ => ⟨rfl, h⟩, fun _ => rfl⟩
  tuple_of_ne_void h := absurd rfl h
  value := BuilderOf.yields_iff.2 ⟨_, rfl, wellTyped_rel_iff.2 nofun, nofun, fun _ => rfl⟩

/-- An open builder is as it was made, or its type is that of tuples. -/
theorem Typed.start_or_tuple {b : RelationBuilder} (h : Typed es b) {xs : List Value}
    (hxs : b.stage = .opened xs) :
    b = new .start ∧ (∀ x, .insert x ∉ es) ∨
      ∃ fs ls, b.bound.current = .tuple fs ls ∧
        (b.bound.isInferred = true → ∃ x, .insert x ∈ es) := by
  obtain ⟨bound, stage⟩ := b
  obtain rfl : stage = .opened xs := hxs
  by_cases hvoid : bound.current = .void
  · left
    obtain ⟨hinf, hnone⟩ := h.void_iff.1 hvoid
    have hnil : xs = [] := by
      refine List.eq_nil_iff_forall_not_mem.2 fun x hx => ?_
      obtain ⟨t, fs, ls, -, htuple, -⟩ := h.tuples xs rfl x hx
      cases hvoid.symm.trans htuple
    subst hnil
    cases bound with
    | declared d => nomatch hinf
    | inferred t =>
      obtain rfl : t = .void := hvoid
      exact ⟨rfl, hnone⟩
  · right
    obtain ⟨fs, ls, hb⟩ := h.tuple_of_ne_void hvoid
    refine ⟨fs, ls, hb, fun hinf => ?_⟩
    by_contra hnone
    exact hvoid (h.void_iff.2 ⟨hinf, not_exists.1 hnone⟩)

/-- After a tuple is taken, the type is that of tuples. -/
theorem exists_tuple_widen {b : Bound} {gs : List Ty} {ms : Option (List String)}
    (hb : b = .start ∨ ∃ fs ls, b.current = .tuple fs ls)
    (h : checkArity b gs.length = .ok ()) :
    ∃ fs ls, (b.widen (.tuple gs ms)).current = .tuple fs ls := by
  rcases hb with rfl | ⟨fs, ls, hb⟩
  · exact ⟨gs, ms, Ty.lub_void_tuple⟩
  · cases b with
    | declared d => exact ⟨fs, ls, hb⟩
    | inferred t =>
      obtain rfl : t = .tuple fs ls := hb
      by_cases hlen : fs.length = gs.length
      · exact Ty.exists_lub_tuple hlen
      · rw [checkArity, if_neg hlen] at h
        nomatch h

theorem Typed.insert {b : RelationBuilder} {x : Value} {r : Effect RelationBuilder Unit}
    (h : Typed es b) (hx : x.WellTyped)
    (ho : Edit.outcome (k := .relation) (.insert x) b = .ok r) :
    Typed (es ++ [.insert x]) r.state := by
  cases Edit.succeeds_of_outcome ho with
  | @relationInsert b xs x t ht harity hc =>
    obtain rfl := eq_toValue_of_tuple? ht
    have hlen : t.elems.length = t.row.fields.length := (wellTyped_tuple_iff.1 hx).length_eq
    -- the first tuple makes the type one of tuples; the check of the length keeps it so
    have hb : b = .start ∨ ∃ fs ls, b.current = .tuple fs ls := by
      rcases h.start_or_tuple rfl with ⟨hstart, -⟩ | ⟨fs, ls, hb, -⟩
      · cases hstart
        exact .inl rfl
      · exact .inr ⟨fs, ls, hb⟩
    obtain ⟨fs, ls, hnew⟩ : ∃ fs ls, (b.widen t.row.toTuple).current = .tuple fs ls :=
      exists_tuple_widen hb (hlen ▸ harity)
    exact typed_of_tuple hnew (fun _ => ⟨t.toValue, by simp⟩)
      (Bound.forall_hasTy_widen (h.elems xs rfl) hc hx fun y => Table.mem_insert)

theorem Typed.delete {b : RelationBuilder} {x : Value} {r : Effect RelationBuilder Unit}
    (h : Typed es b) (ho : Edit.outcome (k := .relation) (.delete x) b = .ok r) :
    Typed (es ++ [.delete x]) r.state := by
  cases Edit.succeeds_of_outcome ho with
  | @relationDelete b xs x =>
    rcases h.start_or_tuple rfl with ⟨hstart, hnone⟩ | ⟨fs, ls, hb, hsome⟩
    · cases hstart
      exact typed_start (by simpa using hnone)
    · refine typed_of_tuple hb (fun hinf => ?_) fun y hy => ?_
      · obtain ⟨z, hz⟩ := hsome hinf
        exact ⟨z, List.mem_append_left _ hz⟩
      · exact h.elems xs rfl y (List.mem_of_mem_eraseP hy)

theorem invariant_typed : Invariant (k := .relation) Value.WellTyped Typed where
  edit := by
    intro es b e r h hgood ho
    cases e with
    | insert x => exact h.insert (hgood x List.mem_cons_self) ho
    | delete x => exact h.delete ho
  close h hv := ⟨nofun, nofun, h.void_iff, h.tuple_of_ne_void, h.value.close hv⟩

end RelationBuilder

/-! ## List builders -/

namespace ListBuilder

/-- The elements of a list builder are bounded by its type, and so are those of its value. -/
structure Typed (b : ListBuilder) : Prop where
  elems : ∀ xs, b.stage = .opened xs → ∀ x ∈ xs, x.HasTy b.bound.current
  value : BuilderOf.Yields (k := .list) b fun v => v.WellTyped ∧ v.ty = .list b.bound.current

theorem typed_opened {b : Bound} {xs : List Value} (h : ∀ x ∈ xs, x.HasTy b.current) :
    Typed ⟨b, .opened xs⟩ where
  elems := by
    rintro ys ⟨⟩
    exact h
  value := BuilderOf.yields_iff.2 ⟨_, rfl, wellTyped_list_iff.2 h, rfl⟩

theorem invariant_typed : Invariant (k := .list) Value.WellTyped fun _ b => Typed b where
  edit := by
    intro es b e r h hgood ho
    -- every change that takes an element checks it first
    have taken {c : Bound} {x : Value} {xs ys : List Value} (hb : b = ⟨c, .opened xs⟩)
        (hx : x.WellTyped) (hc : c.check x.ty = .ok ()) (hys : ∀ y ∈ ys, y ∈ xs ∨ y = x) :
        Typed ⟨c.widen x.ty, .opened ys⟩ := by
      subst hb
      exact typed_opened (Bound.forall_hasTy_widen (h.elems xs rfl) hc hx hys)
    cases Edit.succeeds_of_outcome ho with
    | listInsert hc | listAppend hc =>
      refine taken rfl (hgood _ List.mem_cons_self) hc fun y hy => ?_
      simpa using hy
    | listInsertAt hi hc =>
      exact taken rfl (hgood _ List.mem_cons_self) hc fun y hy =>
        ((List.mem_insertIdx hi).1 hy).symm
    | listReplaceAt hi hc =>
      exact taken rfl (hgood _ List.mem_cons_self) hc fun y => List.mem_or_eq_of_mem_set
    | listDelete =>
      exact typed_opened fun y hy => h.elems _ rfl y (List.mem_of_mem_eraseP hy)
  close h hv := ⟨nofun, h.value.close hv⟩

end ListBuilder

/-! ## Map builders -/

namespace MapBuilder

/-- The keys and the values of a map builder are bounded by its types, and so are those of the
map that it produces. -/
structure Typed (b : MapBuilder) : Prop where
  entries : ∀ es, b.stage = .opened es → ∀ e ∈ es, e.1.HasTy b.key.current ∧ e.2.HasTy b.val.current
  value : BuilderOf.Yields (k := .map) b fun v =>
    v.WellTyped ∧ v.ty = .map b.key.current b.val.current

theorem typed_opened {key val : Bound} {es : List (Value × Value)}
    (h : ∀ e ∈ es, e.1.HasTy key.current ∧ e.2.HasTy val.current) :
    Typed ⟨key, val, .opened es⟩ where
  entries := by
    rintro fs ⟨⟩
    exact h
  value := BuilderOf.yields_iff.2 ⟨_, rfl, wellTyped_map_iff.2 h, rfl⟩

theorem Typed.put {b c : Bound} {es : List (Value × Value)} {x y : Value}
    (h : Typed ⟨b, c, .opened es⟩) (hx : x.WellTyped) (hy : y.WellTyped)
    (hb : b.check x.ty = .ok ()) (hc : c.check y.ty = .ok ()) :
    Typed ⟨b.widen x.ty, c.widen y.ty, .opened (EntryTable.put es x y)⟩ := by
  have hold : ∀ e ∈ es, e.1.HasTy b.current ∧ e.2.HasTy c.current := h.entries es rfl
  exact typed_opened (EntryTable.forall_put (p := fun z => z.HasTy _) (q := fun z => z.HasTy _)
    (fun e he => ⟨Bound.hasTy_widen (hold e he).1 x.ty, Bound.hasTy_widen (hold e he).2 y.ty⟩)
    (Bound.hasTy_of_check hb hx) (Bound.hasTy_of_check hc hy))

theorem invariant_typed : Invariant (k := .map) Value.WellTyped fun _ b => Typed b where
  edit := by
    intro es b e r h hgood ho
    cases Edit.succeeds_of_outcome ho with
    | @mapInsert _ _ _ x y ts _ hx hy =>
      have hpair : List.Forall₂ HasTy [x, y] ts :=
        wellTyped_tuple_iff.1 (hgood _ List.mem_cons_self)
      obtain ⟨-, hwell⟩ := forall₂_hasTy_iff.1 hpair
      exact h.put (hwell x (by simp)) (hwell y (by simp)) hx hy
    | @mapPut _ _ _ x y hx hy =>
      obtain ⟨hkey, hrest⟩ := List.forall_mem_cons.1 hgood
      exact h.put hkey (hrest y List.mem_cons_self) hx hy
    | mapDelete =>
      exact typed_opened fun e he => h.entries _ rfl e (List.mem_of_mem_eraseP he)
  close h hv := ⟨nofun, h.value.close hv⟩

end MapBuilder

/-! ## Runs -/

/-- **Builders keep their elements typed.** Whatever is done with well-typed values to a set,
relation, list or map builder, from the start on: while it is open its elements are bounded by its
current type, and it produces a well-typed value of that type. -/
theorem typed_builderAfter :
    (∀ (b : BuilderOf .set) (calls : List (BuilderCall .set)), Fresh b →
      (∀ c ∈ calls, ∀ x ∈ c.values, x.WellTyped) → SetBuilder.Typed (builderAfter calls b)) ∧
    (∀ (b : BuilderOf .relation) (calls : List (BuilderCall .relation)), Fresh b →
      (∀ c ∈ calls, ∀ x ∈ c.values, x.WellTyped) →
      RelationBuilder.Typed (effects calls b) (builderAfter calls b)) ∧
    (∀ (b : BuilderOf .list) (calls : List (BuilderCall .list)), Fresh b →
      (∀ c ∈ calls, ∀ x ∈ c.values, x.WellTyped) → ListBuilder.Typed (builderAfter calls b)) ∧
    (∀ (b : BuilderOf .map) (calls : List (BuilderCall .map)), Fresh b →
      (∀ c ∈ calls, ∀ x ∈ c.values, x.WellTyped) → MapBuilder.Typed (builderAfter calls b)) := by
  refine ⟨fun b calls hb hc => ?_, fun b calls hb hc => ?_, fun b calls hb hc => ?_,
    fun b calls hb hc => ?_⟩
  · refine SetBuilder.invariant_typed.run_start hc ?_
    cases hb
    exact SetBuilder.typed_opened nofun
  · refine RelationBuilder.invariant_typed.run_start hc ?_
    cases hb with
    | relation => exact RelationBuilder.typed_start nofun
    | relationOf r => exact RelationBuilder.typed_of_tuple rfl nofun nofun
  · refine ListBuilder.invariant_typed.run_start hc ?_
    cases hb
    exact ListBuilder.typed_opened nofun
  · refine MapBuilder.invariant_typed.run_start hc ?_
    cases hb
    · exact MapBuilder.typed_opened nofun
    · exact MapBuilder.typed_opened nofun

theorem typed_builderAfter_small :
    let pair : Value := .tuple [.int, .str] none [.int 1, .str "a"]
    SetBuilder.Typed (builderAfter (k := .set)
      [.edit (.insert (.int 1)), .edit (.delete (.int 1)), .done] (SetBuilder.new .start)) ∧
    RelationBuilder.Typed [.insert pair] (builderAfter (k := .relation)
      [.insertAll [pair, .int 2]] (RelationBuilder.new .start)) ∧
    ListBuilder.Typed (builderAfter (k := .list)
      [.edit (.append (.int 1)), .edit (.replaceAt 0 (.str "a"))]
      (ListBuilder.new (.declared .int))) ∧
    MapBuilder.Typed (builderAfter (k := .map)
      [.edit (.put (.int 1) (.str "a")), .edit (.insert pair)]
      (MapBuilder.new .start .start)) := by
  intro pair
  have hint (n : Int) : (Value.int n).WellTyped := .leaf rfl
  have hstr (s : String) : (Value.str s).WellTyped := .leaf rfl
  have hpair : pair.WellTyped :=
    wellTyped_tuple_iff.2 (.cons (hint 1).hasTy (.cons (hstr "a").hasTy .nil))
  obtain ⟨hset, hrel, hlist, hmap⟩ := typed_builderAfter
  refine ⟨hset _ _ (.set .inferred) ?_, hrel _ [.insertAll [pair, .int 2]] .relation ?_,
    hlist _ _ (.list (.declared .int)) ?_, hmap _ _ .map ?_⟩ <;>
    simp [BuilderCall.values, Edit.values, hint, hstr, hpair]

end ValueLattice

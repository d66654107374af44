import ValueLattice.Proofs.Builder.Inference
import ValueLattice.Proofs.Builder.Typing
/-!
# Sets and relations

A collection is a relation when its element type is a tuple type. Where that type is inferred it is
a join, and a join of types of values is a tuple type exactly when there is a value and all are
tuples of one length: an upper bound that is a tuple type has only tuple types of its own length
below it, and tuple types of one length have such a bound. So the choice is a matter of the values
that were inserted, in whatever order, and not of those that are left.

* `Ty.IsJoinOf.isTuple_iff`, `isTuple_joined_iff`: the joins that are tuple types;
* `Value.IsRelationIff`, `SetBuilder.yields_builderAfter`: what a set builder produces;
* `BuilderCall.mem_log_iff`, `SetBuilder.reports_iff`: the calls that report an inferred relation;
* `set_or_relation`: the choice of builders with inferred and declared types, and of the
  construction at once.
-/

namespace ValueLattice

open Value

/-! ## Tuple types as bounds -/

namespace Ty

variable {t u : Ty} {ts us fs gs : List Ty} {ls ms : Option (List String)} {n : Nat}

/-- The type is that of tuples of length `n`, aliases aside. -/
def IsTupleOf (n : Nat) (t : Ty) : Prop := ∃ fs ls, t.strip = tuple fs ls ∧ fs.length = n

theorem isTuple_iff_strip : t.isTuple = true ↔ ∃ fs ls, t.strip = tuple fs ls := by
  unfold isTuple
  cases t.strip <;> simp

theorem isTuple_iff : t.isTuple = true ↔ ∃ n, t.IsTupleOf n := by
  rw [isTuple_iff_strip]
  constructor
  · rintro ⟨fs, ls, h⟩
    exact ⟨fs.length, fs, ls, h, rfl⟩
  · rintro ⟨n, fs, ls, h, -⟩
    exact ⟨fs, ls, h⟩

/-- Below a tuple type there are tuple types of its length, and the bottom. -/
theorem IsTupleOf.of_leq (ht : t.IsTupleOf n) (h : leq u t = true) :
    u.isVoid = true ∨ u.IsTupleOf n := by
  obtain ⟨gs, ms, hgs, rfl⟩ := ht
  rw [leq_iff_below, hgs] at h
  unfold isVoid IsTupleOf
  generalize u.strip = s at h ⊢
  cases h with
  | bottom => exact .inl rfl
  | tuple h => exact .inr ⟨_, _, rfl, leqAll_length h⟩

/-- Above a tuple type there are tuple types of its length, and the top. -/
theorem IsTupleOf.of_geq (hu : u.IsTupleOf n) (h : leq u t = true) :
    t.strip = value ∨ t.IsTupleOf n := by
  obtain ⟨fs, ls, hfs, rfl⟩ := hu
  rw [leq_iff_below, hfs] at h
  unfold IsTupleOf
  generalize t.strip = s at h ⊢
  cases h with
  | top => exact .inl rfl
  | tuple h => exact .inr ⟨_, _, rfl, (leqAll_length h).symm⟩

theorem leqAll_replicate_value (fs : List Ty) :
    leqAll fs (List.replicate fs.length value) = true := by
  induction fs with
  | nil => rfl
  | cons f fs ih => simp only [List.length_cons, List.replicate_succ, leqAll, leq_value, ih,
      Bool.and_self]

theorem IsTupleOf.leq_values (ht : t.IsTupleOf n) :
    leq t (tuple (List.replicate n value) none) = true := by
  obtain ⟨fs, ls, hfs, rfl⟩ := ht
  rw [← leq_strip_left, hfs]
  exact leq_of_below (.tuple (leqAll_replicate_value fs))

/-- A least upper bound of types other than the bottom is a tuple type exactly when there is one
among them and all are tuple types of one length. -/
theorem IsJoinOf.isTuple_iff (h : IsJoinOf ts t) (hts : ∀ u ∈ ts, u.isVoid = false) :
    t.isTuple = true ↔ ts ≠ [] ∧ ∃ n, ∀ u ∈ ts, u.IsTupleOf n := by
  rw [Ty.isTuple_iff]
  constructor
  · rintro ⟨n, ht⟩
    refine ⟨?_, n, fun u hu => ?_⟩
    · rintro rfl
      have hvoid : leq t void = true := h.least void nofun
      obtain ⟨gs, ms, hgs, -⟩ := ht
      rw [leq_iff_below, hgs] at hvoid
      nomatch hvoid
    · rcases ht.of_leq (h.above u hu) with hvoid | htuple
      · rw [hts u hu] at hvoid
        nomatch hvoid
      · exact htuple
  · rintro ⟨hne, n, hn⟩
    obtain ⟨u, hu⟩ := List.exists_mem_of_ne_nil ts hne
    have hbound : leq t (tuple (List.replicate n value) none) = true :=
      h.least _ fun v hv => (hn v hv).leq_values
    rcases (hn u hu).of_geq (h.above u hu) with htop | htuple
    · rw [leq_iff_below, htop] at hbound
      nomatch hbound
    · exact ⟨n, htuple⟩

/-- Equivalent types are tuple types together. -/
theorem isTuple_eq_of_equivalent (h : equivalent t u = true) : t.isTuple = u.isTuple := by
  obtain ⟨htu, hut⟩ := equivalent_iff.1 h
  rw [Bool.eq_iff_iff, isTuple_iff, isTuple_iff]
  have hmove {a b : Ty} (hab : leq a b = true) (hba : leq b a = true) :
      (∃ n, a.IsTupleOf n) → ∃ n, b.IsTupleOf n := by
    rintro ⟨n, ha⟩
    rcases ha.of_geq hab with htop | hb
    · obtain ⟨fs, ls, hfs, -⟩ := ha
      rw [leq_iff_below, htop, hfs] at hba
      nomatch hba
    · exact ⟨n, hb⟩
  exact ⟨hmove htu hut, hmove hut htu⟩

end Ty

/-! ## Values that make up a relation -/

/-- What a tuple and a node have however they were made, and whatever their contents: a tuple has
as many elements as its type has fields, and a node has the type of nodes or of a constructor.
Well-typed values are formed (`WellTyped.formed`), but the elements of a formed set, say, need not
be below its type. -/
def Value.Formed : Value → Prop
  | tuple fs _ xs => xs.length = fs.length
  | node _ t .. => t = .node ∨ ∃ n o ps fs ls, t = .ctor n o ps fs ls
  | _ => True

/-- The value is a tuple of `n` elements. -/
def Value.IsTupleOf (n : Nat) (x : Value) : Prop := ∃ t : Tuple, x.tuple? = some t ∧ t.arity = n

/-- There is a value, and all are tuples of one length. -/
def Tabular (xs : List Value) : Prop := xs ≠ [] ∧ ∃ n, ∀ x ∈ xs, x.IsTupleOf n

variable {x : Value} {xs ys : List Value} {n : Nat}

theorem Value.WellTyped.formed (h : x.WellTyped) : x.Formed := by
  cases h with
  | leaf h => cases x <;> trivial
  | tuple h => exact (List.length_map Value.ty).symm.trans (Ty.leqAll_length h)
  | plain => exact .inl rfl
  | constructed => exact .inr ⟨_, _, _, _, _, rfl⟩
  | _ => trivial

theorem Value.Formed.isVoid_ty (h : x.Formed) : x.ty.isVoid = false := by
  cases x with
  | node g t l i xs j as => obtain rfl | ⟨n, o, ps, fs, ls, rfl⟩ := h <;> rfl
  | _ => rfl

theorem Value.Formed.isTupleOf_ty_iff (h : x.Formed) : x.ty.IsTupleOf n ↔ x.IsTupleOf n := by
  have hnone (hty : ∀ fs ls, x.ty.strip ≠ .tuple fs ls) (hx : x.tuple? = none) :
      x.ty.IsTupleOf n ↔ x.IsTupleOf n := by
    constructor
    · rintro ⟨fs, ls, hfs, -⟩
      exact absurd hfs (hty fs ls)
    · rintro ⟨t, ht, -⟩
      rw [hx] at ht
      nomatch ht
  cases x with
  | tuple fs ls xs =>
    constructor
    · rintro ⟨_, _, ⟨⟩, hn⟩
      exact ⟨⟨⟨fs, ls⟩, xs⟩, rfl, h.trans hn⟩
    · rintro ⟨_, ⟨⟩, hn⟩
      exact ⟨fs, ls, rfl, h.symm.trans hn⟩
  | node g t l i xs j as =>
    refine hnone (fun fs ls => ?_) rfl
    obtain rfl | ⟨n, o, ps, gs, ms, rfl⟩ := h <;> exact nofun
  | _ => exact hnone nofun rfl

/-- The join of the types of values is a tuple type exactly when the values make up a relation. -/
theorem isTuple_joined_iff (h : ∀ x ∈ xs, x.Formed) : (joined xs).isTuple = true ↔ Tabular xs := by
  have hjoin : Ty.IsJoinOf (xs.map Value.ty) (joined xs) := Ty.isJoinOf_foldl_lub _
  rw [hjoin.isTuple_iff (List.forall_mem_map.2 fun x hx => (h x hx).isVoid_ty)]
  unfold Tabular
  rw [ne_eq, List.map_eq_nil_iff]
  refine and_congr_right fun _ => exists_congr fun n => ?_
  rw [List.forall_mem_map]
  exact forall₂_congr fun x hx => (h x hx).isTupleOf_ty_iff

theorem isTuple_joined_eq_of_perm (h : xs.Perm ys) : (joined xs).isTuple = (joined ys).isTuple := by
  refine Ty.isTuple_eq_of_equivalent ?_
  exact (Ty.isJoinOf_foldl_lub _).equivalent_of_perm (Ty.isJoinOf_foldl_lub _) (h.map Value.ty)

/-! ## The value of a set builder -/

/-- The value is a relation if `p` holds, and else a set. -/
def Value.IsRelationIff (p : Prop) (v : Value) : Prop :=
  (v.rel?.isSome = true ↔ p) ∧ (v.set?.isSome = true ↔ ¬p)

theorem isRelationIff_collect (t : Ty) (xs : List Value) :
    (collect t xs).IsRelationIff (t.isTuple = true) := by
  unfold Value.IsRelationIff collect Ty.isTuple
  cases t.strip <;> simp [Value.rel?, Value.set?, Relation.toValue, TypedSet.toValue]

theorem isRelationIff_collectValues (xs : List Value) :
    (collectValues xs).val.IsRelationIff ((joined xs).isTuple = true) := by
  rw [collectValues_val]
  exact isRelationIff_collect (joined xs) (Table.ofList xs)

namespace SetBuilder

/-- The values that calls insert into a set builder with an inferred type, also those that they
remove again. -/
def inserted (calls : List (BuilderCall .set)) : List Value :=
  Slot.setElem.admitted (effects calls (new .start))

/-- A set builder produces a relation exactly when its current type is a tuple type. -/
theorem invariant_yields : Invariant (k := .set) (fun _ => True)
    fun _ b => b.Yields (IsRelationIff (b.bound.current.isTuple = true)) where
  edit := by
    intro es b e r _ _ ho
    cases Edit.succeeds_of_outcome ho with
    | setInsert | setDelete => exact BuilderOf.yields_iff.2 ⟨_, rfl, isRelationIff_collect _ _⟩
  close h hv := h.close hv

theorem yields_builderAfter (b : Bound) (calls : List (BuilderCall .set)) :
    (builderAfter calls (SetBuilder.new b : BuilderOf .set)).Yields (IsRelationIff
      ((Slot.setElem.current (builderAfter calls (SetBuilder.new b))).isTuple = true)) :=
  invariant_yields.run_start (fun _ _ _ _ => trivial)
    (BuilderOf.yields_iff.2 ⟨_, rfl, isRelationIff_collect _ _⟩)

/-- A builder with an inferred type takes everything while it is open. -/
theorem exists_outcome (e : Edit .set) (t : Ty) (xs : List Value) : ∃ u ys log,
    e.outcome (⟨.inferred t, .opened xs⟩ : SetBuilder) =
      .ok ⟨(), ⟨.inferred u, .opened ys⟩, log⟩ := by
  cases e with
  | insert x => exact ⟨_, _, _, rfl⟩
  | delete x => exact ⟨_, _, _, rfl⟩

theorem effects_edits (es : List (Edit .set)) (t : Ty) (xs : List Value) :
    effects (es.map .edit) (⟨.inferred t, .opened xs⟩ : SetBuilder) = es := by
  induction es generalizing t xs with
  | nil => rfl
  | cons e es ih =>
    obtain ⟨u, ys, log, ho⟩ := exists_outcome e t xs
    rw [List.map_cons, effects, BuilderCall.effects, e.start_run, BuilderCall.start_edit, ho]
    exact congrArg (e :: ·) (ih u ys)

theorem insertEffects_eq (ys : List Value) (t : Ty) (xs : List Value) :
    insertEffects (k := .set) ys (⟨.inferred t, .opened xs⟩ : SetBuilder) = ys.map .insert := by
  induction ys generalizing t xs with
  | nil => rfl
  | cons y ys ih =>
    obtain ⟨u, zs, log, ho⟩ := exists_outcome (.insert y) t xs
    rw [insertEffects_of_ok ho, List.map_cons]
    exact congrArg (Edit.insert y :: ·) (ih u zs)

end SetBuilder

/-! ## Reports of inferred relations -/

/-- Whether a call is one for the value. -/
def BuilderCall.asksValue {k : BuilderKind} : BuilderCall k → Bool
  | edit _ | insertAll _ => false
  | done | finish => true

theorem BuilderCall.answer_of_asksValue {k : BuilderKind} {c : BuilderCall k} {b : BuilderOf k}
    {v : Value} (hc : c.asksValue = true) (hv : b.result = .ok v) :
    (c.run.start b).val.1 = .ok (some v) := by
  have hdone : ((done : BuilderCall k).run.start b).val.1 = .ok (some v) := by
    rw [start_done, hv]
    rfl
  cases c with
  | edit e => nomatch hc
  | insertAll xs => nomatch hc
  | done => exact hdone
  | finish => exact hdone

section Reports

variable {k : BuilderKind} {t u : Ty}

theorem Bound.inferredRelation_notMem_events (kind : BuilderKind) (b : Bound) :
    .inferredRelation t ∉ b.events kind u := by
  cases b with
  | declared d => exact List.not_mem_nil
  | inferred s =>
    unfold events Ty.join
    split <;> simp

/-- No change reports an inferred relation. -/
theorem Edit.inferredRelation_notMem_log {e : Edit k} {b : BuilderOf k}
    {r : Effect (BuilderOf k) Unit} (h : e.outcome b = .ok r) : .inferredRelation t ∉ r.log := by
  rw [(Slot.taking_of_outcome h).log]
  intro hmem
  obtain ⟨s, -, hs⟩ := List.mem_flatMap.1 hmem
  unfold Slot.events at hs
  cases hx : s.taken e with
  | none =>
    rw [hx] at hs
    nomatch hs
  | some x =>
    rw [hx] at hs
    exact Bound.inferredRelation_notMem_events _ _ hs

theorem BuilderCall.inferredRelation_notMem_insertRun (xs : List Value) (b : BuilderOf k) :
    .inferredRelation t ∉ (insertRun xs b).log := by
  induction xs generalizing b with
  | nil => exact List.not_mem_nil
  | cons x xs ih =>
    rw [insertRun]
    cases ho : (Edit.insert x).outcome b with
    | error f => exact List.not_mem_nil
    | ok r => exact List.not_mem_append (Edit.inferredRelation_notMem_log ho) (ih r.state)

/-- Only the production of the value reports an inferred relation. -/
theorem BuilderCall.mem_log_iff {c : BuilderCall k} {b : BuilderOf k} :
    .inferredRelation t ∈ (c.run.start b).log ↔
      c.asksValue = true ∧ .inferredRelation t ∈ b.doneEvents := by
  have hdone : .inferredRelation t ∈ ((done : BuilderCall k).run.start b).log ↔
      true = true ∧ .inferredRelation t ∈ b.doneEvents := by
    rw [start_done, eq_self_iff_true, true_and]
    cases k with
    | set => obtain ⟨bound, xs | v⟩ := b <;> rfl
    | _ =>
      -- these report nothing, whether or not there is a value
      cases b.result <;> rfl
  have hnot {c : BuilderCall k} (hc : c.asksValue = false)
      (h : .inferredRelation t ∉ (c.run.start b).log) : .inferredRelation t ∈ (c.run.start b).log ↔
        c.asksValue = true ∧ .inferredRelation t ∈ b.doneEvents := by
    rw [hc]
    exact ⟨fun hmem => absurd hmem h, fun ⟨hask, _⟩ => nomatch hask⟩
  cases c with
  | edit e =>
    refine hnot rfl ?_
    rw [start_edit]
    cases ho : e.outcome b with
    | error f => exact List.not_mem_nil
    | ok r => exact Edit.inferredRelation_notMem_log ho
  | insertAll xs =>
    refine hnot rfl ?_
    rw [start_insertAll]
    split
    · exact List.not_mem_nil
    · exact inferredRelation_notMem_insertRun xs b
  | done => exact hdone
  | finish => exact hdone

end Reports

namespace SetBuilder

variable {b : BuilderOf .set}

theorem isClosed_of_outcome {e : Edit .set} {r : Effect SetBuilder Unit}
    (h : e.outcome b = .ok r) : BuilderOf.isClosed (k := .set) r.state = b.isClosed := by
  cases Edit.succeeds_of_outcome h with
  | setInsert | setDelete => rfl

theorem isClosed_insertRun (xs : List Value) (b : BuilderOf .set) :
    (BuilderCall.insertRun xs b).val.2.isClosed = b.isClosed := by
  induction xs generalizing b with
  | nil => rfl
  | cons x xs ih =>
    rw [BuilderCall.insertRun]
    cases ho : (Edit.insert x).outcome b with
    | error f => rfl
    | ok r => exact (ih r.state).trans (isClosed_of_outcome ho)

/-- A set builder always has a value, so the calls for it, and they alone, close the builder. -/
theorem isClosed_start (c : BuilderCall .set) (b : BuilderOf .set) :
    (c.run.start b).val.2.isClosed = (b.isClosed || c.asksValue) := by
  have hdone : ((BuilderCall.done : BuilderCall .set).run.start b).val.2.isClosed =
      (b.isClosed || true) := by
    rw [BuilderCall.start_done, Bool.or_true]
    obtain ⟨bound, xs | v⟩ := b <;> rfl
  cases c with
  | edit e =>
    rw [BuilderCall.start_edit, BuilderCall.asksValue, Bool.or_false]
    cases ho : e.outcome b with
    | error f => rfl
    | ok r => exact isClosed_of_outcome ho
  | insertAll xs =>
    rw [BuilderCall.start_insertAll, BuilderCall.asksValue, Bool.or_false]
    split
    · rfl
    · exact isClosed_insertRun xs b
  | done => exact hdone
  | finish => exact hdone

theorem isClosed_builderAfter (calls : List (BuilderCall .set)) (b : BuilderOf .set) :
    (builderAfter calls b).isClosed = (b.isClosed || calls.any BuilderCall.asksValue) := by
  induction calls generalizing b with
  | nil => exact (Bool.or_false b.isClosed).symm
  | cons c cs ih => rw [builderAfter_cons, ih, isClosed_start, List.any_cons, Bool.or_assoc]

theorem mem_doneEvents_iff {t : Ty} : .inferredRelation t ∈ b.doneEvents ↔
    b.isClosed = false ∧ b.bound.isInferred = true ∧ b.bound.current.isTuple = true ∧
      t = b.bound.current := by
  rw [BuilderOf.doneEvents, relationEvent]
  cases hclosed : b.isClosed <;> cases hinf : b.bound.isInferred <;>
    cases htuple : b.bound.current.isTuple <;> simp [Logged.event]

/-- A relation is reported by the first call for the value, if the type of the builder is inferred
and the value is a relation. -/
theorem reports_iff (bd : Bound) (calls : List (BuilderCall .set)) (c : BuilderCall .set) (t : Ty) :
    let b : BuilderOf .set := builderAfter calls (SetBuilder.new bd)
    .inferredRelation t ∈ (c.run.start b).log ↔
      c.asksValue = true ∧ (∀ d ∈ calls, d.asksValue = false) ∧ bd.isInferred = true ∧
        t = Slot.setElem.current b ∧
        ∃ v, (c.run.start b).val.1 = .ok (some v) ∧ v.rel?.isSome = true := by
  intro b
  obtain ⟨v, hv, hrel, -⟩ := BuilderOf.yields_iff.1 (yields_builderAfter bd calls)
  have hopen : b.isClosed = false ↔ ∀ d ∈ calls, d.asksValue = false := by
    have hnew : BuilderOf.isClosed (k := .set) (SetBuilder.new bd) = false := rfl
    rw [isClosed_builderAfter, hnew, Bool.false_or, List.any_eq_false]
    simp only [Bool.not_eq_true]
  have hinf : b.bound.isInferred = bd.isInferred := by
    change (Slot.setElem.bound b).isInferred = _
    rw [Slot.bound_builderAfter, Bound.isInferred_widenAll]
    rfl
  rw [BuilderCall.mem_log_iff, mem_doneEvents_iff, hopen, hinf]
  constructor
  · rintro ⟨hask, hfirst, hbd, htuple, ht⟩
    exact ⟨hask, hfirst, hbd, ht, v, BuilderCall.answer_of_asksValue hask hv, hrel.2 htuple⟩
  · rintro ⟨hask, hfirst, hbd, ht, w, hw, hwrel⟩
    obtain ⟨⟩ := (BuilderCall.answer_of_asksValue hask hv).symm.trans hw
    exact ⟨hask, hfirst, hbd, hrel.1 hwrel, ht⟩

end SetBuilder

/-! ## Choice and reports -/

theorem BuilderOf.doneEvents_of_ne_set {k : BuilderKind} (hk : k ≠ .set) (b : BuilderOf k) :
    b.doneEvents = [] := by
  cases k with
  | set => exact absurd rfl hk
  | _ => rfl

theorem inferredRelation_notMem_collectValues (t : Ty) (xs : List Value) :
    .inferredRelation t ∉ (collectValues xs).log := by
  have hjoin (us : List Ty) (s : Ty) : .inferredRelation t ∉ (Ty.joinAll s us).log := by
    induction us generalizing s with
    | nil => exact List.not_mem_nil
    | cons u us ih =>
      refine List.not_mem_append ?_ (ih (s.lub u))
      simp [Ty.join]
  exact List.not_mem_append (hjoin _ _) List.not_mem_nil

theorem Collector.mem_record_iff {d : Collector} {w : Widening} {log : List Widening} :
    w ∈ (d.record log).events ↔ w ∈ d.events ∨ d.enabled = true ∧ w ∈ log := by
  unfold record
  cases d.enabled <;> simp

/-- **Set or relation.** A set builder with an inferred type produces a relation exactly when some
value was ever inserted and all that were, also those deleted since, are tuples of one length. This
asks of the values only that they are formed, as all well-typed values are. With a declared type the
builder produces a relation exactly when that is a tuple type. The order of the insertions has no
part in it, and the collection of the same values at once makes the same choice. A collector
receives the report of an inferred relation only while it is enabled, from the first call for the
value of a set builder with an inferred type, and only if that value is a relation. -/
theorem set_or_relation :
    (∀ x : Value, x.WellTyped → x.Formed) ∧
    (∀ calls : List (BuilderCall .set),
      (∀ x ∈ SetBuilder.inserted calls, x.Formed) →
      (builderAfter calls (SetBuilder.new .start : BuilderOf .set)).Yields
        (IsRelationIff (Tabular (SetBuilder.inserted calls)))) ∧
    (∀ es : List (Edit .set), effects (es.map .edit) (SetBuilder.new .start) = es) ∧
    (∀ xs, effects (k := .set) [.insertAll xs] (SetBuilder.new .start) = xs.map .insert) ∧
    (∀ (t : Ty) (calls : List (BuilderCall .set)),
      (builderAfter calls (SetBuilder.new (.declared t) : BuilderOf .set)).Yields
        (IsRelationIff (∃ fs ls, t.strip = .tuple fs ls))) ∧
    (∀ (calls : List (BuilderCall .set)) (xs : List Value),
      (SetBuilder.inserted calls).Perm xs →
      (builderAfter calls (SetBuilder.new .start : BuilderOf .set)).Yields
        (IsRelationIff ((joined xs).isTuple = true)) ∧
      (collectValues xs).val.IsRelationIff ((joined xs).isTuple = true)) ∧
    (∀ (d : Collector) (bd : Bound) (calls : List (BuilderCall .set)) (c : BuilderCall .set)
      (t : Ty),
      let b : BuilderOf .set := builderAfter calls (SetBuilder.new bd)
      .inferredRelation t ∈ (d.record (c.run.start b).log).events ↔
        .inferredRelation t ∈ d.events ∨ d.enabled = true ∧ c.asksValue = true ∧
          (∀ c' ∈ calls, c'.asksValue = false) ∧ bd.isInferred = true ∧
          t = Slot.setElem.current b ∧
          ∃ v, (c.run.start b).val.1 = .ok (some v) ∧ v.rel?.isSome = true) ∧
    (∀ {k : BuilderKind} (b : BuilderOf k) (c : BuilderCall k) (t : Ty), k ≠ .set →
      .inferredRelation t ∉ (c.run.start b).log) ∧
    ∀ (t : Ty) (xs : List Value), .inferredRelation t ∉ (collectValues xs).log := by
  have hcurrent (calls : List (BuilderCall .set)) :
      Slot.setElem.current (builderAfter calls (SetBuilder.new .start)) =
        joined (SetBuilder.inserted calls) :=
    Slot.current_of_start rfl calls
  refine ⟨fun _ => WellTyped.formed, fun calls hformed => ?_,
    fun es => SetBuilder.effects_edits es .void [], fun xs => ?_, fun t calls => ?_,
    fun calls xs hperm => ⟨?_, isRelationIff_collectValues xs⟩, fun d bd calls c t => ?_,
    fun b c t hk => ?_, inferredRelation_notMem_collectValues⟩
  · have hyields := SetBuilder.yields_builderAfter .start calls
    rw [hcurrent] at hyields
    rwa [propext (isTuple_joined_iff hformed)] at hyields
  · rw [effects, effects, List.append_nil]
    exact SetBuilder.insertEffects_eq xs .void []
  · have hyields := SetBuilder.yields_builderAfter (.declared t) calls
    rwa [Slot.current_of_declared rfl, propext Ty.isTuple_iff_strip] at hyields
  · have hyields := SetBuilder.yields_builderAfter .start calls
    rwa [hcurrent, isTuple_joined_eq_of_perm hperm] at hyields
  · exact Collector.mem_record_iff.trans
      (or_congr_right (and_congr_right fun _ => SetBuilder.reports_iff bd calls c t))
  · rw [BuilderCall.mem_log_iff, BuilderOf.doneEvents_of_ne_set hk]
    exact not_and_of_not_right _ List.not_mem_nil

/-- A pair that is removed again still keeps a number from making a relation; without the number
there is one, and it is reported. -/
theorem set_or_relation_pairs :
    let pair : Value := tuple [.int, .str] none [int 1, str "a"]
    let flag : Value := tuple [.bool, .bool] (some ["x", "y"]) [bool true, bool false]
    let b : BuilderOf .set := SetBuilder.new .start
    let pairs : List (BuilderCall .set) :=
      [.edit (.insert pair), .edit (.delete pair), .edit (.insert flag)]
    let mixed : List (BuilderCall .set) :=
      [.edit (.insert pair), .edit (.delete pair), .edit (.insert (int 2))]
    (builderAfter pairs b).Yields (IsRelationIff (Tabular [pair, flag])) ∧
      Tabular [pair, flag] ∧
      (builderAfter mixed b).Yields (IsRelationIff (Tabular [pair, int 2])) ∧
      ¬Tabular [pair, int 2] ∧
      (builderAfter pairs b).Yields (IsRelationIff ((joined [flag, pair]).isTuple = true)) ∧
      (collectValues [flag, pair]).val.IsRelationIff ((joined [flag, pair]).isTuple = true) ∧
      .inferredRelation (.tuple [.value, .value] none) ∈ ((Collector.mk true []).record
        (BuilderCall.done.run.start (builderAfter pairs b)).log).events ∧
      .inferredRelation .void ∉
        ((BuilderCall.done : BuilderCall .list).run.start (ListBuilder.new .start)).log := by
  intro pair flag b pairs mixed
  have hpairs : SetBuilder.inserted pairs = [pair, flag] := rfl
  have hmixed : SetBuilder.inserted mixed = [pair, int 2] := rfl
  obtain ⟨hformed, hchoice, -, -, -, horder, hreports, hother, -⟩ := set_or_relation
  have hpair : pair.WellTyped :=
    .tuple rfl (List.forall_mem_cons.2 ⟨.leaf rfl, List.forall_mem_singleton.2 (.leaf rfl)⟩)
  have hflag : flag.WellTyped :=
    .tuple rfl (List.forall_mem_cons.2 ⟨.leaf rfl, List.forall_mem_singleton.2 (.leaf rfl)⟩)
  have htwo : (int 2).WellTyped := .leaf rfl
  have hswap : (SetBuilder.inserted pairs).Perm [flag, pair] := by
    rw [hpairs]
    exact List.Perm.swap _ _ _
  refine ⟨?_, ⟨nofun, 2, ?_⟩, ?_, ?_, (horder pairs _ hswap).1, (horder pairs _ hswap).2,
    ?_, hother _ _ _ nofun⟩
  · have hinserted : ∀ x ∈ SetBuilder.inserted pairs, x.Formed := by
      rw [hpairs]
      exact List.forall_mem_cons.2
        ⟨hformed pair hpair, List.forall_mem_singleton.2 (hformed flag hflag)⟩
    exact hpairs ▸ hchoice pairs hinserted
  · simp [Value.IsTupleOf, pair, flag, tuple?, Tuple.arity]
  · have hinserted : ∀ x ∈ SetBuilder.inserted mixed, x.Formed := by
      rw [hmixed]
      exact List.forall_mem_cons.2
        ⟨hformed pair hpair, List.forall_mem_singleton.2 (hformed (int 2) htwo)⟩
    exact hmixed ▸ hchoice mixed hinserted
  · rintro ⟨-, n, hn⟩
    obtain ⟨t, ht, -⟩ := hn (int 2) (by simp)
    nomatch ht
  · have hfirst : ∀ c ∈ pairs, c.asksValue = false := by simp [pairs, BuilderCall.asksValue]
    exact (hreports _ .start pairs .done _).2 (.inr ⟨rfl, rfl, hfirst, rfl, rfl, _, rfl, rfl⟩)

end ValueLattice

import ValueLattice.Proofs.Builder.Inference
/-!
# Collections made at once, step by step, and by builders

The same values can be made into a collection at once, be added to an empty one after another, or
be given to a builder with inferred types. Each way has a loop of its own: it joins the types
before the contents are put together, or along with them, or whenever the joined type changes. The
results are the same: the same elements in the same order, of several equal ones the same, and
bounded by the same type.

A builder may be given the values one by one, several at once, or both in turn. As long as it is
only given values, its state is a function of these (`Collecting`).

* `Adding`: calls that do nothing but give a builder the items of a list;
* `Collecting`, `Collecting.makes`: builders whose state is a function of the items given;
* `ListBuilder.collecting`, `SetBuilder.collecting`, `MapBuilder.collecting`,
  `TupleBuilder.collecting`: the builders of each kind;
* `routes_agree`: all ways make the same collections.
-/

namespace ValueLattice

variable {k : BuilderKind} {ι : Type}

/-! ## One after another -/

theorem TypedList.foldl_append (l : TypedList) (xs : List Value) :
    xs.foldl (fun l x => (l.append x).val) l =
      ⟨(xs.map Value.ty).foldl Ty.lub l.elem, l.elems ++ xs⟩ := by
  induction xs generalizing l with
  | nil => rw [List.append_nil]; rfl
  | cons x xs ih =>
    rw [List.foldl_cons, ih, TypedList.append_val, List.append_assoc]
    rfl

theorem TypedSet.foldl_insert (s : TypedSet) (xs : List Value) :
    xs.foldl (fun s x => (s.insert x).val) s =
      ⟨(xs.map Value.ty).foldl Ty.lub s.elem, xs.foldl Table.insert s.elems⟩ := by
  induction xs generalizing s with
  | nil => rfl
  | cons x xs ih => exact ih (s.insert x).val

theorem TypedMap.foldl_put (m : TypedMap) (es : List (Value × Value)) :
    es.foldl (fun m e => (m.put e.1 e.2).val) m =
      ⟨((es.map Prod.fst).map Value.ty).foldl Ty.lub m.key,
        ((es.map Prod.snd).map Value.ty).foldl Ty.lub m.val, EntryTable.putAll m.entries es⟩ := by
  induction es generalizing m with
  | nil => rfl
  | cons e es ih => exact ih (m.put e.1 e.2).val

/-! ## By a builder -/

/-- The calls give a builder the items of a list, in order, and ask for nothing else. An item is
what a single change adds. -/
inductive Adding (added? : Edit k → Option ι) : List (BuilderCall k) → List ι → Prop
  | nil : Adding added? [] []
  | edit {e : Edit k} {i : ι} {calls : List (BuilderCall k)} {is : List ι}
    (h : added? e = some i) (rest : Adding added? calls is) :
    Adding added? (.edit e :: calls) (i :: is)
  | insertAll {xs : List Value} {js is : List ι} {calls : List (BuilderCall k)}
    (h : List.Forall₂ (fun x j => added? (.insert x) = some j) xs js)
    (rest : Adding added? calls is) : Adding added? (.insertAll xs :: calls) (js ++ is)

/-- All calls succeed, and the builder then produces `v`. -/
def BuilderOf.Makes (b : BuilderOf k) (calls : List (BuilderCall k)) (v : Value) : Prop :=
  (runCalls (calls ++ [.done]) b).val.1 = calls.map (fun _ => .ok none) ++ [.ok (some v)]

/-- While a builder is given items, it is open in a state that depends on these alone. -/
structure Collecting (added? : Edit k → Option ι) (state : List ι → BuilderOf k) : Prop where
  opened : ∀ is, (state is).isClosed = false
  step : ∀ {e i} is, added? e = some i →
    ∃ log, e.outcome (state is) = .ok ⟨(), state (is ++ [i]), log⟩

namespace Collecting

variable {added? : Edit k → Option ι} {state : List ι → BuilderOf k} {is js : List ι}

theorem insertRun (h : Collecting added? state) {xs : List Value}
    (hxs : List.Forall₂ (fun x j => added? (.insert x) = some j) xs js) :
    (BuilderCall.insertRun xs (state is)).val = (.ok none, state (is ++ js)) := by
  induction hxs generalizing is with
  | nil => rw [List.append_nil]; rfl
  | cons hx _ ih =>
    obtain ⟨log, ho⟩ := h.step is hx
    rw [BuilderCall.insertRun, ho]
    exact ih.trans (by rw [List.append_assoc]; rfl)

theorem makes (h : Collecting added? state) (js : List ι) {calls : List (BuilderCall k)}
    {v : Value} (hcalls : Adding added? calls is) (hv : (state (js ++ is)).result = .ok v) :
    (state js).Makes calls v := by
  unfold BuilderOf.Makes
  induction hcalls generalizing js with
  | nil =>
    rw [List.append_nil] at hv
    have hdone : (BuilderCall.done.run.start (state js)).val.1 = .ok (some v) := by
      rw [BuilderCall.start_done, hv]
      rfl
    exact congrArg (· :: []) hdone
  | @edit e i calls is hi rest ih =>
    obtain ⟨log, ho⟩ := h.step js hi
    rw [← List.singleton_append, ← List.append_assoc] at hv
    rw [List.cons_append, runCalls_edit_of_ok ho, ih _ hv]
    rfl
  | @insertAll xs ys is calls hxs rest ih =>
    rw [← List.append_assoc] at hv
    have hrun : ((BuilderCall.insertAll xs).run.start (state js)).val =
        (.ok none, state (js ++ ys)) := by
      rw [BuilderCall.start_insertAll, h.opened]
      exact h.insertRun hxs
    rw [List.cons_append, runCalls_cons, hrun, ih _ hv]
    rfl

end Collecting

open Value

/-- The value that a change of a list builder adds at the end. -/
def ListBuilder.added? : Edit .list → Option Value
  | .insert x | .append x => some x
  | _ => none

theorem ListBuilder.collecting : Collecting (k := .list) added? fun xs =>
    (⟨.inferred (joined xs), .opened xs⟩ : ListBuilder) where
  opened _ := rfl
  step {e x} xs h := by
    rw [joined_snoc]
    cases e with
    | insert y | append y =>
      obtain rfl := Option.some.inj h
      exact ⟨_, rfl⟩
    | _ => nomatch h

/-- The value that a change of a set builder adds. -/
def SetBuilder.added? : Edit .set → Option Value
  | .insert x => some x
  | .delete _ => none

theorem SetBuilder.collecting : Collecting (k := .set) added? fun xs =>
    (⟨.inferred (joined xs), .opened (Table.ofList xs)⟩ : SetBuilder) where
  opened _ := rfl
  step {e x} xs h := by
    rw [joined_snoc, Table.ofList_snoc]
    cases e with
    | insert y =>
      obtain rfl := Option.some.inj h
      exact ⟨_, rfl⟩
    | delete y => nomatch h

/-- The entry that a change of a map builder binds: one that is put, or a pair. -/
def MapBuilder.added? : Edit .map → Option (Value × Value)
  | .insert x => x.entry?
  | .put key val => some (key, val)
  | .delete _ => none

theorem Value.entry?_eq_some {x : Value} {e : Value × Value} :
    x.entry? = some e ↔ ∃ ts ls, x = .tuple ts ls [e.1, e.2] := by
  obtain ⟨key, val⟩ := e
  unfold Value.entry?
  split <;> simp_all

theorem MapBuilder.collecting : Collecting (k := .map) added? fun es =>
    (⟨.inferred (joined (es.map Prod.fst)), .inferred (joined (es.map Prod.snd)),
      .opened (EntryTable.putAll [] es)⟩ : MapBuilder) where
  opened _ := rfl
  step {c e} es h := by
    rw [List.map_append, List.map_append, List.map_singleton, List.map_singleton, joined_snoc,
      joined_snoc, EntryTable.putAll_snoc]
    cases c with
    | insert x =>
      obtain ⟨ts, ls, rfl⟩ := Value.entry?_eq_some.1 h
      exact ⟨_, rfl⟩
    | put key val =>
      obtain rfl := Option.some.inj h
      exact ⟨_, rfl⟩
    | delete x => nomatch h

/-- The value that a change of a tuple builder adds. -/
def TupleBuilder.added? : Edit .tuple → Option Value
  | .insert x => some x
  | .delete _ => none

theorem TupleBuilder.collecting : Collecting (k := .tuple) added? fun xs =>
    (⟨none, .opened xs⟩ : TupleBuilder) where
  opened _ := rfl
  step {e x} xs h := by
    cases e with
    | insert y =>
      obtain rfl := Option.some.inj h
      exact ⟨[], rfl⟩
    | delete y => nomatch h

/-! ## Agreement -/

/-- **A collection does not depend on the way it is made.** Whether values are made into a list,
a set or a tuple at once, are added to an empty collection one after another, or are given to a
builder with inferred types, by any calls that give it just these values in this order, the same
elements, in the same order and with the same types, come out. So it is for the entries of a map,
which a builder may be given as keys and values or as pairs. -/
theorem routes_agree :
    (∀ xs : List Value,
      xs.foldl (fun l x => (l.append x).val) (TypedList.empty .void) =
        (TypedList.ofValues xs).val ∧
      (∀ calls, Adding ListBuilder.added? calls xs →
        BuilderOf.Makes (k := .list) (ListBuilder.new .start) calls
          (TypedList.ofValues xs).val.toValue) ∧
      xs.foldl (fun s x => (s.insert x).val) (TypedSet.empty .void) =
        (TypedSet.ofValues xs).val ∧
      (∀ calls, Adding SetBuilder.added? calls xs →
        BuilderOf.Makes (k := .set) (SetBuilder.new .start) calls (collectValues xs).val) ∧
      ∀ calls, Adding TupleBuilder.added? calls xs →
        BuilderOf.Makes (k := .tuple) TupleBuilder.new calls (Tuple.ofValues xs).toValue) ∧
    ∀ es : List (Value × Value),
      es.foldl (fun m e => (m.put e.1 e.2).val) (TypedMap.empty .void .void) =
        (TypedMap.ofEntries es).val ∧
      ∀ calls, Adding MapBuilder.added? calls es →
        BuilderOf.Makes (k := .map) (MapBuilder.new .start .start) calls
          (TypedMap.ofEntries es).val.toValue := by
  refine ⟨fun xs => ⟨?_, fun calls h => ?_, ?_, fun calls h => ?_, fun calls h => ?_⟩,
    fun es => ⟨?_, fun calls h => ?_⟩⟩
  · rw [TypedList.foldl_append]
    exact congrArg (TypedList.mk · xs) (Ty.joinAll_val .void (xs.map Value.ty)).symm
  · rw [toValue_ofValues_list]
    exact ListBuilder.collecting.makes [] h rfl
  · rw [TypedSet.foldl_insert, TypedSet.ofValues_val]
    rfl
  · rw [collectValues_val]
    exact SetBuilder.collecting.makes [] h rfl
  · exact TupleBuilder.collecting.makes [] h rfl
  · rw [TypedMap.foldl_put, TypedMap.ofEntries_val]
    rfl
  · rw [TypedMap.ofEntries_val]
    exact MapBuilder.collecting.makes [] h rfl

/-- A number given twice and a text, one by one or not: the list and the tuple keep both numbers,
the set keeps one. A key that is bound again, by a labelled pair, keeps its place in the map. -/
theorem routes_agree_repeated :
    let xs : List Value := [int 1, int 1, str "a"]
    let pair : Value := .tuple [.value, .str] (some ["key", "val"]) [int 1, str "a"]
    let es : List (Value × Value) := [(int 1, bool true), (int 1, str "a")]
    let mixed : List (BuilderCall .list) := [.edit (.append (int 1)), .insertAll [int 1, str "a"]]
    let puts : List (BuilderCall .map) := [.edit (.put (int 1) (bool true)), .edit (.insert pair)]
    (Adding ListBuilder.added? mixed xs ∧ Adding SetBuilder.added? [.insertAll xs] xs ∧
      Adding TupleBuilder.added? [.insertAll xs] xs ∧ Adding MapBuilder.added? puts es) ∧
    BuilderOf.Makes (k := .list) (ListBuilder.new .start) mixed (.list .value xs) ∧
    BuilderOf.Makes (k := .set) (SetBuilder.new .start) [.insertAll xs]
      (.set .value [int 1, str "a"]) ∧
    BuilderOf.Makes (k := .tuple) TupleBuilder.new [.insertAll xs]
      (.tuple [.int, .int, .str] none xs) ∧
    BuilderOf.Makes (k := .map) (MapBuilder.new .start .start) puts
      (.map .int .value [(int 1, str "a")]) := by
  intro xs pair es mixed puts
  have hfinds : (int 1).finds (int 1) = true :=
    Bool.and_eq_true_iff.2 ⟨by simp [sameDigest], show eqv (int 1) (int 1) = true by simp [eqv]⟩
  have hother : (str "a").finds (int 1) = false := by simp [finds, sameDigest]
  have hset : (collectValues xs).val = .set .value [int 1, str "a"] := by
    have htable : Table.ofList xs = [int 1, str "a"] := by
      simp [xs, Table.ofList, Table.insert, Table.has, hfinds, hother]
    rw [collectValues_val, htable]
    rfl
  have hmap : (TypedMap.ofEntries es).val = ⟨.int, .value, [(int 1, str "a")]⟩ := by
    have hput : EntryTable.putAll [] es = [(int 1, str "a")] := by
      simp [es, EntryTable.putAll, EntryTable.put, hfinds]
    rw [TypedMap.ofEntries_val, TypedMap.ofTable, hput]
    rfl
  have hrest : List.Forall₂ (fun x y => ListBuilder.added? (.insert x) = some y)
      [int 1, str "a"] [int 1, str "a"] :=
    .cons rfl (.cons rfl .nil)
  have hmixed : Adding ListBuilder.added? mixed xs := .edit rfl (.insertAll hrest .nil)
  have hall : Adding SetBuilder.added? [.insertAll xs] (xs ++ []) :=
    .insertAll (.cons rfl (.cons rfl (.cons rfl .nil))) .nil
  have hrow : Adding TupleBuilder.added? [.insertAll xs] (xs ++ []) :=
    .insertAll (.cons rfl (.cons rfl (.cons rfl .nil))) .nil
  have hputs : Adding MapBuilder.added? puts es := .edit rfl (.edit rfl .nil)
  obtain ⟨-, hlist, -, hbuilt, htuple⟩ := routes_agree.1 xs
  refine ⟨⟨hmixed, hall, hrow, hputs⟩, hlist mixed hmixed, hset ▸ hbuilt _ hall, htuple _ hrow, ?_⟩
  have hmade := (routes_agree.2 es).2 puts hputs
  rwa [hmap] at hmade

end ValueLattice

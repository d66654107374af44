import ValueLattice.Builder.Run
import ValueLattice.Proofs.Computation
/-!
# What the operations of a builder come to

Every change of a builder, and the production of its value, takes effect as a whole or not at
all: the checks come first, and what follows them cannot fail. Here each operation is brought
into that form, `Edit.outcome` and `BuilderOf.result`, from which everything else about builders
is read off.

* `Bound.widen`, `Bound.events`, `Bound.start_take`: taking an element after its check;
* `Edit.start_run`: a change runs as its outcome says;
* `Edit.Succeeds`, `Edit.succeeds_of_outcome`: the changes that succeed, a rule for each;
* `BuilderOf.start_done`, `BuilderOf.returns_done`: the production of the value;
* `BuilderOf.close`: a builder closed with a value, and what little can be done with it.
-/

namespace ValueLattice

open ValueLattice.Action

/-! ## Bounds -/

namespace Bound

/-- The bound after an element of type `t` is taken, if it may be. -/
def widen (b : Bound) (t : Ty) : Bound :=
  match b with
  | declared d => declared d
  | inferred s => inferred (s.lub t)

/-- The events of taking an element of type `t`. -/
def events (kind : BuilderKind) (b : Bound) (t : Ty) : List Widening :=
  match b with
  | declared _ => []
  | inferred s =>
    (s.join t).log ++ if s.lub t = s then [] else [.elementWidened kind s (s.lub t)]

/-- A bound takes a type that passes the check, and only then. -/
theorem start_take (kind : BuilderKind) (b : Bound) (t : Ty) :
    (b.take kind t).start = match b.check t with
      | .ok () => ⟨.ok (b.widen t), b.events kind t⟩
      | .error f => ⟨.error f, []⟩ := by
  cases b with
  | declared d =>
    simp only [take, check]
    split <;> rfl
  | inferred s =>
    simp only [take, check, Checked.start_bind, Checked.start_logged, Ty.join_val, widen, events]
    by_cases hs : s.lub t = s
    · simp only [hs, if_true, Checked.start_pure]
    · simp only [hs, if_false, Checked.start_pure, Checked.start_bind, Checked.start_logged]
      rfl

/-- Taking an element and storing the new bound takes effect as a whole. -/
theorem start_take_set {σ : Type} {s : σ} (kind : BuilderKind) (b : Bound) (t : Ty)
    (put : Bound → σ) :
    (do
      let bound ← b.take kind t
      set (put bound) : Action σ PUnit).start s = commit s (do
        b.check t
        return ⟨⟨⟩, put (b.widen t), b.events kind t⟩) := by
  simp only [start_bind, start_checked, start_take, start_set]
  cases b.check t with
  | error f => rfl
  | ok u => exact congrArg (Logged.mk _) (List.append_nil _)

end Bound

/-! ## Changes -/

namespace MapBuilder

/-- What it comes to to bind a key to a value. -/
def putOutcome (b : MapBuilder) (key val : Value) : Except Fault (Effect MapBuilder Unit) := do
  let entries ← b.stage.collected .map
  b.key.check key.ty
  b.val.check val.ty
  return ⟨(), ⟨b.key.widen key.ty, b.val.widen val.ty, .opened (EntryTable.put entries key val)⟩,
    b.key.events .map key.ty ++ b.val.events .map val.ty⟩

theorem start_put (b : MapBuilder) (key val : Value) :
    (put key val).start b = commit b (b.putOutcome key val) := by
  refine start_get_except fun entries => ?_
  simp only [start_bind, start_except, start_checked, Bound.start_take, start_set]
  cases b.key.check key.ty with
  | error f => rfl
  | ok _ =>
    cases b.val.check val.ty with
    | error f => rfl
    | ok _ =>
      -- both bounds have passed the check, so neither fails when it is taken
      simp only [List.nil_append, List.append_nil]
      rfl

end MapBuilder

namespace Edit

/-- What a change comes to: a fault, or the builder with new elements and bounds. -/
def outcome : {k : BuilderKind} → Edit k → BuilderOf k → Except Fault (Effect (BuilderOf k) Unit)
  | .set, insert x, b => do
    let xs ← b.stage.collected .set
    b.bound.check x.ty
    return ⟨(), ⟨b.bound.widen x.ty, .opened (Table.insert xs x)⟩, b.bound.events .set x.ty⟩
  | .set, delete x, b => do
    let xs ← b.stage.collected .set
    return ⟨(), ⟨b.bound, .opened (Table.erase xs x)⟩, []⟩
  | .relation, insert x, b => do
    let xs ← b.stage.collected .relation
    match x.tuple? with
    | none => throw (.mismatch .tuple x.ty)
    | some t =>
      RelationBuilder.checkArity b.bound t.elems.length
      b.bound.check x.ty
      return ⟨(), ⟨b.bound.widen x.ty, .opened (Table.insert xs x)⟩,
        b.bound.events .relation x.ty⟩
  | .relation, delete x, b => do
    let xs ← b.stage.collected .relation
    return ⟨(), ⟨b.bound, .opened (Table.erase xs x)⟩, []⟩
  | .list, insert x, b | .list, append x, b => do
    let xs ← b.stage.collected .list
    b.bound.check x.ty
    return ⟨(), ⟨b.bound.widen x.ty, .opened (xs ++ [x])⟩, b.bound.events .list x.ty⟩
  | .list, insertAt i x, b => do
    let xs ← b.stage.collected .list
    if i ≤ xs.length then
      b.bound.check x.ty
      return ⟨(), ⟨b.bound.widen x.ty, .opened (xs.insertIdx i x)⟩, b.bound.events .list x.ty⟩
    else throw (.outOfBounds i xs.length)
  | .list, replaceAt i x, b => do
    let xs ← b.stage.collected .list
    if i < xs.length then
      b.bound.check x.ty
      return ⟨(), ⟨b.bound.widen x.ty, .opened (xs.set i x)⟩, b.bound.events .list x.ty⟩
    else throw (.outOfBounds i xs.length)
  | .list, delete x, b => do
    let xs ← b.stage.collected .list
    return ⟨(), ⟨b.bound, .opened (xs.eraseP fun y => y == x)⟩, []⟩
  | .map, insert x, b => do
    let _ ← b.stage.collected .map
    match x with
    | .tuple _ _ [key, val] => b.putOutcome key val
    | _ => throw (.mismatch .entry x.ty)
  | .map, put key val, b => b.putOutcome key val
  | .map, delete x, b => do
    let entries ← b.stage.collected .map
    return ⟨(), ⟨b.key, b.val, .opened (EntryTable.erase entries x)⟩, []⟩
  | .tuple, insert x, b => do
    let xs ← b.stage.collected .tuple
    TupleBuilder.checkAt b.declared xs.length x.ty
    return ⟨(), ⟨b.declared, .opened (xs ++ [x])⟩, []⟩
  | .tuple, delete x, b => do
    let xs ← b.stage.collected .tuple
    return ⟨(), ⟨b.declared, .opened (xs.reverse.eraseP fun y => y == x).reverse⟩, []⟩

/-- A change runs as its outcome says. -/
theorem start_run {k : BuilderKind} (e : Edit k) (b : BuilderOf k) :
    e.run.start b = commit b (e.outcome b) := by
  cases k with
  | set =>
    cases e with
    | insert x => exact start_get_except fun xs => Bound.start_take_set .set b.bound x.ty _
    | delete x => exact start_get_except fun xs => rfl
  | relation =>
    cases e with
    | insert x =>
      refine start_get_except fun xs => ?_
      cases x.tuple? with
      | none => rfl
      | some t => exact start_except_bind fun _ => Bound.start_take_set .relation b.bound x.ty _
    | delete x => exact start_get_except fun xs => rfl
  | list =>
    cases e with
    | insert x => exact start_get_except fun xs => Bound.start_take_set .list b.bound x.ty _
    | append x => exact start_get_except fun xs => Bound.start_take_set .list b.bound x.ty _
    | insertAt i x =>
      refine start_get_except fun xs => ?_
      split
      · exact Bound.start_take_set .list b.bound x.ty _
      · rfl
    | replaceAt i x =>
      refine start_get_except fun xs => ?_
      split
      · exact Bound.start_take_set .list b.bound x.ty _
      · rfl
    | delete x => exact start_get_except fun xs => rfl
  | map =>
    cases e with
    | insert x =>
      refine start_get_except fun _ => ?_
      cases x with
      | tuple fs ls xs =>
        match xs with
        | [key, val] => exact MapBuilder.start_put b key val
        | [] | [_] | _ :: _ :: _ :: _ => rfl
      | _ => rfl
    | put key val => exact MapBuilder.start_put b key val
    | delete x => exact start_get_except fun entries => rfl
  | tuple =>
    cases e with
    | insert x => exact start_get_except fun xs => start_except_bind fun _ => rfl
    | delete x => exact start_get_except fun xs => rfl

/-- The changes that succeed, a rule for each: what an open builder has collected, the checks that
are passed, and the new builder with the events. A map builder takes a tuple of two as an entry. -/
inductive Succeeds :
    {k : BuilderKind} → Edit k → BuilderOf k → Effect (BuilderOf k) Unit → Prop
  | setInsert {b : Bound} {xs : List Value} {x : Value} (hc : b.check x.ty = .ok ()) :
    Succeeds (k := .set) (insert x) ⟨b, .opened xs⟩
      ⟨(), ⟨b.widen x.ty, .opened (Table.insert xs x)⟩, b.events .set x.ty⟩
  | setDelete {b : Bound} {xs : List Value} {x : Value} :
    Succeeds (k := .set) (delete x) ⟨b, .opened xs⟩ ⟨(), ⟨b, .opened (Table.erase xs x)⟩, []⟩
  | relationInsert {b : Bound} {xs : List Value} {x : Value} {t : Tuple} (ht : x.tuple? = some t)
    (ha : RelationBuilder.checkArity b t.elems.length = .ok ()) (hc : b.check x.ty = .ok ()) :
    Succeeds (k := .relation) (insert x) ⟨b, .opened xs⟩
      ⟨(), ⟨b.widen x.ty, .opened (Table.insert xs x)⟩, b.events .relation x.ty⟩
  | relationDelete {b : Bound} {xs : List Value} {x : Value} :
    Succeeds (k := .relation) (delete x) ⟨b, .opened xs⟩
      ⟨(), ⟨b, .opened (Table.erase xs x)⟩, []⟩
  | listInsert {b : Bound} {xs : List Value} {x : Value} (hc : b.check x.ty = .ok ()) :
    Succeeds (k := .list) (insert x) ⟨b, .opened xs⟩
      ⟨(), ⟨b.widen x.ty, .opened (xs ++ [x])⟩, b.events .list x.ty⟩
  | listAppend {b : Bound} {xs : List Value} {x : Value} (hc : b.check x.ty = .ok ()) :
    Succeeds (k := .list) (append x) ⟨b, .opened xs⟩
      ⟨(), ⟨b.widen x.ty, .opened (xs ++ [x])⟩, b.events .list x.ty⟩
  | listInsertAt {b : Bound} {xs : List Value} {x : Value} {i : Nat} (hi : i ≤ xs.length)
    (hc : b.check x.ty = .ok ()) :
    Succeeds (k := .list) (insertAt i x) ⟨b, .opened xs⟩
      ⟨(), ⟨b.widen x.ty, .opened (xs.insertIdx i x)⟩, b.events .list x.ty⟩
  | listReplaceAt {b : Bound} {xs : List Value} {x : Value} {i : Nat} (hi : i < xs.length)
    (hc : b.check x.ty = .ok ()) :
    Succeeds (k := .list) (replaceAt i x) ⟨b, .opened xs⟩
      ⟨(), ⟨b.widen x.ty, .opened (xs.set i x)⟩, b.events .list x.ty⟩
  | listDelete {b : Bound} {xs : List Value} {x : Value} :
    Succeeds (k := .list) (delete x) ⟨b, .opened xs⟩
      ⟨(), ⟨b, .opened (xs.eraseP fun y => y == x)⟩, []⟩
  | mapInsert {b c : Bound} {es : List (Value × Value)} {x y : Value} {ts : List Ty}
    {ls : Option (List String)} (hx : b.check x.ty = .ok ()) (hy : c.check y.ty = .ok ()) :
    Succeeds (k := .map) (insert (.tuple ts ls [x, y])) ⟨b, c, .opened es⟩
      ⟨(), ⟨b.widen x.ty, c.widen y.ty, .opened (EntryTable.put es x y)⟩,
        b.events .map x.ty ++ c.events .map y.ty⟩
  | mapPut {b c : Bound} {es : List (Value × Value)} {x y : Value} (hx : b.check x.ty = .ok ())
    (hy : c.check y.ty = .ok ()) :
    Succeeds (k := .map) (put x y) ⟨b, c, .opened es⟩
      ⟨(), ⟨b.widen x.ty, c.widen y.ty, .opened (EntryTable.put es x y)⟩,
        b.events .map x.ty ++ c.events .map y.ty⟩
  | mapDelete {b c : Bound} {es : List (Value × Value)} {x : Value} :
    Succeeds (k := .map) (delete x) ⟨b, c, .opened es⟩
      ⟨(), ⟨b, c, .opened (EntryTable.erase es x)⟩, []⟩
  | tupleInsert {d : Option Row} {xs : List Value} {x : Value}
    (hc : TupleBuilder.checkAt d xs.length x.ty = .ok ()) :
    Succeeds (k := .tuple) (insert x) ⟨d, .opened xs⟩ ⟨(), ⟨d, .opened (xs ++ [x])⟩, []⟩
  | tupleDelete {d : Option Row} {xs : List Value} {x : Value} :
    Succeeds (k := .tuple) (delete x) ⟨d, .opened xs⟩
      ⟨(), ⟨d, .opened (xs.reverse.eraseP fun y => y == x).reverse⟩, []⟩

/-- A change whose outcome is a new builder succeeds by one of the rules. -/
theorem succeeds_of_outcome {k : BuilderKind} {e : Edit k} {b : BuilderOf k}
    {r : Effect (BuilderOf k) Unit} (h : e.outcome b = .ok r) : e.Succeeds b r := by
  cases k with
  | set =>
    obtain ⟨b, xs | v⟩ := b
    · cases e with
      | insert x =>
        obtain ⟨_, ⟨⟩, h⟩ := bind_eq_ok.1 h
        obtain ⟨_, hc, h⟩ := bind_eq_ok.1 h
        obtain rfl := Except.ok.inj h
        exact .setInsert hc
      | delete x =>
        obtain rfl := Except.ok.inj h
        exact .setDelete
    · cases e <;> nomatch h
  | relation =>
    obtain ⟨b, xs | v⟩ := b
    · cases e with
      | insert x =>
        obtain ⟨_, ⟨⟩, h⟩ := bind_eq_ok.1 h
        split at h
        · nomatch h
        · next t ht =>
          obtain ⟨_, ha, h⟩ := bind_eq_ok.1 h
          obtain ⟨_, hc, h⟩ := bind_eq_ok.1 h
          obtain rfl := Except.ok.inj h
          exact .relationInsert ht ha hc
      | delete x =>
        obtain rfl := Except.ok.inj h
        exact .relationDelete
    · cases e <;> nomatch h
  | list =>
    obtain ⟨b, xs | v⟩ := b
    · cases e with
      | insert x =>
        obtain ⟨_, ⟨⟩, h⟩ := bind_eq_ok.1 h
        obtain ⟨_, hc, h⟩ := bind_eq_ok.1 h
        obtain rfl := Except.ok.inj h
        exact .listInsert hc
      | append x =>
        obtain ⟨_, ⟨⟩, h⟩ := bind_eq_ok.1 h
        obtain ⟨_, hc, h⟩ := bind_eq_ok.1 h
        obtain rfl := Except.ok.inj h
        exact .listAppend hc
      | insertAt i x =>
        obtain ⟨_, ⟨⟩, h⟩ := bind_eq_ok.1 h
        split at h
        · next hi =>
          obtain ⟨_, hc, h⟩ := bind_eq_ok.1 h
          obtain rfl := Except.ok.inj h
          exact .listInsertAt hi hc
        · nomatch h
      | replaceAt i x =>
        obtain ⟨_, ⟨⟩, h⟩ := bind_eq_ok.1 h
        split at h
        · next hi =>
          obtain ⟨_, hc, h⟩ := bind_eq_ok.1 h
          obtain rfl := Except.ok.inj h
          exact .listReplaceAt hi hc
        · nomatch h
      | delete x =>
        obtain rfl := Except.ok.inj h
        exact .listDelete
    · cases e <;> nomatch h
  | map =>
    obtain ⟨b, c, es | v⟩ := b
    · cases e with
      | insert x =>
        obtain ⟨_, -, h⟩ := bind_eq_ok.1 h
        split at h
        · obtain ⟨_, ⟨⟩, h⟩ := bind_eq_ok.1 h
          obtain ⟨_, hx, h⟩ := bind_eq_ok.1 h
          obtain ⟨_, hy, h⟩ := bind_eq_ok.1 h
          obtain rfl := Except.ok.inj h
          exact .mapInsert hx hy
        · nomatch h
      | put x y =>
        obtain ⟨_, ⟨⟩, h⟩ := bind_eq_ok.1 h
        obtain ⟨_, hx, h⟩ := bind_eq_ok.1 h
        obtain ⟨_, hy, h⟩ := bind_eq_ok.1 h
        obtain rfl := Except.ok.inj h
        exact .mapPut hx hy
      | delete x =>
        obtain rfl := Except.ok.inj h
        exact .mapDelete
    · cases e <;> nomatch h
  | tuple =>
    obtain ⟨d, xs | v⟩ := b
    · cases e with
      | insert x =>
        obtain ⟨_, ⟨⟩, h⟩ := bind_eq_ok.1 h
        obtain ⟨_, hc, h⟩ := bind_eq_ok.1 h
        obtain rfl := Except.ok.inj h
        exact .tupleInsert hc
      | delete x =>
        obtain rfl := Except.ok.inj h
        exact .tupleDelete
    · cases e <;> nomatch h

end Edit

/-! ## The value -/

/-- The value of a builder: what it has collected, built, or the value already produced. -/
def Stage.value {α : Type} (build : α → Except Fault Value) : Stage α → Except Fault Value
  | opened a => build a
  | closed v => .ok v

theorem Stage.size_of_value {α : Type} {build : α → Except Fault Value} {count : α → Nat}
    {s : Stage α} {v : Value} (hb : ∀ a, build a = .ok v → count a = v.count)
    (h : s.value build = .ok v) : s.size count = v.count := by
  cases s with
  | opened a => exact hb a h
  | closed w => exact congrArg Value.count (Except.ok.inj h)

namespace BuilderOf

/-- The value that a builder would produce. -/
def result : {k : BuilderKind} → BuilderOf k → Except Fault Value
  | .set, b => b.stage.value fun xs => .ok (collect b.bound.current xs)
  | .relation, b =>
    b.stage.value fun xs => .ok (⟨RelationBuilder.row b.bound, xs⟩ : Relation).toValue
  | .list, b => b.stage.value fun xs => .ok (⟨b.bound.current, xs⟩ : TypedList).toValue
  | .map, b =>
    b.stage.value fun entries => .ok (⟨b.key.current, b.val.current, entries⟩ : TypedMap).toValue
  | .tuple, b => b.stage.value fun xs => do
    TupleBuilder.checkFull b.declared xs.length
    return (match b.declared with
      | none => Tuple.ofValues xs
      | some r => ⟨r, xs⟩).toValue

/-- The builder closed with a value. -/
def close : {k : BuilderKind} → BuilderOf k → Value → BuilderOf k
  | .set, b, v => { b with stage := .closed v }
  | .relation, b, v => { b with stage := .closed v }
  | .list, b, v => { b with stage := .closed v }
  | .map, b, v => { b with stage := .closed v }
  | .tuple, b, v => { b with stage := .closed v }

/-- The events of producing the value. -/
def doneEvents : {k : BuilderKind} → BuilderOf k → List Widening
  | .set, b => if b.isClosed then [] else (SetBuilder.relationEvent b.bound).log
  | .relation, _ | .list, _ | .map, _ | .tuple, _ => []

/-- The production of the value takes effect as a whole. -/
theorem start_done {k : BuilderKind} (b : BuilderOf k) :
    done.start b = commit b (b.result.map fun v => ⟨v, b.close v, b.doneEvents⟩) := by
  cases k with
  | set =>
    obtain ⟨bound, xs | v⟩ := b
    · change SetBuilder.done.start _ = _
      simp only [SetBuilder.done, start_bind, start_get, start_logged]
      exact congrArg (Logged.mk _) (List.append_nil _)
    · rfl
  | relation => obtain ⟨bound, xs | v⟩ := b <;> rfl
  | list => obtain ⟨bound, xs | v⟩ := b <;> rfl
  | map => obtain ⟨key, val, entries | v⟩ := b <;> rfl
  | tuple =>
    obtain ⟨declared, xs | v⟩ := b
    · change (liftM (TupleBuilder.checkFull declared xs.length) >>= fun _ => _ :
        Action TupleBuilder Value).start _ = _
      simp only [result, Stage.value]
      cases TupleBuilder.checkFull declared xs.length <;> rfl
    · rfl

/-- The value is produced exactly when there is one, and closes the builder. -/
theorem returns_done {k : BuilderKind} {b b' : BuilderOf k} {v : Value} :
    done.Returns b v b' ↔ b.result = .ok v ∧ b' = b.close v := by
  unfold Returns
  rw [start_done]
  cases b.result with
  | error f => simp [Except.map, commit]
  | ok w =>
    simp only [Except.map, commit, Prod.mk.injEq, Except.ok.injEq]
    constructor
    · rintro ⟨rfl, rfl⟩
      exact ⟨rfl, rfl⟩
    · rintro ⟨rfl, rfl⟩
      exact ⟨rfl, rfl⟩

/-! ### Closed builders -/

variable {k : BuilderKind} (b : BuilderOf k) (v : Value)

@[simp] theorem isClosed_close : (b.close v).isClosed = true := by cases k <;> rfl

@[simp] theorem size_close : (b.close v).size = v.count := by cases k <;> rfl

@[simp] theorem result_close : (b.close v).result = .ok v := by cases k <;> rfl

@[simp] theorem close_close (w : Value) : (b.close v).close w = b.close w := by cases k <;> rfl

@[simp] theorem doneEvents_close : (b.close v).doneEvents = [] := by cases k <;> rfl

@[simp] theorem outcome_close (e : Edit k) : e.outcome (b.close v) = .error (.finished k) := by
  cases k <;> cases e <;> rfl

variable {b v}

/-- A closed builder is closed with a value. -/
theorem eq_close_of_isClosed (h : b.isClosed = true) : ∃ v, b = b.close v := by
  cases k with
  | map =>
    obtain ⟨key, val, entries | v⟩ := b
    · nomatch h
    · exact ⟨v, rfl⟩
  | _ =>
    obtain ⟨bound, xs | v⟩ := b
    · nomatch h
    · exact ⟨v, rfl⟩

/-- A builder has as many elements as the value that it would produce. -/
theorem size_of_result (h : b.result = .ok v) : b.size = v.count := by
  cases k with
  | set =>
    refine Stage.size_of_value (fun xs h => ?_) h
    obtain rfl := Except.ok.inj h
    unfold collect
    split <;> rfl
  | relation => exact Stage.size_of_value (fun _ h => Except.ok.inj h ▸ rfl) h
  | list => exact Stage.size_of_value (fun _ h => Except.ok.inj h ▸ rfl) h
  | map => exact Stage.size_of_value (fun _ h => Except.ok.inj h ▸ rfl) h
  | tuple =>
    refine Stage.size_of_value (fun xs h => ?_) h
    obtain ⟨-, -, h⟩ := bind_eq_ok.1 h
    obtain rfl := Except.ok.inj h
    cases b.declared <;> rfl

end BuilderOf

end ValueLattice

import ValueLattice.Proofs.Builder.Run
import ValueLattice.Proofs.Ty.Algebra
import ValueLattice.Proofs.Value.Inferred
/-!
# Inferred types are joins

The values that a builder admits into one `Slot`, its elements or the keys or the values of its
entries, are bounded by one type. An inferred type is the join, in order, of the types of all
values that the changes put there, whatever else was asked in between and whether or not the values
are still there. So it is a least upper bound of these types, it only grows, and up to equivalence
it does not depend on the order in which the values came. A declared type stays as it is.

* `Slot`, `Slot.taken`, `Slot.admitted`: the values that changes put into a slot;
* `Slot.taking_of_outcome`, `Slot.bound_builderAfter`: what a change does to the slots, and the
  bound after a sequence of calls;
* `inferred_type_is_join`: what follows for inferred and for declared types.
-/

namespace ValueLattice

open Value

/-! ## Slots -/

/-- What a builder bounds by one type: its elements, or the keys or the values of its entries. The
elements of a tuple have no type in common. -/
inductive Slot : BuilderKind → Type
  | setElem : Slot .set
  | relationElem : Slot .relation
  | listElem : Slot .list
  | key : Slot .map
  | val : Slot .map

/-- The key and the value that a tuple of two values is inserted as. -/
def Value.entry? : Value → Option (Value × Value)
  | tuple _ _ [key, val] => some (key, val)
  | _ => none

variable {k : BuilderKind}

namespace Slot

/-- The bound of the values in a slot. -/
def bound : {k : BuilderKind} → Slot k → BuilderOf k → Bound
  | _, setElem, b => b.bound
  | _, relationElem, b => b.bound
  | _, listElem, b => b.bound
  | _, key, b => b.key
  | _, val, b => b.val

/-- The current type of the values in a slot. -/
def current (s : Slot k) (b : BuilderOf k) : Ty := (s.bound b).current

/-- The value that a change puts into a slot. -/
def taken : {k : BuilderKind} → Slot k → Edit k → Option Value
  | _, setElem, .insert x | _, relationElem, .insert x => some x
  | _, listElem, .insert x | _, listElem, .append x => some x
  | _, listElem, .insertAt _ x | _, listElem, .replaceAt _ x => some x
  | _, key, .insert x => x.entry?.map Prod.fst
  | _, key, .put x _ => some x
  | _, val, .insert x => x.entry?.map Prod.snd
  | _, val, .put _ y => some y
  | _, _, .delete _ => none

/-- The values that changes put into a slot, in order. -/
def admitted (s : Slot k) (es : List (Edit k)) : List Value := es.filterMap s.taken

/-- The slots of a kind of builders. -/
def all : (k : BuilderKind) → List (Slot k)
  | .set => [setElem]
  | .relation => [relationElem]
  | .list => [listElem]
  | .map => [key, val]
  | .tuple => []

/-- The events of what a change puts into a slot. -/
def events (s : Slot k) (e : Edit k) (b : BuilderOf k) : List Widening :=
  (s.taken e).elim [] fun x => (s.bound b).events k x.ty

end Slot

/-! ## Bounds -/

/-- The bound after values are taken one by one. -/
def Bound.widenAll (b : Bound) (xs : List Value) : Bound := xs.foldl (fun b x => b.widen x.ty) b

namespace Bound

theorem widenAll_append (b : Bound) (xs ys : List Value) :
    b.widenAll (xs ++ ys) = (b.widenAll xs).widenAll ys :=
  List.foldl_append

theorem widenAll_declared (t : Ty) (xs : List Value) : (declared t).widenAll xs = declared t := by
  induction xs with
  | nil => rfl
  | cons x xs ih => exact ih

theorem widenAll_inferred (t : Ty) (xs : List Value) :
    (inferred t).widenAll xs = inferred ((xs.map Value.ty).foldl Ty.lub t) := by
  induction xs generalizing t with
  | nil => rfl
  | cons x xs ih => exact ih (t.lub x.ty)

theorem widenAll_start (xs : List Value) : start.widenAll xs = inferred (joined xs) :=
  widenAll_inferred .void xs

theorem isInferred_widenAll (b : Bound) (xs : List Value) :
    (b.widenAll xs).isInferred = b.isInferred := by
  cases b with
  | declared t => rw [widenAll_declared]
  | inferred t =>
    rw [widenAll_inferred]
    rfl

/-- A type only grows when values are taken. -/
theorem current_leq_widenAll (b : Bound) (xs : List Value) :
    b.current.leq (b.widenAll xs).current = true := by
  cases b with
  | declared t =>
    rw [widenAll_declared]
    exact Ty.leq_refl t
  | inferred t =>
    rw [widenAll_inferred]
    exact (Ty.leq_foldl_lub (xs.map Value.ty) t).1

end Bound

/-! ## Runs -/

namespace Slot

variable (s : Slot k) {e : Edit k} {b : BuilderOf k} {r : Effect (BuilderOf k) Unit}

theorem admitted_append (es fs : List (Edit k)) :
    s.admitted (es ++ fs) = s.admitted es ++ s.admitted fs :=
  List.filterMap_append

/-- A change, as far as slots are concerned: each takes what is put there, and nothing else, and
these are the only events. -/
structure Taking (e : Edit k) (b : BuilderOf k) (r : Effect (BuilderOf k) Unit) : Prop where
  bound : ∀ s : Slot k, s.bound r.state = (s.bound b).widenAll (s.admitted [e])
  log : r.log = (all k).flatMap fun s => s.events e b

theorem taking_of_outcome (h : e.outcome b = .ok r) : Taking e b r := by
  cases Edit.succeeds_of_outcome h with
  | setInsert => exact ⟨fun | setElem => rfl, (List.append_nil _).symm⟩
  | relationInsert => exact ⟨fun | relationElem => rfl, (List.append_nil _).symm⟩
  | listInsert | listAppend | listInsertAt | listReplaceAt =>
    exact ⟨fun | listElem => rfl, (List.append_nil _).symm⟩
  | mapInsert | mapPut =>
    exact ⟨fun | key | val => rfl, congrArg (_ ++ ·) (List.append_nil _).symm⟩
  | setDelete => exact ⟨fun | setElem => rfl, rfl⟩
  | relationDelete => exact ⟨fun | relationElem => rfl, rfl⟩
  | listDelete => exact ⟨fun | listElem => rfl, rfl⟩
  | mapDelete => exact ⟨fun | key | val => rfl, rfl⟩
  | tupleInsert | tupleDelete => exact ⟨nofun, rfl⟩

theorem bound_close (b : BuilderOf k) (v : Value) : s.bound (b.close v) = s.bound b := by
  cases s <;> rfl

/-- The bound of a slot is what the values put there make of the bound that it had. -/
theorem bound_builderAfter (calls : List (BuilderCall k)) (b : BuilderOf k) :
    s.bound (builderAfter calls b) = (s.bound b).widenAll (s.admitted (effects calls b)) := by
  have hinv : Invariant (fun _ => True)
      fun es c => s.bound c = (s.bound b).widenAll (s.admitted es) := by
    refine ⟨fun {es c e r} h _ ho => ?_, fun {es c v} h _ => ?_⟩
    · rw [(taking_of_outcome ho).bound s, h, admitted_append, Bound.widenAll_append]
    · rw [bound_close, h]
  exact hinv.run_start (fun _ _ _ _ => trivial) rfl

variable {s}

/-- An inferred type is the join of the types of all values put into its slot. -/
theorem current_of_start (hb : s.bound b = .start) (calls : List (BuilderCall k)) :
    s.current (builderAfter calls b) = joined (s.admitted (effects calls b)) := by
  rw [current, bound_builderAfter, hb, Bound.widenAll_start]
  rfl

theorem current_of_declared {t : Ty} (hb : s.bound b = .declared t)
    (calls : List (BuilderCall k)) : s.current (builderAfter calls b) = t := by
  rw [current, bound_builderAfter, hb, Bound.widenAll_declared]
  rfl

theorem isJoinOf_current (hb : s.bound b = .start) (calls : List (BuilderCall k)) :
    Ty.IsJoinOf ((s.admitted (effects calls b)).map Value.ty)
      (s.current (builderAfter calls b)) := by
  rw [current_of_start hb]
  exact Ty.isJoinOf_foldl_lub _

variable (s)

/-- The type of a slot grows along a sequence of calls. -/
theorem current_leq_builderAfter (b : BuilderOf k) (calls : List (BuilderCall k)) :
    (s.current b).leq (s.current (builderAfter calls b)) = true := by
  rw [current, current, bound_builderAfter]
  exact (s.bound b).current_leq_widenAll _

end Slot

/-- The declared type of a tuple builder stays as it is. -/
theorem TupleBuilder.declared_builderAfter (calls : List (BuilderCall .tuple))
    (b : BuilderOf .tuple) : (builderAfter calls b).declared = b.declared := by
  have hinv : Invariant (fun _ => True) fun _ (c : BuilderOf .tuple) =>
      c.declared = b.declared := by
    refine ⟨fun {es c e r} h _ ho => ?_, fun {es c v} h _ => h⟩
    cases Edit.succeeds_of_outcome ho with
    | tupleInsert | tupleDelete => exact h
  exact hinv.run_start (fun _ _ _ _ => trivial) rfl

/-- **Inferred types are joins.** Whatever a builder is asked, the inferred type of a slot is a
least upper bound of the types of all values that were put there, and each later one is above each
earlier one; where two builders take the same values in different orders their types are
equivalent. A declared type never changes, and neither does that of a tuple builder. -/
theorem inferred_type_is_join :
    (∀ {k : BuilderKind} (s : Slot k) (b : BuilderOf k) (calls : List (BuilderCall k)),
      (s.bound b = .start →
        Ty.IsJoinOf ((s.admitted (effects calls b)).map Value.ty)
          (s.current (builderAfter calls b)) ∧
        (∀ more, (s.current (builderAfter calls b)).leq
          (s.current (builderAfter (calls ++ more) b)) = true) ∧
        ∀ (b' : BuilderOf k) (calls' : List (BuilderCall k)), s.bound b' = .start →
          (s.admitted (effects calls b)).Perm (s.admitted (effects calls' b')) →
          (s.current (builderAfter calls b)).equivalent
            (s.current (builderAfter calls' b')) = true) ∧
      ∀ t, s.bound b = .declared t → s.bound (builderAfter calls b) = .declared t) ∧
    ∀ (b : BuilderOf .tuple) (calls : List (BuilderCall .tuple)),
      (builderAfter calls b).declared = b.declared := by
  refine ⟨fun s b calls => ⟨fun hb => ⟨?_, fun more => ?_, fun b' calls' hb' hperm => ?_⟩,
    fun t ht => ?_⟩, fun b calls => TupleBuilder.declared_builderAfter calls b⟩
  · exact Slot.isJoinOf_current hb calls
  · rw [builderAfter_append]
    exact s.current_leq_builderAfter (builderAfter calls b) more
  · exact (Slot.isJoinOf_current hb calls).equivalent_of_perm (Slot.isJoinOf_current hb' calls')
      (hperm.map Value.ty)
  · rw [s.bound_builderAfter, ht, Bound.widenAll_declared]

/-- A number that was replaced, and a text that was removed, still count; what came too late or at
no position does not. -/
theorem inferred_type_is_join_replaced :
    let b : BuilderOf .list := ListBuilder.new .start
    let calls : List (BuilderCall .list) :=
      [.edit (.append (int 1)), .edit (.replaceAt 7 (bool true)), .edit (.replaceAt 0 (str "a")),
        .edit (.delete (str "a")), .done, .edit (.append (bool true))]
    let swapped : List (BuilderCall .list) := [.insertAll [str "a", int 1]]
    Slot.listElem.bound b = .start ∧
      Slot.listElem.admitted (effects calls b) = [int 1, str "a"] ∧
      Slot.listElem.current (builderAfter calls b) = .value ∧
      Ty.IsJoinOf [.int, .str] (Slot.listElem.current (builderAfter calls b)) ∧
      (Slot.listElem.current (builderAfter calls b)).equivalent
        (Slot.listElem.current (builderAfter swapped b)) = true := by
  intro b calls swapped
  have hb : Slot.listElem.bound b = .start := rfl
  have hcalls : Slot.listElem.admitted (effects calls b) = [int 1, str "a"] := rfl
  have hswapped : Slot.listElem.admitted (effects swapped b) = [str "a", int 1] := rfl
  obtain ⟨hjoin, -, hperm⟩ := (inferred_type_is_join.1 .listElem b calls).1 hb
  refine ⟨hb, hcalls, rfl, ?_, hperm b swapped hb ?_⟩
  · rw [hcalls] at hjoin
    exact hjoin
  · rw [hcalls, hswapped]
    exact List.Perm.swap _ _ _

end ValueLattice

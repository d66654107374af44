import ValueLattice.Proofs.Builder.Outcome
/-!
# Calls of builders, one after another

A change that fails leaves the builder as it is, so what a sequence of calls comes to is what the
changes that took effect come to. A property of builders that every change keeps, and that the
production of the value keeps, holds after every sequence of calls.

* `BuilderCall.start_edit`, `BuilderCall.start_done`, `BuilderCall.start_insertAll`: each call;
* `BuilderCall.insertRun`: several insertions, as the first of them and the rest;
* `runCalls_cons`, `builderAfter_append`: a sequence of calls, as the first of them and the rest,
  and cut in two;
* `Invariant`, `Invariant.run`: what is kept;
* `Builder.start_insert` and the like: the operations on builders of any kind are those of the
  builder's own kind.
-/

namespace ValueLattice

open ValueLattice.Action

/-! ## Calls -/

namespace BuilderCall

variable {k : BuilderKind} (b : BuilderOf k)

theorem start_edit (e : Edit k) :
    (edit e).run.start b = commit b ((e.outcome b).map (Effect.map fun _ => none)) :=
  start_map (e.start_run b) fun _ => none

theorem start_done : (done : BuilderCall k).run.start b =
    commit b (b.result.map fun v => ⟨some v, b.close v, b.doneEvents⟩) := by
  refine (start_map b.start_done some).trans (congrArg _ ?_)
  cases b.result <;> rfl

/-- The run of insertions one after another, up to the first failure. -/
def insertRun : List Value → BuilderOf k → Logged (Except Fault (Option Value) × BuilderOf k)
  | [], b => ⟨(.ok none, b), []⟩
  | x :: xs, b =>
    match (Edit.insert x).outcome b with
    | .ok r => ⟨(insertRun xs r.state).val, r.log ++ (insertRun xs r.state).log⟩
    | .error f => ⟨(.error f, b), []⟩

theorem start_forM_insert (xs : List Value) :
    (xs.forM (fun x => (Edit.insert x).run) >>= fun _ => pure none :
      Action (BuilderOf k) (Option Value)).start b = insertRun xs b := by
  induction xs generalizing b with
  | nil => rfl
  | cons x xs ih =>
    rw [List.forM_eq_forM, List.forM_cons, bind_assoc, start_bind, Edit.start_run, insertRun]
    cases (Edit.insert x).outcome b with
    | error f => rfl
    | ok r =>
      exact congrArg (fun l => (⟨l.val, r.log ++ l.log⟩ : Logged _)) (ih r.state)

theorem start_insertAll (xs : List Value) : (insertAll xs).run.start b =
    if b.isClosed then ⟨(.error (.finished k), b), []⟩ else insertRun xs b := by
  rw [← start_forM_insert]
  change (BuilderOf.insertAll xs >>= fun _ => pure none).start b = _
  rw [BuilderOf.insertAll, insertEach, bind_assoc, start_get_bind]
  split <;> rfl

end BuilderCall

/-! ## Runs -/

variable {k : BuilderKind}

theorem runCalls_cons (c : BuilderCall k) (cs : List (BuilderCall k)) (b : BuilderOf k) :
    runCalls (c :: cs) b =
      ⟨((c.run.start b).val.1 :: (runCalls cs (c.run.start b).val.2).val.1,
        (runCalls cs (c.run.start b).val.2).val.2),
        (c.run.start b).log ++ (runCalls cs (c.run.start b).val.2).log⟩ :=
  congrArg (fun log => Logged.mk _ ((c.run.start b).log ++ log)) (List.append_nil _)

theorem builderAfter_cons (c : BuilderCall k) (cs : List (BuilderCall k)) (b : BuilderOf k) :
    builderAfter (c :: cs) b = builderAfter cs (c.run.start b).val.2 := by
  rw [builderAfter, runCalls_cons]
  rfl

theorem builderAfter_append (cs ds : List (BuilderCall k)) (b : BuilderOf k) :
    builderAfter (cs ++ ds) b = builderAfter ds (builderAfter cs b) := by
  induction cs generalizing b with
  | nil => rfl
  | cons c cs ih => rw [List.cons_append, builderAfter_cons, builderAfter_cons, ih]

theorem runCalls_edit_of_ok {e : Edit k} {b : BuilderOf k} {r : Effect (BuilderOf k) Unit}
    (h : e.outcome b = .ok r) (cs : List (BuilderCall k)) :
    runCalls (.edit e :: cs) b =
      ⟨(.ok none :: (runCalls cs r.state).val.1, (runCalls cs r.state).val.2),
        r.log ++ (runCalls cs r.state).log⟩ := by
  rw [runCalls_cons, BuilderCall.start_edit, h]
  rfl

theorem builderAfter_edit_of_ok {e : Edit k} {b : BuilderOf k} {r : Effect (BuilderOf k) Unit}
    (h : e.outcome b = .ok r) (cs : List (BuilderCall k)) :
    builderAfter (.edit e :: cs) b = builderAfter cs r.state := by
  rw [builderAfter, runCalls_edit_of_ok h]
  rfl

theorem runCalls_edit_of_error {e : Edit k} {b : BuilderOf k} {f : Fault}
    (h : e.outcome b = .error f) (cs : List (BuilderCall k)) :
    runCalls (.edit e :: cs) b =
      ⟨(.error f :: (runCalls cs b).val.1, (runCalls cs b).val.2), (runCalls cs b).log⟩ := by
  rw [runCalls_cons, BuilderCall.start_edit, h]
  rfl

theorem insertEffects_of_ok {x : Value} {b : BuilderOf k} {r : Effect (BuilderOf k) Unit}
    (h : (Edit.insert x).outcome b = .ok r) (xs : List Value) :
    insertEffects (x :: xs) b = .insert x :: insertEffects xs r.state := by
  rw [insertEffects, Edit.start_run, h]
  rfl

theorem insertEffects_of_error {x : Value} {b : BuilderOf k} {f : Fault}
    (h : (Edit.insert x).outcome b = .error f) (xs : List Value) :
    insertEffects (x :: xs) b = [] := by
  rw [insertEffects, Edit.start_run, h]
  rfl

theorem insertEffects_close (xs : List Value) (b : BuilderOf k) (v : Value) :
    insertEffects xs (b.close v) = [] := by
  cases xs with
  | nil => rfl
  | cons x xs => exact insertEffects_of_error (BuilderOf.outcome_close b v _) xs

/-- A property of a builder and of the changes made to it so far that each change with values in
`good` keeps, and so does the production of the value. -/
structure Invariant (good : Value → Prop) (P : List (Edit k) → BuilderOf k → Prop) : Prop where
  edit : ∀ {es b e r}, P es b → (∀ x ∈ e.values, good x) → e.outcome b = .ok r →
    P (es ++ [e]) r.state
  close : ∀ {es b v}, P es b → b.result = .ok v → P es (b.close v)

namespace Invariant

variable {good : Value → Prop} {P : List (Edit k) → BuilderOf k → Prop} {es : List (Edit k)}
  {b : BuilderOf k}

theorem insertRun (h : Invariant good P) {xs : List Value} (hxs : ∀ x ∈ xs, good x)
    (hb : P es b) : P (es ++ insertEffects xs b) (BuilderCall.insertRun xs b).val.2 := by
  induction xs generalizing es b with
  | nil => rwa [insertEffects, List.append_nil]
  | cons x xs ih =>
    obtain ⟨hx, hxs⟩ := List.forall_mem_cons.1 hxs
    rw [BuilderCall.insertRun]
    cases ho : (Edit.insert x).outcome b with
    | error f => rwa [insertEffects_of_error ho, List.append_nil]
    | ok r =>
      have hr : P (es ++ [.insert x]) r.state := h.edit hb (List.forall_mem_singleton.2 hx) ho
      have hrest : P (es ++ [.insert x] ++ insertEffects xs r.state) _ := ih hxs hr
      rwa [List.append_assoc, List.singleton_append, ← insertEffects_of_ok ho] at hrest

theorem call (h : Invariant good P) {c : BuilderCall k} (hc : ∀ x ∈ c.values, good x)
    (hb : P es b) : P (es ++ c.effects b) (c.run.start b).val.2 := by
  have hdone : P (es ++ []) ((BuilderCall.done : BuilderCall k).run.start b).val.2 := by
    rw [List.append_nil, BuilderCall.start_done]
    cases hr : b.result with
    | error f => exact hb
    | ok v => exact h.close hb hr
  cases c with
  | edit e =>
    rw [BuilderCall.effects, e.start_run, BuilderCall.start_edit]
    cases ho : e.outcome b with
    | error f =>
      change P (es ++ []) b
      rwa [List.append_nil]
    | ok r => exact h.edit hb hc ho
  | insertAll xs =>
    rw [BuilderCall.effects, BuilderCall.start_insertAll]
    split
    · next hclosed =>
      obtain ⟨v, hv⟩ := BuilderOf.eq_close_of_isClosed hclosed
      rw [hv, insertEffects_close, ← hv, List.append_nil]
      exact hb
    · exact h.insertRun hc hb
  | done => exact hdone
  | finish => exact hdone

/-- An invariant is kept by every sequence of calls. -/
theorem run (h : Invariant good P) {calls : List (BuilderCall k)}
    (hc : ∀ c ∈ calls, ∀ x ∈ c.values, good x) (hb : P es b) :
    P (es ++ effects calls b) (builderAfter calls b) := by
  induction calls generalizing es b with
  | nil => rwa [effects, List.append_nil]
  | cons c cs ih =>
    obtain ⟨hc, hcs⟩ := List.forall_mem_cons.1 hc
    have hrest : P (es ++ c.effects b ++ effects cs (c.run.start b).val.2) _ :=
      ih hcs (h.call hc hb)
    rwa [List.append_assoc] at hrest

theorem run_start (h : Invariant good P) {calls : List (BuilderCall k)}
    (hc : ∀ c ∈ calls, ∀ x ∈ c.values, good x) (hb : P [] b) :
    P (effects calls b) (builderAfter calls b) :=
  h.run hc hb

end Invariant

/-! ## Builders of any kind -/

namespace Action

variable {σ τ α : Type}

/-- The run of an action on a part of a state, given that on the part. -/
def lifted (whole : τ → σ) (r : Logged (Except Fault α × τ)) : Logged (Except Fault α × σ) :=
  ⟨(r.val.1, whole r.val.2), r.log⟩

theorem start_within (x : Action τ α) (part : τ) (whole : τ → σ) (s : σ) :
    (x.within part whole).start s = lifted whole (x.start part) := by
  unfold within
  rw [start_bind, start_logged]
  obtain ⟨⟨e | a, t⟩, log⟩ := x.start part
  · exact congrArg (Logged.mk _) (List.append_nil log)
  · exact congrArg (Logged.mk _) (List.append_nil log)

end Action

namespace Builder

variable (b : BuilderOf k)

theorem start_insert (x : Value) : (insert x).start b.toBuilder =
    lifted BuilderOf.toBuilder ((Edit.insert x).run.start b) := by
  cases k <;> exact start_within _ _ _ _

theorem start_done : done.start b.toBuilder =
    lifted BuilderOf.toBuilder (BuilderOf.done.start b) := by
  cases k <;> exact start_within _ _ _ _

theorem start_forM_insert (xs : List Value) : (xs.forM insert).start b.toBuilder =
    lifted BuilderOf.toBuilder ((xs.forM fun x => (Edit.insert x).run).start b) := by
  induction xs generalizing b with
  | nil => rfl
  | cons x xs ih =>
    simp only [List.forM_eq_forM, List.forM_cons, start_bind, start_insert] at ih ⊢
    obtain ⟨⟨e | u, b'⟩, log⟩ := (Edit.insert x).run.start b
    · rfl
    · exact congrArg (fun r => (⟨r.val, log ++ r.log⟩ : Logged _)) (ih b')

theorem start_insertAll (xs : List Value) : (insertAll xs).start b.toBuilder =
    lifted BuilderOf.toBuilder ((BuilderOf.insertAll xs).start b) := by
  have hkind : b.toBuilder.kind = k := by cases k <;> rfl
  unfold insertAll BuilderOf.insertAll insertEach
  simp only [start_get_bind, hkind]
  have hclosed : b.toBuilder.isClosed = b.isClosed := rfl
  rw [hclosed]
  split
  · rfl
  · exact start_forM_insert b xs

end Builder

end ValueLattice

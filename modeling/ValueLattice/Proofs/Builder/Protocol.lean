import ValueLattice.Proofs.Builder.Run
/-!
# The protocol of builders

A builder is closed by the first call that produces its value, and never opened again. An
operation that fails, on an open or on a closed builder, is as if it had not been called; only
the insertion of several values keeps those before the failure.

* `runCalls_close`: what a closed builder answers;
* `closed_for_good`: the protocol from the production of the value on;
* `BuilderCall.exists_of_insertRun_eq_error`, `BuilderCall.insertRun_eq_error`: where a series of
  insertions fails;
* `failure_has_no_effect`: what a failure leaves.
-/

namespace ValueLattice

open ValueLattice.Action

variable {k : BuilderKind}

/-! ## Closed builders -/

/-- What a builder closed with `v` answers. -/
def BuilderCall.closedAnswer (v : Value) : BuilderCall k → Except Fault (Option Value)
  | edit _ | insertAll _ => .error (.finished k)
  | done | finish => .ok (some v)

theorem BuilderCall.start_close (c : BuilderCall k) (b : BuilderOf k) (v : Value) :
    c.run.start (b.close v) = ⟨(c.closedAnswer v, b.close v), []⟩ := by
  have hdone : (done : BuilderCall k).run.start (b.close v) = ⟨(.ok (some v), b.close v), []⟩ := by
    rw [start_done, BuilderOf.result_close]
    simp only [Except.map, commit, BuilderOf.close_close, BuilderOf.doneEvents_close]
  cases c with
  | edit e =>
    rw [start_edit, BuilderOf.outcome_close]
    rfl
  | insertAll xs =>
    rw [start_insertAll, BuilderOf.isClosed_close]
    rfl
  | done => exact hdone
  | finish => exact hdone

/-- Calls of a closed builder leave it as it is. -/
theorem runCalls_close (calls : List (BuilderCall k)) (b : BuilderOf k) (v : Value) :
    runCalls calls (b.close v) = ⟨(calls.map (BuilderCall.closedAnswer v), b.close v), []⟩ := by
  induction calls with
  | nil => rfl
  | cons c cs ih =>
    rw [runCalls_cons, c.start_close b v, ih]
    rfl

/-- Once a builder has produced a value it stays closed with it: every change fails and has no
effect, every call for the value returns the same one, and the size is that of the value, as it
was before the builder was closed. -/
theorem closed_for_good {b b' : BuilderOf k} {v : Value} (h : BuilderOf.done.Returns b v b') :
    b'.isClosed = true ∧ b'.size = b.size ∧ b'.size = v.count ∧
      ∀ calls : List (BuilderCall k),
        runCalls calls b' = ⟨(calls.map (BuilderCall.closedAnswer v), b'), []⟩ := by
  obtain ⟨hv, rfl⟩ := BuilderOf.returns_done.1 h
  refine ⟨BuilderOf.isClosed_close b v, ?_, BuilderOf.size_close b v,
    fun calls => runCalls_close calls b v⟩
  rw [BuilderOf.size_close, BuilderOf.size_of_result hv]

theorem closed_for_good_oneTwo :
    let b : BuilderOf .list := (⟨.inferred .int, .opened [.int 1, .int 2]⟩ : ListBuilder)
    let v : Value := .list .int [.int 1, .int 2]
    BuilderOf.done.Returns b v (b.close v) ∧ (b.close v).size = b.size ∧
      runCalls [.insertAll [], .edit (.replaceAt 7 (.int 3)), .finish] (b.close v) =
        ⟨([.error (.finished .list), .error (.finished .list), .ok (some v)], b.close v), []⟩ := by
  intro b v
  have h : BuilderOf.done.Returns b v (b.close v) := rfl
  exact ⟨h, (closed_for_good h).2.1, (closed_for_good h).2.2.2 _⟩

/-! ## Failures -/

/-- The insertion of values by a call for each. -/
def BuilderCall.inserts (xs : List Value) : List (BuilderCall k) := xs.map fun x => edit (.insert x)

/-- A series of insertions that fails does so at the insertion of one value, and leaves what the
insertions before it leave. -/
theorem BuilderCall.exists_of_insertRun_eq_error {xs : List Value} {b b' : BuilderOf k} {f : Fault}
    {log : List Widening} (h : insertRun xs b = ⟨(.error f, b'), log⟩) :
    ∃ i x, xs[i]? = some x ∧
      runCalls (inserts (xs.take i)) b = ⟨(List.replicate i (.ok none), b'), log⟩ ∧
      (Edit.insert x).run.start b' = ⟨(.error f, b'), []⟩ := by
  induction xs generalizing b log with
  | nil => nomatch h
  | cons y xs ih =>
    cases ho : (Edit.insert y).outcome b with
    | error g =>
      rw [insertRun, ho] at h
      cases h
      refine ⟨0, y, rfl, rfl, ?_⟩
      rw [Edit.start_run, ho]
      rfl
    | ok r =>
      rw [insertRun, ho] at h
      obtain ⟨hv, rfl⟩ := Logged.mk.inj h
      obtain ⟨i, x, hx, hr, hf⟩ := ih (congrArg (Logged.mk · (insertRun xs r.state).log) hv)
      refine ⟨i + 1, x, hx, (runCalls_edit_of_ok ho (inserts (xs.take i))).trans ?_, hf⟩
      rw [hr]
      rfl

/-- A series of insertions fails where the insertion of one value does after those before it. -/
theorem BuilderCall.insertRun_eq_error {xs : List Value} {b b' : BuilderOf k} {f : Fault}
    {log : List Widening} {i : Nat} {x : Value} (hx : xs[i]? = some x)
    (hr : runCalls (inserts (xs.take i)) b = ⟨(List.replicate i (.ok none), b'), log⟩)
    (hf : (Edit.insert x).run.start b' = ⟨(.error f, b'), []⟩) :
    insertRun xs b = ⟨(.error f, b'), log⟩ := by
  rw [Edit.start_run, commit_eq_error] at hf
  induction xs generalizing b log i with
  | nil => nomatch hx
  | cons y xs ih =>
    cases i with
    | zero =>
      cases hr
      cases hx
      rw [insertRun, hf.1]
    | succ i =>
      cases ho : (Edit.insert y).outcome b with
      | error g => cases (runCalls_edit_of_error ho (inserts (xs.take i))).symm.trans hr
      | ok r =>
        obtain ⟨hv, rfl⟩ :=
          Logged.mk.inj ((runCalls_edit_of_ok ho (inserts (xs.take i))).symm.trans hr)
        obtain ⟨ha, rfl⟩ := Prod.mk.inj hv
        have hrest : runCalls (inserts (xs.take i)) r.state =
            ⟨(List.replicate i (.ok none), (runCalls (inserts (xs.take i)) r.state).val.2),
              (runCalls (inserts (xs.take i)) r.state).log⟩ :=
          congrArg (fun as => (⟨(as, _), _⟩ : Logged _)) (List.cons.inj ha).2
        rw [insertRun, ho]
        simp only [ih hx hrest]

/-- What fails has no effect: a change and the production of the value leave the builder as it
is, without an event, and the latter leaves it open; several insertions leave it as do those
before the one that fails. -/
theorem failure_has_no_effect (b b' : BuilderOf k) (f : Fault) (log : List Widening) :
    (∀ e : Edit k, e.run.start b = ⟨(.error f, b'), log⟩ → b' = b ∧ log = []) ∧
    (BuilderOf.done.start b = ⟨(.error f, b'), log⟩ → b' = b ∧ log = [] ∧ b.isClosed = false) ∧
    (∀ xs, (BuilderCall.insertAll xs).run.start b = ⟨(.error f, b'), log⟩ ↔
      (b.isClosed = true ∧ f = .finished k ∧ b' = b ∧ log = []) ∨
      (b.isClosed = false ∧ ∃ i x, xs[i]? = some x ∧
        runCalls (BuilderCall.inserts (xs.take i)) b = ⟨(List.replicate i (.ok none), b'), log⟩ ∧
        (Edit.insert x).run.start b' = ⟨(.error f, b'), []⟩)) := by
  refine ⟨fun e h => ?_, fun h => ?_, fun xs => ?_⟩
  · rw [e.start_run, commit_eq_error] at h
    exact h.2
  · rw [BuilderOf.start_done, commit_eq_error] at h
    refine ⟨h.2.1, h.2.2, Bool.eq_false_iff.2 fun hb => ?_⟩
    obtain ⟨v, hv⟩ := BuilderOf.eq_close_of_isClosed hb
    rw [hv, BuilderOf.result_close] at h
    nomatch h.1
  · rw [BuilderCall.start_insertAll]
    split
    · next hb =>
      constructor
      · rintro ⟨⟩
        exact .inl ⟨hb, rfl, rfl, rfl⟩
      · rintro (⟨-, rfl, rfl, rfl⟩ | ⟨ho, -⟩)
        · rfl
        · rw [hb] at ho
          nomatch ho
    · next hb =>
      constructor
      · intro h
        exact .inr ⟨Bool.eq_false_iff.2 hb, BuilderCall.exists_of_insertRun_eq_error h⟩
      · rintro (⟨hc, -⟩ | ⟨-, i, x, hx, hr, hf⟩)
        · exact absurd hc hb
        · exact BuilderCall.insertRun_eq_error hx hr hf

theorem failure_has_no_effect_pair :
    let row : Row := .plain [.int, .str]
    let b : BuilderOf .tuple := (⟨some row, .opened []⟩ : TupleBuilder)
    let b' : BuilderOf .tuple := (⟨some row, .opened [.int 1]⟩ : TupleBuilder)
    let inserted := (Edit.insert (.str "a")).run.start b
    let made := BuilderOf.done.start b'
    (inserted.val.1 = .error (.notBelow .int .str) ∧ inserted.val.2 = b ∧ inserted.log = []) ∧
      (made.val.1 = .error (.shape .tupleBuilder 2 1) ∧ made.val.2 = b' ∧ made.log = [] ∧
        b'.isClosed = false) ∧
      (BuilderCall.insertAll [.int 1, .int 2, .str "a"]).run.start b =
        ⟨(.error (.notBelow .str .int), b'), []⟩ ∧
      ∃ i x, [Value.int 1, .int 2, .str "a"][i]? = some x ∧
        runCalls (BuilderCall.inserts ([Value.int 1, .int 2, .str "a"].take i)) b =
          ⟨(List.replicate i (.ok none), b'), []⟩ ∧
        (Edit.insert x).run.start b' = ⟨(.error (.notBelow .str .int), b'), []⟩ := by
  intro row b b' inserted made
  -- that these fail is seen by evaluation, and what they leave is the general statement
  have hedit : inserted = ⟨(.error (.notBelow .int .str), inserted.val.2), inserted.log⟩ := rfl
  have hdone : made = ⟨(.error (.shape .tupleBuilder 2 1), made.val.2), made.log⟩ := rfl
  have hall : (BuilderCall.insertAll [.int 1, .int 2, .str "a"]).run.start b =
      ⟨(.error (.notBelow .str .int), b'), []⟩ := rfl
  refine ⟨⟨rfl, (failure_has_no_effect b _ _ _).1 _ hedit⟩,
    ⟨rfl, (failure_has_no_effect b' _ _ _).2.1 hdone⟩, hall, ?_⟩
  rcases ((failure_has_no_effect b b' _ _).2.2 _).1 hall with ⟨hclosed, -⟩ | ⟨-, h⟩
  · nomatch hclosed
  · exact h

end ValueLattice

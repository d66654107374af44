import Mathlib.Data.List.Forall2
import ValueLattice.Widening
/-!
# Results of computations

A computation that may fail is opened at its steps: a sequence returns a result exactly when its
first step returns something from which the rest returns that result.

* `Checked.Returns`: the computation succeeds with a result;
* `Action.Returns`: the action succeeds with a result and leaves a state;
* `Action.after`: the state that an action leaves, also where it fails;
* `Action.Keeps`: what an action keeps of the state, also where it fails, and what it answers;
* `bind_eq_ok`, `Checked.returns_bind`, `Action.returns_bind`: sequences, step by step;
* `forall₂_of_mapM`, `forall₂_of_mapM₂`: one step for each element of a list.

Where the log and what a failure leaves matter, a computation is run instead.

* `Checked.start_bind`, `Action.start_bind`: the run of a sequence;
* `Effect`, `Action.commit`: the run of an action that takes effect as a whole or not at all;
* `Action.start_except_bind`, `Action.start_map`: such an action after a check, and under a
  function of its answer.
-/

namespace ValueLattice

theorem bind_eq_ok {ε α β : Type} {x : Except ε α} {f : α → Except ε β} {b : β} :
    x >>= f = .ok b ↔ ∃ a, x = .ok a ∧ f a = .ok b := by
  cases x <;> simp [bind, Except.bind]

theorem pure_eq_ok {ε α : Type} {a b : α} : (pure a : Except ε α) = .ok b ↔ a = b :=
  ⟨Except.ok.inj, congrArg _⟩

theorem forall₂_of_mapM {ε α β : Type} {f : α → Except ε β} {as : List α} {bs : List β}
    (h : as.mapM f = .ok bs) : List.Forall₂ (fun a b => f a = .ok b) as bs := by
  induction as generalizing bs with
  | nil => exact pure_eq_ok.1 h ▸ .nil
  | cons a as ih =>
    rw [List.mapM_cons, bind_eq_ok] at h
    obtain ⟨b, hb, h⟩ := h
    obtain ⟨bs', hbs, h⟩ := bind_eq_ok.1 h
    exact pure_eq_ok.1 h ▸ .cons hb (ih hbs)

theorem exists_of_mem_mapM {ε α β : Type} {f : α → Except ε β} {as : List α} {bs : List β} {b : β}
    (h : as.mapM f = .ok bs) (hb : b ∈ bs) : ∃ a ∈ as, f a = .ok b := by
  have hall : List.Forall₂ (fun a b => f a = .ok b) as bs := forall₂_of_mapM h
  obtain ⟨i, hi, rfl⟩ := List.getElem_of_mem hb
  have hj : i < as.length := hall.length_eq ▸ hi
  exact ⟨as[i], List.getElem_mem hj, hall.get hj hi⟩

theorem exists_mapM_iff {ε α β : Type} {f : α → Except ε β} {as : List α} :
    (∃ bs, as.mapM f = .ok bs) ↔ ∀ a ∈ as, ∃ b, f a = .ok b := by
  induction as with
  | nil => exact ⟨fun _ => nofun, fun _ => ⟨[], rfl⟩⟩
  | cons a as ih =>
    simp only [List.mapM_cons, bind_eq_ok, pure_eq_ok, List.forall_mem_cons, ← ih]
    constructor
    · rintro ⟨_, b, hb, bs, hbs, -⟩
      exact ⟨⟨b, hb⟩, bs, hbs⟩
    · rintro ⟨⟨b, hb⟩, bs, hbs⟩
      exact ⟨b :: bs, b, hb, bs, hbs, rfl⟩

theorem forM_eq_ok {ε α : Type} {f : α → Except ε Unit} {as : List α} :
    as.forM f = .ok () ↔ ∀ a ∈ as, f a = .ok () := by
  induction as with
  | nil => exact ⟨fun _ => nofun, fun _ => rfl⟩
  | cons a as ih =>
    simp only [List.forM_eq_forM, List.forM_cons, List.forall_mem_cons] at ih ⊢
    rw [bind_eq_ok, ih]
    exact ⟨fun ⟨_, ha, has⟩ => ⟨ha, has⟩, fun ⟨ha, has⟩ => ⟨⟨⟩, ha, has⟩⟩

/-- Two computations at the same places give related results when they do so at each place. -/
theorem forall₂_of_mapM₂ {ε ι α β : Type} {R : α → β → Prop} {f : ι → Except ε α}
    {g : ι → Except ε β} {is : List ι} {as : List α} {bs : List β}
    (h : ∀ i a b, f i = .ok a → g i = .ok b → R a b) (hf : is.mapM f = .ok as)
    (hg : is.mapM g = .ok bs) : List.Forall₂ R as bs := by
  have has : List.Forall₂ (fun i a => f i = .ok a) is as := forall₂_of_mapM hf
  have hbs : List.Forall₂ (fun i b => g i = .ok b) is bs := forall₂_of_mapM hg
  clear hf hg
  induction has generalizing bs with
  | nil =>
    cases hbs
    exact .nil
  | cons ha has ih =>
    cases hbs with
    | cons hb hbs => exact .cons (h _ _ _ ha hb) (ih hbs)

namespace Checked

variable {α β : Type}

theorem start_pure (a : α) : (pure a : Checked α).start = ⟨.ok a, []⟩ := rfl

theorem start_logged (x : Logged α) : (liftM x : Checked α).start = ⟨.ok x.val, x.log⟩ :=
  congrArg (Logged.mk _) (List.append_nil x.log)

theorem start_bind (x : Checked α) (f : α → Checked β) :
    (x >>= f).start = match x.start.val with
      | .ok a => ⟨(f a).start.val, x.start.log ++ (f a).start.log⟩
      | .error e => ⟨.error e, x.start.log⟩ := by
  change (⟨(ExceptT.bindCont f x.start.val).val,
    x.start.log ++ (ExceptT.bindCont f x.start.val).log⟩ : Logged (Except Fault β)) = _
  cases x.start.val with
  | ok a => rfl
  | error e => exact congrArg (Logged.mk _) (List.append_nil _)

/-- The computation succeeds with `a`. -/
def Returns (x : Checked α) (a : α) : Prop := x.start.val = .ok a

theorem fails_iff {x : Checked α} : (∃ e, x.start.val = .error e) ↔ ¬ ∃ a, x.Returns a := by
  unfold Returns
  cases x.start.val <;> simp

@[simp] theorem returns_pure {a b : α} : Returns (pure a) b ↔ a = b :=
  ⟨Except.ok.inj, congrArg _⟩

@[simp] theorem returns_throw {e : Fault} {a : α} : ¬ Returns (throw e) a := nofun

@[simp] theorem returns_logged {x : Logged α} {a : α} :
    Returns (liftM x : Checked α) a ↔ x.val = a :=
  ⟨Except.ok.inj, congrArg _⟩

@[simp] theorem returns_except {x : Except Fault α} {a : α} :
    Returns (liftM x : Checked α) a ↔ x = .ok a := Iff.rfl

@[simp] theorem returns_bind {x : Checked α} {f : α → Checked β} {b : β} :
    Returns (x >>= f) b ↔ ∃ a, Returns x a ∧ Returns (f a) b := by
  unfold Returns
  rw [start_bind]
  cases x.start.val <;> simp

end Checked

namespace Action

variable {σ α β : Type}

theorem start_get (s : σ) : (get : Action σ σ).start s = ⟨(.ok s, s), []⟩ := rfl

theorem start_set (s t : σ) : (set t : Action σ PUnit).start s = ⟨(.ok ⟨⟩, t), []⟩ := rfl

theorem start_except (x : Except Fault α) (s : σ) :
    (liftM x : Action σ α).start s = ⟨(x, s), []⟩ := rfl

theorem start_checked (x : Checked α) (s : σ) :
    (liftM x : Action σ α).start s = ⟨(x.start.val, s), x.start.log⟩ :=
  congrArg (Logged.mk _) (List.append_nil x.start.log)

theorem start_logged (x : Logged α) (s : σ) :
    (liftM x : Action σ α).start s = ⟨(.ok x.val, s), x.log⟩ :=
  (start_checked (liftM x) s).trans (congrArg (Logged.mk _) (List.append_nil x.log))

theorem start_bind (x : Action σ α) (f : α → Action σ β) (s : σ) :
    (x >>= f).start s = match (x.start s).val with
      | (.ok a, t) => ⟨((f a).start t).val, (x.start s).log ++ ((f a).start t).log⟩
      | (.error e, t) => ⟨(.error e, t), (x.start s).log⟩ := by
  change (⟨(StateT.run (ExceptT.bindCont f (x.start s).val.1) (x.start s).val.2).val,
    (x.start s).log ++ (StateT.run (ExceptT.bindCont f (x.start s).val.1) (x.start s).val.2).log⟩ :
    Logged (Except Fault β × σ)) = _
  rcases (x.start s).val with ⟨e | a, t⟩
  · exact congrArg (Logged.mk _) (List.append_nil _)
  · rfl

/-- The action succeeds from state `s` with `a` and leaves `s'`. -/
def Returns (x : Action σ α) (s : σ) (a : α) (s' : σ) : Prop := (x.start s).val = (.ok a, s')

@[simp] theorem returns_pure {a b : α} {s s' : σ} :
    Returns (pure a) s b s' ↔ a = b ∧ s = s' := by
  change (Except.ok a, s) = (Except.ok b, s') ↔ _
  simp

@[simp] theorem returns_throw {e : Fault} {a : α} {s s' : σ} :
    ¬ Returns (throw e) s a s' := nofun

@[simp] theorem returns_get {s t s' : σ} : Returns get s t s' ↔ s = t ∧ s = s' := by
  change (Except.ok s, s) = (Except.ok t, s') ↔ _
  simp

@[simp] theorem returns_set {s t s' : σ} {u : PUnit} :
    Returns (set t) s u s' ↔ t = s' := by
  change (Except.ok PUnit.unit, t) = (Except.ok u, s') ↔ _
  simp

@[simp] theorem returns_logged {x : Logged α} {a : α} {s s' : σ} :
    Returns (liftM x : Action σ α) s a s' ↔ x.val = a ∧ s = s' := by
  change (Except.ok x.val, s) = (Except.ok a, s') ↔ _
  simp

@[simp] theorem returns_bind {x : Action σ α} {f : α → Action σ β} {b : β} {s s' : σ} :
    Returns (x >>= f) s b s' ↔ ∃ a t, Returns x s a t ∧ Returns (f a) t b s' := by
  unfold Returns
  rw [start_bind]
  rcases (x.start s).val with ⟨e | a, t⟩
  · simp
  · simp only [Prod.mk.injEq, Except.ok.injEq]
    constructor
    · intro hb
      exact ⟨a, t, ⟨rfl, rfl⟩, hb⟩
    · rintro ⟨_, _, ⟨rfl, rfl⟩, hb⟩
      exact hb

theorem Returns.unique {x : Action σ α} {s s' t' : σ} {a b : α} (h : Returns x s a s')
    (h' : Returns x s b t') : a = b ∧ s' = t' := by
  have heq : (Except.ok a, s') = ((Except.ok b, t') : Except Fault α × σ) := h.symm.trans h'
  simpa using heq

/-- The state that the action leaves, whether or not it succeeds. -/
def after (x : Action σ α) (s : σ) : σ := (x.start s).val.2

theorem after_eq_of_returns {x : Action σ α} {s s' : σ} {a : α} (h : Returns x s a s') :
    x.after s = s' :=
  congrArg Prod.snd h

/-- A transitive relation between states goes through a sequence from step to step. -/
theorem after_bind {R : σ → σ → Prop} (hR : ∀ {s t u}, R s t → R t u → R s u) {x : Action σ α}
    {f : α → Action σ β} {s : σ} (hx : R s (x.after s)) (hf : ∀ a t, R t ((f a).after t)) :
    R s ((x >>= f).after s) := by
  unfold after at hx ⊢
  rw [start_bind]
  generalize (x.start s).val = r at hx ⊢
  obtain ⟨e | a, t⟩ := r
  · exact hx
  · exact hR hx (hf a t)

/-- The action keeps the property `I` of states, whether or not it succeeds, and answers with
`Q`. -/
def Keeps (I : σ → Prop) (x : Action σ α) (Q : α → Prop) : Prop :=
  ∀ s, I s → I (x.after s) ∧ ∀ a t, Returns x s a t → Q a

namespace Keeps

variable {I : σ → Prop} {Q : α → Prop} {R : β → Prop} {x : Action σ α} {f : α → Action σ β}

theorem pure {a : α} (h : Q a) : Keeps I (pure a) Q := by
  refine fun s hs => ⟨hs, fun b t hb => ?_⟩
  obtain ⟨rfl, -⟩ := returns_pure.1 hb
  exact h

theorem throw (e : Fault) : Keeps I (throw e : Action σ α) Q := fun _ hs => ⟨hs, nofun⟩

theorem bind (hx : Keeps I x Q) (hf : ∀ a, Q a → Keeps I (f a) R) : Keeps I (x >>= f) R := by
  intro s hs
  obtain ⟨hafter, hanswer⟩ := hx s hs
  constructor
  · unfold after at hafter ⊢
    rw [start_bind]
    cases hrun : (x.start s).val with
    | mk answer t =>
      rw [hrun] at hafter
      cases answer with
      | error e => exact hafter
      | ok a => exact (hf a (hanswer a t hrun) t hafter).1
  · intro b u hb
    obtain ⟨a, t, ha, hb⟩ := returns_bind.1 hb
    rw [after_eq_of_returns ha] at hafter
    exact (hf a (hanswer a t ha) t hafter).2 b u hb

theorem map {g : α → β} (hx : Keeps I x Q) (hg : ∀ a, Q a → R (g a)) :
    Keeps I (do return g (← x)) R :=
  hx.bind fun a ha => .pure (hg a ha)

end Keeps

end Action

/-! ## Actions that take effect as a whole -/

/-- What a successful action comes to: its answer, the state that it leaves and its log. -/
structure Effect (σ α : Type) where
  answer : α
  state : σ
  log : List Widening

/-- The effect with another answer. -/
def Effect.map {σ α β : Type} (f : α → β) (r : Effect σ α) : Effect σ β :=
  ⟨f r.answer, r.state, r.log⟩

namespace Action

variable {σ α β : Type} {s t : σ} {x : Action σ α} {r : Except Fault (Effect σ α)} {a : α}
  {e : Fault} {log : List Widening}

/-- The run from `s` of an action that takes effect as a whole: a failure leaves `s` and logs
nothing. -/
def commit (s : σ) : Except Fault (Effect σ α) → Logged (Except Fault α × σ)
  | .ok r => ⟨(.ok r.answer, r.state), r.log⟩
  | .error e => ⟨(.error e, s), []⟩

theorem commit_eq_error : commit s r = ⟨(.error e, t), log⟩ ↔
    r = .error e ∧ t = s ∧ log = [] := by
  cases r <;> simp [commit, eq_comm, and_assoc]

theorem start_get_bind (f : σ → Action σ α) : (get >>= f).start s = (f s).start s := rfl

/-- A check before an action that takes effect as a whole. -/
theorem start_except_bind {x : Except Fault β} {f : β → Action σ α}
    {g : β → Except Fault (Effect σ α)} (h : ∀ b, (f b).start s = commit s (g b)) :
    ((liftM x : Action σ β) >>= f).start s = commit s (x >>= g) := by
  cases x with
  | error e => rfl
  | ok b => exact h b

/-- A check of the state before an action that takes effect as a whole. -/
theorem start_get_except {x : σ → Except Fault β} {f : σ → β → Action σ α}
    {g : β → Except Fault (Effect σ α)} (h : ∀ b, (f s b).start s = commit s (g b)) :
    (get >>= fun s => (liftM (x s) : Action σ β) >>= f s).start s = commit s (x s >>= g) :=
  start_except_bind h

/-- A function of the answer of an action that takes effect as a whole. -/
theorem start_map (h : x.start s = commit s r) (f : α → β) :
    (x >>= fun a => pure (f a)).start s = commit s (r.map (Effect.map f)) := by
  rw [start_bind, h]
  cases r with
  | error e => rfl
  | ok r => exact congrArg (Logged.mk _) (List.append_nil r.log)

end Action

end ValueLattice

import ValueLattice.Ty.Clash
/-!
# Widenings

Joins and builders may widen types, at the worst to the top. Each such event is a `Widening`.
Computations that join types return the events beside their results, in the order in which
they happen: `Logged α` is a result with its log. A `Collector` keeps the logs of the
computations run while it is enabled.

* `Widening`, `Widening.text`: the events and their wording;
* `Logged`: a result with a log; `Ty.join`: the join of two types with its log;
* `Action`: a computation that changes a state, may fail and keeps a log; a failure keeps the
  changes and the log made before it;
* `Collector`, `Collector.record`: the collected events.
-/

namespace ValueLattice

/-- The events in which a type is widened. -/
inductive Widening
  /-- The join of two types without a common shape fell to the top. -/
  | fellToTop (left right : Ty)
  /-- The inferred element type of a builder changed. -/
  | elementWidened (kind : BuilderKind) (before after : Ty)
  /-- A set builder with the inferred element type `element` produced a relation. -/
  | inferredRelation (element : Ty)
  deriving DecidableEq

namespace Widening

/-- The text of the type that an event ends in. -/
def resultText : Widening → String
  | fellToTop .. => Ty.value.text
  | elementWidened _ _ t => t.text
  | inferredRelation e => "rel[" ++ (e.row?.map Row.text).getD "" ++ "]"

/-- The wording of the cause of an event. -/
def causeText : Widening → String
  | fellToTop l r => "no common structure between " ++ l.text ++ " and " ++ r.text
  | elementWidened k s t =>
    k.name ++ " writer element type widened from " ++ s.text ++ " to " ++ t.text
  | inferredRelation e => "inferred set of " ++ e.text ++ " finalized as a relation"

/-- The wording of an event. -/
def text (w : Widening) : String :=
  "type widening: " ++ w.causeText ++ " -> " ++ w.resultText

end Widening

/-! ## Results with a log -/

/-- A result with the events that happened on the way to it. -/
structure Logged (α : Type) where
  val : α
  log : List Widening

namespace Logged

instance : Monad Logged where
  pure a := ⟨a, []⟩
  bind x f := ⟨(f x.val).val, x.log ++ (f x.val).log⟩

@[simp] theorem pure_val {α : Type} (a : α) : (pure a : Logged α).val = a := rfl

@[simp] theorem pure_log {α : Type} (a : α) : (pure a : Logged α).log = [] := rfl

@[simp] theorem bind_val {α β : Type} (x : Logged α) (f : α → Logged β) :
    (x >>= f).val = (f x.val).val := rfl

@[simp] theorem bind_log {α β : Type} (x : Logged α) (f : α → Logged β) :
    (x >>= f).log = x.log ++ (f x.val).log := rfl

instance : LawfulMonad Logged :=
  LawfulMonad.mk' _
    (fun x => congrArg (Logged.mk x.val) (List.append_nil x.log))
    (fun _ _ => rfl)
    (fun x f g => congrArg (Logged.mk _)
      (List.append_assoc x.log (f x.val).log (g (f x.val).val).log))

/-- Records one event. -/
def event (w : Widening) : Logged Unit := ⟨(), [w]⟩

end Logged

/-- The join of two types, with an event for each pair of shapes at which it falls to the top. -/
def Ty.join (a b : Ty) : Logged Ty :=
  ⟨a.lub b, (a.clashes b).map fun p => .fellToTop p.1 p.2⟩

/-- The join of all types of a list and `start`, from the left. -/
def Ty.joinAll (start : Ty) (ts : List Ty) : Logged Ty :=
  ts.foldlM Ty.join start

/-- The join of two rows, with its events, where their lengths agree. -/
def Row.join? (r s : Row) : Logged (Option Row) :=
  ⟨r.lub? s, (Ty.clashesRows r s).map fun p => .fellToTop p.1 p.2⟩

@[simp] theorem Ty.join_val (a b : Ty) : (a.join b).val = a.lub b := rfl

/-- The result of joining a list of types is their join from the left. -/
theorem Ty.joinAll_val (start : Ty) (ts : List Ty) :
    (Ty.joinAll start ts).val = ts.foldl Ty.lub start := by
  induction ts generalizing start with
  | nil => rfl
  | cons t ts ih => exact ih (start.lub t)

@[simp] theorem Row.join?_val (r s : Row) : (r.join? s).val = r.lub? s := rfl

/-! ## Computations -/

/-- A computation with a log that may fail. -/
abbrev Checked (α : Type) := ExceptT Fault Logged α

/-- A computation on a state with a log that may fail. What it changed and logged before it
failed is kept. -/
abbrev Action (σ α : Type) := ExceptT Fault (StateT σ Logged) α

/-- Runs an action from a state: its answer, the state it leaves and its log. -/
def Action.start {σ α : Type} (x : Action σ α) (s : σ) : Logged (Except Fault α × σ) :=
  StateT.run (ExceptT.run x) s

/-- Runs a checked computation: its answer and its log. -/
def Checked.start {α : Type} (x : Checked α) : Logged (Except Fault α) := ExceptT.run x

instance {σ : Type} : MonadLift Checked (Action σ) :=
  ⟨fun x => ExceptT.mk (StateT.lift x.run)⟩

/-! ## Collection -/

/-- The collected events. -/
structure Collector where
  enabled : Bool
  events : List Widening

namespace Collector

/-- The collector before any use: disabled and empty. -/
def empty : Collector := ⟨false, []⟩

/-- Adds the events of a log, in order, if the collector is enabled. -/
def record (c : Collector) (log : List Widening) : Collector :=
  if c.enabled then { c with events := c.events ++ log } else c

/-- Lets the collector add events from now on. -/
def enable (c : Collector) : Collector := { c with enabled := true }

/-- Lets the collector pass over events from now on. -/
def disable (c : Collector) : Collector := { c with enabled := false }

/-- Drops the collected events. -/
def clear (c : Collector) : Collector := { c with events := [] }

end Collector

end ValueLattice

import Mathlib.Data.List.Chain
import ValueLattice.Proofs.Builder.Inference
/-!
# Reports of widened types

When an inferred type changes, the builder logs it, between the events of the join that changed it.
What is reported of a change is text: the kind of the builder, the type before and the type after.

The reports of a builder with one inferred type form a chain. Each begins where the one before it
ended, the first at the bottom, and the last ends at the type that the builder has. That is so since
the changes of a running join do (`Ty.changes`), and a builder reports these and nothing else: its
log is read off call by call, and a call reports the changes that the values make which it puts in.

* `Ty.changes`: the steps in which a running join changes;
* `Report`, `Widening.report?`, `reports`: what is reported, and the reports in a log;
* `Slot.reports_start`, `Slot.reports_runCalls`: the reports of a call, and of a sequence of calls;
* `reports_linked`: the chain, in the events that a collector keeps.
-/

namespace ValueLattice

open ValueLattice.Action

/-! ## Changes of a running join -/

namespace Ty

/-- The steps in which the join of `t` with the types of a list, one after the other, changes: each
with the join before and the join after it. -/
def changes (t : Ty) : List Ty → List (Ty × Ty)
  | [] => []
  | u :: us => if t.lub u = t then changes t us else (t, t.lub u) :: changes (t.lub u) us

variable {t u : Ty} {us : List Ty}

theorem changes_of_eq (h : t.lub u = t) : changes t (u :: us) = changes t us := if_pos h

theorem changes_of_ne (h : t.lub u ≠ t) :
    changes t (u :: us) = (t, t.lub u) :: changes (t.lub u) us := if_neg h

theorem changes_append (t : Ty) (us vs : List Ty) :
    changes t (us ++ vs) = changes t us ++ changes (us.foldl lub t) vs := by
  induction us generalizing t with
  | nil => rfl
  | cons u us ih =>
    rw [List.cons_append, List.foldl_cons]
    by_cases h : t.lub u = t
    · rw [changes_of_eq h, changes_of_eq h, ih, h]
    · rw [changes_of_ne h, changes_of_ne h, ih, List.cons_append]

/-- The first change begins at the type that the join begins with. -/
theorem fst_head?_changes (t : Ty) (us : List Ty) : ∀ p ∈ (changes t us).head?, p.1 = t := by
  induction us with
  | nil => nofun
  | cons u us ih =>
    by_cases h : t.lub u = t
    · rwa [changes_of_eq h]
    · rw [changes_of_ne h]
      intro p hp
      rw [← Option.some.inj hp]

/-- Each change begins where the one before it ended. -/
theorem isChain_changes (t : Ty) (us : List Ty) :
    (changes t us).IsChain fun p q => q.1 = p.2 := by
  induction us generalizing t with
  | nil => exact .nil
  | cons u us ih =>
    by_cases h : t.lub u = t
    · rw [changes_of_eq h]
      exact ih t
    · rw [changes_of_ne h]
      exact List.isChain_cons.2 ⟨fst_head?_changes (t.lub u) us, ih (t.lub u)⟩

/-- The last change ends at the join of all. -/
theorem snd_getLast?_changes (t : Ty) (us : List Ty) :
    ((changes t us).getLast?.map Prod.snd).getD t = us.foldl lub t := by
  induction us generalizing t with
  | nil => rfl
  | cons u us ih =>
    rw [List.foldl_cons, ← ih]
    by_cases h : t.lub u = t
    · rw [changes_of_eq h, h]
    · rw [changes_of_ne h, List.getLast?_cons]
      cases (changes (t.lub u) us).getLast? <;> rfl

end Ty

/-! ## Reports -/

/-- What is reported of a change of a type, as text: the kind of the builder, the type before and the
type after, and the type that the event ends in. -/
structure Report where
  kind : String
  before : String
  after : String
  result : String
  deriving DecidableEq

/-- The report of an event, if it is that the type of a builder was widened. -/
def Widening.report? : Widening → Option Report
  | elementWidened k s t => some ⟨k.name, s.text, t.text, (elementWidened k s t).resultText⟩
  | _ => none

/-- The reports in a log, in order. -/
def reports (log : List Widening) : List Report := log.filterMap Widening.report?

/-- The report that a builder of kind `k` makes of a change. -/
def Report.ofChange (k : BuilderKind) (p : Ty × Ty) : Report :=
  ⟨k.name, p.1.text, p.2.text, p.2.text⟩

theorem reports_append (l m : List Widening) : reports (l ++ m) = reports l ++ reports m :=
  List.filterMap_append

/-- A join by itself is not reported. -/
theorem reports_join (t u : Ty) : reports (t.join u).log = [] := by
  refine List.filterMap_eq_nil_iff.2 fun w hw => ?_
  obtain ⟨p, -, rfl⟩ := List.mem_map.1 hw
  rfl

/-- An element that an inferred type takes is reported exactly if the type changes. -/
theorem Bound.reports_events (k : BuilderKind) (t u : Ty) :
    reports ((inferred t).events k u) = (t.changes [u]).map (.ofChange k) := by
  rw [events, reports_append, reports_join, List.nil_append]
  by_cases h : t.lub u = t
  · rw [if_pos h, Ty.changes_of_eq h]
    rfl
  · rw [if_neg h, Ty.changes_of_ne h]
    rfl

/-! ## Calls -/

variable {k : BuilderKind}

theorem SetBuilder.reports_relationEvent (b : Bound) : reports (relationEvent b).log = [] := by
  unfold relationEvent
  split <;> rfl

/-- The production of the value is not reported. -/
theorem BuilderOf.reports_doneEvents (b : BuilderOf k) : reports b.doneEvents = [] := by
  cases k with
  | set =>
    change reports (if b.isClosed then [] else (SetBuilder.relationEvent b.bound).log) = []
    split
    · rfl
    · exact SetBuilder.reports_relationEvent b.bound
  | _ => rfl

/-- The calls of `b` that put in nothing, whatever they are given: those that produce the value,
deletions, changes that fail, and all calls once the builder is closed. -/
def BuilderCall.Idle (b : BuilderOf k) : BuilderCall k → Prop
  | edit e => (∃ x, e = .delete x) ∨ (∃ f, (e.run.start b).val.1 = .error f) ∨ b.isClosed = true
  | insertAll _ => b.isClosed = true
  | done | finish => True

namespace Slot

variable {s : Slot k} {b c : BuilderOf k} {es fs : List (Edit k)}

/-- The types of the values that changes put into a slot, in order. -/
def admittedTypes (s : Slot k) (es : List (Edit k)) : List Ty := (s.admitted es).map Value.ty

/-- The reports that are due where changes put values into a slot with an inferred type. -/
def due (s : Slot k) (b : BuilderOf k) (es : List (Edit k)) : List Report :=
  ((s.current b).changes (s.admittedTypes es)).map (.ofChange k)

/-- What is due for changes that lead from `b` to `c` and for further changes of `c`. -/
theorem due_append (h : s.current c = (s.admittedTypes es).foldl Ty.lub (s.current b)) :
    s.due b (es ++ fs) = s.due b es ++ s.due c fs := by
  rw [due, due, due, admittedTypes, admitted_append, List.map_append, Ty.changes_append,
    List.map_append, h]
  rfl

/-! ### Inferred types -/

theorem bound_eq (hb : (s.bound b).isInferred = true) : s.bound b = .inferred (s.current b) := by
  unfold current
  cases h : s.bound b with
  | declared t =>
    rw [h] at hb
    nomatch hb
  | inferred t => rfl

/-- What puts values into a slot with an inferred type leaves it at the join with their types. -/
theorem inferred_of_widenAll (hb : (s.bound b).isInferred = true)
    (h : s.bound c = (s.bound b).widenAll (s.admitted es)) :
    (s.bound c).isInferred = true ∧
      s.current c = (s.admittedTypes es).foldl Ty.lub (s.current b) := by
  rw [bound_eq hb, Bound.widenAll_inferred] at h
  rw [current, h]
  exact ⟨rfl, rfl⟩

theorem inferred_call (hb : (s.bound b).isInferred = true) (call : BuilderCall k) :
    (s.bound (call.run.start b).val.2).isInferred = true ∧
      s.current (call.run.start b).val.2 =
        (s.admittedTypes (call.effects b)).foldl Ty.lub (s.current b) := by
  refine inferred_of_widenAll hb ?_
  have hrun := s.bound_builderAfter [call] b
  rwa [effects, effects, List.append_nil] at hrun

/-! ### Builders with one slot -/

/-- The builders of all kinds but maps have one slot, if any. -/
theorem all_eq (s : Slot k) (hk : k ≠ .map) : all k = [s] := by
  cases s with
  | key => exact absurd rfl hk
  | val => exact absurd rfl hk
  | _ => rfl

section Single

variable (hk : k ≠ .map) (hb : (s.bound b).isInferred = true)

include hk hb

/-- A change with an effect reports what is due. -/
theorem reports_outcome {e : Edit k} {r : Effect (BuilderOf k) Unit} (h : e.outcome b = .ok r) :
    reports r.log = s.due b [e] := by
  rw [(taking_of_outcome h).log, s.all_eq hk, List.flatMap_singleton, events, due, admittedTypes,
    admitted, List.filterMap_cons]
  cases s.taken e with
  | none => rfl
  | some x =>
    rw [bound_eq hb]
    exact Bound.reports_events k (s.current b) x.ty

theorem reports_insertRun (xs : List Value) :
    reports (BuilderCall.insertRun xs b).log = s.due b (insertEffects xs b) := by
  induction xs generalizing b with
  | nil => rfl
  | cons x xs ih =>
    rw [BuilderCall.insertRun]
    cases h : (Edit.insert x).outcome b with
    | error f =>
      rw [insertEffects_of_error h]
      rfl
    | ok r =>
      obtain ⟨hr, hcurrent⟩ := inferred_of_widenAll hb ((taking_of_outcome h).bound s)
      rw [insertEffects_of_ok h, reports_append, reports_outcome hk hb h, ih hr,
        ← due_append hcurrent]
      rfl

/-- A call reports what is due. -/
theorem reports_start (call : BuilderCall k) :
    reports (call.run.start b).log = s.due b (call.effects b) := by
  have hdone : reports ((BuilderCall.done : BuilderCall k).run.start b).log = [] := by
    rw [BuilderCall.start_done]
    cases b.result with
    | error f => rfl
    | ok v => exact b.reports_doneEvents
  cases call with
  | edit e =>
    rw [BuilderCall.effects, e.start_run, BuilderCall.start_edit]
    cases h : e.outcome b with
    | error f => rfl
    | ok r => exact reports_outcome hk hb h
  | insertAll xs =>
    rw [BuilderCall.effects, BuilderCall.start_insertAll]
    split
    · next hclosed =>
      obtain ⟨v, hv⟩ := BuilderOf.eq_close_of_isClosed hclosed
      rw [hv, insertEffects_close]
      rfl
    · exact reports_insertRun hk hb xs
  | done => exact hdone
  | finish => exact hdone

/-- So does a sequence of calls. -/
theorem reports_runCalls (calls : List (BuilderCall k)) :
    reports (runCalls calls b).log = s.due b (effects calls b) := by
  induction calls generalizing b with
  | nil => rfl
  | cons call calls ih =>
    obtain ⟨hafter, hcurrent⟩ := inferred_call hb call
    rw [runCalls_cons, reports_append, reports_start hk hb, ih hafter, effects,
      due_append hcurrent]

end Single

theorem admitted_of_idle {call : BuilderCall k} (h : call.Idle b) :
    s.admitted (call.effects b) = [] := by
  cases call with
  | edit e =>
    rw [BuilderCall.effects, e.start_run]
    rcases h with ⟨x, rfl⟩ | ⟨f, hf⟩ | hclosed
    · cases (Edit.delete x).outcome b with
      | error f => rfl
      | ok r => cases s <;> rfl
    · rw [e.start_run] at hf
      rw [hf]
      rfl
    · obtain ⟨v, hv⟩ := BuilderOf.eq_close_of_isClosed hclosed
      rw [hv, BuilderOf.outcome_close]
      rfl
  | insertAll xs =>
    obtain ⟨v, hv⟩ := BuilderOf.eq_close_of_isClosed h
    rw [BuilderCall.effects, hv, insertEffects_close]
    rfl
  | done => rfl
  | finish => rfl

theorem due_of_idle {call : BuilderCall k} (h : call.Idle b) : s.due b (call.effects b) = [] := by
  rw [due, admittedTypes, admitted_of_idle h]
  rfl

end Slot

/-! ## The chain -/

/-- A collector that is enabled keeps a log behind the events that it has. -/
theorem Collector.drop_record {c : Collector} (hc : c.enabled = true) (log : List Widening) :
    (c.record log).events.drop c.events.length = log := by
  rw [record, if_pos hc]
  exact List.drop_left

namespace Report

variable {k : BuilderKind} {t : Ty} {us : List Ty}

theorem before_head? (k : BuilderKind) (t : Ty) (us : List Ty) :
    ∀ r ∈ ((t.changes us).map (ofChange k)).head?, r.before = t.text := by
  intro r hr
  rw [List.head?_map] at hr
  obtain ⟨p, hp, rfl⟩ := Option.mem_map.1 hr
  exact congrArg Ty.text (Ty.fst_head?_changes t us p hp)

theorem isChain (k : BuilderKind) (t : Ty) (us : List Ty) :
    ((t.changes us).map (ofChange k)).IsChain fun r r' => r'.before = r.after :=
  (List.isChain_map _).2 ((Ty.isChain_changes t us).imp fun _ _ h => congrArg Ty.text h)

theorem after_getLast? (k : BuilderKind) (t : Ty) (us : List Ty) :
    (((t.changes us).map (ofChange k)).getLast?.map after).getD t.text =
      (us.foldl Ty.lub t).text := by
  rw [List.getLast?_map, Option.map_map, ← Ty.snd_getLast?_changes]
  cases (t.changes us).getLast? <;> rfl

end Report

/-- **Reports are linked.** Whatever is asked of a builder of sets, relations or lists that infers its
type, while events are collected: the first report begins at `void`, each later one where the one
before it ended, and the last ends at the type of the builder. Every report is of its kind and tells
where it ends. There is one for each value put in that changes the type, and none for anything
else. -/
theorem reports_linked {k : BuilderKind} {s : Slot k} (hk : k ≠ .map) {b : BuilderOf k}
    (hb : s.bound b = .start) {c : Collector} (hc : c.enabled = true)
    (calls : List (BuilderCall k)) :
    let b' := builderAfter calls b
    let rs := reports ((c.record (runCalls calls b).log).events.drop c.events.length)
    (∀ r ∈ rs.head?, r.before = "void") ∧ (rs.IsChain fun r r' => r'.before = r.after) ∧
      (rs.getLast?.map Report.after).getD "void" = (s.current b').text ∧
      (∀ r ∈ rs, r.kind = k.name ∧ r.result = r.after) ∧
      rs = (Ty.void.changes (s.admittedTypes (effects calls b))).map (.ofChange k) ∧
      ∀ call : BuilderCall k,
        reports (call.run.start b').log =
          ((s.current b').changes (s.admittedTypes (call.effects b'))).map (.ofChange k) ∧
        (call.Idle b' → reports (call.run.start b').log = []) := by
  intro b' rs
  have hb₀ : (s.bound b).isInferred = true := hb ▸ rfl
  have hvoid : s.current b = .void := congrArg Bound.current hb
  have hrs : rs = (Ty.void.changes (s.admittedTypes (effects calls b))).map (.ofChange k) := by
    change reports (List.drop _ _) = _
    rw [Collector.drop_record hc, Slot.reports_runCalls hk hb₀, Slot.due, hvoid]
  obtain ⟨hb', hcurrent⟩ : (s.bound b').isInferred = true ∧ _ :=
    Slot.inferred_of_widenAll hb₀ (s.bound_builderAfter calls b)
  rw [hvoid] at hcurrent
  rw [hrs, hcurrent]
  refine ⟨Report.before_head? k .void _, Report.isChain k .void _, Report.after_getLast? k .void _,
    fun r hr => ?_, rfl, fun call => ?_⟩
  · obtain ⟨p, -, rfl⟩ := List.mem_map.1 hr
    exact ⟨rfl, rfl⟩
  · have hcall : reports (call.run.start b').log = s.due b' (call.effects b') :=
      Slot.reports_start hk hb' call
    refine ⟨?_, fun hidle => hcall.trans (Slot.due_of_idle hidle)⟩
    rw [hcall, Slot.due, hcurrent]

/-- A list builder that takes two numbers and a text, and refuses or passes over the rest, while a
collector is enabled that has an event already. -/
theorem reports_linked_texts :
    let b : BuilderOf .list := ListBuilder.new .start
    let calls : List (BuilderCall .list) :=
      [.edit (.insertAt 3 (.bool true)), .insertAll [.int 1, .int 2, .str "a"],
        .edit (.delete (.str "a")), .done, .edit (.append (.bool true))]
    let c : Collector := ⟨true, [.elementWidened .set .void .int]⟩
    let rs := reports ((c.record (runCalls calls b).log).events.drop c.events.length)
    BuilderKind.list ≠ .map ∧ Slot.listElem.bound b = .start ∧ c.enabled = true ∧
      rs = [⟨"list", "void", "int", "int"⟩, ⟨"list", "int", "value", "value"⟩] ∧
      (rs.IsChain fun r r' => r'.before = r.after) ∧
      (rs.getLast?.map Report.after).getD "void" =
        (Slot.listElem.current (builderAfter calls b)).text := by
  intro b calls c rs
  have hk : BuilderKind.list ≠ .map := by decide
  have hb : Slot.listElem.bound b = .start := rfl
  have hc : c.enabled = true := rfl
  obtain ⟨-, hchain, hlast, -, hrs, -⟩ := reports_linked hk hb hc calls
  exact ⟨hk, hb, hc, hrs.trans rfl, hchain, hlast⟩

end ValueLattice

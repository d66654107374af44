import Mathlib.Data.List.Induction
import Mathlib.Data.List.Nodup
import ValueLattice.Proofs.Computation
import ValueLattice.Proofs.Ty.Params
/-!
# Instantiation by position over whole runs

An instantiation by position keeps its state from type to type, also where a type cannot be
instantiated. The state depends only on the parameters that have been met: the distinct ones, in
the order in which they first occur, are bound to the actual types one by one until one of the
two lists ends (`Positional.reached`). A parameter that is known keeps its binding, so
a part of a type that has been instantiated agrees with what the final bindings make of it.

* `Ty.distinctParams`: the distinct parameters of a list of types, in order of first occurrence;
* `Positional.run`: a run over a list of types, failures included;
* `Positional.Resolves`: an action that meets given parameters, and what it answers;
* `resolves_instantiate`: the instantiation of a type is such an action;
* `run_answers`: the answer to each type of a run and the state after it.
-/

namespace ValueLattice

/-- The distinct parameters of the types of a list, in order of first occurrence. -/
def Ty.distinctParams (ts : List Ty) : List String := (Ty.paramsAll ts).eraseDups

namespace Positional

/-- A run over a list of types: the answer to each, and the state that it leaves. A type that
cannot be instantiated does not end the run. -/
def run : List Ty → Positional → List (Except Fault Ty × Positional)
  | [], _ => []
  | t :: ts, s => (t.instantiate.start s).val :: run ts (t.instantiate.after s)

/-! ## The state after given parameters -/

/-- The state after the parameters `ns` have been met. -/
def reached (actuals : List Ty) (ns : List String) : Positional :=
  ⟨actuals.drop ns.eraseDups.length, ns.eraseDups.zip actuals⟩

/-- The parameters among `ns` that an actual type is there for. -/
def known (actuals : List Ty) (ns : List String) : List String := ns.eraseDups.take actuals.length

variable {actuals : List Ty} {ns ms : List String} {n : String} {t u : Ty} {ts : List Ty}

theorem eraseDups_snoc (ns : List String) (n : String) :
    (ns ++ [n]).eraseDups = if n ∈ ns then ns.eraseDups else ns.eraseDups ++ [n] := by
  rw [List.eraseDups_append]
  split <;> simp_all [List.removeAll, List.eraseDups_cons]

theorem nodup_eraseDups (ns : List String) : ns.eraseDups.Nodup := by
  induction ns using List.reverseRecOn with
  | nil => simp
  | append_singleton ns n ih =>
    rw [eraseDups_snoc]
    split
    · exact ih
    · next hn =>
      refine List.nodup_append.2 ⟨ih, List.nodup_singleton n, ?_⟩
      rintro m hm k hk rfl
      exact hn (List.mem_singleton.1 hk ▸ List.mem_eraseDups.1 hm)

theorem get?_zip {ks : List String} (hks : ks.Nodup) (us : List Ty) (n : String) (u : Ty) :
    Assoc.get? (ks.zip us) n = some u ↔ ∃ i : Nat, ks[i]? = some n ∧ us[i]? = some u := by
  induction ks generalizing us with
  | nil => simp [Assoc.get?]
  | cons k ks ih =>
    obtain ⟨hk, hks⟩ := List.nodup_cons.1 hks
    cases us with
    | nil => simp [Assoc.get?]
    | cons v us =>
      rw [List.zip_cons_cons, Assoc.get?, ← Nat.or_exists_add_one]
      split
      · next hkn =>
        subst hkn
        have hfree : ∀ i : Nat, ks[i]? ≠ some k := fun i hi => hk (List.mem_of_getElem? hi)
        simp [hfree]
      · next hkn => simp [hkn, ih hks]

/-- The distinct parameters are bound one by one, until they or the actual types end. -/
theorem get?_reached : (reached actuals ns).bound.get? n = some u ↔
    ∃ i : Nat, ns.eraseDups[i]? = some n ∧ actuals[i]? = some u :=
  get?_zip (nodup_eraseDups ns) actuals n u

theorem mem_known : n ∈ known actuals ns ↔ ((reached actuals ns).bound.get? n).isSome = true := by
  rw [Option.isSome_iff_exists, known, List.mem_take_iff_getElem]
  simp only [get?_reached]
  constructor
  · rintro ⟨i, hi, rfl⟩
    have hi : i < actuals.length ∧ i < ns.eraseDups.length := Nat.lt_min.1 hi
    exact ⟨actuals[i], i, by simp [hi.2], by simp [hi.1]⟩
  · rintro ⟨u, i, hn, hu⟩
    obtain ⟨hin, rfl⟩ := List.getElem?_eq_some_iff.1 hn
    obtain ⟨hiu, -⟩ := List.getElem?_eq_some_iff.1 hu
    exact ⟨i, Nat.lt_min.2 ⟨hiu, hin⟩, rfl⟩

/-- Parameters that are met later do not change what a parameter is bound to. -/
theorem get?_reached_append (hn : n ∈ ns) (ms : List String) :
    (reached actuals (ns ++ ms)).bound.get? n = (reached actuals ns).bound.get? n := by
  have hfree (i : Nat) : (ms.removeAll ns).eraseDups[i]? ≠ some n := by
    intro hi
    have hmem := List.mem_eraseDups.1 (List.mem_of_getElem? hi)
    simp [List.removeAll, hn] at hmem
  ext u
  rw [get?_reached, get?_reached, List.eraseDups_append]
  refine exists_congr fun i => and_congr_left fun _ => ?_
  rw [List.getElem?_append]
  split
  · rfl
  · next hi => simp [hfree, Nat.le_of_not_lt hi]

theorem mem_known_append (hn : n ∈ ns) (ms : List String) :
    n ∈ known actuals (ns ++ ms) ↔ n ∈ known actuals ns := by
  rw [mem_known, mem_known, get?_reached_append hn]

/-- Once all actual types have been taken, nothing changes any more. -/
theorem reached_append_of_le (h : actuals.length ≤ ns.eraseDups.length) (ms : List String) :
    reached actuals (ns ++ ms) = reached actuals ns := by
  have hms : ns.eraseDups.length ≤ (ns ++ ms).eraseDups.length := by
    rw [List.eraseDups_append, List.length_append]
    exact Nat.le_add_right _ _
  have hzip (ks : List String) (hks : actuals.length ≤ ks.length) :
      ks.zip actuals = (ks.take actuals.length).zip actuals := by
    rw [List.zip_eq_zip_take_min, Nat.min_eq_right hks, List.take_length]
  rw [reached, reached, List.drop_eq_nil_of_le h, List.drop_eq_nil_of_le (Nat.le_trans h hms),
    hzip _ h, hzip _ (Nat.le_trans h hms), List.eraseDups_append, List.take_append_of_le_length h]

/-! ## Meeting parameters -/

/-- The first parameter among `ms`, met after `ns`, that no actual type is there for. -/
def missing (actuals : List Ty) (ns ms : List String) : Option String :=
  ms.find? fun m => decide (m ∉ known actuals (ns ++ ms))

theorem missing_append (ms ms' : List String) : missing actuals ns (ms ++ ms') =
    (missing actuals ns ms).or (missing actuals (ns ++ ms) ms') := by
  unfold missing
  rw [List.find?_append, ← List.append_assoc]
  have hms : ∀ m ∈ ms, decide (m ∉ known actuals (ns ++ ms ++ ms')) =
      decide (m ∉ known actuals (ns ++ ms)) := by
    intro m hm
    exact decide_eq_decide.2 (not_congr (mem_known_append (List.mem_append_right ns hm) ms'))
  rw [← List.head?_filter, List.filter_congr hms, List.head?_filter]

theorem missing_singleton (n : String) : missing actuals ns [n] =
    if n ∈ known actuals (ns ++ [n]) then none else some n := by
  unfold missing
  split <;> simp_all

/-- A parameter is missing only when all actual types have been taken. -/
theorem le_of_missing (h : missing actuals ns ms = some n) :
    actuals.length ≤ (ns ++ ms).eraseDups.length := by
  have hn : n ∈ ms := List.mem_of_find?_eq_some h
  have hfree : n ∉ known actuals (ns ++ ms) := by simpa using List.find?_some h
  by_contra hlt
  rw [known, List.take_of_length_le (Nat.le_of_not_le hlt), List.mem_eraseDups] at hfree
  exact hfree (List.mem_append_right ns hn)

/-- The action meets the parameters `ms` in this order. It fails at the first one that no actual
type is there for, and else answers `f` of the bindings, which depends on these parameters only. -/
structure Resolves {α : Type} (x : Action Positional α) (ms : List String) (f : Subst → α) :
    Prop where
  start : ∀ actuals ns, (x.start (reached actuals ns)).val =
    (match missing actuals ns ms with
      | none => .ok (f (reached actuals (ns ++ ms)).bound)
      | some m => .error (.unboundParam m), reached actuals (ns ++ ms))
  congr : ∀ s s' : Subst, (∀ m ∈ ms, s.get? m = s'.get? m) → f s = f s'

namespace Resolves

variable {α β γ : Type} {x : Action Positional α} {f : Subst → α}

theorem pure (a : α) : Resolves (pure a) [] fun _ => a where
  start actuals ns := by
    rw [List.append_nil]
    rfl
  congr _ _ _ := rfl

theorem bind {y : α → Action Positional β} {g : α → Subst → β} {ms' : List String}
    (hx : Resolves x ms f) (hy : ∀ a, Resolves (y a) ms' (g a)) :
    Resolves (x >>= y) (ms ++ ms') fun s => g (f s) s where
  start actuals ns := by
    have hstart := hx.start actuals ns
    rw [Action.start_bind, hstart, missing_append, ← List.append_assoc]
    cases hm : missing actuals ns ms with
    | some m => simp only [Option.some_or, reached_append_of_le (le_of_missing hm)]
    | none =>
      have hf : f (reached actuals (ns ++ ms)).bound =
          f (reached actuals (ns ++ ms ++ ms')).bound :=
        hx.congr _ _ fun m hm => (get?_reached_append (List.mem_append_right ns hm) ms').symm
      simp [(hy _).start, hf]
  congr s s' h := by
    rw [hx.congr s s' fun m hm => h m (List.mem_append_left ms' hm)]
    exact (hy _).congr s s' fun m hm => h m (List.mem_append_right ms hm)

theorem map (hx : Resolves x ms f) (g : α → β) :
    Resolves (do return g (← x)) ms fun s => g (f s) := by
  have h := hx.bind fun a => Resolves.pure (g a)
  rwa [List.append_nil] at h

end Resolves

variable {s : Positional} {rest : List Ty}

theorem start_bind_bound (h : s.bound.get? n = some t) :
    (Positional.bind n).start s = ⟨(.ok t, s), []⟩ := by
  rw [Positional.bind, Action.start_get_bind, h]
  rfl

theorem start_bind_nil (h : s.bound.get? n = none) (hs : s.actuals = []) :
    (Positional.bind n).start s = ⟨(.error (.unboundParam n), s), []⟩ := by
  rw [Positional.bind, Action.start_get_bind, h, hs]
  rfl

theorem start_bind_cons (h : s.bound.get? n = none) (hs : s.actuals = t :: rest) :
    (Positional.bind n).start s = ⟨(.ok t, ⟨rest, s.bound.insert n t⟩), []⟩ := by
  rw [Positional.bind, Action.start_get_bind, h, hs]
  rfl

theorem insert_eq_append {b : Subst} (h : b.get? n = none) (t : Ty) :
    b.insert n t = b ++ [(n, t)] := by
  induction b with
  | nil => rfl
  | cons e b ih =>
    by_cases he : e.1 = n
    · simp [Assoc.get?, he] at h
    · simp_all [Assoc.get?, Assoc.insert]

theorem zip_snoc {ks : List String} {us : List Ty} (h : ks.length < us.length) (k : String) :
    (ks ++ [k]).zip us = ks.zip us ++ [(k, us[ks.length])] := by
  induction ks generalizing us with
  | nil =>
    cases us with
    | nil => nomatch h
    | cons u us => simp
  | cons l ks ih =>
    cases us with
    | nil => nomatch h
    | cons u us => simpa using ih (Nat.lt_of_succ_lt_succ h)

theorem reached_snoc_of_mem (hn : n ∈ ns) : reached actuals (ns ++ [n]) = reached actuals ns := by
  rw [reached, reached, eraseDups_snoc, if_pos hn]

/-- A new parameter takes the next actual type. -/
theorem reached_snoc_of_lt (hn : n ∉ ns) (hlt : ns.eraseDups.length < actuals.length) :
    reached actuals (ns ++ [n]) = ⟨actuals.drop (ns.eraseDups.length + 1),
      (reached actuals ns).bound ++ [(n, actuals[ns.eraseDups.length])]⟩ := by
  simp [reached, eraseDups_snoc, if_neg hn, zip_snoc hlt]

/-- The step at one parameter. -/
theorem resolves_bind (n : String) :
    Resolves (Positional.bind n) [n] fun s => (Ty.param n).subst s where
  start actuals ns := by
    rw [missing_singleton]
    cases hget : (reached actuals ns).bound.get? n with
    | some t =>
      have hknown : n ∈ known actuals ns := mem_known.2 (by rw [hget, Option.isSome_some])
      have hn : n ∈ ns := List.mem_eraseDups.1 (List.mem_of_mem_take hknown)
      rw [start_bind_bound hget, if_pos ((mem_known_append hn [n]).2 hknown),
        reached_snoc_of_mem hn, Ty.subst_param_of_get? hget]
    | none =>
      have hfree : n ∉ known actuals ns := by rw [mem_known, hget]; exact nofun
      by_cases hfull : actuals.length ≤ ns.eraseDups.length
      · have hreached := reached_append_of_le hfull [n]
        rw [start_bind_nil hget (List.drop_eq_nil_of_le hfull), hreached, if_neg]
        rwa [mem_known, hreached, ← mem_known]
      · have hlt := Nat.lt_of_not_le hfull
        have hn : n ∉ ns := by
          rwa [known, List.take_of_length_le (Nat.le_of_lt hlt), List.mem_eraseDups] at hfree
        have hsnoc := reached_snoc_of_lt hn hlt
        rw [← insert_eq_append hget] at hsnoc
        have hget' : (reached actuals (ns ++ [n])).bound.get? n =
            some actuals[ns.eraseDups.length] := by
          rw [hsnoc, Assoc.get?_insert_self]
        have hknown : n ∈ known actuals (ns ++ [n]) :=
          mem_known.2 (by rw [hget', Option.isSome_some])
        rw [start_bind_cons hget (List.drop_eq_getElem_cons hlt), if_pos hknown,
          Ty.subst_param_of_get? hget', hsnoc]
  congr s s' h := by simp [Ty.subst, h]

end Positional

namespace Ty

open Positional

mutual

/-- The instantiation of a type meets its parameters from left to right. -/
theorem resolves_instantiate (t : Ty) :
    Resolves t.instantiate t.params fun s => t.subst s := by
  cases t with
  | param n => exact resolves_bind n
  | list e => exact (resolves_instantiate e).map list
  | set e => exact (resolves_instantiate e).map set
  | rel fs ls => exact (resolves_instantiateAll fs).map (rel · ls)
  | tuple fs ls => exact (resolves_instantiateAll fs).map (tuple · ls)
  | named n t => exact (resolves_instantiate t).map (named n)
  | adt n ps => exact (resolves_instantiateAll ps).map (adt n)
  | map k v =>
    exact (resolves_instantiate k).bind fun k => (resolves_instantiate v).map (map k)
  | ctor n o ps fs ls =>
    exact (resolves_instantiateAll ps).bind fun ps =>
      (resolves_instantiateAll fs).map (ctor n o ps · ls)
  | _ => exact .pure _

theorem resolves_instantiateAll (ts : List Ty) :
    Resolves (instantiateAll ts) (paramsAll ts) fun s => substAll s ts := by
  cases ts with
  | nil => exact .pure _
  | cons t ts =>
    exact (resolves_instantiate t).bind fun t => (resolves_instantiateAll ts).map (t :: ·)

end

end Ty

/-! ## Runs -/

namespace Positional

open Ty

theorem after_instantiate (t : Ty) (actuals : List Ty) (ns : List String) :
    t.instantiate.after (reached actuals ns) = reached actuals (ns ++ t.params) :=
  congrArg Prod.snd ((resolves_instantiate t).start actuals ns)

/-- When a run comes to a type, it has met the parameters of all types before. -/
theorem getElem?_run (actuals before : List Ty) (t : Ty) (after : List Ty) (ns : List String) :
    (run (before ++ t :: after) (reached actuals ns))[before.length]? =
      some (t.instantiate.start (reached actuals (ns ++ paramsAll before))).val := by
  induction before generalizing ns with
  | nil => simp [run, paramsAll]
  | cons u us ih => simp [run, paramsAll, after_instantiate, ih]

theorem distinctParams_snoc (ts : List Ty) (t : Ty) :
    distinctParams (ts ++ [t]) = (paramsAll ts ++ t.params).eraseDups := by
  have happend : paramsAll (ts ++ [t]) = paramsAll ts ++ t.params := by
    induction ts with
    | nil => simp [paramsAll]
    | cons u us ih => simp [paramsAll, ih]
  rw [distinctParams, happend]

/-- **Instantiation by position follows the order of first occurrence.** Over any list of types,
whether or not some of them can be instantiated, the bindings after each type map the distinct
parameters met so far, in the order of their first occurrence, to the actual types at the same
positions, as far as both reach. The type is instantiated exactly if an actual type is there for
each of its parameters, and the result is what the bindings make of it; else the failure names
its first parameter that none is there for. -/
theorem run_answers (actuals before : List Ty) (t : Ty) (after : List Ty) :
    ∃ answer state,
      (run (before ++ t :: after) (new actuals))[before.length]? = some (answer, state) ∧
      (∀ n u, state.bound.get? n = some u ↔
        ∃ i : Nat, (distinctParams (before ++ [t]))[i]? = some n ∧ actuals[i]? = some u) ∧
      (∀ u, answer = .ok u ↔
        (∀ n ∈ t.params, n ∈ (distinctParams (before ++ [t])).take actuals.length) ∧
          u = t.subst state.bound) ∧
      (∀ e, answer = .error e ↔ ∃ n,
        t.params.find? (fun m => m ∉ (distinctParams (before ++ [t])).take actuals.length) =
          some n ∧ e = .unboundParam n) := by
  have hrun := getElem?_run actuals before t after []
  rw [(resolves_instantiate t).start, List.nil_append] at hrun
  rw [distinctParams_snoc]
  refine ⟨_, _, hrun, fun n u => get?_reached, ?_⟩
  change (∀ u, _ ↔ (∀ n ∈ t.params, n ∈ known actuals (paramsAll before ++ t.params)) ∧ _) ∧
    ∀ e, _ ↔ ∃ n, missing actuals (paramsAll before) t.params = some n ∧ _
  have hnone : missing actuals (paramsAll before) t.params = none ↔
      ∀ n ∈ t.params, n ∈ known actuals (paramsAll before ++ t.params) := by
    simp [missing]
  rw [← hnone]
  cases missing actuals (paramsAll before) t.params with
  | none => simp [eq_comm]
  | some m => simp [eq_comm]

/-- The second type of this run fails at its second parameter, and the third type still finds the
bindings that the second has made. -/
example : run [.list (.param "A"), .map (.param "B") (.param "C"), .set (.param "B")]
      (new [.int, .str]) =
    [(.ok (.list .int), ⟨[.str], [("A", .int)]⟩),
      (.error (.unboundParam "C"), ⟨[], [("A", .int), ("B", .str)]⟩),
      (.ok (.set .str), ⟨[], [("A", .int), ("B", .str)]⟩)] := rfl

end Positional

end ValueLattice

import Mathlib.Data.List.Nodup
import ValueLattice.Proofs.Computation
import ValueLattice.Ty.Row
/-!
# Rows with labels

A row is well-labelled when it has no labels, or as many different ones as fields. The checked
construction of a row succeeds for these and no others.

In a well-labelled row positions and labels determine each other. A selection of fields succeeds
exactly if each position is one of a field, and it keeps the labels exactly if it names no position
twice.

* `Row.WellLabelled`, `Row.make_eq_ok`: well-labelled rows, which are those that can be made;
* `Row.position?_eq_some`: positions and labels;
* `Row.exists_select_iff`, `Row.isSome_labels_of_select`, `Row.label?_of_select`: selections.
-/

namespace ValueLattice

/-- A row without labels, or with as many different ones as fields. -/
def Row.WellLabelled (r : Row) : Prop := ∀ ls ∈ r.labels, ls.length = r.arity ∧ ls.Nodup

variable {t : Ty} {fs : List Ty} {ls : Option (List String)} {is : List Nat} {i : Nat} {l : String}

/-! ## The checked construction -/

theorem firstRepeated_eq_none {seen ls : List String} :
    firstRepeated seen ls = none ↔ ls.Nodup ∧ ∀ l ∈ ls, l ∉ seen := by
  induction ls generalizing seen with
  | nil => simp [firstRepeated]
  | cons l ls ih =>
    unfold firstRepeated
    split
    · simp_all
    · simp only [ih, List.mem_cons, List.nodup_cons]
      grind

namespace Row

variable {r s : Row}

/-- A row is made exactly of the fields and labels of a well-labelled one. -/
theorem make_eq_ok : make fs ls = .ok r ↔ r = ⟨fs, ls⟩ ∧ r.WellLabelled := by
  cases ls with
  | none =>
    simp only [make, plain, Except.ok.injEq]
    constructor
    · rintro rfl
      exact ⟨rfl, nofun⟩
    · exact fun h => h.1.symm
  | some ls =>
    simp only [make, labelled]
    split
    · next hl =>
      refine ⟨nofun, ?_⟩
      rintro ⟨rfl, h⟩
      exact absurd (h ls rfl).1.symm hl
    · next hl =>
      split
      · next l hr =>
        refine ⟨nofun, ?_⟩
        rintro ⟨rfl, h⟩
        have hnone : firstRepeated [] ls = none :=
          firstRepeated_eq_none.2 ⟨(h ls rfl).2, fun _ _ => List.not_mem_nil⟩
        exact nomatch hr.symm.trans hnone
      · next hr =>
        have hnodup : ls.Nodup := (firstRepeated_eq_none.1 hr).1
        constructor
        · intro h
          obtain rfl := Except.ok.inj h
          refine ⟨rfl, fun ms hms => ?_⟩
          obtain rfl := Option.some.inj hms
          exact ⟨(not_not.1 hl).symm, hnodup⟩
        · rintro ⟨rfl, -⟩
          rfl

/-! ## Positions and labels -/

theorem label?_eq_some : r.label? i = some l ↔ ∃ ls, r.labels = some ls ∧ ls[i]? = some l :=
  Option.bind_eq_some_iff

/-- The position of a label and the label at a position are inverse to each other. -/
theorem position?_eq_some (h : r.WellLabelled) :
    r.position? l = some i ↔ i < r.arity ∧ r.label? i = some l := by
  rw [label?_eq_some, position?, Option.bind_eq_some_iff]
  constructor
  · rintro ⟨ls, hls, hi⟩
    obtain ⟨hlt, hl, -⟩ := List.idxOf?_eq_some_iff.1 hi
    exact ⟨(h ls hls).1 ▸ hlt, ls, hls, by rw [List.getElem?_eq_getElem hlt, hl]⟩
  · rintro ⟨-, ls, hls, hi⟩
    obtain ⟨hlt, hl⟩ := List.getElem?_eq_some_iff.1 hi
    refine ⟨ls, hls, List.idxOf?_eq_some_iff.2 ⟨hlt, hl, fun j hj hjl => ?_⟩⟩
    -- an earlier position of the label would have it occur twice
    exact absurd ((h ls hls).2.getElem_inj_iff.1 (hjl.trans hl.symm)) (Nat.ne_of_lt hj)

/-! ## Selections -/

theorem field_eq_ok : r.field i = .ok t ↔ r.fields[i]? = some t := by
  unfold field
  cases r.fields[i]? <;> simp

theorem fields_of_select (h : r.select is = .ok s) : is.mapM r.field = .ok s.fields := by
  obtain ⟨gs, hgs, h⟩ := bind_eq_ok.1 h
  rw [← pure_eq_ok.1 h]
  exact hgs

theorem exists_field_iff : (∃ t, r.field i = .ok t) ↔ i < r.arity := by
  unfold field arity
  split
  · next t ht => simp [(List.getElem?_eq_some_iff.1 ht).1]
  · next hn => simp [List.getElem?_eq_none_iff.1 hn]

/-- A selection succeeds exactly if each position is one of a field. -/
theorem exists_select_iff : (∃ s, r.select is = .ok s) ↔ ∀ i ∈ is, i < r.arity := by
  simp only [← exists_field_iff, ← exists_mapM_iff]
  constructor
  · rintro ⟨s, hs⟩
    obtain ⟨gs, hgs, -⟩ := bind_eq_ok.1 hs
    exact ⟨gs, hgs⟩
  · rintro ⟨gs, hgs⟩
    exact ⟨_, bind_eq_ok.2 ⟨gs, hgs, rfl⟩⟩

theorem exists_mapM_getElem? {ls : List String} (h : ∀ i ∈ is, i < ls.length) :
    ∃ ns, is.mapM (fun i => ls[i]?) = some ns ∧
      List.Forall₂ (fun i n => ls[i]? = some n) is ns := by
  induction is with
  | nil => exact ⟨[], rfl, .nil⟩
  | cons i is ih =>
    obtain ⟨hi, his⟩ := List.forall_mem_cons.1 h
    obtain ⟨ns, hns, hall⟩ := ih his
    have hget : ls[i]? = some ls[i] := List.getElem?_eq_getElem hi
    exact ⟨ls[i] :: ns, by simp [List.mapM_cons, hget, hns], .cons hget hall⟩

/-- Different positions hold different labels, so what is selected is repeated only if a position
is. -/
theorem nodup_iff_of_forall₂ {ls ns : List String} (hls : ls.Nodup)
    (h : List.Forall₂ (fun i n => ls[i]? = some n) is ns) : ns.Nodup ↔ is.Nodup := by
  refine (List.rel_nodup ⟨?_, ?_⟩ h).symm
  · intro i n j hi hj
    obtain ⟨hlt, -⟩ := List.getElem?_eq_some_iff.1 hi
    exact (List.getElem?_inj hlt hls).1 (hi.trans hj.symm)
  · intro i n m hn hm
    exact Option.some.inj (hn.symm.trans hm)

/-- A selection has the labels at the selected positions unless a position is selected twice. -/
theorem labels_of_select (h : r.WellLabelled) (hs : r.select is = .ok s) :
    (r.labels = none ∧ s.labels = none) ∨ ∃ ls ns, r.labels = some ls ∧
      List.Forall₂ (fun i n => ls[i]? = some n) is ns ∧
      s.labels = if is.Nodup then some ns else none := by
  have hlt : ∀ i ∈ is, i < r.arity := exists_select_iff.1 ⟨s, hs⟩
  obtain ⟨gs, -, hs⟩ := bind_eq_ok.1 hs
  obtain rfl := pure_eq_ok.1 hs
  cases hr : r.labels with
  | none => exact .inl ⟨rfl, rfl⟩
  | some ls =>
    obtain ⟨hlen, hls⟩ := h ls hr
    obtain ⟨ns, hns, hall⟩ := exists_mapM_getElem? fun i hi => hlen ▸ hlt i hi
    refine .inr ⟨ls, ns, rfl, hall, ?_⟩
    have hnodup : (firstRepeated [] ns).isNone = true ↔ is.Nodup := by
      rw [Option.isNone_iff_eq_none, firstRepeated_eq_none, nodup_iff_of_forall₂ hls hall]
      simp
    simp only [Option.bind_some, hns]
    split
    · next hi => simp [Option.filter, hnodup.2 hi]
    · next hi => simp [Option.filter, hnodup, hi]

theorem isSome_labels_of_select (h : r.WellLabelled) (hs : r.select is = .ok s) :
    s.labels.isSome = true ↔ r.labels.isSome = true ∧ is.Nodup := by
  rcases labels_of_select h hs with ⟨hr, hs⟩ | ⟨ls, ns, hr, -, hs⟩
  · simp [hr, hs]
  · rw [hr, hs]
    split <;> simp_all

theorem getElem?_of_forall₂ {α : Type} {ls ns : List α}
    (h : List.Forall₂ (fun i n => ls[i]? = some n) is ns) (j : Nat) :
    ns[j]? = is[j]?.bind fun i => ls[i]? := by
  induction h generalizing j with
  | nil => rfl
  | cons hget h ih =>
    cases j with
    | zero => exact hget.symm
    | succ j => exact ih j

/-- The labels that a selection keeps are those at the selected positions. -/
theorem label?_of_select (h : r.WellLabelled) (hs : r.select is = .ok s)
    (hsome : s.labels.isSome = true) (j : Nat) : s.label? j = is[j]?.bind r.label? := by
  rcases labels_of_select h hs with ⟨-, hn⟩ | ⟨ls, ns, hr, hall, hn⟩
  · simp [hn] at hsome
  · have hns : s.labels = some ns := by
      rw [hn] at hsome ⊢
      split at hsome
      · next hi => rw [if_pos hi]
      · nomatch hsome
    have hlabel : r.label? = fun i => ls[i]? := funext fun i => by rw [label?, hr, Option.bind_some]
    rw [label?, hns, Option.bind_some, hlabel]
    exact getElem?_of_forall₂ hall j

theorem WellLabelled.select (h : r.WellLabelled) (hs : r.select is = .ok s) : s.WellLabelled := by
  have hlen : is.length = s.arity := (forall₂_of_mapM (fields_of_select hs)).length_eq
  intro ms hms
  rcases labels_of_select h hs with ⟨-, hs⟩ | ⟨ls, ns, hr, hall, hs⟩
  · nomatch hs.symm.trans hms
  · rw [hs] at hms
    split at hms
    · next hi =>
      obtain rfl := Option.some.inj hms
      exact ⟨hall.length_eq.symm.trans hlen, (nodup_iff_of_forall₂ (h ls hr).2 hall).2 hi⟩
    · nomatch hms

end Row

end ValueLattice

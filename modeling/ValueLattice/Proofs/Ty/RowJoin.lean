import ValueLattice.Proofs.Ty.Algebra
/-!
# Joins of rows

Two rows of one length join field by field, and the joined row has labels only if both rows have
the same. The join of the two tuple types, or of the two relation types, need not have that row:
where one of the types is strictly below the other, their join is the larger as it is written. So
its row is the one that the fields join to exactly if the larger row is, and it has the right labels
exactly if the larger row brings no labels that the smaller one lacks.

* `Row.joinWith`, `Row.joinsAlike`: the join of two rows, and when it is that of their types;
* `Row.joinsAlikeAll_iff`: the same for rows that are joined one after another;
* `Row.joinAsWritten`, `Row.lub_toTuple`, `Row.lub_toRel`: the rows of the joined types;
* `Row.labels_lub`: the labels of a join.
-/

namespace ValueLattice

namespace Row

variable {r s : Row} {ss : List Row}

/-! ## The join of two rows -/

theorem toTuple_inj : r.toTuple = s.toTuple ↔ r = s := by
  constructor
  · intro h
    obtain ⟨hfields, hlabels⟩ := Ty.tuple.inj h
    exact congrArg₂ Row.mk hfields hlabels
  · rintro rfl
    rfl

theorem toRel_inj : r.toRel = s.toRel ↔ r = s := by
  constructor
  · intro h
    obtain ⟨hfields, hlabels⟩ := Ty.rel.inj h
    exact congrArg₂ Row.mk hfields hlabels
  · rintro rfl
    rfl

/-- The row of the joins of the fields of two rows, with the labels that both have. -/
def joinWith (r s : Row) : Row :=
  ⟨Ty.lubAll r.fields s.fields, Ty.commonLabels r.labels s.labels⟩

theorem lub?_of_arity (h : r.arity = s.arity) : r.lub? s = some (r.joinWith s) := if_pos h

theorem arity_joinWith (h : r.arity = s.arity) : (r.joinWith s).arity = r.arity :=
  Ty.length_lubAll h

theorem isJoin_joinWith (h : r.arity = s.arity) :
    Ty.IsJoin r.toTuple s.toTuple (r.joinWith s).toTuple :=
  (Ty.isJoinAll_lubAll r.fields s.fields h).tuple

theorem joinWith_self (r : Row) : r.joinWith r = r := by
  have hfields : Ty.lubAll r.fields r.fields = r.fields := by
    induction r.fields with
    | nil => rfl
    | cons f fs ih => rw [Ty.lubAll_cons, Ty.lub_self, ih]
  rw [joinWith, hfields, Ty.commonLabels, if_pos rfl]

/-! ## The row of a joined type -/

/-- The row of the join of the types of two rows: the larger one where exactly one of them is below
the other, else the row that the fields join to. -/
def joinAsWritten (r s : Row) : Row :=
  if r = s then r
  else
    match r.toTuple.leq s.toTuple, s.toTuple.leq r.toTuple with
    | true, false => s
    | false, true => r
    | _, _ => r.joinWith s

/-- Types that determine their rows, and are ordered as these are, join as their rows do. -/
theorem choose_shape {shape : Row → Ty} (hinj : ∀ {r s}, shape r = shape s ↔ r = s)
    (hleq : ∀ r s, (shape r).leq (shape s) = r.toTuple.leq s.toTuple) :
    Ty.choose (shape r) (shape s) (shape (r.joinWith s)) = shape (r.joinAsWritten s) := by
  unfold Ty.choose joinAsWritten
  rw [hleq, hleq]
  by_cases h : r = s
  · rw [if_pos (hinj.2 h), if_pos h]
  · rw [if_neg (mt hinj.1 h), if_neg h]
    cases r.toTuple.leq s.toTuple <;> cases s.toTuple.leq r.toTuple <;> rfl

theorem lub_toTuple (h : r.arity = s.arity) :
    r.toTuple.lub s.toTuple = (r.joinAsWritten s).toTuple := by
  have hrebuild : Ty.rebuild r.toTuple s.toTuple = (r.joinWith s).toTuple := by
    unfold toTuple
    rw [Ty.rebuild]
    exact if_pos h
  rw [Ty.lub, hrebuild]
  exact choose_shape toTuple_inj fun _ _ => rfl

theorem lub_toRel (h : r.arity = s.arity) :
    r.toRel.lub s.toRel = (r.joinAsWritten s).toRel := by
  have hrebuild : Ty.rebuild r.toRel s.toRel = (r.joinWith s).toRel := by
    unfold toRel
    rw [Ty.rebuild]
    exact if_pos h
  rw [Ty.lub, hrebuild]
  exact choose_shape toRel_inj fun _ _ => rfl

theorem arity_joinAsWritten (h : r.arity = s.arity) : (r.joinAsWritten s).arity = r.arity := by
  unfold joinAsWritten
  split
  · rfl
  · split
    · exact h.symm
    · rfl
    · exact arity_joinWith h

/-- The join of two rows of one length is one of that length, however it is written. -/
theorem exists_lub (h : r.arity = s.arity) :
    ∃ j : Row, r.toTuple.lub s.toTuple = j.toTuple ∧ j.arity = r.arity :=
  ⟨r.joinAsWritten s, lub_toTuple h, arity_joinAsWritten h⟩

/-- Where exactly one of two rows is below the other, the larger is what their fields join to. -/
def joinsAlike (r s : Row) : Bool :=
  match r.toTuple.leq s.toTuple, s.toTuple.leq r.toTuple with
  | true, false => r.joinWith s = s
  | false, true => r.joinWith s = r
  | _, _ => true

/-- The type of tuples with the joined row is the join of the types exactly when the rows join
alike. -/
theorem joinsAlike_iff (h : r.arity = s.arity) :
    r.joinsAlike s = true ↔ r.toTuple.lub s.toTuple = (r.joinWith s).toTuple := by
  rw [lub_toTuple h, toTuple_inj]
  unfold joinsAlike joinAsWritten
  by_cases heq : r = s
  · subst heq
    simp [joinWith_self, Ty.leq_refl]
  · rw [if_neg heq]
    cases r.toTuple.leq s.toTuple <;> cases s.toTuple.leq r.toTuple <;> simp [eq_comm]

/-! ## The labels of a join -/

/-- `j` has labels exactly if `r` and `s` have the same, and then these. -/
def HasLabelsOfBoth (j r s : Row) : Prop :=
  ∀ ls, j.labels = some ls ↔ r.labels = some ls ∧ s.labels = some ls

/-- Where the row `s` is strictly above `r`, it has no labels that `r` lacks. -/
def AddsNoLabels (r s : Row) : Prop :=
  r.toTuple.leq s.toTuple = true → s.toTuple.leq r.toTuple = false →
    s.labels = none ∨ s.labels = r.labels

theorem hasLabelsOfBoth_joinWith (r s : Row) : (r.joinWith s).HasLabelsOfBoth r s := by
  intro ls
  change Ty.commonLabels r.labels s.labels = some ls ↔ _
  unfold Ty.commonLabels
  split
  · next h => rw [← h, and_self_iff]
  · next h =>
    refine iff_of_false nofun ?_
    rintro ⟨hr, hs⟩
    exact h (hr.trans hs.symm)

/-- The labels of a join are determined by those of the two rows. -/
theorem HasLabelsOfBoth.iff {j z : Row} (hj : j.HasLabelsOfBoth r s) :
    z.HasLabelsOfBoth r s ↔ z.labels = j.labels := by
  constructor
  · intro hz
    exact Option.ext fun ls => (hz ls).trans (hj ls).symm
  · intro h ls
    rw [h]
    exact hj ls

theorem HasLabelsOfBoth.symm {j : Row} (h : j.HasLabelsOfBoth r s) : j.HasLabelsOfBoth s r :=
  fun ls => (h ls).trans and_comm

/-- The labels of a row are those of both if it has none, or if the other row has the same. -/
theorem hasLabelsOfBoth_right :
    s.HasLabelsOfBoth r s ↔ s.labels = none ∨ s.labels = r.labels := by
  constructor
  · intro h
    cases hs : s.labels with
    | none => exact .inl rfl
    | some ls => exact .inr ((h ls).1 hs).1.symm
  · rintro (h | h) ls
    · rw [h]
      simp
    · rw [h, and_self_iff]

theorem hasLabelsOfBoth_left :
    r.HasLabelsOfBoth r s ↔ r.labels = none ∨ r.labels = s.labels :=
  ⟨fun h => hasLabelsOfBoth_right.1 h.symm, fun h => (hasLabelsOfBoth_right.2 h).symm⟩

/-- The row of the joined types has the labels of both rows exactly if the larger row adds none. -/
theorem hasLabelsOfBoth_joinAsWritten :
    (r.joinAsWritten s).HasLabelsOfBoth r s ↔ r.AddsNoLabels s ∧ s.AddsNoLabels r := by
  unfold joinAsWritten AddsNoLabels
  by_cases h : r = s
  · subst h
    rw [if_pos rfl, hasLabelsOfBoth_right]
    simp
  · rw [if_neg h]
    cases r.toTuple.leq s.toTuple <;> cases s.toTuple.leq r.toTuple
    · simpa using hasLabelsOfBoth_joinWith r s
    · simpa using hasLabelsOfBoth_left
    · simpa using hasLabelsOfBoth_right
    · simpa using hasLabelsOfBoth_joinWith r s

/-- **The labels of a join.** Rows of one length join field by field to a row that has labels
exactly if both have the same, and then these. The tuple types and the relation types of the rows
join to types of one row, and it has these labels exactly if the larger of the two rows has none
that the smaller one lacks. -/
theorem labels_lub (h : r.arity = s.arity) :
    ∃ j z : Row, r.lub? s = some j ∧ r.toTuple.lub s.toTuple = z.toTuple ∧
      r.toRel.lub s.toRel = z.toRel ∧
      j.HasLabelsOfBoth r s ∧ (z.HasLabelsOfBoth r s ↔ z.labels = j.labels) ∧
      (z.HasLabelsOfBoth r s ↔ r.AddsNoLabels s ∧ s.AddsNoLabels r) :=
  ⟨r.joinWith s, r.joinAsWritten s, lub?_of_arity h, lub_toTuple h, lub_toRel h,
    hasLabelsOfBoth_joinWith r s, (hasLabelsOfBoth_joinWith r s).iff,
    hasLabelsOfBoth_joinAsWritten⟩

/-- A row keeps its labels below a row with the same. -/
theorem labels_lub_same :
    let r : Row := ⟨[.int], some ["x"]⟩
    let s : Row := ⟨[.value], some ["x"]⟩
    r.arity = s.arity ∧ r.AddsNoLabels s ∧ s.AddsNoLabels r ∧
      ∃ z : Row, r.toTuple.lub s.toTuple = z.toTuple ∧ r.toRel.lub s.toRel = z.toRel ∧
        z.labels = some ["x"] := by
  intro r s
  have hr : r.AddsNoLabels s := fun _ _ => .inr rfl
  have hs : s.AddsNoLabels r := fun _ _ => .inr rfl
  have harity : r.arity = s.arity := rfl
  obtain ⟨j, z, -, htuple, hrel, -, -, hlabels⟩ := labels_lub harity
  exact ⟨harity, hr, hs, z, htuple, hrel, (hlabels.2 ⟨hr, hs⟩ _).2 ⟨rfl, rfl⟩⟩

/-- The label of a row that is strictly above an unlabelled one stays on the join of their types,
and is lost where their fields are joined. -/
theorem not_hasLabelsOfBoth_lub :
    let r : Row := ⟨[.int], none⟩
    let s : Row := ⟨[.value], some ["x"]⟩
    r.arity = s.arity ∧ r.toTuple.lub s.toTuple = s.toTuple ∧ r.toRel.lub s.toRel = s.toRel ∧
      r.lub? s = some ⟨[.value], none⟩ ∧ ¬s.HasLabelsOfBoth r s := by
  intro r s
  refine ⟨rfl, rfl, rfl, rfl, ?_⟩
  intro h
  nomatch ((h ["x"]).1 rfl).1

/-! ## Rows joined one after another -/

theorem exists_foldl_lub (h : ∀ s ∈ ss, r.arity = s.arity) :
    ∃ j : Row, (ss.map toTuple).foldl Ty.lub r.toTuple = j.toTuple := by
  induction ss generalizing r with
  | nil => exact ⟨r, rfl⟩
  | cons s ss ih =>
    obtain ⟨hs, hss⟩ := List.forall_mem_cons.1 h
    obtain ⟨j, hj, hjr⟩ := exists_lub hs
    rw [List.map_cons, List.foldl_cons, hj]
    exact ih fun u hu => hjr.trans (hss u hu)

/-- Rows of one length joined one after another are a least upper bound of all. -/
theorem isJoinOf_foldl_joinWith (h : ∀ s ∈ ss, r.arity = s.arity) :
    Ty.IsJoinOf (r.toTuple :: ss.map toTuple) (ss.foldl joinWith r).toTuple := by
  induction ss generalizing r with
  | nil =>
    exact ⟨List.forall_mem_singleton.2 (Ty.leq_refl _), fun c hc => hc _ List.mem_cons_self⟩
  | cons s ss ih =>
    obtain ⟨hs, hss⟩ := List.forall_mem_cons.1 h
    have hjoin : Ty.IsJoin r.toTuple s.toTuple (r.joinWith s).toTuple := isJoin_joinWith hs
    obtain ⟨habove, hleast⟩ := ih fun u hu => (arity_joinWith hs).trans (hss u hu)
    obtain ⟨hfirst, hrest⟩ := List.forall_mem_cons.1 habove
    refine ⟨List.forall_mem_cons.2 ⟨Ty.leq_trans _ hjoin.left hfirst,
      List.forall_mem_cons.2 ⟨Ty.leq_trans _ hjoin.right hfirst, hrest⟩⟩, fun c hc => ?_⟩
    obtain ⟨hr, hc⟩ := List.forall_mem_cons.1 hc
    obtain ⟨hs, hc⟩ := List.forall_mem_cons.1 hc
    exact hleast c (List.forall_mem_cons.2 ⟨hjoin.least c hr hs, hc⟩)

/-- Rows that are joined to `r` one after another join alike at every step. -/
def joinsAlikeAll : Row → List Row → Bool
  | _, [] => true
  | r, s :: ss => r.joinsAlike s && joinsAlikeAll (r.joinWith s) ss

/-- Rows join alike at every step exactly when, up to each step, the joined row is that of the
joined types. -/
theorem joinsAlikeAll_iff (h : ∀ s ∈ ss, r.arity = s.arity) :
    r.joinsAlikeAll ss = true ↔ ∀ qs, qs <+: ss →
      (qs.map toTuple).foldl Ty.lub r.toTuple = (qs.foldl joinWith r).toTuple := by
  induction ss generalizing r with
  | nil =>
    refine ⟨fun _ qs hqs => ?_, fun _ => rfl⟩
    rw [List.prefix_nil.1 hqs]
    rfl
  | cons s ss ih =>
    obtain ⟨hs, hss⟩ := List.forall_mem_cons.1 h
    have hrest : ∀ u ∈ ss, (r.joinWith s).arity = u.arity :=
      fun u hu => (arity_joinWith hs).trans (hss u hu)
    rw [joinsAlikeAll, Bool.and_eq_true, joinsAlike_iff hs, ih hrest]
    constructor
    · rintro ⟨hstep, hall⟩ qs hqs
      rcases List.prefix_cons_iff.1 hqs with rfl | ⟨ps, rfl, hps⟩
      · rfl
      · rw [List.map_cons, List.foldl_cons, List.foldl_cons, hstep]
        exact hall ps hps
    · intro hall
      have hstep : r.toTuple.lub s.toTuple = (r.joinWith s).toTuple :=
        hall [s] (List.prefix_cons_iff.2 (.inr ⟨[], rfl, List.nil_prefix⟩))
      refine ⟨hstep, fun qs hqs => ?_⟩
      have hcons : ((s :: qs).map toTuple).foldl Ty.lub r.toTuple =
          ((s :: qs).foldl joinWith r).toTuple :=
        hall (s :: qs) (List.prefix_cons_iff.2 (.inr ⟨qs, rfl, hqs⟩))
      rwa [List.map_cons, List.foldl_cons, List.foldl_cons, hstep] at hcons

/-! ## Rows with the same labels -/

/-- The row has the labels `ls`, and no alias or label in the types of its fields. -/
structure IsBareWith (ls : Option (List String)) (r : Row) : Prop where
  labels : r.labels = ls
  fields : Ty.isBareAll r.fields = true

namespace IsBareWith

variable {ls : Option (List String)}

theorem joinWith (hr : r.IsBareWith ls) (hs : s.IsBareWith ls) : (r.joinWith s).IsBareWith ls where
  labels := (if_pos (hr.labels.trans hs.labels.symm)).trans hr.labels
  fields := Ty.isBareAll_lubAll _ _ hr.fields hs.fields

theorem eq_of_leq_of_leq (hr : r.IsBareWith ls) (hs : s.IsBareWith ls)
    (hrs : r.toTuple.leq s.toTuple = true) (hsr : s.toTuple.leq r.toTuple = true) : r = s := by
  have hbare {q : Row} (hq : q.IsBareWith ls) : Ty.bareAll q.fields = q.fields :=
    Ty.bareAll_of_isBareAll _ hq.fields
  have hfields : Ty.bareAll r.fields = Ty.bareAll s.fields :=
    Ty.bareAll_eq_of_leqAll_of_leqAll _ _ hrs hsr
  rw [hbare hr, hbare hs] at hfields
  exact congrArg₂ Row.mk hfields (hr.labels.trans hs.labels.symm)

/-- Rows with the same labels, and no others inside, join alike: the larger of two is equivalent to
their join, and so the same row. -/
theorem joinsAlike (hr : r.IsBareWith ls) (hs : s.IsBareWith ls) (h : r.arity = s.arity) :
    r.joinsAlike s = true := by
  obtain ⟨hleft, hright, hleast⟩ := isJoin_joinWith h
  unfold Row.joinsAlike
  cases hrs : r.toTuple.leq s.toTuple <;> cases hsr : s.toTuple.leq r.toTuple
  · rfl
  · exact decide_eq_true ((hr.joinWith hs).eq_of_leq_of_leq hr
      (hleast _ (Ty.leq_refl _) hsr) hleft)
  · exact decide_eq_true ((hr.joinWith hs).eq_of_leq_of_leq hs
      (hleast _ hrs (Ty.leq_refl _)) hright)
  · rfl

theorem joinsAlikeAll (hr : r.IsBareWith ls) (hss : ∀ s ∈ ss, s.IsBareWith ls)
    (h : ∀ s ∈ ss, r.arity = s.arity) : r.joinsAlikeAll ss = true := by
  induction ss generalizing r with
  | nil => rfl
  | cons s ss ih =>
    obtain ⟨hs, hss⟩ := List.forall_mem_cons.1 hss
    obtain ⟨hrs, h⟩ := List.forall_mem_cons.1 h
    refine Bool.and_eq_true_iff.2 ⟨hr.joinsAlike hs hrs, ih (hr.joinWith hs) hss fun u hu => ?_⟩
    exact (arity_joinWith hrs).trans (h u hu)

end IsBareWith

end Row

end ValueLattice

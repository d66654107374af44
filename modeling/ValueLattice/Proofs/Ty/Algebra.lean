import ValueLattice.Proofs.Ty.Bare
/-!
# The algebra of joins

The join of two types does not depend on which of them comes first, as it is written and not only
up to equivalence, although it is computed by recursion on the first. Three types may be joined in
either grouping. The two results are least upper bounds of the same types, so they are equivalent,
and they are one type where equivalent types are.

* `rebuild_comm`, `lubAll_comm`, `lub_comm`: types and rows joined the other way round;
* `lub_assoc_equivalent`, `lub_assoc_of_isBare`: the two groupings of three types;
* `lub_commutative_associative`: all of it;
* `lub_void_eq_self_iff`: joins with the bottom;
* `IsJoinOf`, `isJoinOf_foldl_lub`: the join of a list is a least upper bound of its types, and so
  does not depend on their order (`IsJoinOf.equivalent_of_perm`).
-/

namespace ValueLattice.Ty

variable {a b c d : Ty}

/-! ## The other way round -/

theorem choose_comm (a b c : Ty) : choose a b c = choose b a c := by
  unfold choose
  by_cases hab : a = b
  · rw [hab]
  · rw [if_neg hab, if_neg (Ne.symm hab)]
    cases leq a b <;> cases leq b a <;> rfl

theorem commonLabels_comm (ls ms : Option (List String)) :
    commonLabels ls ms = commonLabels ms ls := by
  unfold commonLabels
  by_cases h : ls = ms
  · rw [h]
  · rw [if_neg h, if_neg (Ne.symm h)]

theorem rebuild_strip_left (a b : Ty) : rebuild a.strip b = rebuild a b := by
  fun_induction strip a with
  | case1 n t ih => exact ih
  | case2 a h => rfl

section Shapes

variable {n m : String} {fs gs ps qs joined : List Ty} {ls ms : Option (List String)} {e f : Ty}

/-- A relation and a set join by the tuples of the relation, whichever comes first. -/
theorem rebuild_rel_set : rebuild (rel fs ls) (set f) = set (lub (tuple fs ls) f) := by
  simp only [rebuild, strip, lub]

theorem rebuild_set_rel : rebuild (set e) (rel gs ms) = set (lub e (tuple gs ms)) := by
  simp only [rebuild, strip, lub]

theorem rebuildAdt_comm :
    (if n = m ∧ ps.length = qs.length then adt n joined else node) =
      if m = n ∧ qs.length = ps.length then adt m joined else node := by
  by_cases h : n = m ∧ ps.length = qs.length
  · obtain ⟨rfl, hl⟩ := h
    rw [if_pos ⟨rfl, hl⟩, if_pos ⟨rfl, hl.symm⟩]
  · have h' : ¬ (m = n ∧ qs.length = ps.length) := fun h' => h ⟨h'.1.symm, h'.2.symm⟩
    rw [if_neg h, if_neg h']

theorem joinAdt_comm : joinAdt n ps m qs joined = joinAdt m qs n ps joined := by
  unfold joinAdt
  rw [choose_comm, rebuildAdt_comm]

/-- The row of a join, in the order in which the rows are given. -/
theorem rebuildRow_comm (shape : List Ty → Option (List String) → Ty) (other : Ty)
    (h : lubAll fs gs = lubAll gs fs) :
    (if fs.length = gs.length then shape (lubAll fs gs) (commonLabels ls ms) else other) =
      if gs.length = fs.length then shape (lubAll gs fs) (commonLabels ms ls) else other := by
  rw [h, commonLabels_comm]
  by_cases hl : fs.length = gs.length
  · rw [if_pos hl, if_pos hl.symm]
  · rw [if_neg hl, if_neg (Ne.symm hl)]

/-- Tuples, and relations joined with sets by their tuples. -/
theorem rebuildTuple_comm (ih : ∀ gs, lubAll fs gs = lubAll gs fs) (b : Ty) :
    rebuild (tuple fs ls) b = rebuild b (tuple fs ls) := by
  rw [← rebuild_strip, ← rebuild_strip_left b]
  have hb : ∀ n t, b.strip ≠ named n t := strip_ne_named b
  generalize b.strip = c at hb ⊢
  cases c with
  | tuple gs ms =>
    simp only [rebuild, strip]
    exact rebuildRow_comm tuple value (ih gs)
  | named n t => exact absurd rfl (hb n t)
  | _ => simp [rebuild, strip]

end Shapes

mutual

theorem rebuild_comm (a b : Ty) : rebuild a b = rebuild b a := by
  rw [← rebuild_strip, ← rebuild_strip_left b]
  have hb : ∀ n t, b.strip ≠ named n t := strip_ne_named b
  generalize b.strip = c at hb ⊢
  cases a with
  | named n t =>
    have ht : rebuild t c = rebuild c t := rebuild_comm t c
    rw [rebuild, ht, ← rebuild_strip c t, ← rebuild_strip c (named n t), strip_named]
  | tuple fs ls => exact rebuildTuple_comm (lubAll_comm fs) c
  | list e =>
    cases c with
    | list f =>
      simp only [rebuild, strip]
      rw [rebuild_comm e f, choose_comm]
    | named n t => exact absurd rfl (hb n t)
    | _ => simp [rebuild, strip]
  | set e =>
    cases c with
    | set f =>
      simp only [rebuild, strip]
      rw [rebuild_comm e f, choose_comm]
    | rel gs ms =>
      rw [rebuild_set_rel, rebuild_rel_set, lub, lub, rebuild_comm e (tuple gs ms), choose_comm]
    | named n t => exact absurd rfl (hb n t)
    | _ => simp [rebuild, strip]
  | map k v =>
    cases c with
    | map l w =>
      simp only [rebuild, strip]
      rw [rebuild_comm k l, rebuild_comm v w, choose_comm k, choose_comm v]
    | named n t => exact absurd rfl (hb n t)
    | _ => simp [rebuild, strip]
  | rel fs ls =>
    cases c with
    | rel gs ms =>
      simp only [rebuild, strip]
      exact rebuildRow_comm rel (set value) (lubAll_comm fs gs)
    | set f =>
      rw [rebuild_set_rel, rebuild_rel_set, lub, lub, rebuildTuple_comm (lubAll_comm fs) f,
        choose_comm]
    | named n t => exact absurd rfl (hb n t)
    | _ => simp [rebuild, strip]
  | adt n ps =>
    cases c with
    | adt m qs =>
      simp only [rebuild, strip]
      rw [lubAll_comm ps qs, rebuildAdt_comm]
    | ctor k m qs gs ms =>
      simp only [rebuild, strip]
      rw [lubAll_comm ps qs, joinAdt_comm]
    | named n t => exact absurd rfl (hb n t)
    | _ => simp [rebuild, strip]
  | ctor n o ps fs ls =>
    cases c with
    | adt m qs =>
      simp only [rebuild, strip]
      rw [lubAll_comm ps qs, joinAdt_comm]
    | ctor m p qs gs ms =>
      simp only [rebuild, strip]
      rw [lubAll_comm ps qs, lubAll_comm fs gs, commonLabels_comm, joinAdt_comm]
      by_cases h : n = m ∧ o = p ∧ ps.length = qs.length ∧ fs.length = gs.length
      · obtain ⟨rfl, rfl, hp, hf⟩ := h
        rw [if_pos ⟨rfl, rfl, hp, hf⟩, if_pos ⟨rfl, rfl, hp.symm, hf.symm⟩]
      · have h' : ¬ (m = n ∧ p = o ∧ qs.length = ps.length ∧ gs.length = fs.length) := by
          rintro ⟨hm, ho, hp, hf⟩
          exact h ⟨hm.symm, ho.symm, hp.symm, hf.symm⟩
        rw [if_neg h, if_neg h']
    | named n t => exact absurd rfl (hb n t)
    | _ => simp [rebuild, strip]
  | param n =>
    cases c with
    | param m =>
      by_cases h : n = m
      · rw [h]
      · simp [rebuild, strip, h, Ne.symm h]
    | named n t => exact absurd rfl (hb n t)
    | _ => simp [rebuild, strip]
  | _ =>
    cases c with
    | named n t => exact absurd rfl (hb n t)
    | _ => simp [rebuild, strip]

theorem lubAll_comm (as bs : List Ty) : lubAll as bs = lubAll bs as := by
  cases as with
  | nil => cases bs <;> simp [lubAll]
  | cons a as =>
    cases bs with
    | nil => simp [lubAll]
    | cons b bs =>
      rw [lubAll, lubAll, rebuild_comm a b, choose_comm, lubAll_comm as bs]

end

theorem lub_comm (a b : Ty) : lub a b = lub b a := by
  rw [lub, lub, rebuild_comm, choose_comm]

/-! ## The two groupings -/

theorem equivalent_iff : equivalent a b = true ↔ leq a b = true ∧ leq b a = true :=
  Bool.and_eq_true_iff

theorem lub_assoc_leq (a b c : Ty) : leq (lub (lub a b) c) (lub a (lub b c)) = true := by
  have hab : IsJoin a b (lub a b) := isJoin_lub a b
  have hbc : IsJoin b c (lub b c) := isJoin_lub b c
  have houter : IsJoin a (lub b c) (lub a (lub b c)) := isJoin_lub a (lub b c)
  have hb : leq b (lub a (lub b c)) = true := leq_trans b hbc.left houter.right
  have hc : leq c (lub a (lub b c)) = true := leq_trans c hbc.right houter.right
  exact (isJoin_lub (lub a b) c).least _ (hab.least _ houter.left hb) hc

/-- The other direction is the same with the types in reverse order. -/
theorem lub_assoc_geq (a b c : Ty) : leq (lub a (lub b c)) (lub (lub a b) c) = true := by
  have h : leq (lub (lub c b) a) (lub c (lub b a)) = true := lub_assoc_leq c b a
  rwa [lub_comm (lub c b) a, lub_comm c b, lub_comm c (lub b a), lub_comm b a] at h

theorem lub_assoc_equivalent (a b c : Ty) :
    equivalent (lub (lub a b) c) (lub a (lub b c)) = true :=
  equivalent_iff.2 ⟨lub_assoc_leq a b c, lub_assoc_geq a b c⟩

theorem lub_assoc_of_isBare (ha : a.isBare = true) (hb : b.isBare = true) (hc : c.isBare = true) :
    lub (lub a b) c = lub a (lub b c) :=
  leq_antisymm (isBare_lub (isBare_lub ha hb) hc) (isBare_lub ha (isBare_lub hb hc))
    (lub_assoc_leq a b c) (lub_assoc_geq a b c)

/-- **Joins are commutative and associative.** The order of two types makes no difference to how
their join is written. The grouping of three makes none up to equivalence, and none at all where
the types have no aliases and labels, which their joins then have neither. -/
theorem lub_commutative_associative (a b c : Ty) :
    lub a b = lub b a ∧ equivalent (lub (lub a b) c) (lub a (lub b c)) = true ∧
      (a.isBare = true → b.isBare = true → (lub a b).isBare = true ∧
        (c.isBare = true → lub (lub a b) c = lub a (lub b c))) :=
  ⟨lub_comm a b, lub_assoc_equivalent a b c,
    fun ha hb => ⟨isBare_lub ha hb, fun hc => lub_assoc_of_isBare ha hb hc⟩⟩

/-- A relation joined with a set of tuples, and then with a relation of other length. -/
theorem lub_assoc_rel_set :
    let a := rel [int] none
    let b := set (tuple [str] none)
    let c := rel [int, int] none
    (a.isBare = true ∧ b.isBare = true ∧ c.isBare = true) ∧
      lub a b = lub b a ∧ (lub a b).isBare = true ∧ lub (lub a b) c = lub a (lub b c) := by
  intro a b c
  have ha : a.isBare = true := rfl
  have hb : b.isBare = true := rfl
  have hc : c.isBare = true := rfl
  obtain ⟨hcomm, -, hbare⟩ := lub_commutative_associative a b c
  exact ⟨⟨ha, hb, hc⟩, hcomm, (hbare ha hb).1, (hbare ha hb).2 hc⟩

/-- With labels the grouping shows: a row that is above the other two keeps its labels where it is
joined with each of them in turn, and loses them to the join of the two. -/
example :
    let a := tuple [int] (some ["x"])
    let b := tuple [str] (some ["y"])
    let c := tuple [value] (some ["z"])
    lub (lub a b) c = tuple [value] none ∧ lub a (lub b c) = c := by decide

/-! ## The bottom -/

/-- Below the bottom are the bottom and its aliases. -/
theorem leq_void_iff : leq a void = true ↔ a.strip = void := by
  rw [leq_iff_below]
  constructor
  · intro h
    generalize a.strip = s at h ⊢
    cases h
    rfl
  · intro h
    rw [h]
    exact .bottom void

/-- Joined with the bottom a type stays as it is written, unless it is an alias of the bottom. -/
theorem lub_void_left (a : Ty) : lub void a = if a.strip = void then void else a := by
  have hab : leq void a = true := leq_of_below (.bottom a)
  unfold lub choose
  by_cases ha : a = void
  · subst ha
    rfl
  · rw [if_neg (Ne.symm ha), hab]
    by_cases hs : a.strip = void
    · rw [leq_void_iff.2 hs, if_pos hs, ← rebuild_strip, hs]
      rfl
    · rw [Bool.eq_false_iff.2 (mt leq_void_iff.1 hs), if_neg hs]

/-- The bottom is an identity of the join, on both sides, for the types that are no aliases of it.
Those are equivalent to it, and give way to it. -/
theorem lub_void_eq_self_iff (t : Ty) :
    lub t void = lub void t ∧ (lub void t = t ↔ (t.strip = void → t = void)) ∧
      (t.strip = void → lub void t = void) ∧ equivalent (lub void t) t = true := by
  refine ⟨lub_comm t void, ?_⟩
  rw [lub_void_left]
  by_cases ht : t.strip = void
  · have hequiv : equivalent void t = true :=
      equivalent_iff.2 ⟨leq_of_below (.bottom t), leq_void_iff.2 ht⟩
    rw [if_pos ht]
    exact ⟨⟨fun h _ => h.symm, fun h => (h ht).symm⟩, fun _ => rfl, hequiv⟩
  · rw [if_neg ht]
    exact ⟨iff_of_true rfl fun h => absurd h ht, fun h => absurd h ht,
      equivalent_iff.2 ⟨leq_refl t, leq_refl t⟩⟩

/-- An alias of the bottom is lost, whichever of the two comes first. -/
theorem lub_void_nothing :
    lub void (named "nothing" void) ≠ named "nothing" void ∧
      lub (named "nothing" void) void ≠ named "nothing" void := by decide

/-! ## Joins of lists -/

/-- `t` is a least upper bound of the types of a list. -/
structure IsJoinOf (ts : List Ty) (t : Ty) : Prop where
  above : ∀ u ∈ ts, leq u t = true
  least : ∀ c, (∀ u ∈ ts, leq u c = true) → leq t c = true

theorem isJoinOf_foldl_lub (ts : List Ty) : IsJoinOf ts (ts.foldl lub void) where
  above := (leq_foldl_lub ts void).2
  least _ h := foldl_lub_leq (leq_of_below (.bottom _)) h

theorem IsJoinOf.equivalent_of_perm {ts us : List Ty} {t u : Ty} (ht : IsJoinOf ts t)
    (hu : IsJoinOf us u) (h : ts.Perm us) : equivalent t u = true := by
  refine equivalent_iff.2 ⟨ht.least u fun v hv => ?_, hu.least t fun v hv => ?_⟩
  · exact hu.above v (h.mem_iff.1 hv)
  · exact ht.above v (h.mem_iff.2 hv)

end ValueLattice.Ty

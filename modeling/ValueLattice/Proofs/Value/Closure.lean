import ValueLattice.Proofs.Value.Worklist
/-!
# The transitive closure of a relation

The closure of a binary relation is the least transitive relation that includes it. It holds a
pair of values exactly when a chain of pairs of the relation leads from one to the other, so it
is closed already, and its own closure is equal to it.

The tuples of the relation are typed by their contents, so that equality is an equivalence of
their elements. Then a relation holds a pair of values exactly when one of its pairs is alike,
component by component (`Relation.has_pair_iff`), and what is shown of lists of pairs holds of
relations. The loop may take pairs in any order: each run of it gives a closure.

* `Relation.Includes`, `Relation.IsTransitive`: inclusion and transitivity;
* `Relation.IsClosureOf`: what a closure has to be;
* `Relation.returns_closure_iff`, `Relation.closure_fails_iff`: the result, and when there is none;
* `Relation.has_ofTable_iff`, `Relation.ofTable_beq`: pairs, as a relation;
* `Relation.isClosureOf_ofPairs`: closed pairs, as a relation;
* `closure_correct`: the closure is correct, and so is every run of its loop.
-/

namespace ValueLattice

open Value

namespace Relation

variable {r s : Relation} {row : Row} {left right t : Ty} {x y : Value} {p q : Value × Value}
  {ps qs closed : List (Value × Value)}

/-- Every tuple of `s` is in `r`. -/
def Includes (r s : Relation) : Prop := ∀ x ∈ s.elems, r.has x = true

/-- Where a pair ends at the beginning of another, the outer ends are a pair of the relation. -/
def IsTransitive (r : Relation) : Prop :=
  ∀ p ∈ r.pairs, ∀ q ∈ r.pairs, (p.2 == q.1) = true → r.has (pair (p.1, q.2)) = true

/-- The tuples of the relation are typed by their contents. -/
def InferredElems (r : Relation) : Prop := ∀ x ∈ r.elems, Inferred x

/-- The least transitive relation that includes `r`. It holds the pairs that chains of pairs of
`r` lead between. -/
structure IsClosureOf (s r : Relation) : Prop where
  elems : s.InferredElems
  has_iff : ∀ x y, Inferred x → Inferred y → (s.has (pair (x, y)) = true ↔ Leads r.pairs x y)
  transitive : s.IsTransitive
  includes : s.Includes r
  least : ∀ q : Relation, q.InferredElems → q.IsTransitive → q.Includes r → q.Includes s

/-! ## Pairs -/

theorem inferred_pair (h : Inferred p.1 ∧ Inferred p.2) : Inferred (pair p) :=
  .tuple (List.forall_mem_cons.2 ⟨h.1, List.forall_mem_singleton.2 h.2⟩)

theorem sameDigest_pair : sameDigest (pair p) (pair q) = true ↔ Alike p q := by
  simp [pair, Tuple.toValue, Tuple.ofValues, sameDigest, sameDigests, Alike]

/-- A tuple of two elements, typed by its contents, is a pair. -/
theorem eq_pair_of_inferred {ts : List Ty} {ls : Option (List String)}
    (h : Inferred (.tuple ts ls [x, y])) :
    .tuple ts ls [x, y] = pair (x, y) ∧ Inferred x ∧ Inferred y := by
  obtain ⟨rfl, rfl, hxy⟩ := h.shape
  exact ⟨rfl, hxy x (by simp), hxy y (by simp)⟩

/-- A value that has the digest of a pair is a pair, if it is typed by its contents. -/
theorem exists_pair_of_sameDigest (hx : Inferred x) (h : sameDigest (pair p) x = true) :
    ∃ q, x = pair q ∧ Alike p q := by
  cases x with
  | tuple ts ls xs =>
    rw [pair, Tuple.toValue, Tuple.ofValues, sameDigest, sameDigests_iff] at h
    obtain _ | ⟨h1, _ | ⟨h2, ⟨⟩⟩⟩ := h
    exact ⟨_, (eq_pair_of_inferred hx).1, h1, h2⟩
  | _ => simp [pair, Tuple.toValue, Tuple.ofValues, sameDigest] at h

theorem mem_pairs_iff (h : r.InferredElems) : p ∈ r.pairs ↔ pair p ∈ r.elems := by
  constructor
  · intro hp
    obtain ⟨u, hu, hup⟩ := List.mem_filterMap.1 hp
    obtain ⟨x, hx, hxu⟩ := List.mem_filterMap.1 hu
    obtain rfl := eq_toValue_of_tuple? hxu
    split at hup
    · next he =>
      obtain rfl := Option.some.inj hup
      have hxi : Inferred u.toValue := h _ hx
      rw [Tuple.toValue, he] at hx hxi
      exact (eq_pair_of_inferred hxi).1 ▸ hx
    · nomatch hup
  · intro hp
    exact List.mem_filterMap.2 ⟨Tuple.ofValues [p.1, p.2], List.mem_filterMap.2 ⟨_, hp, rfl⟩, rfl⟩

theorem inferredPairs_pairs (h : r.InferredElems) : InferredPairs r.pairs := fun p hp =>
  (eq_pair_of_inferred (h (pair p) ((mem_pairs_iff h).1 hp))).2

/-- A relation holds a pair of values when it has one that is alike. -/
theorem has_pair_iff (h : r.InferredElems) (hx : Inferred x) (hy : Inferred y) :
    r.has (pair (x, y)) = true ↔ ∃ q ∈ r.pairs, Alike (x, y) q := by
  have hxy : Inferred (pair (x, y)) := inferred_pair ⟨hx, hy⟩
  constructor
  · intro hhas
    obtain ⟨z, hz, hfinds⟩ := List.any_eq_true.1 hhas
    obtain ⟨q, rfl, hq⟩ := exists_pair_of_sameDigest (h z hz) (sameDigest_of_finds hfinds)
    exact ⟨q, (mem_pairs_iff h).2 hz, hq⟩
  · rintro ⟨q, hq, hxyq⟩
    have hmem : pair q ∈ r.elems := (mem_pairs_iff h).1 hq
    refine List.any_eq_true.2 ⟨pair q, hmem, ?_⟩
    rw [hxy.finds_eq (h _ hmem)]
    exact sameDigest_pair.2 hxyq

theorem has_of_mem_pairs (h : r.InferredElems) (hp : p ∈ r.pairs) : r.has (pair p) = true := by
  obtain ⟨h1, h2⟩ := inferredPairs_pairs h p hp
  exact (has_pair_iff h h1 h2).2 ⟨p, hp, .refl p⟩

/-- The tuples of a well-typed binary relation are pairs. -/
theorem exists_pair_of_mem (hr : r.toValue.WellTyped) (hf : r.row.fields = [left, right])
    (h : r.InferredElems) (hx : x ∈ r.elems) : ∃ p ∈ r.pairs, x = pair p := by
  obtain ⟨u, rfl, -, helems⟩ := (wellTyped_iff.1 hr x hx).exists_tuple
  rw [hf] at helems
  have hu : Inferred u.toValue := h _ hx
  obtain ⟨row, xs⟩ := u
  obtain _ | ⟨-, _ | ⟨-, ⟨⟩⟩⟩ := helems
  have heq := (eq_pair_of_inferred hu).1
  exact ⟨_, (mem_pairs_iff h).2 (heq ▸ hx), heq⟩

/-! ## Transitive relations -/

theorem IsTransitive.has_trans (ht : r.IsTransitive) (h : r.InferredElems) {x y z : Value}
    (hx : Inferred x) (hy : Inferred y) (hz : Inferred z) (hxy : r.has (pair (x, y)) = true)
    (hyz : r.has (pair (y, z)) = true) : r.has (pair (x, z)) = true := by
  obtain ⟨p, hp, hp1, hp2⟩ := (has_pair_iff h hx hy).1 hxy
  obtain ⟨q, hq, hq1, hq2⟩ := (has_pair_iff h hy hz).1 hyz
  obtain ⟨hp1', hp2'⟩ := inferredPairs_pairs h p hp
  obtain ⟨hq1', hq2'⟩ := inferredPairs_pairs h q hq
  have hpq : (p.2 == q.1) = true := by
    rw [hp2'.beq_eq hq1']
    exact sameDigest_trans (sameDigest_symm hp2) hq1
  obtain ⟨w, hw, hw1, hw2⟩ := (has_pair_iff h hp1' hq2').1 (ht p hp q hq hpq)
  exact (has_pair_iff h hx hz).2 ⟨w, hw, sameDigest_trans hp1 hw1, sameDigest_trans hq2 hw2⟩

/-- A transitive relation holds what chains of its pairs lead between. -/
theorem IsTransitive.has_of_leads (ht : r.IsTransitive) (h : r.InferredElems)
    (hps : InferredPairs ps) (hin : ∀ p ∈ ps, r.has (pair p) = true) (hx : Inferred x)
    (hy : Inferred y) (hl : Leads ps x y) : r.has (pair (x, y)) = true := by
  have hlink {x : Value} (hx : Inferred x) {p : Value × Value} (hp : p ∈ ps)
      (hxp : (x == p.1) = true) : r.has (pair (x, p.2)) = true := by
    obtain ⟨h1, h2⟩ := hps p hp
    obtain ⟨q, hq, hpq⟩ := (has_pair_iff h h1 h2).1 (hin p hp)
    rw [hx.beq_eq h1] at hxp
    exact (has_pair_iff h hx h2).2 ⟨q, hq, sameDigest_trans hxp hpq.1, hpq.2⟩
  induction hl with
  | @single x y p hp hxp hpy =>
    obtain ⟨q, hq, hxq⟩ := (has_pair_iff h hx (hps p hp).2).1 (hlink hx hp hxp)
    rw [(hps p hp).2.beq_eq hy] at hpy
    exact (has_pair_iff h hx hy).2
      ⟨q, hq, hxq.1, sameDigest_trans (sameDigest_symm hpy) hxq.2⟩
  | @cons x y p hp hxp _ ih =>
    have h2 : Inferred p.2 := (hps p hp).2
    exact ht.has_trans h hx h2 hy (hlink hx hp hxp) (ih h2 hy)

/-- Chains of pairs of a transitive relation lead nowhere else. -/
theorem leads_pairs_iff (ht : r.IsTransitive) (h : r.InferredElems) (hx : Inferred x)
    (hy : Inferred y) : Leads r.pairs x y ↔ r.has (pair (x, y)) = true := by
  have hps : InferredPairs r.pairs := inferredPairs_pairs h
  refine ⟨ht.has_of_leads h hps (fun p => has_of_mem_pairs h) hx hy, fun hxy => ?_⟩
  obtain ⟨q, hq, hxq, hyq⟩ := (has_pair_iff h hx hy).1 hxy
  obtain ⟨h1, h2⟩ := hps q hq
  exact ((Leads.of_mem hps hq).congr_left hps hx h1 hxq).congr_right hps h2 hy
    (sameDigest_symm hyq)

/-! ## Relations of given pairs -/

theorem exists_of_mem_ofTable (hx : x ∈ (ofTable row (ps.map pair)).elems) :
    ∃ p ∈ ps, pair p = x :=
  List.mem_map.1 (Table.mem_ofList hx)

theorem inferred_map_pair (h : InferredPairs ps) : ∀ x ∈ ps.map pair, Inferred x :=
  List.forall_mem_map.2 fun p hp => inferred_pair (h p hp)

theorem inferredElems_ofTable (h : InferredPairs ps) :
    (ofTable row (ps.map pair)).InferredElems :=
  fun x hx => inferred_map_pair h x (Table.mem_ofList hx)

theorem has_ofTable_iff (h : InferredPairs ps) (hx : Inferred x) (hy : Inferred y) :
    (ofTable row (ps.map pair)).has (pair (x, y)) = true ↔ hasPair ps (x, y) = true := by
  have hi : (ofTable row (ps.map pair)).InferredElems := inferredElems_ofTable h
  rw [has_pair_iff hi hx hy, hasPair_iff h hx hy]
  constructor
  · rintro ⟨q, hq, hxq⟩
    obtain ⟨p, hp, hpq⟩ := exists_of_mem_ofTable ((mem_pairs_iff hi).1 hq)
    exact ⟨p, hp, hxq.trans (sameDigest_pair.1 (hpq ▸ sameDigest_refl (pair q)))⟩
  · rintro ⟨p, hp, hxp⟩
    obtain ⟨z, hz, hpz⟩ := Table.exists_sameDigest (List.mem_map_of_mem (f := pair) hp)
    obtain ⟨q, rfl, hpq⟩ := exists_pair_of_sameDigest (hi z hz) hpz
    exact ⟨q, (mem_pairs_iff hi).2 hz, hxp.trans hpq⟩

/-- Pairs that hold the same values are equal as relations of one row. -/
theorem ofTable_beq (h : InferredPairs ps) (h' : InferredPairs qs)
    (hiff : ∀ x y, Inferred x → Inferred y →
      (hasPair ps (x, y) = true ↔ hasPair qs (x, y) = true)) :
    ((ofTable row (ps.map pair)).toValue == (ofTable row (qs.map pair)).toValue) = true := by
  have hcover {ps qs : List (Value × Value)} (hps : InferredPairs ps) (hqs : InferredPairs qs)
      (hsub : ∀ p ∈ ps, hasPair qs p = true) (x) (hx : x ∈ ps.map pair) :
      ∃ y ∈ qs.map pair, sameDigest x y = true := by
    obtain ⟨p, hp, rfl⟩ := List.mem_map.1 hx
    obtain ⟨q, hq, hpq⟩ := (hasPair_iff hqs (hps p hp).1 (hps p hp).2).1 (hsub p hp)
    exact ⟨pair q, List.mem_map_of_mem hq, sameDigest_pair.2 hpq⟩
  have hi := inferred_map_pair h
  have hi' := inferred_map_pair h'
  have hsum : sameDigestSum (Table.ofList (ps.map pair)) (Table.ofList (qs.map pair)) = true := by
    refine sameDigestSum_ofList hi hi' (hcover h h' fun p hp => ?_) (hcover h' h fun p hp => ?_)
    · exact (hiff p.1 p.2 (h p hp).1 (h p hp).2).1 (hasPair_of_mem h hp)
    · exact (hiff p.1 p.2 (h' p hp).1 (h' p hp).2).2 (hasPair_of_mem h' hp)
  obtain ⟨hlen, hfound⟩ := (foundAll_ofList_iff (fun x hx => (hi x hx).knownByDigest) hi
    fun x hx => hi' x (Table.mem_ofList hx)).2 hsum
  have hrows : Ty.comparableRows row.fields row.fields = true := by
    rw [Ty.comparableRows, Ty.leqAll_refl, Bool.true_or]
  change eqv (.rel row.fields row.labels (Table.ofList (ps.map pair)))
    (.rel row.fields row.labels (Table.ofList (qs.map pair))) = true
  rw [eqv, Bool.and_eq_true, Bool.and_eq_true, decide_eq_true_eq]
  exact ⟨⟨hrows, hlen⟩, hfound⟩

/-! ## Closed pairs -/

/-- The relation of closed pairs, of which both columns have one bound. -/
def ofPairs (t : Ty) (closed : List (Value × Value)) : Relation :=
  ofTable (.plain [t, t]) (closed.map pair)

/-- Closed pairs that chains of pairs of a relation lead between are its closure. -/
theorem isClosureOf_ofPairs (hr : r.toValue.WellTyped) (hf : r.row.fields = [left, right])
    (h : r.InferredElems) (hcl : InferredPairs closed)
    (hiff : ∀ x y, Inferred x → Inferred y →
      (hasPair closed (x, y) = true ↔ Leads r.pairs x y)) :
    (ofPairs t closed).IsClosureOf r := by
  have hps : InferredPairs r.pairs := inferredPairs_pairs h
  have hi : (ofPairs t closed).InferredElems := inferredElems_ofTable hcl
  have hhas (x y) (hx : Inferred x) (hy : Inferred y) :
      (ofPairs t closed).has (pair (x, y)) = true ↔ Leads r.pairs x y :=
    (has_ofTable_iff hcl hx hy).trans (hiff x y hx hy)
  refine ⟨hi, hhas, fun p hp q hq hpq => ?_, fun x hx => ?_, fun q hqi hqt hqr x hx => ?_⟩
  · obtain ⟨hp1, hp2⟩ := inferredPairs_pairs hi p hp
    obtain ⟨hq1, hq2⟩ := inferredPairs_pairs hi q hq
    have hpl : Leads r.pairs p.1 p.2 := (hhas p.1 p.2 hp1 hp2).1 (has_of_mem_pairs hi hp)
    have hql : Leads r.pairs q.1 q.2 := (hhas q.1 q.2 hq1 hq2).1 (has_of_mem_pairs hi hq)
    rw [hp2.beq_eq hq1] at hpq
    exact (hhas p.1 q.2 hp1 hq2).2 (hpl.trans hps hp2 (hql.congr_left hps hp2 hq1 hpq))
  · obtain ⟨p, hp, rfl⟩ := exists_pair_of_mem hr hf h hx
    exact (hhas p.1 p.2 (hps p hp).1 (hps p hp).2).2 (.of_mem hps hp)
  · obtain ⟨p, hp, rfl⟩ := exists_of_mem_ofTable hx
    obtain ⟨h1, h2⟩ := hcl p hp
    have hl : Leads r.pairs p.1 p.2 := (hiff p.1 p.2 h1 h2).1 (hasPair_of_mem hcl hp)
    have hin (w) (hw : w ∈ r.pairs) : q.has (pair w) = true := hqr _ ((mem_pairs_iff h).1 hw)
    exact hqt.has_of_leads hqi hps hin h1 h2 hl

/-! ## The result -/

theorem inferredPairs_closePairs (hps : InferredPairs ps) : InferredPairs (closePairs ps) :=
  forall_closePairs hps

theorem hasPair_closePairs_iff (hps : InferredPairs ps) (hx : Inferred x) (hy : Inferred y) :
    hasPair (closePairs ps) (x, y) = true ↔ Leads ps x y := by
  obtain ⟨w, w', hw, hrun, hnil, hclosed⟩ := closePairs_reaches hps
  rw [← hclosed]
  exact ((Worklist.holds_of_start hps hw).run hps hrun).hasPair_iff_leads hps hnil hx hy

/-- The closure, where there is one, is the relation of the closed pairs. -/
theorem returns_closure_iff : r.closure.Returns s ↔ ∃ left right, r.row.fields = [left, right] ∧
    left.comparable right = true ∧ s = ofPairs (left.lub right) (closePairs r.pairs) := by
  constructor
  · intro h
    obtain ⟨⟨left, right⟩, hcol, h⟩ := Checked.returns_bind.1 h
    have hf : r.row.fields = [left, right] := fields_of_columns (Checked.returns_except.1 hcol)
    dsimp only at h
    split at h
    · next hc =>
      obtain ⟨t, ht, h⟩ := Checked.returns_bind.1 h
      obtain rfl : left.lub right = t := Checked.returns_logged.1 ht
      exact ⟨left, right, hf, hc, (Checked.returns_pure.1 h).symm⟩
    · exact absurd h Checked.returns_throw
  · rintro ⟨left, right, hf, hc, rfl⟩
    have hcol : r.columns .closure = .ok (left, right) := by rw [columns, hf]
    refine Checked.returns_bind.2 ⟨(left, right), Checked.returns_except.2 hcol, ?_⟩
    dsimp only
    rw [if_pos hc]
    exact Checked.returns_bind.2
      ⟨left.lub right, Checked.returns_logged.2 rfl, Checked.returns_pure.2 rfl⟩

/-- There is none exactly where the relation is not binary, or its columns are not comparable. -/
theorem closure_fails_iff : (∃ e, r.closure.start.val = .error e) ↔ r.arity ≠ 2 ∨
    ∃ left right, r.row.fields = [left, right] ∧ left.comparable right = false := by
  rw [Checked.fails_iff]
  constructor
  · intro hnone
    by_contra hnot
    obtain ⟨harity, hcomp⟩ := not_or.1 hnot
    obtain ⟨left, right, hf⟩ := List.length_eq_two.1 (not_not.1 harity)
    have hc : left.comparable right = true :=
      by_contra fun hc => hcomp ⟨left, right, hf, Bool.eq_false_iff.2 hc⟩
    exact hnone ⟨_, returns_closure_iff.2 ⟨left, right, hf, hc, rfl⟩⟩
  · rintro hbad ⟨s, hs⟩
    obtain ⟨left, right, hf, hc, -⟩ := returns_closure_iff.1 hs
    rcases hbad with harity | ⟨left', right', hf', hc'⟩
    · exact absurd (congrArg List.length hf) harity
    · rw [hf] at hf'
      cases hf'
      exact absurd hc (Bool.eq_false_iff.1 hc')

/-- What is transitive is closed: its own closure is equal to it. -/
theorem returns_closure_ofPairs (hcl : InferredPairs closed)
    (ht : (ofPairs t closed).IsTransitive) : ∃ s, (ofPairs t closed).closure.Returns s ∧
      (s.toValue == (ofPairs t closed).toValue) = true := by
  have hi : (ofPairs t closed).InferredElems := inferredElems_ofTable hcl
  have hps : InferredPairs (ofPairs t closed).pairs := inferredPairs_pairs hi
  refine ⟨ofPairs t (closePairs (ofPairs t closed).pairs), ?_, ?_⟩
  · refine returns_closure_iff.2 ⟨t, t, rfl, Ty.comparable_refl t, ?_⟩
    rw [Ty.lub_self]
  · refine ofTable_beq (inferredPairs_closePairs hps) hcl fun x y hx hy => ?_
    rw [hasPair_closePairs_iff hps hx hy, leads_pairs_iff ht hi hx hy]
    exact has_ofTable_iff hcl hx hy

/-- **The transitive closure is correct, and its loop ends.** It fails exactly where the relation
is not binary, or the columns are not comparable. Else, of inferred tuples, the passes of the loop
come to an end in whatever order they are taken, and always with a closure: the least transitive
relation that includes the given one, of the pairs that chains lead between. The one returned is
such a run's; both columns have the join of the given ones for a type, and its own closure is equal
to it. -/
theorem closure_correct :
    (∀ r : Relation, (∃ e, r.closure.start.val = .error e) ↔ r.arity ≠ 2 ∨
      ∃ left right, r.row.fields = [left, right] ∧ left.comparable right = false) ∧
    ∀ (r : Relation) (left right : Ty), r.toValue.WellTyped → r.row.fields = [left, right] →
      left.comparable right = true → r.InferredElems →
      (∀ w, Worklist.Start r.pairs w → Acc (fun w' w => Worklist.Step r.pairs w w') w ∧
        ∀ w', Relation.ReflTransGen (Worklist.Step r.pairs) w w' → w'.pending = [] →
          (ofPairs (left.lub right) w'.closed).IsClosureOf r) ∧
      ∃ s, r.closure.Returns s ∧
        (∃ w w', Worklist.Start r.pairs w ∧
          Relation.ReflTransGen (Worklist.Step r.pairs) w w' ∧ w'.pending = [] ∧
            s = ofPairs (left.lub right) w'.closed) ∧
        s.toValue.ty = .rel [left.lub right, left.lub right] none ∧ s.IsClosureOf r ∧
        ∃ s', s.closure.Returns s' ∧ (s'.toValue == s.toValue) = true := by
  refine ⟨fun r => closure_fails_iff, fun r left right hr hf hc h => ?_⟩
  have hps : InferredPairs r.pairs := inferredPairs_pairs h
  have hclosure : (ofPairs (left.lub right) (closePairs r.pairs)).IsClosureOf r :=
    isClosureOf_ofPairs hr hf h (inferredPairs_closePairs hps)
      fun x y hx hy => hasPair_closePairs_iff hps hx hy
  constructor
  · intro w hw
    have hstart : Worklist.Holds r.pairs w := Worklist.holds_of_start hps hw
    refine ⟨hstart.acc hps, fun w' hrun hnil => ?_⟩
    have hend : Worklist.Holds r.pairs w' := hstart.run hps hrun
    exact isClosureOf_ofPairs hr hf h (hend.inferredPairs hps)
      fun x y hx hy => hend.hasPair_iff_leads hps hnil hx hy
  · obtain ⟨w, w', hw, hrun, hnil, hclosed⟩ := closePairs_reaches hps
    refine ⟨ofPairs (left.lub right) (closePairs r.pairs),
      returns_closure_iff.2 ⟨left, right, hf, hc, rfl⟩,
      ⟨w, w', hw, hrun, hnil, by rw [hclosed]⟩, rfl, hclosure, ?_⟩
    exact returns_closure_ofPairs (inferredPairs_closePairs hps) hclosure.transitive

/-- Two numbers, each related to the other. -/
def cycle : Relation := ⟨.plain [.int, .int], [pair (int 1, int 2), pair (int 2, int 1)]⟩

/-- The closure of a cycle relates each of its elements to itself. -/
theorem closure_cycle : ∃ s, cycle.closure.Returns s ∧ s.toValue.ty = .rel [.int, .int] none ∧
    s.IsClosureOf cycle ∧ s.has (pair (int 1, int 1)) = true := by
  have hint (i : Int) : Inferred (int i) := .leaf rfl
  have hty (i : Int) : (int i).HasTy .int := (WellTyped.leaf rfl).hasTy
  have hi : cycle.InferredElems := List.forall_mem_cons.2
    ⟨inferred_pair ⟨hint 1, hint 2⟩, List.forall_mem_singleton.2 (inferred_pair ⟨hint 2, hint 1⟩)⟩
  have hw : cycle.toValue.WellTyped := wellTyped_iff.2 <| List.forall_mem_cons.2
    ⟨hasTy_pair ⟨hty 1, hty 2⟩, List.forall_mem_singleton.2 (hasTy_pair ⟨hty 2, hty 1⟩)⟩
  have hps : InferredPairs cycle.pairs := inferredPairs_pairs hi
  have h12 : Leads cycle.pairs (int 1) (int 2) :=
    .of_mem (p := (int 1, int 2)) hps ((mem_pairs_iff hi).2 (by simp [cycle]))
  have h21 : Leads cycle.pairs (int 2) (int 1) :=
    .of_mem (p := (int 2, int 1)) hps ((mem_pairs_iff hi).2 (by simp [cycle]))
  obtain ⟨-, s, hs, -, hrel, hclosure, -⟩ :=
    closure_correct.2 cycle .int .int hw rfl (by decide) hi
  exact ⟨s, hs, hrel, hclosure,
    (hclosure.has_iff (int 1) (int 1) (hint 1) (hint 1)).2 (h12.trans hps (hint 2) h21)⟩

end Relation

end ValueLattice

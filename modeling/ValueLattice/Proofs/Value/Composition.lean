import ValueLattice.Proofs.Value.Closure
import ValueLattice.Proofs.Value.Lookup
/-!
# The composition of relations

The composition of two binary relations holds the pairs that a pair of the first and a pair of the
second make, where the first ends at a value equal to the one that the second begins at. It goes
through the table of successors of the second relation, with all the pairs of the first. The table
groups values that are typed by their contents by their digests, and that is by equality.

What it holds is told twice (`Relation.IsCompositionOf`). By the tuples that the two relations
consist of, it is told for everything that may be looked for. By the pairs that the two relations
find, it is told for pairs of well-typed values, of which the declared types are above those of the
values that they find (`Relation.finds_pair_iff`).

Three relations may be composed in either grouping. Both groupings compare the same columns, so one
succeeds if the other does, and with the same row. Both hold the pairs of outer ends of three pairs
that meet at equal values, so they are equal. They need not list the same tuples: of several equal
pairs, each grouping keeps the one that it makes first.

* `Relation.Composable`, `Relation.exists_compose_iff`: when there is a composition;
* `Relation.compose_eq_ok`: what it is;
* `Relation.mem_composed`: the pairs that it is made of;
* `Relation.IsCompositionOf`, `Relation.isCompositionOf_of_compose`: what it holds;
* `Relation.has_pair_assoc`, `Relation.compose_assoc`: three relations;
* `compose_correct`: the composition is relational, and associative.
-/

namespace ValueLattice

open Value

namespace Relation

variable {r s t u v w w' : Relation} {p : Value × Value}

/-! ## Columns -/

section Columns

variable {a b c d : Ty}

/-- Both relations are binary, and the second column of the first is comparable with the first
column of the second. -/
def Composable (r s : Relation) : Prop :=
  ∃ a b b' c, r.row.fields = [a, b] ∧ s.row.fields = [b', c] ∧ b.comparable b' = true

/-- The pairs that a pair of `r` and a successor of its second element in `s` make. -/
def composed (r s : Relation) : List (Value × Value) :=
  r.pairs.flatMap fun p => (successorsOf (successors s.pairs) p.2).map fun c => (p.1, c)

/-- The composition, where there is one, is the relation of the composed pairs between the outer
columns. -/
theorem compose_eq_ok : r.compose s = .ok w ↔ ∃ a b b' c, r.row.fields = [a, b] ∧
    s.row.fields = [b', c] ∧ b.comparable b' = true ∧
      w = ofTable (.plain [a, c]) ((composed r s).map pair) := by
  have hpairs : (r.pairs.flatMap fun p =>
      (successorsOf (successors s.pairs) p.2).map fun c => pair (p.1, c)) =
        (composed r s).map pair := by
    rw [composed, List.map_flatMap]
    simp only [List.map_map, Function.comp_def]
  unfold compose
  simp only [hpairs]
  constructor
  · intro h
    obtain ⟨⟨a, b⟩, hr, h⟩ := bind_eq_ok.1 h
    obtain ⟨⟨b', c⟩, hs, h⟩ := bind_eq_ok.1 h
    dsimp only at h
    split at h
    · next hb =>
      exact ⟨a, b, b', c, fields_of_columns hr, fields_of_columns hs, hb, (pure_eq_ok.1 h).symm⟩
    · nomatch h
  · rintro ⟨a, b, b', c, hr, hs, hb, rfl⟩
    have hr' : r.columns .composition = .ok (a, b) := by rw [columns, hr]
    have hs' : s.columns .composition = .ok (b', c) := by rw [columns, hs]
    refine bind_eq_ok.2 ⟨(a, b), hr', bind_eq_ok.2 ⟨(b', c), hs', ?_⟩⟩
    dsimp only
    rw [if_pos hb]
    rfl

theorem exists_compose_iff : (∃ w, r.compose s = .ok w) ↔ Composable r s := by
  constructor
  · rintro ⟨w, hw⟩
    obtain ⟨a, b, b', c, hr, hs, hb, -⟩ := compose_eq_ok.1 hw
    exact ⟨a, b, b', c, hr, hs, hb⟩
  · rintro ⟨a, b, b', c, hr, hs, hb⟩
    exact ⟨_, compose_eq_ok.2 ⟨a, b, b', c, hr, hs, hb, rfl⟩⟩

/-- A composition ends with the column that its second relation ends with. -/
theorem composable_left (h : r.compose s = .ok w) : Composable w t ↔ Composable s t := by
  obtain ⟨a, b, b', c, -, hs, -, rfl⟩ := compose_eq_ok.1 h
  constructor
  · rintro ⟨_, _, c', d, hw, ht, hc⟩
    cases hw
    exact ⟨b', c, c', d, hs, ht, hc⟩
  · rintro ⟨b'', c', c'', d, hs', ht, hc⟩
    rw [hs] at hs'
    cases hs'
    exact ⟨a, c, c'', d, rfl, ht, hc⟩

/-- A composition begins with the column that its first relation begins with. -/
theorem composable_right (h : s.compose t = .ok w) : Composable r w ↔ Composable r s := by
  obtain ⟨b', c, c', d, hs, -, -, rfl⟩ := compose_eq_ok.1 h
  constructor
  · rintro ⟨a, b, _, _, hr, hw, hb⟩
    cases hw
    exact ⟨a, b, b', c, hr, hs, hb⟩
  · rintro ⟨a, b, b'', c'', hr, hs', hb⟩
    rw [hs] at hs'
    cases hs'
    exact ⟨a, b, b', d, hr, rfl, hb⟩

theorem eq_ofTable_of_compose (h : r.compose s = .ok w) (hr : r.row.fields = [a, b])
    (hs : s.row.fields = [c, d]) : w = ofTable (.plain [a, d]) ((composed r s).map pair) := by
  obtain ⟨a', b', c', d', hr', hs', -, rfl⟩ := compose_eq_ok.1 h
  rw [hr] at hr'
  rw [hs] at hs'
  cases hr'
  cases hs'
  rfl

end Columns

/-! ## Contents -/

variable {x y a b c : Value}

theorem mem_composed (hr : r.InferredElems) (hs : s.InferredElems) : p ∈ composed r s ↔
    ∃ q ∈ r.pairs, ∃ q' ∈ s.pairs, (q.2 == q'.1) = true ∧ p = (q.1, q'.2) := by
  have hps : InferredPairs s.pairs := inferredPairs_pairs hs
  rw [composed, List.mem_flatMap]
  refine exists_congr fun q => and_congr_right fun hq => ?_
  have h2 : Inferred q.2 := (inferredPairs_pairs hr q hq).2
  rw [List.mem_map]
  constructor
  · rintro ⟨c, hc, rfl⟩
    obtain ⟨q', hq', hd, rfl⟩ := (mem_successorsOf hps h2).1 hc
    exact ⟨q', hq', (h2.beq_eq (hps q' hq').1).trans hd, rfl⟩
  · rintro ⟨q', hq', hmeet, rfl⟩
    rw [h2.beq_eq (hps q' hq').1] at hmeet
    exact ⟨q'.2, (mem_successorsOf hps h2).2 ⟨q', hq', hmeet, rfl⟩, rfl⟩

theorem inferredPairs_composed (hr : r.InferredElems) (hs : s.InferredElems) :
    InferredPairs (composed r s) := by
  intro p hp
  obtain ⟨q, hq, q', hq', -, rfl⟩ := (mem_composed hr hs).1 hp
  exact ⟨(inferredPairs_pairs hr q hq).1, (inferredPairs_pairs hs q' hq').2⟩

/-! ## Pairs of well-typed values -/

theorem eqv_pair : eqv (pair (x, y)) (pair (a, b)) = true ↔
    Ty.comparableRows [x.ty, y.ty] [a.ty, b.ty] = true ∧ eqv x a = true ∧ eqv y b = true := by
  change eqv (.tuple [x.ty, y.ty] none [x, y]) (.tuple [a.ty, b.ty] none [a, b]) = true ↔ _
  simp only [eqv, eqvAll, Bool.and_true, Bool.and_eq_true]

/-- A table takes an inferred pair for a well-typed one when it takes the elements for each other:
the types of the elements are then below those that are declared. -/
theorem finds_pair_iff (hx : x.WellTyped) (hy : y.WellTyped) (ha : Inferred a) (hb : Inferred b) :
    (pair (x, y)).finds (pair (a, b)) = true ↔ x.finds a = true ∧ y.finds b = true := by
  constructor
  · intro h
    obtain ⟨hd, he⟩ := Bool.and_eq_true_iff.1 h
    obtain ⟨hda, hdb⟩ := sameDigest_pair.1 hd
    obtain ⟨-, hea, heb⟩ := eqv_pair.1 he
    exact ⟨Bool.and_eq_true_iff.2 ⟨hda, hea⟩, Bool.and_eq_true_iff.2 ⟨hdb, heb⟩⟩
  · rintro ⟨hxa, hyb⟩
    have hrows : Ty.comparableRows [x.ty, y.ty] [a.ty, b.ty] = true := by
      simp [Ty.comparableRows, Ty.leqAll, aboveFound hx a ha hxa, aboveFound hy b hb hyb]
    obtain ⟨hda, hea⟩ := Bool.and_eq_true_iff.1 hxa
    obtain ⟨hdb, heb⟩ := Bool.and_eq_true_iff.1 hyb
    exact Bool.and_eq_true_iff.2
      ⟨sameDigest_pair.2 ⟨hda, hdb⟩, eqv_pair.2 ⟨hrows, hea, heb⟩⟩

theorem has_pair_iff_finds (h : r.InferredElems) (hx : x.WellTyped) (hy : y.WellTyped) :
    r.has (pair (x, y)) = true ↔
      ∃ a b, pair (a, b) ∈ r.elems ∧ x.finds a = true ∧ y.finds b = true := by
  have hps : InferredPairs r.pairs := inferredPairs_pairs h
  constructor
  · intro hhas
    obtain ⟨z, hz, hfinds⟩ := List.any_eq_true.1 hhas
    obtain ⟨q, rfl, -⟩ := exists_pair_of_sameDigest (h z hz) (sameDigest_of_finds hfinds)
    obtain ⟨h1, h2⟩ := hps q ((mem_pairs_iff h).2 hz)
    exact ⟨q.1, q.2, hz, (finds_pair_iff hx hy h1 h2).1 hfinds⟩
  · rintro ⟨a, b, hab, hfinds⟩
    obtain ⟨ha, hb⟩ := hps (a, b) ((mem_pairs_iff h).2 hab)
    exact List.any_eq_true.2 ⟨pair (a, b), hab, (finds_pair_iff hx hy ha hb).2 hfinds⟩

/-- What the tuples of two relations make is what the pairs make that the two relations find. -/
theorem exists_elems_iff (hr : r.InferredElems) (hs : s.InferredElems)
    (ha : a.WellTyped) (hc : c.WellTyped) :
    (∃ a' b b' c', pair (a', b) ∈ r.elems ∧ pair (b', c') ∈ s.elems ∧ (b == b') = true ∧
      (pair (a, c)).finds (pair (a', c')) = true) ↔
    ∃ b b', b.WellTyped ∧ b'.WellTyped ∧ r.has (pair (a, b)) = true ∧
      s.has (pair (b', c)) = true ∧ (b == b') = true := by
  have hps : InferredPairs r.pairs := inferredPairs_pairs hr
  have hqs : InferredPairs s.pairs := inferredPairs_pairs hs
  have hself {b : Value} (hb : Inferred b) : b.finds b = true := by
    rw [hb.finds_eq hb, sameDigest_refl]
  constructor
  · rintro ⟨a', b, b', c', hab, hbc, hmeet, hfinds⟩
    obtain ⟨ha', hb⟩ := hps (a', b) ((mem_pairs_iff hr).2 hab)
    obtain ⟨hb', hc'⟩ := hqs (b', c') ((mem_pairs_iff hs).2 hbc)
    obtain ⟨haa, hcc⟩ := (finds_pair_iff ha hc ha' hc').1 hfinds
    exact ⟨b, b', hb.wellTyped, hb'.wellTyped,
      (has_pair_iff_finds hr ha hb.wellTyped).2 ⟨a', b, hab, haa, hself hb⟩,
      (has_pair_iff_finds hs hb'.wellTyped hc).2 ⟨b', c', hbc, hself hb', hcc⟩, hmeet⟩
  · rintro ⟨b, b', hb, hb', hab, hbc, hmeet⟩
    obtain ⟨a₁, b₁, hab₁, haa, hbb⟩ := (has_pair_iff_finds hr ha hb).1 hab
    obtain ⟨b₂, c₂, hbc₂, hbb', hcc⟩ := (has_pair_iff_finds hs hb' hc).1 hbc
    obtain ⟨ha₁, hb₁⟩ := hps (a₁, b₁) ((mem_pairs_iff hr).2 hab₁)
    obtain ⟨hb₂, hc₂⟩ := hqs (b₂, c₂) ((mem_pairs_iff hs).2 hbc₂)
    -- the values that are found have the digests of `b` and `b'`, and these have one digest
    have hd : sameDigest b b' = true :=
      sameDigest_of_eqv_of_inferred hb₁ (sameDigest_of_finds hbb) hmeet
    have hmeet' : (b₁ == b₂) = true := by
      rw [hb₁.beq_eq hb₂]
      exact sameDigest_trans (sameDigest_symm (sameDigest_of_finds hbb))
        (sameDigest_trans hd (sameDigest_of_finds hbb'))
    exact ⟨a₁, b₁, b₂, c₂, hab₁, hbc₂, hmeet', (finds_pair_iff ha hc ha₁ hc₂).2 ⟨haa, hcc⟩⟩

theorem has_composed_iff {row : Row} (hr : r.InferredElems) (hs : s.InferredElems) :
    (ofTable row ((composed r s).map pair)).has x = true ↔ ∃ a b b' c, pair (a, b) ∈ r.elems ∧
      pair (b', c) ∈ s.elems ∧ (b == b') = true ∧ x.finds (pair (a, c)) = true := by
  have hps : InferredPairs (composed r s) := inferredPairs_composed hr hs
  change Table.has (Table.ofList ((composed r s).map pair)) x = true ↔ _
  rw [Table.has_ofList_iff (inferred_map_pair hps)]
  constructor
  · rintro ⟨y, hy, hfinds⟩
    obtain ⟨p, hp, rfl⟩ := List.mem_map.1 hy
    obtain ⟨q, hq, q', hq', hmeet, rfl⟩ := (mem_composed hr hs).1 hp
    exact ⟨q.1, q.2, q'.1, q'.2, (mem_pairs_iff hr).1 hq, (mem_pairs_iff hs).1 hq', hmeet, hfinds⟩
  · rintro ⟨a, b, b', c, hab, hbc, hmeet, hfinds⟩
    have hp : (a, c) ∈ composed r s := (mem_composed hr hs).2
      ⟨(a, b), (mem_pairs_iff hr).2 hab, (b', c), (mem_pairs_iff hs).2 hbc, hmeet, rfl⟩
    exact ⟨pair (a, c), List.mem_map_of_mem hp, hfinds⟩

/-- The pairs that `w` holds are those that a pair of `r` and a pair of `s` make, where they meet
at equal values. -/
structure IsCompositionOf (w r s : Relation) : Prop where
  elems : w.InferredElems
  /-- Whatever is found is found as a pair that two tuples make. -/
  has_iff : ∀ x : Value, w.has x = true ↔ ∃ a b b' c, pair (a, b) ∈ r.elems ∧
    pair (b', c) ∈ s.elems ∧ (b == b') = true ∧ x.finds (pair (a, c)) = true
  /-- A pair of values is found when the two relations find pairs that make it. -/
  has_pair_iff : ∀ a c, a.WellTyped → c.WellTyped → (w.has (pair (a, c)) = true ↔
    ∃ b b', b.WellTyped ∧ b'.WellTyped ∧ r.has (pair (a, b)) = true ∧
      s.has (pair (b', c)) = true ∧ (b == b') = true)

theorem isCompositionOf_of_compose (hr : r.InferredElems) (hs : s.InferredElems)
    (h : r.compose s = .ok w) : w.IsCompositionOf r s := by
  obtain ⟨-, -, -, -, -, -, -, rfl⟩ := compose_eq_ok.1 h
  exact ⟨inferredElems_ofTable (inferredPairs_composed hr hs), fun x => has_composed_iff hr hs,
    fun a c ha hc => (has_composed_iff hr hs).trans (exists_elems_iff hr hs ha hc)⟩

/-! ## Three relations -/

/-- Three pairs that meet at equal values make the same pair in either grouping. -/
theorem has_pair_assoc (hw : w.IsCompositionOf r s) (hu : u.IsCompositionOf w t)
    (hw' : w'.IsCompositionOf s t) (hv : v.IsCompositionOf r w') (hx : x.WellTyped)
    (hy : y.WellTyped) : u.has (pair (x, y)) = true ↔ v.has (pair (x, y)) = true := by
  rw [hu.has_pair_iff x y hx hy, hv.has_pair_iff x y hx hy]
  constructor
  · rintro ⟨c, c', hc, hc', hxc, hcy, hmeet⟩
    obtain ⟨b, b', hb, hb', hxb, hbc, hmeet'⟩ := (hw.has_pair_iff x c hx hc).1 hxc
    exact ⟨b, b', hb, hb', hxb,
      (hw'.has_pair_iff b' y hb' hy).2 ⟨c, c', hc, hc', hbc, hcy, hmeet⟩, hmeet'⟩
  · rintro ⟨b, b', hb, hb', hxb, hby, hmeet⟩
    obtain ⟨c, c', hc, hc', hbc, hcy, hmeet'⟩ := (hw'.has_pair_iff b' y hb' hy).1 hby
    exact ⟨c, c', hc, hc', (hw.has_pair_iff x c hx hc).2 ⟨b, b', hb, hb', hxb, hbc, hmeet⟩, hcy,
      hmeet'⟩

/-- Both groupings compare the second column of `r` with the first of `s`, and the second column of
`s` with the first of `t`. -/
theorem exists_compose_left_iff : (∃ u, (r.compose s >>= fun w => w.compose t) = .ok u) ↔
    Composable r s ∧ Composable s t := by
  constructor
  · rintro ⟨u, hu⟩
    obtain ⟨w, hw, hu⟩ := bind_eq_ok.1 hu
    exact ⟨exists_compose_iff.1 ⟨w, hw⟩, (composable_left hw).1 (exists_compose_iff.1 ⟨u, hu⟩)⟩
  · rintro ⟨hrs, hst⟩
    obtain ⟨w, hw⟩ := exists_compose_iff.2 hrs
    obtain ⟨u, hu⟩ := exists_compose_iff.2 ((composable_left hw).2 hst)
    exact ⟨u, bind_eq_ok.2 ⟨w, hw, hu⟩⟩

theorem exists_compose_right_iff : (∃ v, (s.compose t >>= fun w => r.compose w) = .ok v) ↔
    Composable r s ∧ Composable s t := by
  constructor
  · rintro ⟨v, hv⟩
    obtain ⟨w, hw, hv⟩ := bind_eq_ok.1 hv
    exact ⟨(composable_right hw).1 (exists_compose_iff.1 ⟨v, hv⟩), exists_compose_iff.1 ⟨w, hw⟩⟩
  · rintro ⟨hrs, hst⟩
    obtain ⟨w, hw⟩ := exists_compose_iff.2 hst
    obtain ⟨v, hv⟩ := exists_compose_iff.2 ((composable_right hw).2 hrs)
    exact ⟨v, bind_eq_ok.2 ⟨w, hw, hv⟩⟩

theorem compose_assoc (hr : r.InferredElems) (hs : s.InferredElems) (ht : t.InferredElems)
    (hu : (r.compose s >>= fun w => w.compose t) = .ok u)
    (hv : (s.compose t >>= fun w => r.compose w) = .ok v) :
    (u.toValue == v.toValue) = true ∧ u.row = v.row := by
  obtain ⟨w, hw, hu⟩ := bind_eq_ok.1 hu
  obtain ⟨w', hw', hv⟩ := bind_eq_ok.1 hv
  have hcw : w.IsCompositionOf r s := isCompositionOf_of_compose hr hs hw
  have hcw' : w'.IsCompositionOf s t := isCompositionOf_of_compose hs ht hw'
  have hcu : u.IsCompositionOf w t := isCompositionOf_of_compose hcw.elems ht hu
  have hcv : v.IsCompositionOf r w' := isCompositionOf_of_compose hr hcw'.elems hv
  -- of both results, the first column is that of `r`, and the second that of `t`
  obtain ⟨a, b, b', c, hrow, hsrow, -, hwrow⟩ := compose_eq_ok.1 hw
  obtain ⟨b'', c', c'', d, hsrow', htrow, -, hwrow'⟩ := compose_eq_ok.1 hw'
  rw [hsrow] at hsrow'
  cases hsrow'
  have hu' : u = ofTable (.plain [a, d]) ((composed w t).map pair) :=
    eq_ofTable_of_compose hu (by rw [hwrow]; rfl) htrow
  have hv' : v = ofTable (.plain [a, d]) ((composed r w').map pair) :=
    eq_ofTable_of_compose hv hrow (by rw [hwrow']; rfl)
  have hps : InferredPairs (composed w t) := inferredPairs_composed hcw.elems ht
  have hqs : InferredPairs (composed r w') := inferredPairs_composed hr hcw'.elems
  rw [hu', hv']
  refine ⟨ofTable_beq hps hqs fun x y hx hy => ?_, rfl⟩
  have hiff := has_pair_assoc hcw hcu hcw' hcv hx.wellTyped hy.wellTyped
  rwa [hu', hv', has_ofTable_iff hps hx hy, has_ofTable_iff hqs hx hy] at hiff

/-! ## The result -/

/-- **Composition is relational, and associative.** It succeeds exactly where both relations are
binary and the columns that meet are comparable. Of inferred tuples, it then holds the pairs that
two pairs make which meet at equal values, and no others. Of three relations, both groupings succeed
or neither does, and where they do, the results are equal and have one row. -/
theorem compose_correct :
    (∀ r s : Relation, (∃ w, r.compose s = .ok w) ↔ ∃ a b b' c, r.row.fields = [a, b] ∧
      s.row.fields = [b', c] ∧ b.comparable b' = true) ∧
    (∀ r s w : Relation, r.InferredElems → s.InferredElems → r.compose s = .ok w →
      w.IsCompositionOf r s) ∧
    ∀ r s t : Relation, r.InferredElems → s.InferredElems → t.InferredElems →
      ((∃ u, (r.compose s >>= fun w => w.compose t) = .ok u) ↔
        ∃ v, (s.compose t >>= fun w => r.compose w) = .ok v) ∧
      ∀ u v, (r.compose s >>= fun w => w.compose t) = .ok u →
        (s.compose t >>= fun w => r.compose w) = .ok v →
          (u.toValue == v.toValue) = true ∧ u.row = v.row :=
  ⟨fun _ _ => exists_compose_iff, fun _ _ _ hr hs h => isCompositionOf_of_compose hr hs h,
    fun _ _ _ hr hs ht => ⟨exists_compose_left_iff.trans exists_compose_right_iff.symm,
      fun _ _ hu hv => compose_assoc hr hs ht hu hv⟩⟩

/-- The readings of two sensors, both zero. -/
def readings : Relation :=
  ⟨.plain [.int, .double], [pair (int 1, double ⟨0⟩), pair (int 2, double ⟨0⟩)]⟩

/-- Two bands for a reading of zero, of which one is listed for the negative zero. -/
def bands : Relation :=
  ⟨.plain [.double, .str],
    [pair (double ⟨0x8000000000000000⟩, str "low"), pair (double ⟨0⟩, str "frost")]⟩

/-- An alarm for each band. -/
def alarms : Relation :=
  ⟨.plain [.str, .bool], [pair (str "low", bool true), pair (str "frost", bool true)]⟩

/-- Both groupings find an alarm for the second sensor, once by way of the two zeros. -/
theorem compose_readings : ∃ u v, (readings.compose bands >>= fun w => w.compose alarms) = .ok u ∧
    (bands.compose alarms >>= fun w => readings.compose w) = .ok v ∧
      (u.toValue == v.toValue) = true ∧ u.row = v.row ∧
        u.has (pair (int 2, bool true)) = true := by
  have hpairs {row : Row} {p q : Value × Value} (hp : p.1.isLeaf = true ∧ p.2.isLeaf = true)
      (hq : q.1.isLeaf = true ∧ q.2.isLeaf = true) : InferredElems ⟨row, [pair p, pair q]⟩ :=
    List.forall_mem_cons.2 ⟨inferred_pair ⟨.leaf hp.1, .leaf hp.2⟩,
      List.forall_mem_singleton.2 (inferred_pair ⟨.leaf hq.1, .leaf hq.2⟩)⟩
  have hr : readings.InferredElems := hpairs ⟨rfl, rfl⟩ ⟨rfl, rfl⟩
  have hs : bands.InferredElems := hpairs ⟨rfl, rfl⟩ ⟨rfl, rfl⟩
  have ht : alarms.InferredElems := hpairs ⟨rfl, rfl⟩ ⟨rfl, rfl⟩
  obtain ⟨hsucceeds, hcontents, hassoc⟩ := compose_correct
  obtain ⟨w, hw⟩ := (hsucceeds readings bands).2 ⟨_, _, _, _, rfl, rfl, by decide⟩
  have hrow : w = ofTable (.plain [.int, .str]) ((composed readings bands).map pair) :=
    eq_ofTable_of_compose hw rfl rfl
  obtain ⟨u, hu⟩ := (hsucceeds w alarms).2 ⟨.int, .str, _, _, by rw [hrow]; rfl, rfl, by decide⟩
  have hleft : (readings.compose bands >>= fun w => w.compose alarms) = .ok u :=
    bind_eq_ok.2 ⟨w, hw, hu⟩
  obtain ⟨hboth, hequal⟩ := hassoc readings bands alarms hr hs ht
  obtain ⟨v, hv⟩ := hboth.1 ⟨u, hleft⟩
  obtain ⟨heq, hrows⟩ := hequal u v hleft hv
  have hcw : w.IsCompositionOf readings bands := hcontents _ _ _ hr hs hw
  have hcu : u.IsCompositionOf w alarms := hcontents _ _ _ hcw.elems ht hu
  have hlow : w.has (pair (int 2, str "low")) = true :=
    (hcw.has_pair_iff (int 2) (str "low") (.leaf rfl) (.leaf rfl)).2
      ⟨double ⟨0⟩, double ⟨0x8000000000000000⟩, .leaf rfl, .leaf rfl, by decide +kernel,
        by decide +kernel, by decide +kernel⟩
  exact ⟨u, v, hleft, hv, heq, hrows,
    (hcu.has_pair_iff (int 2) (bool true) (.leaf rfl) (.leaf rfl)).2
      ⟨str "low", str "low", .leaf rfl, .leaf rfl, hlow, by decide +kernel, by decide +kernel⟩⟩

end Relation

end ValueLattice

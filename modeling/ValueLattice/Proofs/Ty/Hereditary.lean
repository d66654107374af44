import ValueLattice.Proofs.Ty.Join
/-!
# Properties that pass from parts to joins

A join of two types is one of them, or it is rebuilt from joins of their parts. So a property of
types passes to joins as soon as a type has it exactly when its parts have it, and the labels that
two rows have in common are no worse than those of either. Properties of this kind are called
hereditary; what they ask of the labels of a row may depend on the number of its fields.

An alias is only asked to pass the property on to its target: joins drop aliases, and add none.

* `Ty.Hereditary`: the properties that are decided by the parts of a type;
* `Ty.Hereditary.lub`: they pass to joins;
* `Ty.Hereditary.lub?`: they pass to joins of rows.
-/

namespace ValueLattice.Ty

/-- The property `P` of types is decided by the parts of a type, and by `ok` for the number of
fields and the labels of a row. -/
structure Hereditary (ok : Nat → Option (List String) → Prop) (P : Ty → Prop) : Prop where
  common : ∀ {n : Nat} {ls ms : Option (List String)}, ok n ls → ok n ms → ok n (commonLabels ls ms)
  value : P value
  node : P node
  target : ∀ {n : String} {t : Ty}, P (named n t) → P t
  list_iff : ∀ {e : Ty}, P (list e) ↔ P e
  set_iff : ∀ {e : Ty}, P (set e) ↔ P e
  map_iff : ∀ {k v : Ty}, P (map k v) ↔ P k ∧ P v
  tuple_iff : ∀ {fs : List Ty} {ls : Option (List String)},
    P (tuple fs ls) ↔ ok fs.length ls ∧ ∀ t ∈ fs, P t
  rel_iff : ∀ {fs : List Ty} {ls : Option (List String)}, P (rel fs ls) ↔ P (tuple fs ls)
  adt_iff : ∀ {n : String} {ps : List Ty}, P (adt n ps) ↔ ∀ t ∈ ps, P t
  ctor_iff : ∀ {n o : String} {ps fs : List Ty} {ls : Option (List String)},
    P (ctor n o ps fs ls) ↔ P (adt o ps) ∧ P (tuple fs ls)

namespace Hereditary

variable {ok : Nat → Option (List String) → Prop} {P : Ty → Prop} {a b c : Ty} {n m : String}
  {fs gs ps qs : List Ty} {ls ms : Option (List String)}

theorem strip (h : Hereditary ok P) (ha : P a) : P a.strip := by
  fun_induction Ty.strip a with
  | case1 n t ih => exact ih (h.target ha)
  | case2 t => exact ha

theorem rebuiltAdt (h : Hereditary ok P) (hj : P (adt n (lubAll ps qs))) :
    P (if n = m ∧ ps.length = qs.length then adt n (lubAll ps qs) else Ty.node) := by
  split
  · exact hj
  · exact h.node

theorem joinedAdt (h : Hereditary ok P) (hp : P (adt n ps)) (hq : P (adt m qs))
    (hj : P (adt n (lubAll ps qs))) : P (joinAdt n ps m qs (lubAll ps qs)) :=
  choose_of_all hp hq (h.rebuiltAdt hj)

theorem joinedRow (h : Hereditary ok P) (hf : P (tuple fs ls)) (hg : P (tuple gs ms))
    (hl : fs.length = gs.length) (hj : ∀ t ∈ lubAll fs gs, P t) :
    P (tuple (lubAll fs gs) (commonLabels ls ms)) := by
  have hfs : ok fs.length ls := (h.tuple_iff.1 hf).1
  have hgs : ok gs.length ms := (h.tuple_iff.1 hg).1
  refine h.tuple_iff.2 ⟨?_, hj⟩
  rw [length_lubAll hl]
  exact h.common hfs (hl ▸ hgs)

/-- Tuples, and relations joined with sets by their tuples. -/
theorem rebuiltTuple (h : Hereditary ok P)
    (hj : ∀ gs, (∀ t ∈ gs, P t) → ∀ t ∈ lubAll fs gs, P t) (ha : P (tuple fs ls)) (hb : P b) :
    P (rebuild (tuple fs ls) b) := by
  rw [rebuild]
  replace hb : P b.strip := h.strip hb
  split
  · next gs ms hg =>
    rw [hg] at hb
    split
    · next hl => exact h.joinedRow ha hb hl (hj gs (h.tuple_iff.1 hb).2)
    · exact h.value
  · exact h.value

mutual

theorem rebuilt (h : Hereditary ok P) (a b : Ty) (ha : P a) (hb : P b) : P (rebuild a b) := by
  have hb' : P b.strip := h.strip hb
  cases a with
  | named n t => exact h.rebuilt t b (h.target ha) hb
  | tuple fs ls => exact h.rebuiltTuple (fun gs => h.forall_lubAll fs gs (h.tuple_iff.1 ha).2) ha hb
  | list e =>
    rw [rebuild]
    split
    · next f hf =>
      have he : P e := h.list_iff.1 ha
      have hf : P f := h.list_iff.1 (hf ▸ hb')
      exact h.list_iff.2 (choose_of_all he hf (h.rebuilt e f he hf))
    · exact h.value
  | set e =>
    have he : P e := h.set_iff.1 ha
    rw [rebuild]
    split
    · next f hf =>
      have hf : P f := h.set_iff.1 (hf ▸ hb')
      exact h.set_iff.2 (choose_of_all he hf (h.rebuilt e f he hf))
    · next gs ms hg =>
      have hg : P (tuple gs ms) := h.rel_iff.1 (hg ▸ hb')
      exact h.set_iff.2 (choose_of_all he hg (h.rebuilt e (tuple gs ms) he hg))
    · exact h.value
  | map k v =>
    obtain ⟨hk, hv⟩ := h.map_iff.1 ha
    rw [rebuild]
    split
    · next l w hl =>
      obtain ⟨hl, hw⟩ := h.map_iff.1 (hl ▸ hb')
      exact h.map_iff.2 ⟨choose_of_all hk hl (h.rebuilt k l hk hl),
        choose_of_all hv hw (h.rebuilt v w hv hw)⟩
    · exact h.value
  | rel fs ls =>
    have hf : P (tuple fs ls) := h.rel_iff.1 ha
    have hj (gs : List Ty) : (∀ t ∈ gs, P t) → ∀ t ∈ lubAll fs gs, P t :=
      h.forall_lubAll fs gs (h.tuple_iff.1 hf).2
    rw [rebuild]
    split
    · next gs ms hg =>
      have hg : P (tuple gs ms) := h.rel_iff.1 (hg ▸ hb')
      split
      · next hl => exact h.rel_iff.2 (h.joinedRow hf hg hl (hj gs (h.tuple_iff.1 hg).2))
      · exact h.set_iff.2 h.value
    · next f hs =>
      have hs : P f := h.set_iff.1 (hs ▸ hb')
      have hr : P (rebuild (tuple fs ls) f) := h.rebuiltTuple hj hf hs
      rw [rebuild] at hr
      exact h.set_iff.2 (choose_of_all hf hs hr)
    · exact h.value
  | adt n ps =>
    have hj (qs : List Ty) : (∀ t ∈ qs, P t) → P (adt n (lubAll ps qs)) :=
      fun hq => h.adt_iff.2 (h.forall_lubAll ps qs (h.adt_iff.1 ha) hq)
    rw [rebuild]
    split
    · next m qs hq => exact h.rebuiltAdt (hj qs (h.adt_iff.1 (hq ▸ hb')))
    · next k m qs gs ms hq =>
      obtain ⟨hq, -⟩ := h.ctor_iff.1 (hq ▸ hb')
      exact h.joinedAdt ha hq (hj qs (h.adt_iff.1 hq))
    · exact h.value
  | ctor n o ps fs ls =>
    obtain ⟨hp, hf⟩ := h.ctor_iff.1 ha
    have hj (qs : List Ty) : (∀ t ∈ qs, P t) → P (adt o (lubAll ps qs)) :=
      fun hq => h.adt_iff.2 (h.forall_lubAll ps qs (h.adt_iff.1 hp) hq)
    rw [rebuild]
    split
    · next m qs hq => exact h.joinedAdt hp (hq ▸ hb') (hj qs (h.adt_iff.1 (hq ▸ hb')))
    · next m p qs gs ms hq =>
      obtain ⟨hq, hg⟩ := h.ctor_iff.1 (hq ▸ hb')
      have hpq : P (adt o (lubAll ps qs)) := hj qs (h.adt_iff.1 hq)
      split
      · next heq =>
        have hfg : ∀ t ∈ lubAll fs gs, P t :=
          h.forall_lubAll fs gs (h.tuple_iff.1 hf).2 (h.tuple_iff.1 hg).2
        exact h.ctor_iff.2 ⟨hpq, h.joinedRow hf hg heq.2.2.2 hfg⟩
      · exact h.joinedAdt hp hq hpq
    · exact h.value
  | _ =>
    simp only [rebuild]
    split
    · exact ha
    · exact h.value

theorem forall_lubAll (h : Hereditary ok P) (as bs : List Ty) (ha : ∀ t ∈ as, P t)
    (hb : ∀ t ∈ bs, P t) : ∀ t ∈ lubAll as bs, P t := by
  cases as with
  | nil => exact nofun
  | cons a as =>
    cases bs with
    | nil => exact nofun
    | cons b bs =>
      obtain ⟨ha, has⟩ := List.forall_mem_cons.1 ha
      obtain ⟨hb, hbs⟩ := List.forall_mem_cons.1 hb
      exact List.forall_mem_cons.2
        ⟨choose_of_all ha hb (h.rebuilt a b ha hb), h.forall_lubAll as bs has hbs⟩

end

/-- A hereditary property passes to joins. -/
theorem lub (h : Hereditary ok P) (ha : P a) (hb : P b) : P (a.lub b) :=
  choose_of_all ha hb (h.rebuilt a b ha hb)

theorem foldl_lub (h : Hereditary ok P) (ha : P a) (hp : ∀ t ∈ ps, P t) :
    P (ps.foldl Ty.lub a) := by
  induction ps generalizing a with
  | nil => exact ha
  | cons t ps ih =>
    obtain ⟨ht, hps⟩ := List.forall_mem_cons.1 hp
    exact ih (h.lub ha ht) hps

/-- The join of two rows, where there is one. -/
theorem lub? (h : Hereditary ok P) {r s j : Row} (hr : P r.toTuple) (hs : P s.toTuple)
    (hj : r.lub? s = some j) : P j.toTuple := by
  unfold Row.lub? at hj
  split at hj
  · next hl =>
    obtain rfl := Option.some.inj hj
    refine h.joinedRow hr hs hl (h.forall_lubAll r.fields s.fields ?_ ?_)
    · exact (h.tuple_iff.1 hr).2
    · exact (h.tuple_iff.1 hs).2
  · nomatch hj

end Hereditary

end ValueLattice.Ty

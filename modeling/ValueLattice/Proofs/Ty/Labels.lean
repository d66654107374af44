import ValueLattice.Registry
import ValueLattice.Proofs.Ty.Hereditary
import ValueLattice.Proofs.Ty.Instantiation
import ValueLattice.Proofs.Ty.Principal
import ValueLattice.Proofs.Ty.Row
/-!
# Well-labelled types

A type is well-labelled when every row in it is, at any depth. Only the checked construction of a
row compares labels with fields, but every other operation on types takes rows over, or makes them
of rows that agree: joins, substitutions, instantiations, matches and declarations all keep types
well-labelled, also where they fail.

A match binds parameters to parts of the actual type and to joins of them, so the bindings keep any
property that passes from types to parts and to joins (`Hereditary.keeps_matchWith`).

* `Ty.rows`, `Ty.WellLabelled`: the rows in a type, and well-labelled types;
* `hereditary_wellLabelled`: the property is decided by the parts of a type;
* `WellLabelled.subst`, `keeps_instantiate`, `Hereditary.keeps_matchWith`: substitutions,
  instantiations and matches;
* `Registry.WellLabelled`: declarations of well-labelled types.
-/

namespace ValueLattice

/-! ## Rows in types -/

namespace Ty

mutual

/-- The rows in a type, at any depth: those of its tuple types, its relation types and its
constructors. -/
def rows : Ty → List Row
  | list e | set e => rows e
  | map k v => rows k ++ rows v
  | tuple fs ls | rel fs ls => ⟨fs, ls⟩ :: rowsAll fs
  | named _ t => rows t
  | adt _ ps => rowsAll ps
  | ctor _ _ ps fs ls => rowsAll ps ++ ⟨fs, ls⟩ :: rowsAll fs
  | _ => []

/-- The rows in the types of a list. -/
def rowsAll : List Ty → List Row
  | [] => []
  | t :: ts => rows t ++ rowsAll ts

end

/-- Every row in the type is well-labelled. -/
def WellLabelled (t : Ty) : Prop := ∀ r ∈ t.rows, r.WellLabelled

variable {t a b k v : Ty} {ts fs ps : List Ty} {ls : Option (List String)} {n o : String}
  {r : Row} {s : Subst}

theorem forall_rowsAll : (∀ r ∈ rowsAll ts, r.WellLabelled) ↔ ∀ t ∈ ts, t.WellLabelled := by
  induction ts with
  | nil => simp [rowsAll]
  | cons t ts ih => rw [rowsAll, List.forall_mem_append, ih, List.forall_mem_cons, WellLabelled]

theorem wellLabelled_list : (list t).WellLabelled ↔ t.WellLabelled := .rfl

theorem wellLabelled_set : (set t).WellLabelled ↔ t.WellLabelled := .rfl

theorem wellLabelled_map : (map k v).WellLabelled ↔ k.WellLabelled ∧ v.WellLabelled :=
  List.forall_mem_append

theorem wellLabelled_tuple : (tuple fs ls).WellLabelled ↔
    (⟨fs, ls⟩ : Row).WellLabelled ∧ ∀ t ∈ fs, t.WellLabelled :=
  List.forall_mem_cons.trans (and_congr_right fun _ => forall_rowsAll)

theorem wellLabelled_adt : (adt n ps).WellLabelled ↔ ∀ t ∈ ps, t.WellLabelled := forall_rowsAll

theorem wellLabelled_ctor :
    (ctor n o ps fs ls).WellLabelled ↔ (adt o ps).WellLabelled ∧ (tuple fs ls).WellLabelled :=
  List.forall_mem_append

/-- Well-labelled types are those of well-labelled parts. -/
theorem hereditary_wellLabelled :
    Hereditary (fun n ls => ∀ names ∈ ls, names.length = n ∧ names.Nodup) WellLabelled where
  common := by
    intro n ls ms hls hms
    unfold commonLabels
    split
    · exact hls
    · nofun
  value := nofun
  node := nofun
  target h := h
  list_iff := wellLabelled_list
  set_iff := wellLabelled_set
  map_iff := wellLabelled_map
  tuple_iff := wellLabelled_tuple
  rel_iff := .rfl
  adt_iff := wellLabelled_adt
  ctor_iff := wellLabelled_ctor

theorem WellLabelled.lub (ha : a.WellLabelled) (hb : b.WellLabelled) : (a.lub b).WellLabelled :=
  hereditary_wellLabelled.lub ha hb

theorem WellLabelled.strip (ht : t.WellLabelled) : t.strip.WellLabelled :=
  hereditary_wellLabelled.strip ht

/-- A type that has a row is well-labelled only if the type of tuples with it is. -/
theorem WellLabelled.row? (ht : t.WellLabelled) (hr : t.row? = some r) :
    r.toTuple.WellLabelled := by
  have hs : t.strip.WellLabelled := ht.strip
  unfold Ty.row? at hr
  split at hr
  · next fs ls h =>
    obtain rfl := Option.some.inj hr
    rwa [h] at hs
  · next fs ls h =>
    obtain rfl := Option.some.inj hr
    rwa [h] at hs
  · next m o ps fs ls h =>
    obtain rfl := Option.some.inj hr
    rw [h] at hs
    exact (wellLabelled_ctor.1 hs).2
  · nomatch hr

theorem WellLabelled.relationOf (ht : t.WellLabelled) (h : t.relationOf = .ok a) :
    a.WellLabelled := by
  have hs : t.strip.WellLabelled := ht.strip
  unfold Ty.relationOf at h
  split at h
  · next fs ls hrow =>
    obtain rfl := Except.ok.inj h
    rwa [hrow] at hs
  · cases h

/-- The labels of a row fit every list of as many fields. -/
theorem wellLabelled_tuple_of_length {gs : List Ty} (h : (tuple fs ls).WellLabelled)
    (hl : gs.length = fs.length) (hg : ∀ t ∈ gs, t.WellLabelled) : (tuple gs ls).WellLabelled := by
  refine wellLabelled_tuple.2 ⟨fun names hn => ?_, hg⟩
  have hrow : names.length = fs.length ∧ names.Nodup := (wellLabelled_tuple.1 h).1 names hn
  exact ⟨hrow.1.trans hl.symm, hrow.2⟩

end Ty

namespace Row

open Ty

variable {r s j : Row} {fs : List Ty} {ls : Option (List String)} {is : List Nat}

theorem wellLabelled_of_toTuple (h : r.toTuple.WellLabelled) : r.WellLabelled :=
  (wellLabelled_tuple.1 h).1

theorem wellLabelled_plain (h : ∀ t ∈ fs, t.WellLabelled) : (plain fs).toTuple.WellLabelled :=
  wellLabelled_tuple.2 ⟨nofun, h⟩

theorem wellLabelled_make (h : ∀ t ∈ fs, t.WellLabelled) (hr : make fs ls = .ok r) :
    r.toTuple.WellLabelled := by
  obtain ⟨rfl, hl⟩ := make_eq_ok.1 hr
  exact wellLabelled_tuple.2 ⟨hl, h⟩

theorem wellLabelled_select (h : r.toTuple.WellLabelled) (hs : r.select is = .ok s) :
    s.toTuple.WellLabelled := by
  obtain ⟨hl, hf⟩ := wellLabelled_tuple.1 h
  refine wellLabelled_tuple.2 ⟨WellLabelled.select hl hs, fun t ht => ?_⟩
  obtain ⟨i, -, hi⟩ := exists_of_mem_mapM (fields_of_select hs) ht
  exact hf t (List.mem_of_getElem? (field_eq_ok.1 hi))

theorem wellLabelled_lub? (hr : r.toTuple.WellLabelled) (hs : s.toTuple.WellLabelled)
    (hj : r.lub? s = some j) : j.toTuple.WellLabelled :=
  hereditary_wellLabelled.lub? hr hs hj

end Row

/-! ## Bindings -/

/-- Every key of the bindings is bound to something with the property `P`. -/
def Assoc.All {κ ν : Type} [DecidableEq κ] (P : ν → Prop) (m : Assoc κ ν) : Prop :=
  ∀ k v, m.get? k = some v → P v

theorem Assoc.all_nil {κ ν : Type} [DecidableEq κ] {P : ν → Prop} :
    Assoc.All P ([] : Assoc κ ν) := nofun

theorem Assoc.All.insert {κ ν : Type} [DecidableEq κ] {P : ν → Prop} {m : Assoc κ ν} {v : ν}
    (h : m.All P) (hv : P v) (k : κ) : Assoc.All P (m.insert k v) := by
  intro l w hw
  by_cases hk : k = l
  · subst hk
    rw [get?_insert_self] at hw
    exact Option.some.inj hw ▸ hv
  · rw [get?_insert_of_ne m hk] at hw
    exact h l w hw

theorem Assoc.All.get?_getD {κ ν : Type} [DecidableEq κ] {P : ν → Prop} {m : Assoc κ ν}
    (h : m.All P) (k : κ) {d : ν} (hd : P d) : P ((m.get? k).getD d) := by
  cases hk : m.get? k with
  | none => exact hd
  | some v => exact h k v hk

namespace Ty

variable {s : Subst}

mutual

/-- A well-labelled type under well-labelled bindings. -/
theorem WellLabelled.subst (hs : s.All WellLabelled) (t : Ty) (ht : t.WellLabelled) :
    (t.subst s).WellLabelled := by
  cases t with
  | param n => exact hs.get?_getD n ht
  | list e => exact subst hs e ht
  | set e => exact subst hs e ht
  | named n t => exact subst hs t ht
  | map k v =>
    obtain ⟨hk, hv⟩ := wellLabelled_map.1 ht
    exact wellLabelled_map.2 ⟨subst hs k hk, subst hs v hv⟩
  | tuple fs ls =>
    exact wellLabelled_tuple_of_length ht (length_substAll s fs)
      (substAll hs fs (wellLabelled_tuple.1 ht).2)
  | rel fs ls =>
    have ht : (tuple fs ls).WellLabelled := ht
    exact wellLabelled_tuple_of_length ht (length_substAll s fs)
      (substAll hs fs (wellLabelled_tuple.1 ht).2)
  | adt n ps => exact wellLabelled_adt.2 (substAll hs ps (wellLabelled_adt.1 ht))
  | ctor n o ps fs ls =>
    obtain ⟨hp, hf⟩ := wellLabelled_ctor.1 ht
    exact wellLabelled_ctor.2 ⟨wellLabelled_adt.2 (substAll hs ps (wellLabelled_adt.1 hp)),
      wellLabelled_tuple_of_length hf (length_substAll s fs)
        (substAll hs fs (wellLabelled_tuple.1 hf).2)⟩
  | _ => exact ht

theorem WellLabelled.substAll (hs : s.All WellLabelled) (ts : List Ty)
    (ht : ∀ t ∈ ts, t.WellLabelled) : ∀ t ∈ substAll s ts, t.WellLabelled := by
  cases ts with
  | nil => exact nofun
  | cons t ts =>
    obtain ⟨ht, hts⟩ := List.forall_mem_cons.1 ht
    exact List.forall_mem_cons.2 ⟨subst hs t ht, substAll hs ts hts⟩

end

end Ty

/-! ## Instantiations -/

/-- The actual types that are left, and those that parameters are bound to, are well-labelled. -/
structure Positional.WellLabelled (s : Positional) : Prop where
  actuals : ∀ t ∈ s.actuals, t.WellLabelled
  bound : s.bound.All Ty.WellLabelled

namespace Ty

open ValueLattice.Action (Keeps)

theorem keeps_bind (n : String) :
    Keeps Positional.WellLabelled (Positional.bind n) WellLabelled := by
  intro s hs
  have htaken {t : Ty} {s' : Positional} (hrun : (Positional.bind n).start s = ⟨(.ok t, s'), []⟩)
      (ht : t.WellLabelled) (hs' : s'.WellLabelled) :
      ((Positional.bind n).after s).WellLabelled ∧
        ∀ u s'', Action.Returns (Positional.bind n) s u s'' → u.WellLabelled := by
    have hret : Action.Returns (Positional.bind n) s t s' := congrArg Logged.val hrun
    rw [Action.after_eq_of_returns hret]
    exact ⟨hs', fun u s'' hu => (hret.unique hu).1 ▸ ht⟩
  cases hget : s.bound.get? n with
  | some t => exact htaken (Positional.start_bind_bound hget) (hs.bound n t hget) hs
  | none =>
    cases hrest : s.actuals with
    | nil =>
      have hrun := Positional.start_bind_nil hget hrest
      unfold Action.after Action.Returns
      rw [hrun]
      exact ⟨hs, nofun⟩
    | cons t rest =>
      obtain ⟨ht, hrest'⟩ := List.forall_mem_cons.1 (hrest ▸ hs.actuals)
      exact htaken (Positional.start_bind_cons hget hrest) ht ⟨hrest', hs.bound.insert ht n⟩

mutual

/-- An instantiation keeps its state well-labelled, and answers with a well-labelled type. -/
theorem keeps_instantiate (t : Ty) (ht : t.WellLabelled) :
    Keeps Positional.WellLabelled t.instantiate WellLabelled := by
  cases t with
  | param n => exact keeps_bind n
  | list e => exact (keeps_instantiate e ht).map fun _ h => h
  | set e => exact (keeps_instantiate e ht).map fun _ h => h
  | named n t => exact (keeps_instantiate t ht).map fun _ h => h
  | map k v =>
    obtain ⟨hk, hv⟩ := wellLabelled_map.1 ht
    exact (keeps_instantiate k hk).bind fun _ hk' =>
      (keeps_instantiate v hv).map fun _ hv' => wellLabelled_map.2 ⟨hk', hv'⟩
  | tuple fs ls =>
    exact (keeps_instantiateAll fs (wellLabelled_tuple.1 ht).2).map fun _ h =>
      wellLabelled_tuple_of_length ht h.1 h.2
  | rel fs ls =>
    have ht : (tuple fs ls).WellLabelled := ht
    exact (keeps_instantiateAll fs (wellLabelled_tuple.1 ht).2).map fun _ h =>
      wellLabelled_tuple_of_length ht h.1 h.2
  | adt n ps =>
    exact (keeps_instantiateAll ps (wellLabelled_adt.1 ht)).map fun _ h => wellLabelled_adt.2 h.2
  | ctor n o ps fs ls =>
    obtain ⟨hp, hf⟩ := wellLabelled_ctor.1 ht
    exact (keeps_instantiateAll ps (wellLabelled_adt.1 hp)).bind fun _ hp' =>
      (keeps_instantiateAll fs (wellLabelled_tuple.1 hf).2).map fun _ hf' =>
        wellLabelled_ctor.2
          ⟨wellLabelled_adt.2 hp'.2, wellLabelled_tuple_of_length hf hf'.1 hf'.2⟩
  | _ => exact .pure ht

theorem keeps_instantiateAll (ts : List Ty) (ht : ∀ t ∈ ts, t.WellLabelled) :
    Keeps Positional.WellLabelled (instantiateAll ts)
      fun us => us.length = ts.length ∧ ∀ u ∈ us, u.WellLabelled := by
  cases ts with
  | nil => exact .pure ⟨rfl, nofun⟩
  | cons t ts =>
    obtain ⟨ht, hts⟩ := List.forall_mem_cons.1 ht
    exact (keeps_instantiate t ht).bind fun _ hu =>
      (keeps_instantiateAll ts hts).map fun _ h =>
        ⟨congrArg Nat.succ h.1, List.forall_mem_cons.2 ⟨hu, h.2⟩⟩

end

/-! ## Matches -/

namespace Hereditary

variable {ok : Nat → Option (List String) → Prop} {P : Ty → Prop} {a : Ty}

theorem keeps_widen (h : Hereditary ok P) (ha : P a) (n : String) :
    Keeps (Assoc.All P) (Subst.widen n a) fun _ => True := by
  intro s hs
  refine ⟨?_, fun _ _ _ => trivial⟩
  rw [Action.after_eq_of_returns (Subst.returns_widen s n a), Subst.widened]
  split
  · exact hs.insert ha n
  · next u hu => exact hs.insert (h.lub (hs n u hu) ha) n

theorem keeps_matchBelow (t a : Ty) : Keeps (Assoc.All P) (matchBelow t a) fun _ => True := by
  unfold matchBelow
  split
  · exact .pure trivial
  · exact .throw _

theorem keeps_matchCounts (site : Site) (i j : Nat) :
    Keeps (Assoc.All P) (matchCounts site i j) fun _ => True := by
  unfold matchCounts
  split
  · exact .pure trivial
  · exact .throw _

mutual

/-- A match binds parameters to parts of the actual type, and to joins of them. -/
theorem keeps_matchWith (h : Hereditary ok P) (t a : Ty) (ha : P a) :
    Keeps (Assoc.All P) (t.matchWith a) fun _ => True := by
  by_cases hv : a.isVoid = true
  · rw [matchWith_of_isVoid t hv]
    exact .pure trivial
  have has : P a.strip := h.strip ha
  cases t with
  | param n =>
    rw [matchWith, if_neg hv]
    exact h.keeps_widen ha n
  | named n t =>
    rw [matchWith, if_neg hv]
    exact h.keeps_matchWith t a ha
  | list e =>
    rw [matchWith, if_neg hv]
    split
    · next b hb => exact h.keeps_matchWith e b (h.list_iff.1 (hb ▸ has))
    · exact keeps_matchBelow _ a
  | set e =>
    rw [matchWith, if_neg hv]
    split
    · next b hb => exact h.keeps_matchWith e b (h.set_iff.1 (hb ▸ has))
    · next bs ls hb => exact h.keeps_matchWith e (tuple bs ls) (h.rel_iff.1 (hb ▸ has))
    · exact keeps_matchBelow _ a
  | map k v =>
    rw [matchWith, if_neg hv]
    split
    · next b c hb =>
      obtain ⟨hkb, hvc⟩ := h.map_iff.1 (hb ▸ has)
      exact (h.keeps_matchWith k b hkb).bind fun _ _ => h.keeps_matchWith v c hvc
    · exact keeps_matchBelow _ a
  | tuple fs ls =>
    rw [matchWith, if_neg hv]
    split
    · next bs ms hb =>
      exact (keeps_matchCounts _ _ _).bind fun _ _ =>
        h.keeps_matchAll fs bs (h.tuple_iff.1 (hb ▸ has)).2
    · exact keeps_matchBelow _ a
  | rel fs ls =>
    rw [matchWith, if_neg hv]
    split
    · next bs ms hb =>
      exact (keeps_matchCounts _ _ _).bind fun _ _ =>
        h.keeps_matchAll fs bs (h.tuple_iff.1 (h.rel_iff.1 (hb ▸ has))).2
    · exact keeps_matchBelow _ a
  | adt n ps =>
    rw [matchWith, if_neg hv]
    have hmatch (m : String) (qs : List Ty) (hq : P (adt m qs)) :
        Keeps (Assoc.All P) (if n = m then do
          matchCounts .typeParams ps.length qs.length
          matchAll ps qs
        else matchBelow (adt n ps) a) fun _ => True := by
      split
      · exact (keeps_matchCounts _ _ _).bind fun _ _ => h.keeps_matchAll ps qs (h.adt_iff.1 hq)
      · exact keeps_matchBelow _ a
    split
    · next m qs hb => exact hmatch m qs (hb ▸ has)
    · next k m qs bs ms hb => exact hmatch m qs (h.ctor_iff.1 (hb ▸ has)).1
    · exact keeps_matchBelow _ a
  | ctor n o ps fs ls =>
    rw [matchWith, if_neg hv]
    split
    · next m p qs bs ms hb =>
      obtain ⟨hq, hf⟩ := h.ctor_iff.1 (hb ▸ has)
      split
      · exact (keeps_matchCounts _ _ _).bind fun _ _ =>
          (h.keeps_matchAll ps qs (h.adt_iff.1 hq)).bind fun _ _ =>
            (keeps_matchCounts _ _ _).bind fun _ _ =>
              h.keeps_matchAll fs bs (h.tuple_iff.1 hf).2
      · exact keeps_matchBelow _ a
    · exact keeps_matchBelow _ a
  | _ =>
    simp only [matchWith, if_neg hv]
    exact keeps_matchBelow _ a

theorem keeps_matchAll (h : Hereditary ok P) (ts as : List Ty) (ha : ∀ a ∈ as, P a) :
    Keeps (Assoc.All P) (matchAll ts as) fun _ => True := by
  cases ts with
  | nil =>
    rw [matchAll]
    · exact .pure trivial
    · nofun
  | cons t ts =>
    cases as with
    | nil => exact .pure trivial
    | cons a as =>
      obtain ⟨ha, has⟩ := List.forall_mem_cons.1 ha
      exact (h.keeps_matchWith t a ha).bind fun _ _ => h.keeps_matchAll ts as has

end

end Hereditary

end Ty

/-! ## Declarations -/

/-- All declared types are well-labelled, and so are the types of the declared constructors. -/
structure Registry.WellLabelled (r : Registry) : Prop where
  adts : r.adts.All fun ps => ∀ t ∈ ps, t.WellLabelled
  ctors : r.ctors.All fun family => ∀ c ∈ family, ∀ o, (c.toTy o).WellLabelled
  aliases : r.aliases.All Ty.WellLabelled
  annos : r.annos.All fun declared => declared.All Ty.WellLabelled

namespace Registry

open Ty

variable {r s : Registry} {t u : Ty} {name adt label : String} {ps fs : List Ty}
  {ls : Option (List String)}

theorem wellLabelled_empty : empty.WellLabelled where
  adts := Assoc.all_nil
  ctors := Assoc.all_nil
  aliases := Assoc.all_nil
  annos := Assoc.all_nil

theorem WellLabelled.declareAdt (hr : r.WellLabelled) (hp : ∀ p ∈ ps, p.WellLabelled)
    (h : r.declareAdt name ps = .ok (t, s)) : t.WellLabelled ∧ s.WellLabelled := by
  unfold Registry.declareAdt at h
  split at h
  · next qs hq =>
    split at h
    · cases h
      exact ⟨wellLabelled_adt.2 (hr.adts name qs hq), hr⟩
    · nomatch h
  · cases h
    exact ⟨wellLabelled_adt.2 hp, { hr with adts := hr.adts.insert hp name }⟩

theorem forall_replaceCtor {P : Ctor → Prop} {c : Ctor} {cs : List Ctor} (hc : P c)
    (hcs : ∀ d ∈ cs, P d) : ∀ d ∈ replaceCtor c cs, P d := by
  induction cs with
  | nil => exact List.forall_mem_singleton.2 hc
  | cons d ds ih =>
    obtain ⟨hd, hds⟩ := List.forall_mem_cons.1 hcs
    unfold replaceCtor
    split
    · exact List.forall_mem_cons.2 ⟨hc, hds⟩
    · exact List.forall_mem_cons.2 ⟨hd, ih hds⟩

theorem WellLabelled.declareCtor (hr : r.WellLabelled) (hf : ∀ f ∈ fs, f.WellLabelled)
    (h : r.declareCtor u name fs ls = .ok (t, s)) : t.WellLabelled ∧ s.WellLabelled := by
  unfold Registry.declareCtor at h
  split at h
  · next owner _ _ =>
    split at h
    · nomatch h
    · next qs hq =>
      obtain ⟨row, hrow, h⟩ := bind_eq_ok.1 h
      cases pure_eq_ok.1 h
      have hctor (o : String) : (Ctor.toTy o ⟨name, qs, row⟩).WellLabelled :=
        wellLabelled_ctor.2
          ⟨wellLabelled_adt.2 (hr.adts owner qs hq), Row.wellLabelled_make hf hrow⟩
      refine ⟨hctor owner, { hr with ctors := hr.ctors.insert ?_ owner }⟩
      exact forall_replaceCtor hctor (hr.ctors.get?_getD owner nofun)
  · nomatch h

theorem WellLabelled.declareAlias (hr : r.WellLabelled) (ht : t.WellLabelled) (name : String) :
    (r.declareAlias name t).1.WellLabelled ∧ (r.declareAlias name t).2.WellLabelled :=
  ⟨ht, { hr with aliases := hr.aliases.insert ht name }⟩

theorem WellLabelled.declareAnno (hr : r.WellLabelled) (ht : t.WellLabelled)
    (h : r.declareAnno u label t = .ok s) : s.WellLabelled := by
  unfold Registry.declareAnno at h
  split at h
  · nomatch h
  · next o _ =>
    cases h
    have hdeclared : ((r.annos.get? o).getD []).All Ty.WellLabelled :=
      hr.annos.get?_getD o Assoc.all_nil
    exact { hr with annos := hr.annos.insert (hdeclared.insert ht label) o }

/-! ### Look-ups -/

theorem WellLabelled.adt? (hr : r.WellLabelled) (h : r.adt? name = some t) : t.WellLabelled := by
  obtain ⟨ps, hps, rfl⟩ := Option.map_eq_some_iff.1 h
  exact wellLabelled_adt.2 (hr.adts name ps hps)

theorem WellLabelled.alias? (hr : r.WellLabelled) (h : r.alias? name = some t) :
    t.WellLabelled := by
  obtain ⟨u, hu, rfl⟩ := Option.map_eq_some_iff.1 h
  exact hr.aliases name u hu

theorem WellLabelled.ctorsOf (hr : r.WellLabelled) (h : t ∈ r.ctorsOf adt) : t.WellLabelled := by
  obtain ⟨c, hc, rfl⟩ := List.mem_map.1 h
  exact hr.ctors.get?_getD adt (List.forall_mem_nil _) c hc adt

theorem WellLabelled.ctor? (hr : r.WellLabelled) (h : r.ctor? adt name = some t) :
    t.WellLabelled := by
  obtain ⟨family, hfamily, h⟩ := Option.bind_eq_some_iff.1 h
  obtain ⟨c, hc, h⟩ := Option.bind_eq_some_iff.1 h
  obtain rfl := Option.some.inj h
  exact hr.ctors adt family hfamily c (List.mem_of_find?_eq_some hc) adt

theorem WellLabelled.annoType (hr : r.WellLabelled) (h : r.annoType u label = some t) :
    t.WellLabelled := by
  obtain ⟨o, -, ho⟩ := List.exists_of_findSome?_eq_some h
  obtain ⟨declared, hdeclared, ht⟩ := Option.bind_eq_some_iff.1 ho
  exact hr.annos o declared hdeclared label t ht

end Registry

end ValueLattice

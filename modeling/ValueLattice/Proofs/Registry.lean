import ValueLattice.Declaration
import ValueLattice.Proofs.Node.Annotations
import ValueLattice.Proofs.OneToOne
import ValueLattice.Proofs.Ty.Instantiation
import ValueLattice.Proofs.Ty.Row
/-!
# Look-ups and the history of declarations

A registry keeps four tables, and declarations write to them in different ways: an abstract data
type stays as it was declared first, a constructor is replaced where it stands, an alias and an
annotation give way to later ones. What is looked up after any sequence of declarations can be told
from those that succeeded, in order, and so can which declarations succeed next.

* `Declaration.adtParams?` and the like: what a single declaration says of a name;
* `History.first`, `History.latest`, `History.ctorNames`, `History.latestAnno`: what a history says
  of it;
* `Registry.declareAdt_eq_ok`, `Registry.declareCtor_eq_ok`, `Registry.declareAnno_eq_ok`: when a
  declaration succeeds, and what it does then;
* `Registry.Agrees`: the tables of a registry and a history, and that each declaration keeps it;
* `lookups_of_history`: the look-ups.
-/

namespace ValueLattice

variable {α : Type} {r s : Registry} {d : Declaration} {es h : List Declaration} {t u : Ty}
  {a n : String} {ps fs : List Ty} {ls : Option (List String)} {l : String} {o : Owner}

/-! ## Histories -/

namespace Declaration

/-- The parameters that are declared for the abstract data type `n`. -/
def adtParams? (n : String) : Declaration → Option (List Ty)
  | adt m ps => if m = n then some ps else none
  | _ => none

/-- The constructor that is declared for the abstract data type `a`, with its row. -/
def ctor? (a : String) : Declaration → Option (String × Row)
  | ctor t n fs ls =>
    match t.strip with
    | .adt b _ => if b = a then some (n, ⟨fs, ls⟩) else none
    | _ => none
  | _ => none

/-- The row that is declared for the constructor `n` of the abstract data type `a`. -/
def ctorRow? (a n : String) (d : Declaration) : Option Row :=
  (d.ctor? a).bind fun c => if c.1 = n then some c.2 else none

/-- The target that is declared for the alias `n`. -/
def aliasTarget? (n : String) : Declaration → Option Ty
  | named m t => if m = n then some t else none
  | _ => none

/-- The type that is declared for the annotation `l` at the owner `o`. -/
def annoType? (o : Owner) (l : String) : Declaration → Option Ty
  | anno on m t => if on.owner? = some o ∧ m = l then some t else none
  | _ => none

end Declaration

namespace History

open Declaration

/-- What the first declaration that says anything says. -/
def first (f : Declaration → Option α) (h : List Declaration) : Option α := h.findSome? f

/-- What the latest declaration that says anything says. -/
def latest (f : Declaration → Option α) (h : List Declaration) : Option α := h.reverse.findSome? f

/-- The constructors of the abstract data type `a`, in the order of their first declaration. -/
def ctorNames (a : String) (h : List Declaration) : List String :=
  (h.filterMap fun d => (d.ctor? a).map Prod.fst).eraseDups

/-- The latest type of the annotation `l` at the most specific owner that has one: a constructor,
its abstract data type, any node. The last of these is asked for every type. -/
def latestAnno (on : Ty) (l : String) (h : List Declaration) : Option Ty :=
  match on.strip with
  | .ctor n a .. => ((latest (annoType? (.ctor a n) l) h).or
      (latest (annoType? (.adt a) l) h)).or (latest (annoType? .anyNode l) h)
  | .adt a _ => (latest (annoType? (.adt a) l) h).or (latest (annoType? .anyNode l) h)
  | _ => latest (annoType? .anyNode l) h

end History

open Declaration History

/-- What a declaration needs of the earlier ones: an abstract data type keeps its number of
parameters, a constructor belongs to a declared one and has a well-labelled row, and an annotation
is declared for nodes. -/
def Declaration.Admissible (h : List Declaration) : Declaration → Prop
  | adt n ps => ∀ qs, first (adtParams? n) h = some qs → qs.length = ps.length
  | ctor t _ fs ls => ∃ a qs ps, t.strip = .adt a qs ∧ first (adtParams? a) h = some ps ∧
      (⟨fs, ls⟩ : Row).WellLabelled
  | named _ _ => True
  | anno on _ _ => on.owner?.isSome = true

namespace History

variable {f : Declaration → Option α}

theorem first_append : first f (h ++ es) = (first f h).or (first f es) := List.findSome?_append

theorem first_snoc : first f (h ++ [d]) = (first f h).or (f d) := by
  rw [first_append, first, first, List.findSome?_singleton]

theorem latest_snoc : latest f (h ++ [d]) = (f d).or (latest f h) := by
  rw [latest, List.reverse_append, List.findSome?_append, List.reverse_singleton,
    List.findSome?_singleton, latest]

theorem first_snoc_of_none (hd : f d = none) : first f (h ++ [d]) = first f h := by
  rw [first_snoc, hd, Option.or_none]

theorem latest_snoc_of_none (hd : f d = none) : latest f (h ++ [d]) = latest f h := by
  rw [latest_snoc, hd, Option.none_or]

/-- What was said first stays. -/
theorem first_append_of_some {x : α} (hx : first f h = some x) : first f (h ++ es) = some x := by
  rw [first_append, hx, Option.some_or]

theorem nodup_ctorNames : (ctorNames a h).Nodup := Positional.nodup_eraseDups _

theorem ctorNames_snoc_of_none (hd : d.ctor? a = none) :
    ctorNames a (h ++ [d]) = ctorNames a h := by
  simp [ctorNames, hd]

theorem ctorNames_snoc {row : Row} (hd : d.ctor? a = some (n, row)) : ctorNames a (h ++ [d]) =
    if n ∈ ctorNames a h then ctorNames a h else ctorNames a h ++ [n] := by
  unfold ctorNames
  rw [List.filterMap_append, List.filterMap_cons_some (by rw [hd]; rfl), List.filterMap_nil,
    Positional.eraseDups_snoc]
  simp only [List.mem_eraseDups]

end History

/-! ## Single declarations -/

namespace Registry

theorem declareAdt_eq_ok : r.declareAdt n ps = .ok (t, s) ↔
    (∃ qs, r.adts.get? n = some qs ∧ qs.length = ps.length ∧ t = .adt n qs ∧ s = r) ∨
      (r.adts.get? n = none ∧ t = .adt n ps ∧ s = { r with adts := r.adts.insert n ps }) := by
  unfold declareAdt
  cases hn : r.adts.get? n with
  | none => simp [eq_comm]
  | some qs =>
    by_cases hl : qs.length = ps.length
    · simp [hl, eq_comm]
    · simp [hl]

theorem declareCtor_eq_ok : r.declareCtor u n fs ls = .ok (t, s) ↔
    ∃ a qs ps, u.strip = .adt a qs ∧ r.adts.get? a = some ps ∧ (⟨fs, ls⟩ : Row).WellLabelled ∧
      t = Ctor.toTy a ⟨n, ps, ⟨fs, ls⟩⟩ ∧ s = { r with
        ctors := r.ctors.insert a (replaceCtor ⟨n, ps, ⟨fs, ls⟩⟩ ((r.ctors.get? a).getD [])) } := by
  unfold declareCtor
  constructor
  · intro h
    split at h
    · next a qs ha =>
      split at h
      · nomatch h
      · next ps hps =>
        obtain ⟨row, hrow, h⟩ := bind_eq_ok.1 h
        obtain ⟨rfl, hwell⟩ := Row.make_eq_ok.1 hrow
        obtain ⟨rfl, rfl⟩ := Prod.mk.inj (pure_eq_ok.1 h)
        exact ⟨a, qs, ps, ha, hps, hwell, rfl, rfl⟩
    · nomatch h
  · rintro ⟨a, qs, ps, ha, hps, hwell, rfl, rfl⟩
    have hrow : Row.make fs ls = .ok ⟨fs, ls⟩ := Row.make_eq_ok.2 ⟨rfl, hwell⟩
    simp only [ha, hps, hrow]
    rfl

theorem declareAnno_eq_ok : r.declareAnno u l t = .ok s ↔ ∃ o, u.owner? = some o ∧
    s = { r with annos := r.annos.insert o (((r.annos.get? o).getD []).insert l t) } := by
  unfold declareAnno
  cases u.owner? <;> simp [eq_comm]

/-! ## Tables and histories -/

/-- The constructor has the name `n`, the parameters of its abstract data type `a` and the latest
row. -/
structure CtorAgrees (h : List Declaration) (a n : String) (c : Ctor) : Prop where
  name : c.name = n
  params : first (adtParams? a) h = some c.params
  row : latest (ctorRow? a n) h = some c.row

/-- The tables of a registry say what the history does. -/
structure Agrees (r : Registry) (h : List Declaration) : Prop where
  adts : ∀ n, r.adts.get? n = first (adtParams? n) h
  ctors : ∀ a, List.Forall₂ (CtorAgrees h a) (ctorNames a h) ((r.ctors.get? a).getD [])
  aliases : ∀ n, r.aliases.get? n = latest (aliasTarget? n) h
  annos : ∀ o l, r.annoAt o l = latest (annoType? o l) h

theorem agrees_empty : Agrees empty [] where
  adts _ := rfl
  ctors _ := .nil
  aliases _ := rfl
  annos _ _ := rfl

/-- A family of constructors in which `c` takes the place of its namesake, or comes last. -/
theorem forall₂_replaceCtor {R R' : String → Ctor → Prop} {ns : List String} {c : Ctor}
    {cs : List Ctor} (h : List.Forall₂ R ns cs) (hns : ns.Nodup)
    (hname : ∀ m e, R m e → e.name = m) (hold : ∀ m e, m ≠ c.name → R m e → R' m e)
    (hc : R' c.name c) :
    List.Forall₂ R' (if c.name ∈ ns then ns else ns ++ [c.name]) (replaceCtor c cs) := by
  induction h with
  | nil => exact .cons hc .nil
  | @cons m e ns cs hme h ih =>
    obtain ⟨hm, hns⟩ := List.nodup_cons.1 hns
    rw [replaceCtor, hname m e hme]
    by_cases hmc : m = c.name
    · subst hmc
      rw [if_pos rfl, if_pos List.mem_cons_self]
      -- the names are distinct, so there is no namesake among the rest
      refine .cons hc (forall₂_imp_of_mem h fun k hk e hke => hold k e ?_ hke)
      rintro rfl
      exact hm hk
    · have hrest : List.Forall₂ R' _ (replaceCtor c cs) := ih hns
      rw [if_neg hmc]
      by_cases hc : c.name ∈ ns
      · rw [if_pos hc] at hrest
        rw [if_pos (List.mem_cons_of_mem m hc)]
        exact .cons (hold m e hmc hme) hrest
      · rw [if_neg hc] at hrest
        rw [if_neg (by simp [Ne.symm hmc, hc])]
        exact .cons (hold m e hmc hme) hrest

/-- What a declaration says nothing of stays as it is. -/
theorem CtorAgrees.snoc {c : Ctor} (hc : CtorAgrees h a n c) (hd : d.ctorRow? a n = none) :
    CtorAgrees (h ++ [d]) a n c :=
  ⟨hc.name, first_append_of_some hc.params, (latest_snoc_of_none hd).trans hc.row⟩

namespace Agrees

theorem adts_snoc (hr : r.Agrees h) (hd : d.adtParams? n = none) :
    r.adts.get? n = first (adtParams? n) (h ++ [d]) :=
  (hr.adts n).trans (first_snoc_of_none hd).symm

theorem ctors_snoc (hr : r.Agrees h) (hd : d.ctor? a = none) :
    List.Forall₂ (CtorAgrees (h ++ [d]) a) (ctorNames a (h ++ [d])) ((r.ctors.get? a).getD []) := by
  rw [ctorNames_snoc_of_none hd]
  refine (hr.ctors a).imp fun n c hc => hc.snoc ?_
  rw [Declaration.ctorRow?, hd]
  rfl

theorem aliases_snoc (hr : r.Agrees h) (hd : d.aliasTarget? n = none) :
    r.aliases.get? n = latest (aliasTarget? n) (h ++ [d]) :=
  (hr.aliases n).trans (latest_snoc_of_none hd).symm

theorem annos_snoc (hr : r.Agrees h) (hd : d.annoType? o l = none) :
    r.annoAt o l = latest (annoType? o l) (h ++ [d]) :=
  (hr.annos o l).trans (latest_snoc_of_none hd).symm

end Agrees

theorem Agrees.declareAdt (hr : r.Agrees h) (hd : r.declareAdt n ps = .ok (t, s)) :
    s.Agrees (h ++ [.adt n ps]) := by
  rcases declareAdt_eq_ok.1 hd with ⟨qs, hqs, -, -, rfl⟩ | ⟨hnone, -, rfl⟩
  · refine ⟨fun m => ?_, fun a => hr.ctors_snoc rfl, fun m => hr.aliases_snoc rfl,
      fun o l => hr.annos_snoc rfl⟩
    by_cases hm : n = m
    · subst hm
      rw [hqs, first_append_of_some ((hr.adts n).symm.trans hqs)]
    · exact hr.adts_snoc (if_neg hm)
  · refine ⟨fun m => ?_, fun a => hr.ctors_snoc rfl, fun m => hr.aliases_snoc rfl,
      fun o l => hr.annos_snoc rfl⟩
    by_cases hm : n = m
    · subst hm
      rw [Assoc.get?_insert_self, first_snoc, ← hr.adts n, hnone, Option.none_or]
      exact (if_pos rfl).symm
    · rw [Assoc.get?_insert_of_ne _ hm]
      exact hr.adts_snoc (if_neg hm)

theorem Agrees.declareCtor (hr : r.Agrees h) (hd : r.declareCtor u n fs ls = .ok (t, s)) :
    s.Agrees (h ++ [.ctor u n fs ls]) := by
  obtain ⟨a, qs, ps, ha, hps, -, -, rfl⟩ := declareCtor_eq_ok.1 hd
  have hother {b : String} (hb : a ≠ b) : (Declaration.ctor u n fs ls).ctor? b = none := by
    simp [Declaration.ctor?, ha, hb]
  have hself : (Declaration.ctor u n fs ls).ctor? a = some (n, ⟨fs, ls⟩) := by
    simp [Declaration.ctor?, ha]
  refine ⟨fun m => hr.adts_snoc rfl, fun b => ?_, fun m => hr.aliases_snoc rfl,
    fun o l => hr.annos_snoc rfl⟩
  by_cases hb : a = b
  · subst hb
    rw [Assoc.get?_insert_self, Option.getD_some, ctorNames_snoc hself]
    refine forall₂_replaceCtor (c := ⟨n, ps, ⟨fs, ls⟩⟩) (hr.ctors a) nodup_ctorNames
      (fun m c hc => hc.name) ?_ ?_
    · intro m c hm hc
      refine hc.snoc ?_
      simp [Declaration.ctorRow?, hself, Ne.symm hm]
    · refine ⟨rfl, first_append_of_some ((hr.adts a).symm.trans hps), ?_⟩
      rw [latest_snoc]
      simp [Declaration.ctorRow?, hself]
  · rw [Assoc.get?_insert_of_ne _ hb]
    exact hr.ctors_snoc (hother hb)

theorem Agrees.declareAlias (hr : r.Agrees h) :
    (r.declareAlias n t).2.Agrees (h ++ [.named n t]) := by
  refine ⟨fun m => hr.adts_snoc rfl, fun a => hr.ctors_snoc rfl, fun m => ?_,
    fun o l => hr.annos_snoc rfl⟩
  by_cases hm : n = m
  · subst hm
    rw [latest_snoc]
    simp [Registry.declareAlias, Assoc.get?_insert_self, aliasTarget?]
  · have hold : r.aliases.get? m = latest (aliasTarget? m) (h ++ [.named n t]) :=
      hr.aliases_snoc (if_neg hm)
    exact (Assoc.get?_insert_of_ne _ hm t).trans hold

theorem annoAt_insert {p : Owner} {k : String} :
    annoAt { r with annos := r.annos.insert o (((r.annos.get? o).getD []).insert l t) } p k =
      if o = p ∧ l = k then some t else r.annoAt p k := by
  unfold annoAt
  by_cases hp : o = p
  · subst hp
    rw [Assoc.get?_insert_self, Option.bind_some]
    by_cases hk : l = k
    · subst hk
      rw [Assoc.get?_insert_self, if_pos ⟨rfl, rfl⟩]
    · rw [Assoc.get?_insert_of_ne _ hk, if_neg fun hpk => hk hpk.2]
      cases r.annos.get? o <;> rfl
  · rw [Assoc.get?_insert_of_ne _ hp, if_neg fun hpk => hp hpk.1]

theorem Agrees.declareAnno (hr : r.Agrees h) (hd : r.declareAnno u l t = .ok s) :
    s.Agrees (h ++ [.anno u l t]) := by
  obtain ⟨o, ho, rfl⟩ := declareAnno_eq_ok.1 hd
  refine ⟨fun m => hr.adts_snoc rfl, fun a => hr.ctors_snoc rfl, fun m => hr.aliases_snoc rfl,
    fun p k => ?_⟩
  have hanno : annoType? p k (.anno u l t) = if o = p ∧ l = k then some t else none := by
    simp [annoType?, ho]
  rw [annoAt_insert, latest_snoc, ← hr.annos p k, hanno]
  by_cases hpk : o = p ∧ l = k
  · rw [if_pos hpk, if_pos hpk, Option.some_or]
  · rw [if_neg hpk, if_neg hpk, Option.none_or]

/-! ## Look-ups -/

theorem Agrees.adt? (hr : r.Agrees h) (n : String) :
    r.adt? n = (first (adtParams? n) h).map (Ty.adt n) := by
  rw [Registry.adt?, hr.adts]

theorem Agrees.alias? (hr : r.Agrees h) (n : String) :
    r.alias? n = (latest (aliasTarget? n) h).map (Ty.named n) := by
  rw [Registry.alias?, hr.aliases]

/-- The constructors of `a` are those of the history, under the type that is looked up for `a`. -/
theorem Agrees.ctorsOf (hr : r.Agrees h) (a : String) :
    List.Forall₂ (fun n t => ∃ ps row, r.adt? a = some (.adt a ps) ∧
      latest (ctorRow? a n) h = some row ∧ t = .ctor n a ps row.fields row.labels)
      (ctorNames a h) (r.ctorsOf a) := by
  refine List.forall₂_map_right_iff.2 ((hr.ctors a).imp fun n c hc => ?_)
  refine ⟨c.params, c.row, ?_, hc.row, ?_⟩
  · rw [hr.adt?, hc.params]
    rfl
  · rw [← hc.name]
    rfl

/-- In a family whose names are distinct a constructor is found by its name. -/
theorem find?_eq_some_iff {cs : List Ctor} {c : Ctor} (hcs : (cs.map Ctor.name).Nodup) :
    cs.find? (fun e => e.name = n) = some c ↔ c ∈ cs ∧ c.name = n := by
  constructor
  · intro hc
    exact ⟨List.mem_of_find?_eq_some hc, by simpa using List.find?_some hc⟩
  · rintro ⟨hc, rfl⟩
    induction cs with
    | nil => nomatch hc
    | cons e cs ih =>
      obtain ⟨he, hcs⟩ := List.nodup_cons.1 hcs
      rcases List.mem_cons.1 hc with rfl | hc
      · exact List.find?_cons_of_pos (by simp)
      · have hne : e.name ≠ c.name := fun hec => he (hec ▸ List.mem_map_of_mem hc)
        rw [List.find?_cons_of_neg (by simpa using hne)]
        exact ih hcs hc

theorem Agrees.nodup_names (hr : r.Agrees h) (a : String) :
    (((r.ctors.get? a).getD []).map Ctor.name).Nodup := by
  have hnames : ctorNames a h = ((r.ctors.get? a).getD []).map Ctor.name := by
    rw [← List.forall₂_eq_eq_eq, List.forall₂_map_right_iff]
    exact (hr.ctors a).imp fun n c hc => hc.name.symm
  rw [← hnames]
  exact nodup_ctorNames

/-- A constructor is looked up by its name among those of its abstract data type. -/
theorem Agrees.ctor?_eq_some (hr : r.Agrees h) :
    r.ctor? a n = some t ↔ t ∈ r.ctorsOf a ∧ t.IsCtor n a := by
  have hfound : r.ctor? a n =
      (((r.ctors.get? a).getD []).find? fun c => c.name = n).map (Ctor.toTy a) := by
    unfold Registry.ctor?
    cases r.ctors.get? a with
    | none => rfl
    | some cs =>
      change (cs.find? _ >>= fun c => pure _) = (cs.find? _).map _
      cases cs.find? fun c => c.name = n <;> rfl
  rw [hfound, Option.map_eq_some_iff, Registry.ctorsOf, List.mem_map]
  constructor
  · rintro ⟨c, hc, rfl⟩
    obtain ⟨hmem, rfl⟩ := (find?_eq_some_iff (hr.nodup_names a)).1 hc
    exact ⟨⟨c, hmem, rfl⟩, _, _, _, rfl⟩
  · rintro ⟨⟨c, hc, rfl⟩, ps, fs, ls, hname⟩
    obtain ⟨rfl, -⟩ := Ty.ctor.inj hname
    exact ⟨c, (find?_eq_some_iff (hr.nodup_names a)).2 ⟨hc, rfl⟩, rfl⟩

theorem Agrees.annoType (hr : r.Agrees h) (on : Ty) (l : String) :
    r.annoType on l = latestAnno on l h := by
  have hcons (o : Owner) (os : List Owner) : (o :: os).findSome? (fun p => r.annoAt p l) =
      (latest (annoType? o l) h).or (os.findSome? fun p => r.annoAt p l) := by
    rw [List.findSome?_cons, hr.annos]
    cases latest (annoType? o l) h <;> rfl
  rw [annoType_eq, latestAnno]
  unfold Ty.owners Ty.owner?
  cases on.strip <;> simp [hcons, Option.or_assoc]

/-! ## Runs -/

/-- A declaration succeeds exactly if it is admissible after the earlier ones. -/
theorem Agrees.exists_run_iff (hr : r.Agrees h) :
    (∃ p, d.run r = .ok p) ↔ d.Admissible h := by
  cases d with
  | adt n ps =>
    constructor
    · rintro ⟨p, hp⟩ qs hqs
      obtain ⟨⟨t, s⟩, hd, -⟩ := bind_eq_ok.1 hp
      rw [← hr.adts] at hqs
      rcases declareAdt_eq_ok.1 hd with ⟨qs', hqs', hl, -⟩ | ⟨hnone, -⟩
      · obtain rfl := Option.some.inj (hqs.symm.trans hqs')
        exact hl
      · nomatch hqs.symm.trans hnone
    · intro hd
      cases hn : r.adts.get? n with
      | none => exact ⟨_, bind_eq_ok.2 ⟨_, declareAdt_eq_ok.2 (.inr ⟨hn, rfl, rfl⟩), rfl⟩⟩
      | some qs =>
        have hl : qs.length = ps.length := hd qs (hr.adts n ▸ hn)
        exact ⟨_, bind_eq_ok.2 ⟨_, declareAdt_eq_ok.2 (.inl ⟨qs, hn, hl, rfl, rfl⟩), rfl⟩⟩
  | ctor u n fs ls =>
    constructor
    · rintro ⟨p, hp⟩
      obtain ⟨⟨t, s⟩, hd, -⟩ := bind_eq_ok.1 hp
      obtain ⟨a, qs, ps, ha, hps, hwell, -⟩ := declareCtor_eq_ok.1 hd
      exact ⟨a, qs, ps, ha, hr.adts a ▸ hps, hwell⟩
    · rintro ⟨a, qs, ps, ha, hps, hwell⟩
      rw [← hr.adts] at hps
      exact ⟨_, bind_eq_ok.2 ⟨_, declareCtor_eq_ok.2 ⟨a, qs, ps, ha, hps, hwell, rfl, rfl⟩, rfl⟩⟩
  | named n t => exact iff_of_true ⟨_, rfl⟩ trivial
  | anno u l t =>
    constructor
    · rintro ⟨p, hp⟩
      obtain ⟨s, hd, -⟩ := bind_eq_ok.1 hp
      obtain ⟨o, ho, -⟩ := declareAnno_eq_ok.1 hd
      exact Option.isSome_iff_exists.2 ⟨o, ho⟩
    · intro hd
      obtain ⟨o, ho⟩ := Option.isSome_iff_exists.1 hd
      exact ⟨_, bind_eq_ok.2 ⟨_, declareAnno_eq_ok.2 ⟨o, ho, rfl⟩, rfl⟩⟩

end Registry

namespace RegistryRun

open Registry

variable {s : RegistryRun}

theorem agrees_perform (hs : s.registry.Agrees s.history) (d : Declaration) :
    (s.perform d).registry.Agrees (s.perform d).history := by
  unfold perform
  split
  · next x r ho =>
    cases d with
    | adt n ps =>
      obtain ⟨⟨t, r'⟩, hd, ho⟩ := bind_eq_ok.1 ho
      obtain ⟨-, rfl⟩ := Prod.mk.inj (pure_eq_ok.1 ho)
      exact hs.declareAdt hd
    | ctor u n fs ls =>
      obtain ⟨⟨t, r'⟩, hd, ho⟩ := bind_eq_ok.1 ho
      obtain ⟨-, rfl⟩ := Prod.mk.inj (pure_eq_ok.1 ho)
      exact hs.declareCtor hd
    | named n t =>
      obtain ⟨-, rfl⟩ := Prod.mk.inj (pure_eq_ok.1 ho)
      exact hs.declareAlias
    | anno u l t =>
      obtain ⟨r', hd, ho⟩ := bind_eq_ok.1 ho
      obtain ⟨-, rfl⟩ := Prod.mk.inj (pure_eq_ok.1 ho)
      exact hs.declareAnno hd
  · exact hs

theorem agrees_foldl (hs : s.registry.Agrees s.history) (ds : List Declaration) :
    (ds.foldl perform s).registry.Agrees (ds.foldl perform s).history := by
  induction ds generalizing s with
  | nil => exact hs
  | cons d ds ih => exact ih (agrees_perform hs d)

theorem agrees_after (ds : List Declaration) :
    (after ds).registry.Agrees (after ds).history :=
  agrees_foldl agrees_empty ds

/-- What has succeeded is never undone. -/
theorem history_isPrefix_foldl (s : RegistryRun) (ds : List Declaration) :
    s.history <+: (ds.foldl perform s).history := by
  induction ds generalizing s with
  | nil => exact List.prefix_rfl
  | cons d ds ih =>
    refine List.IsPrefix.trans ?_ (ih (s.perform d))
    unfold perform
    split
    · exact List.prefix_append s.history [d]
    · exact List.prefix_rfl

theorem history_isPrefix_after (ds es : List Declaration) :
    (after ds).history <+: (after (ds ++ es)).history := by
  unfold after
  rw [List.foldl_append]
  exact history_isPrefix_foldl _ es

theorem after_snoc_of_error {f : Fault} (hd : d.run (after ds).registry = .error f) :
    after (ds ++ [d]) = after ds := by
  have hlast : after (ds ++ [d]) = (after ds).perform d := List.foldl_append
  rw [hlast, perform, hd]

end RegistryRun

/-- **Look-ups and the history of declarations.** After any declarations, those that succeeded
determine the look-ups. An abstract data type is the one that was declared first, and stays it. Its
constructors have distinct names, in the order of their first declaration, and each has the row of
its latest one and the type that is looked up for its abstract data type; a single constructor is
looked up by its name among them. An annotation has the type of its latest declaration for the most
specific owner that has one, and an alias has its latest target. A declaration that fails changes
nothing, and it succeeds exactly if it is admissible. -/
theorem lookups_of_history (ds : List Declaration) :
    let r := (RegistryRun.after ds).registry
    let h := (RegistryRun.after ds).history
    (∀ n, r.adt? n = (first (adtParams? n) h).map (Ty.adt n)) ∧
    (∀ n t es, r.adt? n = some t → (RegistryRun.after (ds ++ es)).registry.adt? n = some t) ∧
    (∀ a, (ctorNames a h).Nodup ∧
      List.Forall₂ (fun n t => ∃ ps row, r.adt? a = some (.adt a ps) ∧
        latest (ctorRow? a n) h = some row ∧ t = .ctor n a ps row.fields row.labels)
        (ctorNames a h) (r.ctorsOf a)) ∧
    (∀ a n t, r.ctor? a n = some t ↔ t ∈ r.ctorsOf a ∧ t.IsCtor n a) ∧
    (∀ on l, r.annoType on l = latestAnno on l h) ∧
    (∀ n, r.alias? n = (latest (aliasTarget? n) h).map (Ty.named n)) ∧
    (∀ d f, d.run r = .error f → RegistryRun.after (ds ++ [d]) = RegistryRun.after ds) ∧
    ∀ d : Declaration, (∃ p, d.run r = .ok p) ↔ d.Admissible h := by
  intro r h
  have hr : r.Agrees h := RegistryRun.agrees_after ds
  refine ⟨hr.adt?, fun n t es ht => ?_, fun a => ⟨nodup_ctorNames, hr.ctorsOf a⟩,
    fun a n t => hr.ctor?_eq_some, hr.annoType, hr.alias?,
    fun d f => RegistryRun.after_snoc_of_error, fun d => hr.exists_run_iff⟩
  -- later declarations only make the history longer
  obtain ⟨later, hlater⟩ := RegistryRun.history_isPrefix_after ds es
  rw [hr.adt?] at ht
  obtain ⟨ps, hps, rfl⟩ := Option.map_eq_some_iff.1 ht
  rw [(RegistryRun.agrees_after (ds ++ es)).adt?, ← hlater, first_append_of_some hps]
  rfl

/-- A shape is declared again, a constructor is replaced, and two declarations fail: a constructor
whose labels are too few, and an annotation of numbers. -/
theorem lookups_of_history_shapes :
    let shape : Ty := .adt "Shape" []
    let ds : List Declaration :=
      [.adt "Shape" [.param "T"], .ctor shape "circle" [.double] none,
        .ctor shape "square" [.int] none, .ctor shape "circle" [.int] (some ["r"]),
        .adt "Shape" [.int], .ctor shape "square" [.int] (some []), .anno .int "unit" .str,
        .anno shape "color" .str]
    let r := (RegistryRun.after ds).registry
    r.adt? "Shape" = some (.adt "Shape" [.param "T"]) ∧
      r.ctorsOf "Shape" = [.ctor "circle" "Shape" [.param "T"] [.int] (some ["r"]),
        .ctor "square" "Shape" [.param "T"] [.int] none] ∧
      r.annoType (.ctor "square" "Shape" [] [] none) "color" = some .str ∧
      ∀ es, (RegistryRun.after (ds ++ es)).registry.adt? "Shape" =
        some (.adt "Shape" [.param "T"]) := by
  intro shape ds r
  have hshape : r.adt? "Shape" = some (.adt "Shape" [.param "T"]) := by decide
  refine ⟨hshape, by decide, by decide, fun es => ?_⟩
  exact (lookups_of_history ds).2.1 "Shape" _ es hshape

end ValueLattice

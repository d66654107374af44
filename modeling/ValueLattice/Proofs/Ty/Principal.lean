import Mathlib.Logic.Relation
import ValueLattice.Proofs.Ty.Matching
import ValueLattice.Proofs.Ty.Params
/-!
# Matches are principal

If some substitution makes a type large enough for an actual type, the match of the two
succeeds, and the bindings that it leaves are below that substitution. So a match finds the
least substitution that there is, and fails only where there is none.

On its way a match does nothing to the bindings but widen them, each time by a part of the
actual type that has values (`Subst.Step`). What one widening preserves holds after every match,
whether or not it succeeds.

* `Subst.Under`: bindings below a substitution;
* `Subst.Fits`, `fits_of_leq`, `fitsAll_of_leqAll`: a match with a substitution in sight;
* `match_least`: a match finds the least substitution;
* `Subst.Steps`, `steps_matchWith`: what a match may do to the bindings;
* `Steps.get?_eq`, `Steps.bound`, `Steps.params_subset`, `Steps.eq_void`: what widenings preserve.
-/

namespace ValueLattice

open Ty

namespace Subst

variable {s s' b b₀ : Subst} {n : String} {t u : Ty}

/-- The bindings with `n` bound to the join of its binding, if any, and `t`. -/
def widened (s : Subst) (n : String) (t : Ty) : Subst :=
  match s.get? n with
  | none => s.insert n t
  | some u => s.insert n (u.lub t)

theorem returns_widen (s : Subst) (n : String) (t : Ty) :
    Action.Returns (widen n t) s () (s.widened n t) := by
  unfold widened
  refine Action.returns_bind.2 ⟨s, s, Action.returns_get.2 ⟨rfl, rfl⟩, ?_⟩
  cases h : s.get? n <;> rfl

theorem get?_widened_self (s : Subst) (n : String) (t : Ty) :
    (s.widened n t).get? n = some (((s.get? n).map fun u => u.lub t).getD t) := by
  unfold widened
  split <;> simp_all [Assoc.get?_insert_self]

theorem get?_widened_of_ne {m : String} (s : Subst) (h : n ≠ m) (t : Ty) :
    (s.widened n t).get? m = s.get? m := by
  unfold widened
  split <;> exact Assoc.get?_insert_of_ne s h _

/-! ## Bindings below a substitution -/

/-- Every binding of `b` is below what `s` makes of its parameter. -/
def Under (b s : Subst) : Prop := ∀ n u, b.get? n = some u → u.leq ((param n).subst s) = true

theorem Under.widened (hb : b.Under s) (ht : t.leq ((param n).subst s) = true) :
    (b.widened n t).Under s := by
  intro m u hu
  by_cases hnm : n = m
  · subst hnm
    rw [get?_widened_self, Option.some.injEq] at hu
    rw [← hu]
    cases hn : b.get? n with
    | none => exact ht
    | some w => exact (isJoin_lub w t).least _ (hb n w hn) ht
  · rw [get?_widened_of_ne b hnm] at hu
    exact hb m u hu

/-- A match of `t` with `a` from the bindings `b₀` succeeds, stays under `s`, and meets
constructors of the same owners. -/
def Fits (t a : Ty) (s b₀ : Subst) : Prop :=
  ∃ b, Action.Returns (t.matchWith a) b₀ () b ∧ b.Under s ∧ ownersAgree t a = true

/-- The same of the match of two rows. -/
def FitsAll (ts as : List Ty) (s b₀ : Subst) : Prop :=
  ∃ b, Action.Returns (matchAll ts as) b₀ () b ∧ b.Under s ∧ ownersAgreeAll ts as = true

end Subst

namespace Ty

variable {t a : Ty} {ts as : List Ty} {s b₀ : Subst}

theorem isVoid_of_leq {u : Ty} (h : leq t u = true) (hu : u.isVoid = true) : t.isVoid = true := by
  rw [leq_iff_below, isVoid_iff.1 hu] at h
  generalize hc : t.strip = c at h
  cases h with
  | bottom => exact isVoid_iff.2 hc

theorem matchBelow_of_leq (ht : t.isOpen = false) (h : leq a t = true) :
    matchBelow t a = return () := by
  simp [matchBelow, ht, h]

theorem matchCounts_of_leqAll {site : Site} (h : leqAll as (substAll s ts) = true) :
    matchCounts site ts.length as.length = return () := by
  have hl : as.length = ts.length := by rw [leqAll_length h, length_substAll]
  simp [matchCounts, hl]

mutual

/-- Where a substitution makes a type large enough for an actual type, their match succeeds and
stays under it. -/
theorem fits_of_leq (t a : Ty) {s b₀ : Subst} (h : leq a (t.subst s) = true) (hb : b₀.Under s) :
    Subst.Fits t a s b₀ := by
  unfold Subst.Fits
  by_cases hv : a.isVoid = true
  · rw [matchWith_of_isVoid t hv]
    exact ⟨b₀, rfl, hb, ownersAgree_of_void t (isVoid_iff.1 hv)⟩
  cases t with
  | param n =>
    rw [matchWith, if_neg hv]
    exact ⟨b₀.widened n a, Subst.returns_widen b₀ n a, hb.widened h, rfl⟩
  | named n t =>
    rw [subst, leq_named] at h
    rw [matchWith, if_neg hv, ownersAgree]
    exact fits_of_leq t a h hb
  | list e =>
    rw [matchWith, if_neg hv, ownersAgree]
    have h : Below a.strip (list (e.subst s)) := (leq_iff_below _ _).1 h
    generalize hc : a.strip = c at h ⊢
    cases h with
    | bottom => exact absurd (isVoid_iff.2 hc) hv
    | list h => exact fits_of_leq e _ h hb
  | set e =>
    rw [matchWith, if_neg hv, ownersAgree]
    have h : Below a.strip (set (e.subst s)) := (leq_iff_below _ _).1 h
    generalize hc : a.strip = c at h ⊢
    cases h with
    | bottom => exact absurd (isVoid_iff.2 hc) hv
    | set h => exact fits_of_leq e _ h hb
    | relSet h => exact fits_of_leq e _ h hb
  | map k v =>
    rw [matchWith, if_neg hv, ownersAgree]
    have h : Below a.strip (map (k.subst s) (v.subst s)) := (leq_iff_below _ _).1 h
    generalize hc : a.strip = c at h ⊢
    cases h with
    | bottom => exact absurd (isVoid_iff.2 hc) hv
    | map hk hw =>
      obtain ⟨r, hr, hrs, hko⟩ := fits_of_leq k _ hk hb
      obtain ⟨b, hb, hbs, hvo⟩ := fits_of_leq v _ hw hrs
      exact ⟨b, Action.returns_bind.2 ⟨(), r, hr, hb⟩, hbs, by simp [hko, hvo]⟩
  | tuple fs ls =>
    rw [matchWith, if_neg hv, ownersAgree]
    have h : Below a.strip (tuple (substAll s fs) ls) := (leq_iff_below _ _).1 h
    generalize hc : a.strip = c at h ⊢
    cases h with
    | bottom => exact absurd (isVoid_iff.2 hc) hv
    | tuple h =>
      simp only [matchCounts_of_leqAll h, pure_bind]
      exact fitsAll_of_leqAll fs _ h hb
  | rel fs ls =>
    rw [matchWith, if_neg hv, ownersAgree]
    have h : Below a.strip (rel (substAll s fs) ls) := (leq_iff_below _ _).1 h
    generalize hc : a.strip = c at h ⊢
    cases h with
    | bottom => exact absurd (isVoid_iff.2 hc) hv
    | rel h =>
      simp only [matchCounts_of_leqAll h, pure_bind]
      exact fitsAll_of_leqAll fs _ h hb
  | adt n ps =>
    rw [matchWith, if_neg hv, ownersAgree]
    have h : Below a.strip (adt n (substAll s ps)) := (leq_iff_below _ _).1 h
    generalize hc : a.strip = c at h ⊢
    cases h with
    | bottom => exact absurd (isVoid_iff.2 hc) hv
    | adt h =>
      simp only [if_true, matchCounts_of_leqAll h, pure_bind]
      exact fitsAll_of_leqAll ps _ h hb
    | ctorAdt h =>
      simp only [if_true, matchCounts_of_leqAll h, pure_bind]
      exact fitsAll_of_leqAll ps _ h hb
  | ctor n o ps fs ls =>
    rw [matchWith, if_neg hv, ownersAgree]
    have h : Below a.strip (ctor n o (substAll s ps) (substAll s fs) ls) :=
      (leq_iff_below _ _).1 h
    generalize hc : a.strip = c at h ⊢
    cases h with
    | bottom => exact absurd (isVoid_iff.2 hc) hv
    | ctor hp hf =>
      simp only [if_true, matchCounts_of_leqAll hp, matchCounts_of_leqAll hf, pure_bind]
      obtain ⟨r, hr, hrs, hpo⟩ := fitsAll_of_leqAll ps _ hp hb
      obtain ⟨b, hb, hbs, hfo⟩ := fitsAll_of_leqAll fs _ hf hrs
      exact ⟨b, Action.returns_bind.2 ⟨(), r, hr, hb⟩, hbs, by simp [hpo, hfo]⟩
  | _ =>
    simp only [subst] at h
    simp only [matchWith, if_neg hv, matchBelow_of_leq rfl h, ownersAgree]
    exact ⟨b₀, rfl, hb, trivial⟩

/-- The same of two rows of equal length. -/
theorem fitsAll_of_leqAll (ts as : List Ty) {s b₀ : Subst}
    (h : leqAll as (substAll s ts) = true) (hb : b₀.Under s) : Subst.FitsAll ts as s b₀ := by
  cases ts with
  | nil =>
    simp only [Subst.FitsAll, matchAll, ownersAgreeAll]
    exact ⟨b₀, rfl, hb, trivial⟩
  | cons t ts =>
    cases as with
    | nil => nomatch h
    | cons a as =>
      obtain ⟨ha, has⟩ : leq a (t.subst s) = true ∧ leqAll as (substAll s ts) = true := by
        simpa [substAll, leqAll] using h
      obtain ⟨r, hr, hrs, hto⟩ := fits_of_leq t a ha hb
      obtain ⟨b, hb, hbs, htso⟩ := fitsAll_of_leqAll ts as has hrs
      exact ⟨b, Action.returns_bind.2 ⟨(), r, hr, hb⟩, hbs, by simp [ownersAgreeAll, hto, htso]⟩

end

/-! ## Least matches -/

/-- The same with the order in place of the owners: the bindings make the type large enough. -/
theorem exists_match_of_leq (h : leq a (t.subst s) = true) (hb : b₀.Under s) :
    ∃ b, Action.Returns (t.matchWith a) b₀ () b ∧ b.Under s ∧ leq a (t.subst b) = true := by
  obtain ⟨b, hr, hbs, ho⟩ := fits_of_leq t a h hb
  exact ⟨b, hr, hbs, ((meets_of_matchWith t a hr).leq_iff b (.refl b)).2 ho⟩

/-- **A match finds the least substitution.** Where some substitution above the first bindings
makes a type large enough for an actual type, their match succeeds. The bindings that it leaves
make the type large enough, and are below every such substitution. -/
theorem match_least (t a : Ty) (s b₀ : Subst) (h : leq a (t.subst s) = true) (hb : b₀.Under s) :
    ∃ b, Action.Returns (t.matchWith a) b₀ () b ∧ leq a (t.subst b) = true ∧ b.Under s ∧
      ∀ s', leq a (t.subst s') = true → b₀.Under s' → b.Under s' := by
  obtain ⟨b, hr, hbs, hleq⟩ := exists_match_of_leq h hb
  refine ⟨b, hr, hleq, hbs, fun s' h' hb' => ?_⟩
  obtain ⟨b', hr', hbs', -⟩ := exists_match_of_leq h' hb'
  rw [(hr.unique hr').2]
  exact hbs'

/-- Maps to sets of pairs: the first columns are trees over the type of the keys. -/
def forest : Ty :=
  map (param "K") (set (tuple [named "T" (adt "Tree" [param "K"]), param "V"] none))

/-- Maps from numbers to relations: the first columns are leaves of texts, the second ones have
no values. -/
def leaves : Ty :=
  map (named "Id" int) (rel [ctor "leaf" "Tree" [str] [str] none, void] none)

/-- Flags, numbers and texts together make the keys arbitrary, and the second column leaves its
parameter unbound. -/
theorem match_least_forest :
    leq leaves (forest.subst [("K", value)]) = true ∧ Subst.Under [("K", bool)] [("K", value)] ∧
    ∃ b, Action.Returns (forest.matchWith leaves) [("K", bool)] () b ∧
      leq leaves (forest.subst b) = true ∧ b.Under [("K", value)] := by
  have hleq : leq leaves (forest.subst [("K", value)]) = true := by decide
  have hunder : Subst.Under [("K", bool)] [("K", value)] := by
    intro n u hu
    simp only [Assoc.get?] at hu
    split at hu
    · next hn => simp [← hn, subst, Assoc.get?, leq_value]
    · cases hu
  obtain ⟨b, hr, hleqb, hbs, -⟩ := match_least forest leaves _ _ hleq hunder
  exact ⟨hleq, hunder, b, hr, hleqb, hbs⟩

end Ty

/-! ## Widenings -/

namespace Subst

/-- One widening: a parameter among `ns` is joined with a type that has values and no parameters
but those among `ms`. -/
def Step (ns ms : List String) (s s' : Subst) : Prop :=
  ∃ n ∈ ns, ∃ t : Ty, t.isVoid = false ∧ t.params ⊆ ms ∧ s' = s.widened n t

/-- Widenings, one after the other. -/
def Steps (ns ms : List String) : Subst → Subst → Prop := Relation.ReflTransGen (Step ns ms)

namespace Steps

variable {ns ns' ms ms' : List String} {s s' s'' : Subst} {n : String} {t u : Ty}

theorem refl (s : Subst) : Steps ns ms s s := Relation.ReflTransGen.refl

theorem trans (h : Steps ns ms s s') (h' : Steps ns ms s' s'') : Steps ns ms s s'' :=
  Relation.ReflTransGen.trans h h'

theorem mono (h : Steps ns ms s s') (hn : ns ⊆ ns') (hm : ms ⊆ ms') : Steps ns' ms' s s' := by
  refine Relation.ReflTransGen.mono (fun r r' hr => ?_) _ _ h
  obtain ⟨n, hns, t, ht, hms, rfl⟩ := hr
  exact ⟨n, hn hns, t, ht, List.Subset.trans hms hm, rfl⟩

/-- Actions that widen one after the other widen together. -/
theorem after_bind {α β : Type} {x : Action Subst α} {f : α → Action Subst β}
    (hx : Steps ns ms s (x.after s)) (hf : ∀ a r, Steps ns ms r ((f a).after r)) :
    Steps ns ms s ((x >>= f).after s) :=
  Action.after_bind (fun h h' => h.trans h') hx hf

end Steps

end Subst

namespace Ty

open Subst (Steps)

variable {ns ms : List String}

theorem steps_matchBelow (t a : Ty) (s : Subst) : Steps ns ms s ((matchBelow t a).after s) := by
  unfold matchBelow
  split <;> exact .refl s

theorem steps_matchCounts (site : Site) (i j : Nat) (s : Subst) :
    Steps ns ms s ((matchCounts site i j).after s) := by
  unfold matchCounts
  split <;> exact .refl s

/-- Rows are matched after their lengths have been compared. -/
theorem steps_counts {site : Site} {i j : Nat} {x : Action Subst Unit}
    (h : ∀ s, Steps ns ms s (x.after s)) (s : Subst) :
    Steps ns ms s ((do matchCounts site i j; x : Action Subst Unit).after s) :=
  .after_bind (steps_matchCounts site i j s) fun _ => h

mutual

/-- All that a match does to the bindings is to widen parameters of the type by parts of the
actual type, also where it fails. -/
theorem steps_matchWith (t a : Ty) (s : Subst) :
    Steps t.params a.params s ((t.matchWith a).after s) := by
  by_cases hv : a.isVoid = true
  · rw [matchWith_of_isVoid t hv]
    exact .refl s
  rw [← params_strip a]
  cases t with
  | param n =>
    rw [matchWith, if_neg hv, Action.after_eq_of_returns (Subst.returns_widen s n a)]
    refine Relation.ReflTransGen.single ⟨n, List.mem_singleton_self n, a, ?_, ?_, rfl⟩
    · simpa using hv
    · rw [params_strip]
      exact List.Subset.refl _
  | named n t =>
    rw [matchWith, if_neg hv, params_strip]
    exact steps_matchWith t a s
  | list e =>
    rw [matchWith, if_neg hv]
    split
    · next f hf =>
      rw [hf]
      exact steps_matchWith e f s
    · exact steps_matchBelow _ a s
  | set e =>
    rw [matchWith, if_neg hv]
    split
    · next f hf =>
      rw [hf]
      exact steps_matchWith e f s
    · next gs ls hg =>
      rw [hg]
      exact steps_matchWith e (tuple gs ls) s
    · exact steps_matchBelow _ a s
  | map k v =>
    rw [matchWith, if_neg hv]
    split
    · next l w ha =>
      rw [ha]
      refine .after_bind ?_ fun _ r => ?_
      · exact (steps_matchWith k l s).mono (List.subset_append_left _ _)
          (List.subset_append_left _ _)
      · exact (steps_matchWith v w r).mono (List.subset_append_right _ _)
          (List.subset_append_right _ _)
    · exact steps_matchBelow _ a s
  | tuple fs ls =>
    rw [matchWith, if_neg hv]
    split
    · next gs ms hg =>
      rw [hg]
      exact steps_counts (steps_matchAll fs gs) s
    · exact steps_matchBelow _ a s
  | rel fs ls =>
    rw [matchWith, if_neg hv]
    split
    · next gs ms hg =>
      rw [hg]
      exact steps_counts (steps_matchAll fs gs) s
    · exact steps_matchBelow _ a s
  | adt n ps =>
    rw [matchWith, if_neg hv]
    split
    · next m qs hq =>
      rw [hq]
      split
      · exact steps_counts (steps_matchAll ps qs) s
      · exact steps_matchBelow _ a s
    · next k m qs gs ms hq =>
      rw [hq]
      split
      · refine (steps_counts (steps_matchAll ps qs) s).mono (List.Subset.refl _) ?_
        exact List.subset_append_left _ _
      · exact steps_matchBelow _ a s
    · exact steps_matchBelow _ a s
  | ctor n o ps fs ls =>
    rw [matchWith, if_neg hv]
    split
    · next m p qs gs ms hq =>
      rw [hq]
      split
      · rw [← bind_assoc]
        refine .after_bind ?_ fun _ r => ?_
        · exact (steps_counts (steps_matchAll ps qs) s).mono (List.subset_append_left _ _)
            (List.subset_append_left _ _)
        · exact (steps_counts (steps_matchAll fs gs) r).mono (List.subset_append_right _ _)
            (List.subset_append_right _ _)
      · exact steps_matchBelow _ a s
    · exact steps_matchBelow _ a s
  | _ =>
    simp only [matchWith, if_neg hv]
    exact steps_matchBelow _ a s

theorem steps_matchAll (ts as : List Ty) (s : Subst) :
    Steps (paramsAll ts) (paramsAll as) s ((matchAll ts as).after s) := by
  cases ts with
  | nil =>
    simp only [matchAll]
    exact .refl s
  | cons t ts =>
    cases as with
    | nil =>
      simp only [matchAll]
      exact .refl s
    | cons a as =>
      refine .after_bind ?_ fun _ r => ?_
      · exact (steps_matchWith t a s).mono (List.subset_append_left _ _)
          (List.subset_append_left _ _)
      · exact (steps_matchAll ts as r).mono (List.subset_append_right _ _)
          (List.subset_append_right _ _)

end

end Ty

/-! ## What widenings preserve -/

namespace Subst.Steps

variable {ns ms : List String} {s s' : Subst} {n : String}

/-- What one widening preserves, all of them do. -/
theorem preserves {P : Subst → Prop} (h : Steps ns ms s s') (hs : P s)
    (hstep : ∀ r r', Step ns ms r r' → P r → P r') : P s' := by
  induction h with
  | refl => exact hs
  | tail _ hlast ih => exact hstep _ _ hlast ih

/-- A parameter that is not to be widened keeps its binding. -/
theorem get?_eq (h : Steps ns ms s s') (hn : n ∉ ns) : s'.get? n = s.get? n := by
  refine h.preserves (P := fun r => r.get? n = s.get? n) rfl ?_
  rintro r - ⟨m, hm, t, -, -, rfl⟩ hr
  have hmn : m ≠ n := fun hmn => hn (hmn ▸ hm)
  rw [get?_widened_of_ne r hmn, hr]

/-- A parameter that is bound stays bound. -/
theorem bound (h : Steps ns ms s s') (hn : (s.get? n).isSome = true) :
    (s'.get? n).isSome = true := by
  refine h.preserves (P := fun r => (r.get? n).isSome = true) hn ?_
  rintro r - ⟨m, -, t, -, -, rfl⟩ hr
  by_cases hmn : m = n
  · rw [← hmn, get?_widened_self]
    rfl
  · rwa [get?_widened_of_ne r hmn]

/-- Bindings get no parameters but those of the types that they are joined with. -/
theorem params_subset (h : Steps ns ms s s')
    (hs : ∀ m u, s.get? m = some u → u.params ⊆ ms) :
    ∀ m u, s'.get? m = some u → u.params ⊆ ms := by
  refine h.preserves (P := fun r => ∀ m u, r.get? m = some u → u.params ⊆ ms) hs ?_
  rintro r - ⟨k, -, t, -, ht, rfl⟩ hr m u hu
  by_cases hkm : k = m
  · subst hkm
    rw [get?_widened_self, Option.some.injEq] at hu
    rw [← hu]
    cases hk : r.get? k with
    | none => exact ht
    | some w =>
      intro l hl
      exact (mem_params_lub hl).elim (fun hl => hr k w hk hl) fun hl => ht hl
  · rw [get?_widened_of_ne r hkm] at hu
    exact hr m u hu

/-- A binding without values is `void` itself if it was so at first. -/
theorem eq_void (h : Steps ns ms s s')
    (hs : ∀ m u, s.get? m = some u → u.isVoid = true → u = .void) :
    ∀ m u, s'.get? m = some u → u.isVoid = true → u = .void := by
  refine h.preserves (P := fun r => ∀ m u, r.get? m = some u → u.isVoid = true → u = .void) hs ?_
  rintro r - ⟨k, -, t, ht, -, rfl⟩ hr m u hu hv
  by_cases hkm : k = m
  · -- the binding is above `t`, which has values
    subst hkm
    rw [get?_widened_self, Option.some.injEq] at hu
    have htu : t.leq u = true := by
      rw [← hu]
      cases r.get? k with
      | none => exact leq_refl t
      | some w => exact (isJoin_lub w t).right
    rw [isVoid_of_leq htu hv] at ht
    nomatch ht
  · rw [get?_widened_of_ne r hkm] at hu
    exact hr m u hu hv

end Subst.Steps

end ValueLattice

import ValueLattice.Proofs.Ty.Hereditary
/-!
# Types without aliases and labels

Aliases and labels are notation: neither takes part in the order. `Ty.bare` drops both at every
depth, and two types are equivalent exactly if they are one type without them. So among the types
that have neither to begin with (`Ty.isBare`) the order is antisymmetric, and a least upper bound is
unique: a join of several such types does not depend on their order, nor on how often each of them
occurs.

That equivalent types are one type without their notation is by induction on the first of them
(`bare_eq_of_leq_of_leq`): of the rules of the order, those that change the shape have no way back.
The converse needs no second type, since every type is equivalent to its bare one
(`leq_bare_and_bare_leq`).

* `Ty.bare`, `Ty.isBare`: the type without its aliases and labels, and the types that have none;
* `leq_antisymm`: the order on bare types;
* `equivalent_iff_bare_eq`: equivalence is equality up to notation;
* `hereditary_isBare`, `isBare_lub`: being bare is decided by the parts of a type, so joins keep it;
* `foldl_lub_eq_of_subset`: the join of a list depends on its members alone.
-/

namespace ValueLattice.Ty

mutual

/-- The type without its aliases and labels, at every depth. -/
def bare : Ty → Ty
  | list e => list (bare e)
  | set e => set (bare e)
  | rel fs _ => rel (bareAll fs) none
  | map k v => map (bare k) (bare v)
  | tuple fs _ => tuple (bareAll fs) none
  | named _ t => bare t
  | adt n ps => adt n (bareAll ps)
  | ctor n o ps fs _ => ctor n o (bareAll ps) (bareAll fs) none
  | t => t

/-- The types of a list without their aliases and labels. -/
def bareAll : List Ty → List Ty
  | [] => []
  | t :: ts => bare t :: bareAll ts

end

mutual

/-- Whether a type has no alias and no labels, at any depth. -/
def isBare : Ty → Bool
  | list e | set e => isBare e
  | rel fs ls | tuple fs ls => ls.isNone && isBareAll fs
  | map k v => isBare k && isBare v
  | named .. => false
  | adt _ ps => isBareAll ps
  | ctor _ _ ps fs ls => ls.isNone && isBareAll ps && isBareAll fs
  | _ => true

/-- Whether no type of a list has an alias or labels. -/
def isBareAll : List Ty → Bool
  | [] => true
  | t :: ts => isBare t && isBareAll ts

end

variable {a b c s : Ty} {ts us : List Ty}

theorem strip_of_isBare (h : a.isBare = true) : a.strip = a := by
  cases a with
  | named n t => nomatch h
  | _ => rfl

theorem isBareAll_iff : isBareAll ts = true ↔ ∀ t ∈ ts, t.isBare = true := by
  induction ts with
  | nil => simp [isBareAll]
  | cons t ts ih => rw [isBareAll, Bool.and_eq_true, ih, List.forall_mem_cons]

mutual

theorem bare_of_isBare (t : Ty) (h : t.isBare = true) : t.bare = t := by
  cases t with
  | list e => rw [bare, bare_of_isBare e h]
  | set e => rw [bare, bare_of_isBare e h]
  | map k v =>
    obtain ⟨hk, hv⟩ := Bool.and_eq_true_iff.1 h
    rw [bare, bare_of_isBare k hk, bare_of_isBare v hv]
  | rel fs ls =>
    obtain ⟨hl, hf⟩ := Bool.and_eq_true_iff.1 h
    rw [bare, bareAll_of_isBareAll fs hf, Option.isNone_iff_eq_none.1 hl]
  | tuple fs ls =>
    obtain ⟨hl, hf⟩ := Bool.and_eq_true_iff.1 h
    rw [bare, bareAll_of_isBareAll fs hf, Option.isNone_iff_eq_none.1 hl]
  | adt n ps => rw [bare, bareAll_of_isBareAll ps h]
  | ctor n o ps fs ls =>
    simp only [isBare, Bool.and_eq_true] at h
    obtain ⟨⟨hl, hp⟩, hf⟩ := h
    rw [bare, bareAll_of_isBareAll ps hp, bareAll_of_isBareAll fs hf,
      Option.isNone_iff_eq_none.1 hl]
  | named n t => nomatch h
  | _ => rfl

theorem bareAll_of_isBareAll (ts : List Ty) (h : isBareAll ts = true) : bareAll ts = ts := by
  cases ts with
  | nil => rfl
  | cons t ts =>
    obtain ⟨ht, hts⟩ := Bool.and_eq_true_iff.1 h
    rw [bareAll, bare_of_isBare t ht, bareAll_of_isBareAll ts hts]

end

/-! ## Antisymmetry -/

theorem bare_strip (t : Ty) : t.strip.bare = t.bare := by
  fun_induction strip t with
  | case1 n t ih => rw [ih, bare]
  | case2 t h => rfl

mutual

/-- Two types that are below each other are one type without their aliases and labels. -/
theorem bare_eq_of_leq_of_leq (a b : Ty) (hab : leq a b = true) (hba : leq b a = true) :
    a.bare = b.bare := by
  rw [leq_iff_below] at hab hba
  rw [← bare_strip b]
  generalize b.strip = c at hab hba ⊢
  cases a with
  | named n t =>
    have hab : leq t c = true := (leq_strip_left t c).symm.trans (leq_of_below hab)
    have hba : leq c t = true := (leq_strip_right c t).symm.trans (leq_of_below hba)
    exact bare_eq_of_leq_of_leq t c hab hba
  | list e =>
    cases hab with
    | top => nomatch hba
    | @list _ f hab => cases hba with
      | list hba => exact congrArg list (bare_eq_of_leq_of_leq e f hab hba)
  | set e =>
    cases hab with
    | top => nomatch hba
    | @set _ f hab => cases hba with
      | set hba => exact congrArg set (bare_eq_of_leq_of_leq e f hab hba)
  | map k v =>
    cases hab with
    | top => nomatch hba
    | @map _ l _ w hk hv => cases hba with
      | map hk' hv' =>
        exact congrArg₂ map (bare_eq_of_leq_of_leq k l hk hk') (bare_eq_of_leq_of_leq v w hv hv')
  | tuple fs ls =>
    cases hab with
    | top => nomatch hba
    | @tuple _ gs _ _ hab => cases hba with
      | tuple hba => exact congrArg (tuple · none) (bareAll_eq_of_leqAll_of_leqAll fs gs hab hba)
  | rel fs ls =>
    cases hab with
    | top => nomatch hba
    | relSet => nomatch hba
    | @rel _ gs _ _ hab => cases hba with
      | rel hba => exact congrArg (rel · none) (bareAll_eq_of_leqAll_of_leqAll fs gs hab hba)
  | adt n ps =>
    cases hab with
    | top => nomatch hba
    | adtNode => nomatch hba
    | @adt _ _ qs hab => cases hba with
      | adt hba => exact congrArg (adt n) (bareAll_eq_of_leqAll_of_leqAll ps qs hab hba)
  | ctor n o ps fs ls =>
    cases hab with
    | top => nomatch hba
    | ctorNode => nomatch hba
    | ctorAdt => nomatch hba
    | @ctor _ _ _ qs _ gs _ _ hp hf => cases hba with
      | ctor hp' hf' =>
        rw [bare, bare, bareAll_eq_of_leqAll_of_leqAll ps qs hp hp',
          bareAll_eq_of_leqAll_of_leqAll fs gs hf hf']
  | _ =>
    -- above a shape without parts there are only itself and the top
    cases hab
    all_goals cases hba
    all_goals rfl

theorem bareAll_eq_of_leqAll_of_leqAll (as bs : List Ty) (hab : leqAll as bs = true)
    (hba : leqAll bs as = true) : bareAll as = bareAll bs := by
  cases as with
  | nil => cases bs with
    | nil => rfl
    | cons b bs => nomatch hab
  | cons a as => cases bs with
    | nil => nomatch hab
    | cons b bs =>
      rw [leqAll, Bool.and_eq_true] at hab hba
      exact congrArg₂ List.cons (bare_eq_of_leq_of_leq a b hab.1 hba.1)
        (bareAll_eq_of_leqAll_of_leqAll as bs hab.2 hba.2)

end

/-- The order is antisymmetric on bare types. -/
theorem leq_antisymm (ha : a.isBare = true) (hb : b.isBare = true) (hab : leq a b = true)
    (hba : leq b a = true) : a = b := by
  rw [← bare_of_isBare a ha, ← bare_of_isBare b hb, bare_eq_of_leq_of_leq a b hab hba]

/-! ## Equivalence -/

mutual

/-- What is left without aliases and labels has none. -/
theorem isBare_bare (t : Ty) : t.bare.isBare = true := by
  cases t with
  | list e => exact isBare_bare e
  | set e => exact isBare_bare e
  | map k v => exact Bool.and_eq_true_iff.2 ⟨isBare_bare k, isBare_bare v⟩
  | rel fs ls => exact isBareAll_bareAll fs
  | tuple fs ls => exact isBareAll_bareAll fs
  | named n t => exact isBare_bare t
  | adt n ps => exact isBareAll_bareAll ps
  | ctor n o ps fs ls =>
    exact Bool.and_eq_true_iff.2 ⟨isBareAll_bareAll ps, isBareAll_bareAll fs⟩
  | _ => rfl

theorem isBareAll_bareAll (ts : List Ty) : isBareAll (bareAll ts) = true := by
  cases ts with
  | nil => rfl
  | cons t ts => exact Bool.and_eq_true_iff.2 ⟨isBare_bare t, isBareAll_bareAll ts⟩

end

mutual

/-- A type is below what is left of it without its aliases and labels, and the other way round. -/
theorem leq_bare_and_bare_leq (t : Ty) : leq t t.bare = true ∧ leq t.bare t = true := by
  cases t with
  | list e =>
    obtain ⟨h, h'⟩ := leq_bare_and_bare_leq e
    exact ⟨leq_of_below (.list h), leq_of_below (.list h')⟩
  | set e =>
    obtain ⟨h, h'⟩ := leq_bare_and_bare_leq e
    exact ⟨leq_of_below (.set h), leq_of_below (.set h')⟩
  | map k v =>
    obtain ⟨hk, hk'⟩ := leq_bare_and_bare_leq k
    obtain ⟨hv, hv'⟩ := leq_bare_and_bare_leq v
    exact ⟨leq_of_below (.map hk hv), leq_of_below (.map hk' hv')⟩
  | rel fs ls =>
    obtain ⟨h, h'⟩ := leqAll_bareAll_and_bareAll_leqAll fs
    exact ⟨leq_of_below (.rel h), leq_of_below (.rel h')⟩
  | tuple fs ls =>
    obtain ⟨h, h'⟩ := leqAll_bareAll_and_bareAll_leqAll fs
    exact ⟨leq_of_below (.tuple h), leq_of_below (.tuple h')⟩
  | named n t =>
    rw [leq_named, bare]
    exact leq_bare_and_bare_leq t
  | adt n ps =>
    obtain ⟨h, h'⟩ := leqAll_bareAll_and_bareAll_leqAll ps
    exact ⟨leq_of_below (.adt h), leq_of_below (.adt h')⟩
  | ctor n o ps fs ls =>
    obtain ⟨hp, hp'⟩ := leqAll_bareAll_and_bareAll_leqAll ps
    obtain ⟨hf, hf'⟩ := leqAll_bareAll_and_bareAll_leqAll fs
    exact ⟨leq_of_below (.ctor hp hf), leq_of_below (.ctor hp' hf')⟩
  | _ => exact ⟨leq_refl _, leq_refl _⟩

theorem leqAll_bareAll_and_bareAll_leqAll (ts : List Ty) :
    leqAll ts (bareAll ts) = true ∧ leqAll (bareAll ts) ts = true := by
  cases ts with
  | nil => exact ⟨rfl, rfl⟩
  | cons t ts =>
    obtain ⟨h, h'⟩ := leq_bare_and_bare_leq t
    obtain ⟨hs, hs'⟩ := leqAll_bareAll_and_bareAll_leqAll ts
    exact ⟨Bool.and_eq_true_iff.2 ⟨h, hs⟩, Bool.and_eq_true_iff.2 ⟨h', hs'⟩⟩

end

/-- **Equivalence is equality up to notation.** Two types are equivalent exactly if they are one
type without their aliases and labels. Without them a type has none left, and is equivalent to what
it was, so that it is the only type without notation among those equivalent to it. -/
theorem equivalent_iff_bare_eq (a b : Ty) :
    (equivalent a b = true ↔ a.bare = b.bare) ∧ a.bare.isBare = true ∧
      equivalent a a.bare = true := by
  obtain ⟨ha, ha'⟩ := leq_bare_and_bare_leq a
  obtain ⟨hb, hb'⟩ := leq_bare_and_bare_leq b
  refine ⟨⟨fun h => ?_, fun h => ?_⟩, isBare_bare a, Bool.and_eq_true_iff.2 ⟨ha, ha'⟩⟩
  · obtain ⟨hab, hba⟩ := Bool.and_eq_true_iff.1 h
    exact bare_eq_of_leq_of_leq a b hab hba
  · have hab : leq a b = true := leq_trans a (h ▸ ha) hb'
    have hba : leq b a = true := leq_trans b (h ▸ hb) ha'
    exact Bool.and_eq_true_iff.2 ⟨hab, hba⟩

/-- Aliases at every depth and other labels make no difference, but a relation and the set of its
tuples are not equivalent. -/
example :
    equivalent (named "Edges" (rel [named "Id" int, str] (some ["from", "to"])))
      (rel [int, named "Name" str] none) = true ∧
    equivalent (rel [int, str] none) (set (tuple [int, str] none)) = false := by
  decide

/-! ## Joins -/

/-- Being bare is decided by the parts of a type: there are no labels to be kept. -/
theorem hereditary_isBare :
    Hereditary (fun _ ls => ls.isNone = true) (fun t => t.isBare = true) where
  common := by
    intro n ls ms hl hm
    unfold commonLabels
    split
    · exact hl
    · rfl
  value := rfl
  node := rfl
  target h := nomatch h
  list_iff := .rfl
  set_iff := .rfl
  map_iff := Bool.and_eq_true_iff
  tuple_iff := by
    intro fs ls
    rw [isBare, Bool.and_eq_true, isBareAll_iff]
  rel_iff := .rfl
  adt_iff := isBareAll_iff
  ctor_iff := by
    intro n o ps fs ls
    simp only [isBare, Bool.and_eq_true]
    tauto

theorem isBare_lub (ha : a.isBare = true) (hb : b.isBare = true) : (lub a b).isBare = true :=
  hereditary_isBare.lub ha hb

theorem isBareAll_lubAll (as bs : List Ty) (ha : isBareAll as = true)
    (hb : isBareAll bs = true) : isBareAll (lubAll as bs) = true :=
  isBareAll_iff.2
    (hereditary_isBare.forall_lubAll as bs (isBareAll_iff.1 ha) (isBareAll_iff.1 hb))

theorem isBare_foldl_lub (hs : s.isBare = true) (ht : ∀ t ∈ ts, t.isBare = true) :
    (ts.foldl lub s).isBare = true :=
  hereditary_isBare.foldl_lub hs ht

/-- The join of a list is below every bound of what it starts from and of the list. -/
theorem foldl_lub_leq (hs : leq s a = true) (ht : ∀ t ∈ ts, leq t a = true) :
    leq (ts.foldl lub s) a = true := by
  induction ts generalizing s with
  | nil => exact hs
  | cons t ts ih =>
    obtain ⟨ht, hts⟩ := List.forall_mem_cons.1 ht
    exact ih ((isJoin_lub s t).least a hs ht) hts

/-- The join of bare types depends on the members of the list alone. -/
theorem foldl_lub_eq_of_subset (hs : s.isBare = true) (ht : ∀ t ∈ ts, t.isBare = true)
    (htu : ts ⊆ us) (hut : us ⊆ ts) : ts.foldl lub s = us.foldl lub s := by
  have hts : leq s (ts.foldl lub s) = true ∧ ∀ t ∈ ts, leq t (ts.foldl lub s) = true :=
    leq_foldl_lub ts s
  have hus : leq s (us.foldl lub s) = true ∧ ∀ u ∈ us, leq u (us.foldl lub s) = true :=
    leq_foldl_lub us s
  refine leq_antisymm (isBare_foldl_lub hs ht)
    (isBare_foldl_lub hs fun u hu => ht u (hut hu)) ?_ ?_
  · exact foldl_lub_leq hus.1 fun t hm => hus.2 t (htu hm)
  · exact foldl_lub_leq hts.1 fun u hm => hts.2 u (hut hm)

end ValueLattice.Ty

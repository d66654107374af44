import ValueLattice.Ty.Join
import ValueLattice.Proofs.Ty.Order
/-!
# Joins are least upper bounds

`IsJoin a b c` says that `c` is a least upper bound of `a` and `b`. The join takes a short way
where one type is strictly below the other (`isJoin_choose`), and otherwise rebuilds the shapes
below the aliases; `isJoin_rebuild` shows, by induction on the first type, that the rebuilt type
is a least upper bound whenever the short way is closed.

Shapes of one kind are rebuilt part by part. Where the shapes differ, one of the types is first
replaced by a larger one that every common upper bound is above as well (`IsJoin.lower`): a
relation by the set of its tuples, a constructor by the abstract data type that owns it.

* `isJoin_lub`, `isJoinAll_lubAll`: the joins of types and of rows;
* `lub_least_upper_bound`: the three properties of the join.
-/

namespace ValueLattice.Ty

/-- `c` is a least upper bound of `a` and `b`. -/
structure IsJoin (a b c : Ty) : Prop where
  left : leq a c = true
  right : leq b c = true
  least : ∀ d, leq a d = true → leq b d = true → leq c d = true

/-- `cs` is a least upper bound of the rows `as` and `bs`. -/
structure IsJoinAll (as bs cs : List Ty) : Prop where
  left : leqAll as cs = true
  right : leqAll bs cs = true
  least : ∀ ds, leqAll as ds = true → leqAll bs ds = true → leqAll cs ds = true

variable {a a' b c d : Ty}

theorem isJoin_self (a : Ty) : IsJoin a a a := ⟨leq_refl a, leq_refl a, fun _ ha _ => ha⟩

theorem IsJoin.symm (h : IsJoin a b c) : IsJoin b a c :=
  ⟨h.right, h.left, fun d hb ha => h.least d ha hb⟩

/-- Replaces `a` by a larger type that every common upper bound is above as well. -/
theorem IsJoin.lower (h : IsJoin a' b c) (ha : leq a a' = true)
    (hd : ∀ d, leq a d = true → leq b d = true → leq a' d = true) : IsJoin a b c :=
  ⟨leq_trans a ha h.left, h.right, fun d had hbd => h.least d (hd d had hbd) hbd⟩

theorem isJoin_strip_right : IsJoin a b.strip c ↔ IsJoin a b c := by
  constructor <;> intro h
  · exact ⟨h.left, leq_strip_left b c ▸ h.right,
      fun d ha hb => h.least d ha ((leq_strip_left b d).trans hb)⟩
  · exact ⟨h.left, (leq_strip_left b c).trans h.right,
      fun d ha hb => h.least d ha (leq_strip_left b d ▸ hb)⟩

/-- The short way: the larger of two types is their join. -/
theorem isJoin_choose (h : leq a b = leq b a → IsJoin a b c) : IsJoin a b (choose a b c) := by
  unfold choose
  split
  · next hab => exact hab ▸ isJoin_self a
  · split
    · next hab _ => exact ⟨hab, leq_refl b, fun _ _ hb => hb⟩
    · next hba => exact ⟨leq_refl a, hba, fun _ ha _ => ha⟩
    · next h₁ h₂ =>
      refine h ?_
      cases hab : leq a b <;> cases hba : leq b a <;> simp_all

/-! ## Shapes of one kind -/

/-- Upper bounds may be taken without an alias at the head. -/
theorem isJoin_of_below (ha : Below a c) (hb : Below b c)
    (h : ∀ d, Below a.strip d → Below b.strip d → Below c.strip d) : IsJoin a b c := by
  refine ⟨leq_of_below ha, leq_of_below hb, fun d had hbd => ?_⟩
  rw [leq_iff_below] at had hbd ⊢
  exact h d.strip had hbd

theorem IsJoin.list {e f g : Ty} (h : IsJoin e f g) : IsJoin (list e) (list f) (list g) := by
  refine isJoin_of_below (.list h.left) (.list h.right) fun d ha hb => ?_
  cases ha with
  | top => exact .top _
  | list ha => cases hb with | list hb => exact .list (h.least _ ha hb)

theorem IsJoin.set {e f g : Ty} (h : IsJoin e f g) : IsJoin (set e) (set f) (set g) := by
  refine isJoin_of_below (.set h.left) (.set h.right) fun d ha hb => ?_
  cases ha with
  | top => exact .top _
  | set ha => cases hb with | set hb => exact .set (h.least _ ha hb)

theorem IsJoin.map {k l m u v w : Ty} (hk : IsJoin k l m) (hv : IsJoin u v w) :
    IsJoin (map k u) (map l v) (map m w) := by
  refine isJoin_of_below (.map hk.left hv.left) (.map hk.right hv.right) fun d ha hb => ?_
  cases ha with
  | top => exact .top _
  | map ha ha' => cases hb with
    | map hb hb' => exact .map (hk.least _ ha hb) (hv.least _ ha' hb')

variable {fs gs hs ps qs rs : List Ty} {ls ms ks : Option (List String)} {n m o p : String}

theorem IsJoinAll.cons (hr : IsJoinAll fs gs hs) (h : IsJoin a b c) :
    IsJoinAll (a :: fs) (b :: gs) (c :: hs) := by
  refine ⟨by simp [leqAll, h.left, hr.left], by simp [leqAll, h.right, hr.right],
    fun ds ha hb => ?_⟩
  cases ds with
  | nil => simp [leqAll] at ha
  | cons d ds =>
    simp only [leqAll, Bool.and_eq_true] at ha hb ⊢
    exact ⟨h.least d ha.1 hb.1, hr.least ds ha.2 hb.2⟩

theorem IsJoinAll.tuple (h : IsJoinAll fs gs hs) :
    IsJoin (tuple fs ls) (tuple gs ms) (tuple hs ks) := by
  refine isJoin_of_below (.tuple h.left) (.tuple h.right) fun d ha hb => ?_
  cases ha with
  | top => exact .top _
  | tuple ha => cases hb with | tuple hb => exact .tuple (h.least _ ha hb)

theorem IsJoinAll.rel (h : IsJoinAll fs gs hs) :
    IsJoin (rel fs ls) (rel gs ms) (rel hs ks) := by
  refine isJoin_of_below (.rel h.left) (.rel h.right) fun d ha hb => ?_
  cases ha with
  | top => exact .top _
  | rel ha => cases hb with | rel hb => exact .rel (h.least _ ha hb)
  | relSet ha => cases hb with
    | relSet hb => exact .relSet (h.tuple.least _ ha hb)

theorem IsJoinAll.adt (h : IsJoinAll ps qs rs) : IsJoin (adt n ps) (adt n qs) (adt n rs) := by
  refine isJoin_of_below (.adt h.left) (.adt h.right) fun d ha hb => ?_
  cases ha with
  | top => exact .top _
  | adtNode => exact .adtNode
  | adt ha => cases hb with | adt hb => exact .adt (h.least _ ha hb)

theorem IsJoinAll.ctor (hp : IsJoinAll ps qs rs) (hf : IsJoinAll fs gs hs) :
    IsJoin (ctor n o ps fs ls) (ctor n o qs gs ms) (ctor n o rs hs ks) := by
  refine isJoin_of_below (.ctor hp.left hf.left) (.ctor hp.right hf.right) fun d ha hb => ?_
  cases ha with
  | top => exact .top _
  | ctorNode => exact .ctorNode
  | ctorAdt ha => cases hb with | ctorAdt hb => exact .ctorAdt (hp.least _ ha hb)
  | ctor ha ha' => cases hb with
    | ctor hb hb' => exact .ctor (hp.least _ ha hb) (hf.least _ ha' hb')

/-! ## Shapes of different kinds -/

/-- Two shapes that are below no shape together but the top have the top as their join. -/
theorem isJoin_value (h : ∀ d, Below a.strip d → Below b.strip d → d = value) :
    IsJoin a b value :=
  isJoin_of_below (.top a) (.top b) fun d ha hb => by rw [h d ha hb]; exact .top _

theorem isJoin_tupleOfLength (h : fs.length ≠ gs.length) :
    IsJoin (tuple fs ls) (tuple gs ms) value := by
  refine isJoin_value fun d ha hb => ?_
  cases ha with
  | top => rfl
  | tuple ha =>
    cases hb with
    | tuple hb => exact absurd ((leqAll_length ha).trans (leqAll_length hb).symm) h

theorem isJoin_rebuildAdt {joined : List Ty} (h : n = m → ps.length = qs.length →
    IsJoinAll ps qs joined) : IsJoin (adt n ps) (adt m qs)
      (if n = m ∧ ps.length = qs.length then adt n joined else node) := by
  split
  · next hnm =>
    obtain ⟨rfl, hl⟩ := hnm
    exact (h rfl hl).adt
  · next hnm =>
    refine isJoin_of_below .adtNode .adtNode fun d ha hb => ?_
    cases ha with
    | top => exact .top _
    | adtNode => exact .node
    | adt ha =>
      cases hb with
      | adt hb => exact absurd ⟨rfl, (leqAll_length ha).trans (leqAll_length hb).symm⟩ hnm

theorem isJoin_joinAdt {joined : List Ty} (h : n = m → ps.length = qs.length →
    IsJoinAll ps qs joined) : IsJoin (adt n ps) (adt m qs) (joinAdt n ps m qs joined) :=
  isJoin_choose fun _ => isJoin_rebuildAdt h

/-- A constructor and a type that is no bound of constructors join as its owner does. -/
theorem IsJoin.ofOwner (h : IsJoin (adt o ps) b c)
    (hb : ∀ m p qs gs ms, Below (ctor n o ps fs ls) (ctor m p qs gs ms) →
      ¬ Below b.strip (ctor m p qs gs ms)) : IsJoin (ctor n o ps fs ls) b c := by
  refine h.lower (leq_of_below (.ctorAdt (leqAll_refl ps))) fun d ha hbd => ?_
  rw [leq_iff_below] at ha hbd ⊢
  generalize d.strip = d' at *
  cases ha with
  | top => exact .top _
  | ctorNode => exact .adtNode
  | ctorAdt ha => exact .adt ha
  | ctor hp hf => exact absurd hbd (hb _ _ _ _ _ (.ctor hp hf))

/-- A relation and a set join as the set of its tuples does. -/
theorem IsJoin.ofTuples {f g : Ty} (h : IsJoin (tuple fs ls) f g) :
    IsJoin (rel fs ls) (Ty.set f) (Ty.set g) := by
  refine h.set.lower (leq_of_below (.relSet (leq_refl _))) fun d ha hb => ?_
  rw [leq_iff_below] at ha hb ⊢
  generalize d.strip = d' at *
  cases ha with
  | top => exact .top _
  | relSet ha => exact .set ha
  | rel ha => nomatch hb

/-- Relations of different arity join as the sets of their tuples. -/
theorem isJoin_relOfLength (h : fs.length ≠ gs.length) :
    IsJoin (rel fs ls) (rel gs ms) (set value) := by
  refine isJoin_of_below (.relSet (leq_value _)) (.relSet (leq_value _)) fun d ha hb => ?_
  cases ha with
  | top => exact .top _
  | rel ha =>
    cases hb with
    | rel hb => exact absurd ((leqAll_length ha).trans (leqAll_length hb).symm) h
  | relSet ha =>
    cases hb with
    | relSet hb => exact .set ((isJoin_tupleOfLength h).least _ ha hb)

/-! ## Rebuilt types -/

theorem rebuild_strip (a b : Ty) : rebuild a b.strip = rebuild a b := by
  fun_induction strip a with
  | case1 n t ih => exact ih
  | case2 a h => cases a <;> simp_all [rebuild]

/-- The join rebuilt for a shape without parts, above which are only itself and the top. -/
theorem isJoin_rebuildAtom (hs : a.strip = a) (ha : ∀ d, Below a d → d = a ∨ d = value)
    (h : leq a b = leq b a) : IsJoin a b (if a = b.strip then a else value) := by
  split
  · next hab => exact isJoin_strip_right.1 (hab ▸ isJoin_self a)
  · next hab =>
    refine isJoin_value fun d had hbd => ?_
    rw [hs] at had
    rcases ha d had with rfl | rfl
    · -- `b` is below the shape, hence above it, and can only be the top
      have hba : leq b d = true := (leq_iff_below b d).2 (hs.symm ▸ hbd)
      have hdb : Below d.strip b.strip := (leq_iff_below d b).1 (h.trans hba)
      rw [hs] at hdb
      rcases ha b.strip hdb with hb | hb
      · exact absurd hb.symm hab
      · rw [hb] at hbd
        exact hbd.eq_value
    · rfl

/-- The join rebuilt for a tuple, given that of its row. It serves relations too, which are
joined with sets by their tuples. -/
theorem isJoin_rebuildTuple (ih : ∀ gs, fs.length = gs.length → IsJoinAll fs gs (lubAll fs gs))
    (h : leq (tuple fs ls) b = leq b (tuple fs ls)) :
    IsJoin (tuple fs ls) b (rebuild (tuple fs ls) b) := by
  rw [← isJoin_strip_right, ← rebuild_strip]
  rw [← leq_strip_left b, ← leq_strip_right _ b] at h
  have hb := strip_ne_named b
  generalize b.strip = c at h hb ⊢
  cases c with
  | tuple gs ms =>
    rw [rebuild]
    simp only [strip]
    split
    · next hl => exact (ih gs hl).tuple
    · next hl => exact isJoin_tupleOfLength hl
  | named n t => exact absurd rfl (hb n t)
  | void => simp [leq, strip] at h
  | _ =>
    refine isJoin_value fun d ha hb => ?_
    cases ha <;> cases hb
    rfl

mutual

theorem isJoin_rebuild (a b : Ty) (h : leq a b = leq b a) : IsJoin a b (rebuild a b) := by
  rw [← isJoin_strip_right, ← rebuild_strip]
  rw [← leq_strip_left b, ← leq_strip_right _ b] at h
  have hb := strip_ne_named b
  generalize b.strip = c at h hb ⊢
  cases a with
  | named n t =>
    rw [leq_named] at h
    have ht : IsJoin t c (rebuild t c) := isJoin_rebuild t c h
    exact ⟨ht.left, ht.right, ht.least⟩
  | tuple fs ls => exact isJoin_rebuildTuple (isJoinAll_lubAll fs) h
  | list e =>
    cases c with
    | list f => exact (isJoin_choose (isJoin_rebuild e f)).list
    | named n t => exact absurd rfl (hb n t)
    | void => simp [leq, strip] at h
    | _ =>
      refine isJoin_value fun d ha hb => ?_
      cases ha <;> cases hb
      rfl
  | set e =>
    cases c with
    | set f => exact (isJoin_choose (isJoin_rebuild e f)).set
    | rel gs ms => exact (isJoin_choose (isJoin_rebuild e (tuple gs ms))).symm.ofTuples.symm
    | named n t => exact absurd rfl (hb n t)
    | void => simp [leq, strip] at h
    | _ =>
      refine isJoin_value fun d ha hb => ?_
      cases ha <;> cases hb
      rfl
  | map k v =>
    cases c with
    | map l w =>
      exact (isJoin_choose (isJoin_rebuild k l)).map (isJoin_choose (isJoin_rebuild v w))
    | named n t => exact absurd rfl (hb n t)
    | void => simp [leq, strip] at h
    | _ =>
      refine isJoin_value fun d ha hb => ?_
      cases ha <;> cases hb
      rfl
  | rel fs ls =>
    cases c with
    | rel gs ms =>
      rw [rebuild]
      simp only [strip]
      split
      · next hl => exact (isJoinAll_lubAll fs gs hl).rel
      · next hl => exact isJoin_relOfLength hl
    | set f => exact (isJoin_choose (isJoin_rebuildTuple (isJoinAll_lubAll fs))).ofTuples
    | named n t => exact absurd rfl (hb n t)
    | void => simp [leq, strip] at h
    | _ =>
      refine isJoin_value fun d ha hb => ?_
      cases ha <;> cases hb
      rfl
  | adt n ps =>
    cases c with
    | adt m qs => exact isJoin_rebuildAdt fun _ => isJoinAll_lubAll ps qs
    | ctor k m qs gs ms =>
      refine (IsJoin.ofOwner (isJoin_joinAdt fun _ => isJoinAll_lubAll ps qs).symm ?_).symm
      intro _ _ _ _ _ _ hb
      nomatch hb
    | named n t => exact absurd rfl (hb n t)
    | void => simp [leq, strip] at h
    | node => simp [leq, strip] at h
    | _ =>
      refine isJoin_value fun d ha hb => ?_
      cases ha <;> cases hb
      rfl
  | ctor n o ps fs ls =>
    cases c with
    | adt m qs =>
      refine IsJoin.ofOwner (isJoin_joinAdt fun _ => isJoinAll_lubAll ps qs) ?_
      intro _ _ _ _ _ _ hb
      nomatch hb
    | ctor m p qs gs ms =>
      rw [rebuild]
      simp only [strip]
      split
      · next hnm =>
        obtain ⟨rfl, rfl, hp, hf⟩ := hnm
        exact (isJoinAll_lubAll ps qs hp).ctor (isJoinAll_lubAll fs gs hf)
      · next hnm =>
        -- no constructor is above both, so both give way to their owners
        have hj := isJoin_joinAdt (n := o) (m := p) fun _ => isJoinAll_lubAll ps qs
        refine (hj.symm.ofOwner ?_).symm.ofOwner ?_
        · intro _ _ _ _ _ _ hb
          nomatch hb
        · intro _ _ _ _ _ ha hb
          cases ha with
          | ctor hp hf =>
            cases hb with
            | ctor hp' hf' =>
              exact hnm ⟨rfl, rfl, (leqAll_length hp).trans (leqAll_length hp').symm,
                (leqAll_length hf).trans (leqAll_length hf').symm⟩
    | named n t => exact absurd rfl (hb n t)
    | void => simp [leq, strip] at h
    | node => simp [leq, strip] at h
    | _ =>
      refine isJoin_value fun d ha hb => ?_
      cases ha <;> cases hb
      rfl
  | void =>
    cases c with
    | void => exact isJoin_self void
    | named n t => exact absurd rfl (hb n t)
    | _ => simp [leq, strip] at h
  | _ => exact isJoin_rebuildAtom rfl (fun d hd => by cases hd <;> simp) h

theorem isJoinAll_lubAll (as bs : List Ty) (h : as.length = bs.length) :
    IsJoinAll as bs (lubAll as bs) := by
  cases as with
  | nil =>
    cases bs with
    | nil => exact ⟨rfl, rfl, fun _ h _ => h⟩
    | cons b bs => simp at h
  | cons a as =>
    cases bs with
    | nil => simp at h
    | cons b bs =>
      exact (isJoinAll_lubAll as bs (Nat.succ.inj h)).cons (isJoin_choose (isJoin_rebuild a b))

end

/-! ## Joins -/

theorem isJoin_lub (a b : Ty) : IsJoin a b (lub a b) := isJoin_choose (isJoin_rebuild a b)

/-- A join is comparable with what it joins. -/
theorem comparable_lub_left (a b : Ty) : (lub a b).comparable a = true := by
  rw [comparable_comm]
  exact comparable_of_leq (isJoin_lub a b).left

/-- What the two types and the rebuilt one have in common their join has too. -/
theorem choose_of_all {p : Ty → Prop} (ha : p a) (hb : p b) (hc : p c) : p (choose a b c) := by
  unfold choose
  split
  · exact ha
  · split
    · exact hb
    · exact ha
    · exact hc

/-- Tuple types of one arity join to a tuple type. -/
theorem exists_lub_tuple (h : fs.length = gs.length) :
    ∃ hs ks, lub (tuple fs ls) (tuple gs ms) = tuple hs ks := by
  refine choose_of_all (p := fun t => ∃ hs ks, t = tuple hs ks) ⟨fs, ls, rfl⟩ ⟨gs, ms, rfl⟩ ?_
  rw [rebuild]
  simp only [strip, if_pos h]
  exact ⟨_, _, rfl⟩

theorem lub_void_tuple : lub void (tuple gs ms) = tuple gs ms := rfl

/-- The join of a list is above what it starts from and above every type of the list. -/
theorem leq_foldl_lub (ts : List Ty) (s : Ty) :
    leq s (ts.foldl lub s) = true ∧ ∀ t ∈ ts, leq t (ts.foldl lub s) = true := by
  induction ts generalizing s with
  | nil => exact ⟨leq_refl s, nofun⟩
  | cons u ts ih =>
    obtain ⟨hs, hts⟩ := ih (lub s u)
    have hj : IsJoin s u (lub s u) := isJoin_lub s u
    refine ⟨leq_trans s hj.left hs, fun t ht => ?_⟩
    rcases List.mem_cons.1 ht with rfl | ht
    · exact leq_trans t hj.right hs
    · exact hts t ht

/-- **The join of two types is their least upper bound.** -/
theorem lub_least_upper_bound (a b : Ty) :
    leq a (lub a b) = true ∧ leq b (lub a b) = true ∧
      ∀ c, leq a c = true → leq b c = true → leq (lub a b) c = true :=
  ⟨(isJoin_lub a b).left, (isJoin_lub a b).right, (isJoin_lub a b).least⟩

end ValueLattice.Ty

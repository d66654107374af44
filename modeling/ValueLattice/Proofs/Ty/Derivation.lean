import ValueLattice.Proofs.Ty.Order
/-!
# Derivations of the order

`Sub` is the order of types given by rules alone: reflexivity and transitivity, the bottom and
the top, folding and unfolding of aliases, covariance of every composite type, and the three
steps that change the shape, from a relation to a set, from a constructor to the abstract data
type that owns it, and from there to `node`. It says nothing of how to decide the order.

The order that is computed has no rule of transitivity and no rule for aliases, and still it
misses no derivation (`leq_of_sub`): transitivity is eliminated by `leq_trans`, and the
aliases that a derivation may fold anywhere are stripped on both sides. Conversely each of its
rules is derivable (`sub_of_leq`).

* `Sub`, `SubAll`: derivable pairs of types, and of rows;
* `leq_iff_sub`: the order decides derivability.
-/

namespace ValueLattice.Ty

mutual

/-- The derivable pairs of types. -/
inductive Sub : Ty → Ty → Prop
  | refl (a : Ty) : Sub a a
  | trans {a b c : Ty} (hab : Sub a b) (hbc : Sub b c) : Sub a c
  | bottom (b : Ty) : Sub void b
  | top (a : Ty) : Sub a value
  | unfold (n : String) (t : Ty) : Sub (named n t) t
  | fold (n : String) (t : Ty) : Sub t (named n t)
  | list {e f : Ty} (h : Sub e f) : Sub (list e) (list f)
  | set {e f : Ty} (h : Sub e f) : Sub (set e) (set f)
  | map {k l v w : Ty} (hk : Sub k l) (hv : Sub v w) : Sub (map k v) (map l w)
  | tuple {fs gs : List Ty} {ls ms : Option (List String)} (h : SubAll fs gs) :
    Sub (tuple fs ls) (tuple gs ms)
  | rel {fs gs : List Ty} {ls ms : Option (List String)} (h : SubAll fs gs) :
    Sub (rel fs ls) (rel gs ms)
  | adt {n : String} {ps qs : List Ty} (h : SubAll ps qs) : Sub (adt n ps) (adt n qs)
  | ctor {n o p : String} {ps qs fs gs : List Ty} {ls ms : Option (List String)}
    (ho : Sub (.adt o ps) (.adt p qs)) (hf : SubAll fs gs) :
    Sub (ctor n o ps fs ls) (ctor n p qs gs ms)
  | relSet (fs : List Ty) (ls : Option (List String)) : Sub (rel fs ls) (.set (.tuple fs ls))
  | owner (n o : String) (ps fs : List Ty) (ls : Option (List String)) :
    Sub (ctor n o ps fs ls) (.adt o ps)
  | node (n : String) (ps : List Ty) : Sub (adt n ps) node

/-- The derivable pairs of rows: equal length, and each field below the other's. -/
inductive SubAll : List Ty → List Ty → Prop
  | nil : SubAll [] []
  | cons {a b : Ty} {as bs : List Ty} (h : Sub a b) (hs : SubAll as bs) :
    SubAll (a :: as) (b :: bs)

end

/-! ## Every pair in the order is derivable -/

theorem sub_strip (a : Ty) : Sub a a.strip ∧ Sub a.strip a := by
  fun_induction strip a with
  | case1 n t ih => exact ⟨.trans (.unfold n t) ih.1, .trans ih.2 (.fold n t)⟩
  | case2 t => exact ⟨.refl t, .refl t⟩

/-- It is enough to derive the rules of the order, with no alias at the head on the right. -/
theorem sub_of_below {a b : Ty} (h : leq a b = true) (hs : ∀ c, Below a.strip c → Sub a c) :
    Sub a b := by
  have hb : Sub a b.strip := hs b.strip ((leq_iff_below a b).1 h)
  exact .trans hb (sub_strip b).2

/-- A tuple is derivably below what it is below, given the same of its row. -/
theorem sub_tuple_of_leq {fs : List Ty} {ls : Option (List String)} {b : Ty}
    (ih : ∀ {gs : List Ty}, leqAll fs gs = true → SubAll fs gs)
    (h : leq (tuple fs ls) b = true) : Sub (tuple fs ls) b := by
  refine sub_of_below h fun c h => ?_
  cases h with
  | top => exact .top _
  | tuple h => exact .tuple (ih h)

mutual

theorem sub_of_leq (a : Ty) {b : Ty} (h : leq a b = true) : Sub a b := by
  cases a with
  | named n t => exact .trans (.unfold n t) (sub_of_leq t h)
  | tuple fs ls => exact sub_tuple_of_leq (subAll_of_leqAll fs) h
  | list e =>
    refine sub_of_below h fun c h => ?_
    cases h with
    | top => exact .top _
    | list h => exact .list (sub_of_leq e h)
  | set e =>
    refine sub_of_below h fun c h => ?_
    cases h with
    | top => exact .top _
    | set h => exact .set (sub_of_leq e h)
  | map k v =>
    refine sub_of_below h fun c h => ?_
    cases h with
    | top => exact .top _
    | map hk hv => exact .map (sub_of_leq k hk) (sub_of_leq v hv)
  | rel fs ls =>
    refine sub_of_below h fun c h => ?_
    cases h with
    | top => exact .top _
    | rel h => exact .rel (subAll_of_leqAll fs h)
    | relSet h => exact .trans (.relSet fs ls) (.set (sub_tuple_of_leq (subAll_of_leqAll fs) h))
  | adt n ps =>
    refine sub_of_below h fun c h => ?_
    cases h with
    | top => exact .top _
    | adt h => exact .adt (subAll_of_leqAll ps h)
    | adtNode => exact .node n ps
  | ctor n o ps fs ls =>
    refine sub_of_below h fun c h => ?_
    cases h with
    | top => exact .top _
    | ctor hp hf => exact .ctor (.adt (subAll_of_leqAll ps hp)) (subAll_of_leqAll fs hf)
    | ctorAdt h => exact .trans (.owner n o ps fs ls) (.adt (subAll_of_leqAll ps h))
    | ctorNode => exact .trans (.owner n o ps fs ls) (.node o ps)
  | _ =>
    refine sub_of_below h fun c h => ?_
    cases h <;> first | exact .bottom _ | exact .top _ | exact .refl _

theorem subAll_of_leqAll (as : List Ty) {bs : List Ty} (h : leqAll as bs = true) :
    SubAll as bs := by
  cases as with
  | nil =>
    cases bs with
    | nil => exact .nil
    | cons b bs => simp [leqAll] at h
  | cons a as =>
    cases bs with
    | nil => simp [leqAll] at h
    | cons b bs =>
      simp only [leqAll, Bool.and_eq_true] at h
      exact .cons (sub_of_leq a h.1) (subAll_of_leqAll as h.2)

end

/-! ## Every derivable pair is in the order -/

mutual

theorem leq_of_sub {a b : Ty} : Sub a b → leq a b = true
  | .refl a => leq_refl a
  | .trans hab hbc => leq_trans a (leq_of_sub hab) (leq_of_sub hbc)
  | .bottom b => leq_of_below (.bottom b)
  | .top a => leq_value a
  | .unfold n t => leq_refl t
  | .fold n t => by rw [leq_named, leq_refl]
  | .list h => leq_of_below (.list (leq_of_sub h))
  | .set h => leq_of_below (.set (leq_of_sub h))
  | .map hk hv => leq_of_below (.map (leq_of_sub hk) (leq_of_sub hv))
  | .tuple h => leq_of_below (.tuple (leqAll_of_subAll h))
  | .rel h => leq_of_below (.rel (leqAll_of_subAll h))
  | .adt h => leq_of_below (.adt (leqAll_of_subAll h))
  | .ctor ho hf => by
    -- the owners are abstract data types in order, so they have one name
    have h := (leq_iff_below _ _).1 (leq_of_sub ho)
    have hf := leqAll_of_subAll hf
    cases h with
    | adt hp => exact leq_of_below (.ctor hp hf)
  | .relSet fs ls => leq_of_below (.relSet (leq_refl _))
  | .owner n o ps fs ls => leq_of_below (.ctorAdt (leqAll_refl ps))
  | .node n ps => leq_of_below .adtNode

theorem leqAll_of_subAll {as bs : List Ty} : SubAll as bs → leqAll as bs = true
  | .nil => rfl
  | .cons h hs => by simp [leqAll, leq_of_sub h, leqAll_of_subAll hs]

end

/-- **The order decides derivability**, for all types; in particular it is transitive. -/
theorem leq_iff_sub (a b : Ty) :
    (leq a b = true ↔ Sub a b) ∧
      ∀ c, leq a b = true → leq b c = true → leq a c = true :=
  ⟨⟨sub_of_leq a, leq_of_sub⟩, fun _ hab hbc => leq_trans a hab hbc⟩

end ValueLattice.Ty

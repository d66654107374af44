import Mathlib.Data.List.Forall2
import ValueLattice.Ty.Order
/-!
# The order of types is a preorder

The order is computed by recursion on the left type, with the aliases of the right type
stripped as they are met. `Below` says the same rule by rule: one rule for each pair of shapes
that may stand in the order, both sides without an alias at the head. Every later fact about the
order is read off these rules and the two laws proved from them here.

* `leq_iff_below`: the order is `Below` of the two stripped types;
* `leq_refl`, `leq_trans`: the order is reflexive and transitive, and so it is on rows
  (`leqAll_refl`, `leqAll_trans`);
* `comparable_comm`, `comparable_map`: comparability, and what it says of composite types.

There is no rule of transitivity, so `leq_trans` is by induction on the first of the three types:
a rule between the first two and a rule between the last two compose to a rule, by transitivity
at the parts of the first.
-/

namespace ValueLattice.Ty

/-! ## Shapes in order -/

/-- The rules of the order for two types without an alias at the head. -/
inductive Below : Ty → Ty → Prop
  | bottom (b : Ty) : Below void b
  | top (a : Ty) : Below a value
  | bool : Below bool bool
  | int : Below int int
  | double : Below double double
  | str : Below str str
  | loc : Below loc loc
  | range : Below range range
  | node : Below node node
  | param (n : String) : Below (param n) (param n)
  | list {e f : Ty} (h : leq e f = true) : Below (list e) (list f)
  | set {e f : Ty} (h : leq e f = true) : Below (set e) (set f)
  | map {k l v w : Ty} (hk : leq k l = true) (hv : leq v w = true) : Below (map k v) (map l w)
  | tuple {fs gs : List Ty} {ls ms : Option (List String)} (h : leqAll fs gs = true) :
    Below (tuple fs ls) (tuple gs ms)
  | rel {fs gs : List Ty} {ls ms : Option (List String)} (h : leqAll fs gs = true) :
    Below (rel fs ls) (rel gs ms)
  /-- A relation is a set of its tuples. -/
  | relSet {fs : List Ty} {ls : Option (List String)} {f : Ty} (h : leq (.tuple fs ls) f = true) :
    Below (rel fs ls) (set f)
  | adt {n : String} {ps qs : List Ty} (h : leqAll ps qs = true) : Below (adt n ps) (adt n qs)
  | adtNode {n : String} {ps : List Ty} : Below (adt n ps) node
  | ctor {n o : String} {ps qs fs gs : List Ty} {ls ms : Option (List String)}
    (hp : leqAll ps qs = true) (hf : leqAll fs gs = true) :
    Below (ctor n o ps fs ls) (ctor n o qs gs ms)
  /-- A constructor is below the abstract data type that owns it. -/
  | ctorAdt {n o : String} {ps qs fs : List Ty} {ls : Option (List String)}
    (h : leqAll ps qs = true) : Below (ctor n o ps fs ls) (adt o qs)
  | ctorNode {n o : String} {ps fs : List Ty} {ls : Option (List String)} :
    Below (ctor n o ps fs ls) node

theorem leq_of_below {a b : Ty} (h : Below a b) : leq a b = true := by
  cases h with
  | bottom => simp [leq]
  | top => exact leq_value a
  | relSet h =>
    rw [leq] at h
    simpa [leq, strip] using h
  | _ => simp_all [leq, strip]

/-- Between types without an alias at the head there are no cases in the order but its rules. -/
theorem below_of_leq {a b : Ty} (ha : ∀ n t, a ≠ named n t) (hb : ∀ n t, b ≠ named n t)
    (h : leq a b = true) : Below a b := by
  cases a with
  | void => exact .bottom b
  | named n t => exact absurd rfl (ha n t)
  | list e =>
    cases b <;> simp [leq, strip] at h hb
    case value => exact .top _
    case list => exact .list h
  | set e =>
    cases b <;> simp [leq, strip] at h hb
    case value => exact .top _
    case set => exact .set h
  | map k v =>
    cases b <;> simp [leq, strip] at h hb
    case value => exact .top _
    case map => exact .map h.1 h.2
  | tuple fs ls =>
    cases b <;> simp [leq, strip] at h hb
    case value => exact .top _
    case tuple => exact .tuple h
  | rel fs ls =>
    cases b <;> simp only [leq, strip, Bool.false_eq_true] at h hb
    case value => exact .top _
    case rel => exact .rel h
    case set => exact .relSet (by rw [leq]; exact h)
    case named => exact absurd rfl (hb _ _)
  | adt n ps =>
    cases b <;> simp [leq, strip] at h hb
    case value => exact .top _
    case node => exact .adtNode
    case adt =>
      obtain ⟨rfl, h⟩ := h
      exact .adt h
  | ctor n o ps fs ls =>
    cases b <;> simp [leq, strip] at h hb
    case value => exact .top _
    case node => exact .ctorNode
    case adt =>
      obtain ⟨rfl, h⟩ := h
      exact .ctorAdt h
    case ctor =>
      obtain ⟨⟨⟨rfl, rfl⟩, hp⟩, hf⟩ := h
      exact .ctor hp hf
  | param n =>
    cases b <;> simp [leq, strip] at h hb
    case value => exact .top _
    case param => exact h ▸ .param n
  | _ =>
    cases b <;> simp [leq, strip] at h hb
    all_goals constructor

/-- The order of two types is that of the shapes below their aliases. -/
theorem leq_iff_below (a b : Ty) : leq a b = true ↔ Below a.strip b.strip := by
  rw [← leq_strip_left, ← leq_strip_right]
  exact ⟨below_of_leq (strip_ne_named a) (strip_ne_named b), leq_of_below⟩

/-! ## Reflexivity -/

/-- An alias on the right is looked through. -/
theorem leq_named (a : Ty) (n : String) (t : Ty) : leq a (named n t) = leq a t := by
  rw [← leq_strip_right, strip_named, leq_strip_right]

mutual

theorem leq_refl (a : Ty) : leq a a = true := by
  cases a with
  | void => simp [leq]
  | named n t => exact (leq_named t n t).trans (leq_refl t)
  | list e => exact leq_of_below (.list (leq_refl e))
  | set e => exact leq_of_below (.set (leq_refl e))
  | map k v => exact leq_of_below (.map (leq_refl k) (leq_refl v))
  | tuple fs ls => exact leq_of_below (.tuple (leqAll_refl fs))
  | rel fs ls => exact leq_of_below (.rel (leqAll_refl fs))
  | adt n ps => exact leq_of_below (.adt (leqAll_refl ps))
  | ctor n o ps fs ls => exact leq_of_below (.ctor (leqAll_refl ps) (leqAll_refl fs))
  | value => exact leq_value value
  | _ => exact leq_of_below (by constructor)

theorem leqAll_refl (as : List Ty) : leqAll as as = true := by
  cases as with
  | nil => rfl
  | cons a as => simp [leqAll, leq_refl a, leqAll_refl as]

end

/-! ## Transitivity -/

theorem Below.eq_value {c : Ty} (h : Below value c) : c = value := by
  cases h; rfl

/-- Transitivity is that of the rules, with no alias at any head. -/
theorem leq_of_below_trans {a b c : Ty} (hab : leq a b = true) (hbc : leq b c = true)
    (h : ∀ b' c', Below a.strip b' → Below b' c' → Below a.strip c') : leq a c = true := by
  rw [leq_iff_below] at hab hbc ⊢
  exact h b.strip c.strip hab hbc

/-- Transitivity at tuples, given that of their rows. It serves relations too, which are below
sets by their tuples. -/
theorem leq_trans_tuple {fs : List Ty} {ls : Option (List String)} {b c : Ty}
    (ih : ∀ {gs hs : List Ty}, leqAll fs gs = true → leqAll gs hs = true → leqAll fs hs = true)
    (hab : leq (tuple fs ls) b = true) (hbc : leq b c = true) : leq (tuple fs ls) c = true := by
  refine leq_of_below_trans hab hbc fun b c hab hbc => ?_
  cases hab with
  | top => exact hbc.eq_value ▸ .top _
  | tuple h =>
    cases hbc with
    | top => exact .top _
    | tuple h' => exact .tuple (ih h h')

mutual

theorem leq_trans (a : Ty) {b c : Ty} (hab : leq a b = true) (hbc : leq b c = true) :
    leq a c = true := by
  cases a with
  | void => simp [leq]
  | named n t => exact leq_trans t hab hbc
  | tuple fs ls => exact leq_trans_tuple (leqAll_trans fs) hab hbc
  | list e =>
    refine leq_of_below_trans hab hbc fun b c hab hbc => ?_
    cases hab with
    | top => exact hbc.eq_value ▸ .top _
    | list h =>
      cases hbc with
      | top => exact .top _
      | list h' => exact .list (leq_trans e h h')
  | set e =>
    refine leq_of_below_trans hab hbc fun b c hab hbc => ?_
    cases hab with
    | top => exact hbc.eq_value ▸ .top _
    | set h =>
      cases hbc with
      | top => exact .top _
      | set h' => exact .set (leq_trans e h h')
  | map k v =>
    refine leq_of_below_trans hab hbc fun b c hab hbc => ?_
    cases hab with
    | top => exact hbc.eq_value ▸ .top _
    | map hk hv =>
      cases hbc with
      | top => exact .top _
      | map hk' hv' => exact .map (leq_trans k hk hk') (leq_trans v hv hv')
  | rel fs ls =>
    refine leq_of_below_trans hab hbc fun b c hab hbc => ?_
    cases hab with
    | top => exact hbc.eq_value ▸ .top _
    | rel h =>
      cases hbc with
      | top => exact .top _
      | rel h' => exact .rel (leqAll_trans fs h h')
      | relSet h' => exact .relSet (leq_trans_tuple (leqAll_trans fs) (leq_of_below (.tuple h)) h')
    | relSet h =>
      cases hbc with
      | top => exact .top _
      | set h' => exact .relSet (leq_trans_tuple (leqAll_trans fs) h h')
  | adt n ps =>
    refine leq_of_below_trans hab hbc fun b c hab hbc => ?_
    cases hab with
    | top => exact hbc.eq_value ▸ .top _
    | adt h =>
      cases hbc with
      | top => exact .top _
      | adtNode => exact .adtNode
      | adt h' => exact .adt (leqAll_trans ps h h')
    | adtNode =>
      cases hbc with
      | top => exact .top _
      | node => exact .adtNode
  | ctor n o ps fs ls =>
    refine leq_of_below_trans hab hbc fun b c hab hbc => ?_
    cases hab with
    | top => exact hbc.eq_value ▸ .top _
    | ctor hp hf =>
      cases hbc with
      | top => exact .top _
      | ctorNode => exact .ctorNode
      | ctorAdt h' => exact .ctorAdt (leqAll_trans ps hp h')
      | ctor hp' hf' => exact .ctor (leqAll_trans ps hp hp') (leqAll_trans fs hf hf')
    | ctorAdt h =>
      cases hbc with
      | top => exact .top _
      | adtNode => exact .ctorNode
      | adt h' => exact .ctorAdt (leqAll_trans ps h h')
    | ctorNode =>
      cases hbc with
      | top => exact .top _
      | node => exact .ctorNode
  | _ =>
    -- nothing but itself and the top is above a shape without parts
    refine leq_of_below_trans hab hbc fun b c hab hbc => ?_
    cases hab <;> first | exact hbc | exact hbc.eq_value ▸ .top _

theorem leqAll_trans (as : List Ty) {bs cs : List Ty} (hab : leqAll as bs = true)
    (hbc : leqAll bs cs = true) : leqAll as cs = true := by
  cases as with
  | nil => cases bs <;> simp_all [leqAll]
  | cons a as =>
    cases bs with
    | nil => simp [leqAll] at hab
    | cons b bs =>
      cases cs with
      | nil => simp [leqAll] at hbc
      | cons c cs =>
        simp only [leqAll, Bool.and_eq_true] at hab hbc ⊢
        exact ⟨leq_trans a hab.1 hbc.1, leqAll_trans as hab.2 hbc.2⟩

end

/-! ## Rows -/

theorem leqAll_iff_forall₂ {as bs : List Ty} :
    leqAll as bs = true ↔ List.Forall₂ (fun a b => leq a b = true) as bs := by
  induction as generalizing bs with
  | nil => cases bs <;> simp [leqAll]
  | cons a as ih => cases bs <;> simp [leqAll, ih]

/-! ## Comparable types -/

section Comparable

variable {e f k l v w : Ty} {fs gs : List Ty} {ls ms : Option (List String)}

theorem comparable_refl (a : Ty) : a.comparable a = true := by rw [comparable, leq_refl]; rfl

theorem comparable_comm (a b : Ty) : a.comparable b = b.comparable a := Bool.or_comm _ _

theorem comparable_of_leq (h : leq a b = true) : a.comparable b = true := by
  rw [comparable, h, Bool.true_or]

theorem comparableRows_comm (as bs : List Ty) : comparableRows as bs = comparableRows bs as :=
  Bool.or_comm _ _

theorem comparable_list : (list e).comparable (list f) = e.comparable f := by
  simp [comparable, leq, strip]

theorem comparable_set : (set e).comparable (set f) = e.comparable f := by
  simp [comparable, leq, strip]

theorem comparable_tuple : (tuple fs ls).comparable (tuple gs ms) = comparableRows fs gs := by
  simp [comparable, comparableRows, leq, strip]

theorem comparable_rel : (rel fs ls).comparable (rel gs ms) = comparableRows fs gs := by
  simp [comparable, comparableRows, leq, strip]

/-- Maps need one direction for both the keys and the values. -/
theorem comparable_map :
    (map k v).comparable (map l w) = (leq k l && leq v w || leq l k && leq w v) := by
  simp [comparable, leq, strip]

end Comparable

end ValueLattice.Ty

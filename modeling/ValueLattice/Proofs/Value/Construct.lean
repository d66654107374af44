import ValueLattice.Construct
import ValueLattice.Proofs.Ty.Principal
/-!
# Constructed nodes have the least type that fits

A constructor with type parameters is instantiated before a node of it is built: its fields are
matched against the types of the children, and then each child is checked against the
instantiated field. The two phases agree. Where any substitution makes the fields large enough
for the children, the match finds the least one and the check passes; where there is none, the
construction fails.

* `Subst.Suits`: a substitution makes the fields large enough for the children;
* `Subst.Matched`, `exists_matched`: the bindings that the match of the fields leaves;
* `returns_construct_iff`: both phases together;
* `construct_principal`: success, the least type, and closed types.
-/

namespace ValueLattice

open Ty

/-! ## Bindings at the start -/

theorem Assoc.get?_foldl_insert {κ ν : Type} [DecidableEq κ] (es : List (κ × ν)) (m : Assoc κ ν)
    (k : κ) :
    (∀ v, (es.foldl (fun m e => m.insert e.1 e.2) m).get? k = some v →
      (k, v) ∈ es ∨ m.get? k = some v) ∧
    ((∃ v, (k, v) ∈ es) ∨ (m.get? k).isSome = true →
      ((es.foldl (fun m e => m.insert e.1 e.2) m).get? k).isSome = true) := by
  induction es generalizing m with
  | nil => simp
  | cons e es ih =>
    obtain ⟨hmem, hsome⟩ := ih (m.insert e.1 e.2)
    by_cases hk : e.1 = k
    · subst hk
      rw [get?_insert_self] at hmem hsome
      refine ⟨fun v hv => ?_, fun _ => hsome (.inr rfl)⟩
      rcases hmem v hv with h | h
      · exact .inl (List.mem_cons_of_mem e h)
      · obtain rfl := Option.some.inj h
        exact .inl List.mem_cons_self
    · rw [get?_insert_of_ne m hk] at hmem hsome
      refine ⟨fun v hv => (hmem v hv).imp_left (List.mem_cons_of_mem e), fun h => hsome ?_⟩
      refine h.imp_left ?_
      rintro ⟨v, hv⟩
      rcases List.mem_cons.1 hv with rfl | hv
      · exact absurd rfl hk
      · exact ⟨v, hv⟩

namespace Subst

variable {ps fs : List Ty} {ls : Option (List String)} {xs : List Value} {s b : Subst}
  {n : String} {u : Ty}

/-- At the start nothing is bound but to `void`. -/
theorem eq_void_of_get?_ofParams (h : (ofParams ps).get? n = some u) : u = void := by
  rcases (Assoc.get?_foldl_insert _ [] n).1 u h with h | h
  · obtain ⟨p, -, hp⟩ := List.mem_filterMap.1 h
    split at hp
    · exact (congrArg Prod.snd (Option.some.inj hp)).symm
    · nomatch hp
  · nomatch h

/-- At the start every parameter is bound that the owner has as it stands. -/
theorem get?_ofParams (h : param n ∈ ps) : (ofParams ps).get? n = some void := by
  have hsome : ((ofParams ps).get? n).isSome = true :=
    (Assoc.get?_foldl_insert _ [] n).2
      (.inl ⟨void, List.mem_filterMap.2 ⟨param n, h, rfl⟩⟩)
  obtain ⟨u, hu⟩ := Option.isSome_iff_exists.1 hsome
  rw [hu, eq_void_of_get?_ofParams hu]

theorem under_ofParams (ps : List Ty) (s : Subst) : (ofParams ps).Under s := by
  intro n u hu
  rw [eq_void_of_get?_ofParams hu, leq]

/-! ## The match of the fields -/

/-- The substitution makes each field large enough for the child at its position. -/
def Suits (s : Subst) (fs : List Ty) (xs : List Value) : Prop :=
  ∀ p ∈ xs.zip fs, p.1.ty.leq (p.2.subst s) = true

theorem leqAll_substAll_iff :
    leqAll (xs.map Value.ty) (substAll s fs) = true ↔ xs.length = fs.length ∧ s.Suits fs xs := by
  unfold Suits
  induction xs generalizing fs with
  | nil => cases fs <;> simp [substAll, leqAll]
  | cons x xs ih =>
    cases fs with
    | nil => simp [substAll, leqAll]
    | cons f fs =>
      simp only [List.map_cons, substAll, leqAll, Bool.and_eq_true, ih, List.length_cons,
        Nat.add_right_cancel_iff, List.zip_cons_cons, List.forall_mem_cons]
      tauto

/-- The match of fields with the types of children leaves the bindings `b`. -/
def Matched (ps fs : List Ty) (ls : Option (List String)) (xs : List Value) (b : Subst) : Prop :=
  Action.Returns ((tuple fs ls).matchWith (tuple (xs.map Value.ty) none)) (ofParams ps) () b

theorem returns_matchChildren : (matchChildren ps fs ls xs).Returns b ↔ Matched ps fs ls xs b := by
  unfold matchChildren Matched Action.Returns
  simp only [Checked.returns_bind, Checked.returns_logged]
  constructor
  · rintro ⟨⟨answer, bound⟩, h, hr⟩
    cases answer with
    | ok _ => exact Checked.returns_pure.1 hr ▸ h
    | error e => exact absurd hr Checked.returns_throw
  · intro h
    exact ⟨_, h, Checked.returns_pure.2 rfl⟩

/-- A substitution that suits the children lets the match succeed, below it and with fields
large enough. -/
theorem exists_matched (hl : xs.length = fs.length) (hs : s.Suits fs xs) :
    ∃ b, Matched ps fs ls xs b ∧ b.Under s ∧ b.Suits fs xs := by
  have hleq : leq (tuple (xs.map Value.ty) none) ((tuple fs ls).subst s) = true :=
    leqAll_substAll_iff.2 ⟨hl, hs⟩
  obtain ⟨b, hb, hbs, hfit⟩ := exists_match_of_leq hleq (under_ofParams ps s)
  exact ⟨b, hb, hbs, (leqAll_substAll_iff.1 hfit).2⟩

/-- The bindings that a match leaves are the least that suit the children. -/
theorem Matched.under (h : Matched ps fs ls xs b) (hl : xs.length = fs.length)
    (hs : s.Suits fs xs) : b.Under s := by
  obtain ⟨b', hb', hbs, -⟩ : ∃ b', Matched ps fs ls xs b' ∧ b'.Under s ∧ b'.Suits fs xs :=
    exists_matched hl hs
  rw [(Action.Returns.unique h hb').2]
  exact hbs

theorem Matched.steps (h : Matched ps fs ls xs b) :
    Steps (paramsAll fs) (paramsAll (xs.map Value.ty)) (ofParams ps) b := by
  have hsteps := steps_matchWith (tuple fs ls) (tuple (xs.map Value.ty) none) (ofParams ps)
  rw [Action.after_eq_of_returns h] at hsteps
  exact hsteps

end Subst

/-! ## Both phases -/

theorem checkFields_eq_ok {fs : List Ty} {xs : List Value} (hl : fs.length = xs.length) :
    checkFields fs xs = .ok () ↔ leqAll (xs.map Value.ty) fs = true := by
  induction fs generalizing xs with
  | nil =>
    rw [List.length_eq_zero_iff.1 hl.symm]
    simp [checkFields, leqAll]
  | cons f fs ih =>
    cases xs with
    | nil => simp at hl
    | cons x xs =>
      simp only [checkFields, List.map_cons, leqAll, Bool.and_eq_true, ← ih (Nat.succ.inj hl)]
      split <;> simp_all

variable {c : Nat} {t : Ty} {name owner : String} {ps fs : List Ty} {ls : Option (List String)}
  {xs : List Value} {m : Node}

theorem Node.ofCtor_eq_ok (ht : t.strip = ctor name owner ps fs ls) :
    Node.ofCtor c t xs = .ok m ↔ leqAll (xs.map Value.ty) fs = true ∧
      m = ⟨ctor name owner ps fs ls, name, c, xs, Node.noAnnos, []⟩ := by
  unfold Node.ofCtor
  simp only [ht]
  split
  · next hl =>
    rw [bind_eq_ok, ← checkFields_eq_ok hl]
    constructor
    · rintro ⟨⟨⟩, hc, h⟩
      exact ⟨hc, (pure_eq_ok.1 h).symm⟩
    · rintro ⟨hc, rfl⟩
      exact ⟨(), hc, rfl⟩
  · next hl =>
    refine ⟨nofun, fun h => absurd ?_ hl⟩
    simpa using (leqAll_length h.1).symm

/-- A construction succeeds if the children fit the instantiated fields, also where the
constructor has no parameter and nothing is matched. -/
theorem returns_construct_iff (ht : t.strip = ctor name owner ps fs ls) :
    (construct c t xs).Returns m ↔ ∃ b, Subst.Matched ps fs ls xs b ∧ xs.length = fs.length ∧
      b.Suits fs xs ∧
      m = ⟨(ctor name owner ps fs ls).subst b, name, c, xs, Node.noAnnos, []⟩ := by
  unfold construct
  simp only [ht]
  split
  · simp only [Checked.returns_bind, Checked.returns_except, Subst.returns_matchChildren]
    refine exists_congr fun b => and_congr_right fun _ => ?_
    rw [Node.ofCtor_eq_ok ((strip_subst_of_ctor ht).trans (by rw [subst])), ← and_assoc,
      Subst.leqAll_substAll_iff, subst]
  · next ho =>
    rw [Bool.not_eq_true, ← isOpen_strip, ht] at ho
    have hctor (b : Subst) : (ctor name owner ps fs ls).subst b = ctor name owner ps fs ls :=
      subst_of_closed b _ ho
    have hfs (b : Subst) : substAll b fs = fs :=
      substAll_of_closed b fs (Bool.or_eq_false_iff.1 ho).2
    rw [Checked.returns_except, Node.ofCtor_eq_ok ht]
    constructor
    · rintro ⟨hleq, hm⟩
      rw [← hfs [], Subst.leqAll_substAll_iff] at hleq
      obtain ⟨b, hb, -, hsuits⟩ := Subst.exists_matched hleq.1 hleq.2
      exact ⟨b, hb, hleq.1, hsuits, (hctor b).symm ▸ hm⟩
    · rintro ⟨b, -, hl, hsuits, hm⟩
      have hleq : leqAll (xs.map Value.ty) (substAll b fs) = true :=
        Subst.leqAll_substAll_iff.2 ⟨hl, hsuits⟩
      exact ⟨hfs b ▸ hleq, hctor b ▸ hm⟩

/-! ## The least type -/

variable {b s : Subst} {n : String}

theorem Subst.Matched.exists_get? (h : Matched ps fs ls xs b) (hn : param n ∈ ps) :
    ∃ u, b.get? n = some u := by
  refine Option.isSome_iff_exists.1 (h.steps.bound ?_)
  rw [get?_ofParams hn, Option.isSome_some]

/-- A parameter of the owner is bound to `void` itself where that suits the children. -/
theorem Subst.Matched.get?_eq_void (h : Matched ps fs ls xs b) (hl : xs.length = fs.length)
    (hn : param n ∈ ps) (hs : s.Suits fs xs) (hsn : s.get? n = some void) :
    b.get? n = some void := by
  obtain ⟨u, hu⟩ := h.exists_get? hn
  have huv : u.leq void = true := by
    rw [← subst_param_of_get? hsn]
    exact h.under hl hs n u hu
  have hvoid : u.isVoid = true := isVoid_of_leq huv rfl
  rw [hu, h.steps.eq_void (fun m w hw _ => eq_void_of_get?_ofParams hw) n u hu hvoid]

/-- Types of children without parameters leave none in a constructor whose parameters are all
parameters of the owner. -/
theorem Subst.Matched.isOpen_subst (h : Matched ps fs ls xs b) (hp : ∀ n ∈ t.params, param n ∈ ps)
    (hx : ∀ x ∈ xs, x.ty.isOpen = false) : (t.subst b).isOpen = false := by
  have hempty : paramsAll (xs.map Value.ty) = [] := by
    rw [← anyOpen_eq_false_iff]
    clear h
    induction xs with
    | nil => rfl
    | cons x xs ih =>
      obtain ⟨hx, hxs⟩ := List.forall_mem_cons.1 hx
      simp [anyOpen, hx, ih hxs]
  rw [isOpen_eq_false_iff, List.eq_nil_iff_forall_not_mem]
  intro m hm
  obtain ⟨n, hn, hmn⟩ := mem_params_subst b t hm
  obtain ⟨u, hu⟩ := h.exists_get? (hp n hn)
  have hsub : u.params ⊆ paramsAll (xs.map Value.ty) := by
    refine h.steps.params_subset (fun k w hw => ?_) n u hu
    rw [eq_void_of_get?_ofParams hw]
    exact List.nil_subset _
  rw [subst_param_of_get? hu] at hmn
  rw [hempty] at hsub
  nomatch hsub hmn

/-- **A constructor is instantiated principally.** A node of it is built exactly if the children
are as many as its fields and some substitution makes the fields large enough for them. Its type
is then the constructor under the least such substitution. That binds each parameter of the owner,
and to `void` where the children do not constrain it: where no field has the parameter, or where
`void` suits the children. The type is closed if all parameters of the constructor are parameters
of its owner and the types of the children are closed. -/
theorem construct_principal (c : Nat) (t : Ty) (name owner : String) (ps fs : List Ty)
    (ls : Option (List String)) (xs : List Value) (ht : t.strip = ctor name owner ps fs ls) :
    ((∃ m, (construct c t xs).Returns m) ↔
      xs.length = fs.length ∧ ∃ s : Subst, s.Suits fs xs) ∧
    ∀ m, (construct c t xs).Returns m → ∃ b : Subst,
      m = ⟨t.strip.subst b, name, c, xs, Node.noAnnos, []⟩ ∧
      b.Suits fs xs ∧ (∀ s : Subst, s.Suits fs xs → b.Under s) ∧
      (∀ n, param n ∈ ps → (∃ u, b.get? n = some u) ∧
        (n ∉ paramsAll fs ∨ (∃ s : Subst, s.Suits fs xs ∧ s.get? n = some void) →
          b.get? n = some void)) ∧
      ((∀ n ∈ t.params, param n ∈ ps) → (∀ x ∈ xs, x.ty.isOpen = false) →
        m.ty.isOpen = false) := by
  constructor
  · constructor
    · rintro ⟨m, hm⟩
      obtain ⟨b, -, hl, hsuits, -⟩ := (returns_construct_iff ht).1 hm
      exact ⟨hl, b, hsuits⟩
    · rintro ⟨hl, s, hs⟩
      obtain ⟨b, hb, -, hsuits⟩ := Subst.exists_matched hl hs
      exact ⟨_, (returns_construct_iff ht).2 ⟨b, hb, hl, hsuits, rfl⟩⟩
  · intro m hm
    obtain ⟨b, hb, hl, hsuits, rfl⟩ := (returns_construct_iff ht).1 hm
    refine ⟨b, by rw [ht], hsuits, fun s hs => hb.under hl hs, fun n hn => ⟨?_, ?_⟩, ?_⟩
    · exact hb.exists_get? hn
    · rintro (hfree | ⟨s, hs, hsn⟩)
      · rw [hb.steps.get?_eq hfree, Subst.get?_ofParams hn]
      · exact hb.get?_eq_void hl hn hs hsn
    · intro hp hx
      rw [← params_strip, ht] at hp
      exact hb.isOpen_subst hp hx

/-- A pair of two values of one type, with a second parameter that no field has. -/
def taggedPair : Ty :=
  named "P" (ctor "pair" "Pair" [param "A", param "B"] [param "A", param "A"] none)

/-- A number and a text make a pair: its first parameter is the top, its second is `void`. -/
theorem construct_taggedPair :
    taggedPair.strip = ctor "pair" "Pair" [param "A", param "B"] [param "A", param "A"] none ∧
    (∃ m, (construct 0 taggedPair [.int 1, .str "a"]).Returns m) ∧
    ∀ m, (construct 0 taggedPair [.int 1, .str "a"]).Returns m → m.ty.isOpen = false ∧
      ∃ b : Subst, m.ty = taggedPair.strip.subst b ∧ b.Under [("A", value)] ∧
        b.get? "B" = some void := by
  have hsuits : Subst.Suits [("A", value)] [param "A", param "A"] [.int 1, .str "a"] := by
    unfold Subst.Suits
    decide
  obtain ⟨hiff, hleast⟩ := construct_principal 0 taggedPair "pair" "Pair" [param "A", param "B"]
    [param "A", param "A"] none [.int 1, .str "a"] rfl
  refine ⟨rfl, hiff.2 ⟨rfl, _, hsuits⟩, fun m hm => ?_⟩
  obtain ⟨b, hb, -, hunder, hvoid, hclosed⟩ := hleast m hm
  refine ⟨hclosed (by decide) (by simp [Value.ty, isOpen]), b, ?_, hunder _ hsuits, ?_⟩
  · rw [hb]
  · exact (hvoid "B" (by decide)).2 (.inl (by decide))

end ValueLattice

import ValueLattice.Ty.Matching
import ValueLattice.Proofs.Computation
import ValueLattice.Proofs.Ty.Join
/-!
# What a match establishes

A match of a type with an actual type walks through both at once and widens the bindings of the
parameters that it meets. Its answer is compared here with the order of types: the actual type
against the type instantiated with the bindings that the match leaves.

A parameter may be met again after a part of the type has been matched, and its binding then
grows. What is known of a part therefore has to hold of all wider bindings, not just of those
that its own match leaves (`Meets.leq_iff`).

The walk and the order differ at one place. The order relates constructors of one owner only,
while the match compares their names, and constructors of different owners may have the same
name. `ownersAgree` says that this does not happen.

* `Subst.Widens`: bindings that grow;
* `meets_of_matchWith`, `meetsAll_of_matchAll`: what a match and a match of rows establish;
* `leq_subst_iff_ownersAgree`: after a match the order holds exactly if the owners agree.
-/

namespace ValueLattice

/-! ## Wider bindings -/

/-- Every binding of `s` is below one in `s'`. -/
def Subst.Widens (s s' : Subst) : Prop :=
  ∀ n t, s.get? n = some t → ∃ u, s'.get? n = some u ∧ t.leq u = true

namespace Subst

variable {s s' s'' : Subst}

theorem Widens.refl (s : Subst) : s.Widens s := fun _ t h => ⟨t, h, Ty.leq_refl t⟩

theorem Widens.trans (h : s.Widens s') (h' : s'.Widens s'') : s.Widens s'' := by
  intro n t ht
  obtain ⟨u, hu, htu⟩ := h n t ht
  obtain ⟨v, hv, huv⟩ := h' n u hu
  exact ⟨v, hv, Ty.leq_trans t htu huv⟩

theorem widens_insert {n : String} {t : Ty} (h : ∀ u, s.get? n = some u → u.leq t = true) :
    s.Widens (s.insert n t) := by
  intro m u hu
  by_cases hnm : n = m
  · subst hnm
    exact ⟨t, Assoc.get?_insert_self s n t, h u hu⟩
  · exact ⟨u, (Assoc.get?_insert_of_ne s hnm t).trans hu, Ty.leq_refl u⟩

/-- Binding a parameter widens the bindings, and bounds the type that it is bound for. -/
theorem widens_of_widen {n : String} {t : Ty} (h : Action.Returns (widen n t) s () s') :
    s.Widens s' ∧ ∃ u, s'.get? n = some u ∧ t.leq u = true := by
  obtain ⟨r, r', hget, h⟩ := Action.returns_bind.1 h
  obtain ⟨rfl, rfl⟩ := Action.returns_get.1 hget
  split at h
  · next hn =>
    rw [← Action.returns_set.1 h]
    refine ⟨widens_insert fun u hu => ?_, t, Assoc.get?_insert_self s n t, Ty.leq_refl t⟩
    rw [hn] at hu
    cases hu
  · next u hn =>
    obtain ⟨j, r, hj, h⟩ := Action.returns_bind.1 h
    obtain ⟨hval, rfl⟩ := Action.returns_logged.1 hj
    have hjoin : Ty.IsJoin u t j := by
      rw [← hval]
      exact Ty.isJoin_lub u t
    rw [← Action.returns_set.1 h]
    refine ⟨widens_insert fun w hw => ?_, j, Assoc.get?_insert_self s n j, hjoin.right⟩
    rw [hn] at hw
    obtain rfl := Option.some.inj hw
    exact hjoin.left

end Subst

namespace Ty

/-! ## Types without parameters -/

mutual

theorem subst_of_closed (s : Subst) (t : Ty) (h : t.isOpen = false) : t.subst s = t := by
  cases t <;> simp only [isOpen, Bool.or_eq_false_iff, Bool.true_eq_false] at h
  case list e => rw [subst, subst_of_closed s e h]
  case set e => rw [subst, subst_of_closed s e h]
  case rel fs ls => rw [subst, substAll_of_closed s fs h]
  case map k v => rw [subst, subst_of_closed s k h.1, subst_of_closed s v h.2]
  case tuple fs ls => rw [subst, substAll_of_closed s fs h]
  case named n t => rw [subst, subst_of_closed s t h]
  case adt n ps => rw [subst, substAll_of_closed s ps h]
  case ctor n o ps fs ls => rw [subst, substAll_of_closed s ps h.1, substAll_of_closed s fs h.2]
  all_goals rfl

theorem substAll_of_closed (s : Subst) (ts : List Ty) (h : anyOpen ts = false) :
    substAll s ts = ts := by
  cases ts with
  | nil => rfl
  | cons t ts =>
    rw [anyOpen, Bool.or_eq_false_iff] at h
    rw [substAll, subst_of_closed s t h.1, substAll_of_closed s ts h.2]

end

/-! ## Owners -/

mutual

/-- Whether constructors that face each other in a type and an actual type have the same
owner. -/
def ownersAgree : Ty → Ty → Bool
  | named _ t, a => ownersAgree t a
  | list e, a =>
    match a.strip with
    | list f => ownersAgree e f
    | _ => true
  | set e, a =>
    match a.strip with
    | set f => ownersAgree e f
    | rel gs ls => ownersAgree e (tuple gs ls)
    | _ => true
  | map k v, a =>
    match a.strip with
    | map l w => ownersAgree k l && ownersAgree v w
    | _ => true
  | tuple fs _, a =>
    match a.strip with
    | tuple gs _ => ownersAgreeAll fs gs
    | _ => true
  | rel fs _, a =>
    match a.strip with
    | rel gs _ => ownersAgreeAll fs gs
    | _ => true
  | adt _ ps, a =>
    match a.strip with
    | adt _ qs | ctor _ _ qs _ _ => ownersAgreeAll ps qs
    | _ => true
  | ctor _ o ps fs _, a =>
    match a.strip with
    | ctor _ p qs gs _ => decide (o = p) && ownersAgreeAll ps qs && ownersAgreeAll fs gs
    | _ => true
  | _, _ => true

/-- Whether constructors that face each other in two rows have the same owner. -/
def ownersAgreeAll : List Ty → List Ty → Bool
  | t :: ts, a :: as => ownersAgree t a && ownersAgreeAll ts as
  | _, _ => true

end

/-! ## Matches -/

/-- What a match of `t` with `a` establishes that turns the bindings `s` into `b`. -/
structure Meets (t a : Ty) (s b : Subst) : Prop where
  widens : s.Widens b
  leq_iff : ∀ b', b.Widens b' → (leq a (t.subst b') = true ↔ ownersAgree t a = true)

/-- What a match of the rows `ts` and `as` establishes that turns the bindings `s` into `b`. -/
structure MeetsAll (ts as : List Ty) (s b : Subst) : Prop where
  widens : s.Widens b
  leq_iff : ∀ b', b.Widens b' → (leqAll as (substAll b' ts) = true ↔ ownersAgreeAll ts as = true)

variable {t a c : Ty} {ts as ps qs fs gs : List Ty} {s r b : Subst} {n : String}

theorem leq_of_strip_eq (h : a.strip = c) (d : Ty) : leq a d = leq c d := by
  rw [← leq_strip_left, h]

theorem ownersAgree_of_void (t : Ty) (ha : a.strip = void) : ownersAgree t a = true := by
  cases t with
  | named n t => exact ownersAgree_of_void t ha
  | _ => simp [ownersAgree, ha]

theorem meets_of_void (t : Ty) (ha : a.strip = void) (s : Subst) : Meets t a s s := by
  refine ⟨.refl s, fun b' _ => ?_⟩
  rw [leq_of_strip_eq ha, ownersAgree_of_void t ha]
  simp [leq]

theorem isVoid_iff : a.isVoid = true ↔ a.strip = void := by
  unfold isVoid
  split <;> simp_all

theorem matchWith_of_isVoid (t : Ty) (ha : a.isVoid = true) : t.matchWith a = return () := by
  cases t <;> simp [matchWith, ha]

theorem matchBelow_returns (h : Action.Returns (matchBelow t a) s () b) :
    t.isOpen = false ∧ leq a t = true ∧ s = b := by
  unfold matchBelow at h
  split at h
  · next hc =>
    simp only [Bool.and_eq_true, Bool.not_eq_true'] at hc
    exact ⟨hc.1, hc.2, (Action.returns_pure.1 h).2⟩
  · exact absurd h Action.returns_throw

theorem matchCounts_returns {site : Site} {i j : Nat}
    (h : Action.Returns (matchCounts site i j) s () b) : i = j ∧ s = b := by
  unfold matchCounts at h
  split at h
  · next hc => exact ⟨hc, (Action.returns_pure.1 h).2⟩
  · exact absurd h Action.returns_throw

theorem meets_of_matchBelow (h : Action.Returns (matchBelow t a) s () b)
    (ho : ownersAgree t a = true) : Meets t a s b := by
  obtain ⟨hclosed, hleq, rfl⟩ := matchBelow_returns h
  refine ⟨.refl s, fun b' _ => ?_⟩
  rw [subst_of_closed b' t hclosed, hleq, ho]

theorem meets_param (h : Action.Returns (Subst.widen n a) s () b) : Meets (param n) a s b := by
  obtain ⟨hw, u, hu, hau⟩ := Subst.widens_of_widen h
  refine ⟨hw, fun b' hb => ?_⟩
  obtain ⟨w, hwb, huw⟩ := hb n u hu
  have haw : leq a w = true := leq_trans a hau huw
  simp [subst, hwb, haw, ownersAgree]

theorem leq_rel_set (fs : List Ty) (ls : Option (List String)) (f : Ty) :
    leq (rel fs ls) (set f) = leq (tuple fs ls) f := by
  rw [leq, leq]
  simp [strip]

/-- Rows are matched after their lengths have been compared. -/
theorem meetsAll_of_counts {site : Site}
    (ih : ∀ gs s b, fs.length = gs.length → Action.Returns (matchAll fs gs) s () b →
      MeetsAll fs gs s b)
    (h : Action.Returns (do matchCounts site fs.length gs.length; matchAll fs gs) s () b) :
    MeetsAll fs gs s b := by
  obtain ⟨⟨⟩, r, hc, h⟩ := Action.returns_bind.1 h
  obtain ⟨hl, rfl⟩ := matchCounts_returns hc
  exact ih gs s b hl h

/-- Abstract data types and constructors are matched with an abstract data type alike. -/
theorem meets_adt {m : String} (hleq : ∀ rs, leq a (adt n rs) = (decide (m = n) && leqAll qs rs))
    (ho : ownersAgree (adt n ps) a = ownersAgreeAll ps qs)
    (ih : ∀ qs s b, ps.length = qs.length → Action.Returns (matchAll ps qs) s () b →
      MeetsAll ps qs s b)
    (h : Action.Returns (if n = m then do
        matchCounts .typeParams ps.length qs.length
        matchAll ps qs
      else matchBelow (adt n ps) a) s () b) : Meets (adt n ps) a s b := by
  split at h
  · next hnm =>
    have hall : MeetsAll ps qs s b := meetsAll_of_counts ih h
    refine ⟨hall.widens, fun b' hb => ?_⟩
    rw [subst, hleq, ho, decide_eq_true hnm.symm, Bool.true_and]
    exact hall.leq_iff b' hb
  · next hnm =>
    obtain ⟨-, hbelow, -⟩ := matchBelow_returns h
    rw [hleq, decide_eq_false fun hmn => hnm hmn.symm] at hbelow
    nomatch hbelow

/-- Constructors of one name are matched at the parameters of their owners and at their fields,
whoever the owners are. -/
theorem meets_ctor {m o p : String} {ls ms : Option (List String)}
    (ha : a.strip = ctor m p qs gs ms)
    (ihp : ∀ qs s b, ps.length = qs.length → Action.Returns (matchAll ps qs) s () b →
      MeetsAll ps qs s b)
    (ihf : ∀ gs s b, fs.length = gs.length → Action.Returns (matchAll fs gs) s () b →
      MeetsAll fs gs s b)
    (h : Action.Returns (if n = m then do
        matchCounts .typeParams ps.length qs.length
        matchAll ps qs
        matchCounts .fieldTypes fs.length gs.length
        matchAll fs gs
      else matchBelow (ctor n o ps fs ls) a) s () b) : Meets (ctor n o ps fs ls) a s b := by
  split at h
  · next hnm =>
    rw [← bind_assoc] at h
    obtain ⟨⟨⟩, r, hps, hfs⟩ := Action.returns_bind.1 h
    have hp : MeetsAll ps qs s r := meetsAll_of_counts ihp hps
    have hf : MeetsAll fs gs r b := meetsAll_of_counts ihf hfs
    refine ⟨hp.widens.trans hf.widens, fun b' hb => ?_⟩
    simp only [leq_of_strip_eq ha, ownersAgree, ha, leq, strip, subst, Bool.and_eq_true,
      decide_eq_true_eq, hnm, true_and, @eq_comm _ p o, hp.leq_iff b' (hf.widens.trans hb),
      hf.leq_iff b' hb]
  · next hnm =>
    obtain ⟨-, hbelow, -⟩ := matchBelow_returns h
    simp only [leq_of_strip_eq ha, leq, strip, Bool.and_eq_true, decide_eq_true_eq] at hbelow
    exact absurd hbelow.1.1.1.symm hnm

mutual

theorem meets_of_matchWith (t a : Ty) {s b : Subst} (h : Action.Returns (t.matchWith a) s () b) :
    Meets t a s b := by
  by_cases hv : a.isVoid = true
  · rw [matchWith_of_isVoid t hv, Action.returns_pure] at h
    rw [← h.2]
    exact meets_of_void t (isVoid_iff.1 hv) s
  · cases t with
    | param n =>
      rw [matchWith, if_neg hv] at h
      exact meets_param h
    | named n t =>
      rw [matchWith, if_neg hv] at h
      have ih : Meets t a s b := meets_of_matchWith t a h
      refine ⟨ih.widens, fun b' hb => ?_⟩
      rw [subst, leq_named, ownersAgree]
      exact ih.leq_iff b' hb
    | list e =>
      rw [matchWith, if_neg hv] at h
      split at h
      · next f hf =>
        have ih : Meets e f s b := meets_of_matchWith e f h
        refine ⟨ih.widens, fun b' hb => ?_⟩
        simpa [leq_of_strip_eq hf, ownersAgree, hf, leq, strip, subst] using ih.leq_iff b' hb
      · exact meets_of_matchBelow h (by simp [ownersAgree])
    | set e =>
      rw [matchWith, if_neg hv] at h
      split at h
      · next f hf =>
        have ih : Meets e f s b := meets_of_matchWith e f h
        refine ⟨ih.widens, fun b' hb => ?_⟩
        simpa [leq_of_strip_eq hf, ownersAgree, hf, leq, strip, subst] using ih.leq_iff b' hb
      · next gs ls hg =>
        have ih : Meets e (tuple gs ls) s b := meets_of_matchWith e (tuple gs ls) h
        refine ⟨ih.widens, fun b' hb => ?_⟩
        rw [leq_of_strip_eq hg, subst, leq_rel_set]
        simpa [ownersAgree, hg] using ih.leq_iff b' hb
      · exact meets_of_matchBelow h (by simp [ownersAgree])
    | map k v =>
      rw [matchWith, if_neg hv] at h
      split at h
      · next l w ha =>
        obtain ⟨⟨⟩, r, hk, hw⟩ := Action.returns_bind.1 h
        have ihk : Meets k l s r := meets_of_matchWith k l hk
        have ihv : Meets v w r b := meets_of_matchWith v w hw
        refine ⟨ihk.widens.trans ihv.widens, fun b' hb => ?_⟩
        simp only [leq_of_strip_eq ha, ownersAgree, ha, leq, strip, subst, Bool.and_eq_true,
          ihk.leq_iff b' (ihv.widens.trans hb), ihv.leq_iff b' hb]
      · exact meets_of_matchBelow h (by simp [ownersAgree])
    | tuple fs ls =>
      rw [matchWith, if_neg hv] at h
      split at h
      · next gs ms hg =>
        have ih : MeetsAll fs gs s b := meetsAll_of_counts (meetsAll_of_matchAll fs) h
        refine ⟨ih.widens, fun b' hb => ?_⟩
        simpa [leq_of_strip_eq hg, ownersAgree, hg, leq, strip, subst] using ih.leq_iff b' hb
      · exact meets_of_matchBelow h (by simp [ownersAgree])
    | rel fs ls =>
      rw [matchWith, if_neg hv] at h
      split at h
      · next gs ms hg =>
        have ih : MeetsAll fs gs s b := meetsAll_of_counts (meetsAll_of_matchAll fs) h
        refine ⟨ih.widens, fun b' hb => ?_⟩
        simpa [leq_of_strip_eq hg, ownersAgree, hg, leq, strip, subst] using ih.leq_iff b' hb
      · exact meets_of_matchBelow h (by simp [ownersAgree])
    | adt n ps =>
      rw [matchWith, if_neg hv] at h
      split at h
      · next m qs ha =>
        refine meets_adt (fun rs => ?_) (by simp [ownersAgree, ha]) (meetsAll_of_matchAll ps) h
        simp [leq_of_strip_eq ha, leq, strip]
      · next k m qs gs ls ha =>
        refine meets_adt (fun rs => ?_) (by simp [ownersAgree, ha]) (meetsAll_of_matchAll ps) h
        simp [leq_of_strip_eq ha, leq, strip]
      · exact meets_of_matchBelow h (by simp [ownersAgree])
    | ctor n o ps fs ls =>
      rw [matchWith, if_neg hv] at h
      split at h
      · next m p qs gs ms ha =>
        exact meets_ctor ha (meetsAll_of_matchAll ps) (meetsAll_of_matchAll fs) h
      · exact meets_of_matchBelow h (by simp [ownersAgree])
    | _ =>
      simp only [matchWith, if_neg hv] at h
      exact meets_of_matchBelow h (by simp [ownersAgree])

theorem meetsAll_of_matchAll (ts as : List Ty) (s b : Subst) (hl : ts.length = as.length)
    (h : Action.Returns (matchAll ts as) s () b) : MeetsAll ts as s b := by
  cases ts with
  | nil =>
    cases as with
    | nil =>
      simp only [matchAll, Action.returns_pure] at h
      rw [← h.2]
      exact ⟨.refl s, fun _ _ => by simp [substAll, leqAll, ownersAgreeAll]⟩
    | cons a as => simp at hl
  | cons t ts =>
    cases as with
    | nil => simp at hl
    | cons a as =>
      rw [matchAll, Action.returns_bind] at h
      obtain ⟨⟨⟩, r, ht, hts⟩ := h
      have hhead : Meets t a s r := meets_of_matchWith t a ht
      have htail : MeetsAll ts as r b := meetsAll_of_matchAll ts as r b (Nat.succ.inj hl) hts
      refine ⟨hhead.widens.trans htail.widens, fun b' hb => ?_⟩
      rw [substAll, leqAll, ownersAgreeAll, Bool.and_eq_true, Bool.and_eq_true,
        hhead.leq_iff b' (htail.widens.trans hb), htail.leq_iff b' hb]

end

/-! ## The answer of a match and the order -/

/-- **After a match, the actual type is below the instantiated type exactly if constructors that
face each other in the two have the same owner.** For a type without parameters, that is the type
itself. -/
theorem leq_subst_iff_ownersAgree (t a : Ty) (s b : Subst)
    (h : Action.Returns (t.matchWith a) s () b) :
    (leq a (t.subst b) = true ↔ ownersAgree t a = true) ∧
      (t.isOpen = false → (leq a t = true ↔ ownersAgree t a = true)) := by
  have hsubst : leq a (t.subst b) = true ↔ ownersAgree t a = true :=
    (meets_of_matchWith t a h).leq_iff b (.refl b)
  refine ⟨hsubst, fun hclosed => ?_⟩
  rw [subst_of_closed b t hclosed] at hsubst
  exact hsubst

/-- A constructor of one parameter, matched with the same constructor of integers. -/
theorem leq_subst_of_box_match :
    Action.Returns ((ctor "full" "Box" [param "A"] [param "A"] none).matchWith
      (ctor "full" "Box" [int] [int] none)) [] () [("A", int)] ∧
    leq (ctor "full" "Box" [int] [int] none)
      ((ctor "full" "Box" [param "A"] [param "A"] none).subst [("A", int)]) = true := by
  have hmatch : Action.Returns ((ctor "full" "Box" [param "A"] [param "A"] none).matchWith
      (ctor "full" "Box" [int] [int] none)) [] () [("A", int)] := rfl
  exact ⟨hmatch, (leq_subst_iff_ownersAgree _ _ _ _ hmatch).1.2 rfl⟩

/-- A constructor matches one of the same name that another abstract data type owns, and is not
below it. -/
theorem match_of_other_owner :
    Action.Returns ((ctor "leaf" "Tree" [] [] none).matchWith (ctor "leaf" "Bush" [] [] none))
      [] () [] ∧
    leq (ctor "leaf" "Bush" [] [] none) ((ctor "leaf" "Tree" [] [] none).subst []) = false :=
  ⟨rfl, rfl⟩

end Ty

end ValueLattice

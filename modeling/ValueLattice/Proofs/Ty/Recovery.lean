import ValueLattice.Proofs.Ty.Algebra
import ValueLattice.Proofs.Ty.Instances
import ValueLattice.Proofs.Ty.Principal
/-!
# Matches recover substitutions

A type that is matched with an instance of itself meets each of its parameters where the
substitution has put the image of the parameter, and nothing else. So the match succeeds, and binds
the parameters of the type to their images again, up to equivalence: an image may stand below an
alias, and the images at several occurrences are joined.

That the bindings are below the substitution is the leastness of matches. That they are above it is
shown here (`covers_of_matchWith`), by induction on the type: a parameter is bound above its image
where it is met, and what comes later only widens the binding. An image without values would be
passed over, and its parameter left unbound.

* `Subst.Covers`, `covers_of_matchWith`: a match binds every parameter above its image;
* `match_subst`: a match with an instance gives the substitution back.
-/

namespace ValueLattice

open Ty

/-! ## Instances without values -/

namespace Ty

/-- An instance has values unless the type has none, or the image of one of its parameters. -/
theorem params_eq_nil_of_isVoid_subst (t : Ty) {s : Subst}
    (hs : ∀ n ∈ t.params, ((param n).subst s).isVoid = false) (h : (t.subst s).isVoid = true) :
    t.params = [] := by
  cases t with
  | param n =>
    rw [hs n (List.mem_singleton_self n)] at h
    nomatch h
  | named n t => exact params_eq_nil_of_isVoid_subst t hs h
  | void => rfl
  | _ => nomatch h

end Ty

/-! ## Bindings above a substitution -/

namespace Subst

variable {b b' s : Subst} {ns ms : List String}

/-- Every parameter among `ns` is bound above its image under `s`. -/
def Covers (b s : Subst) (ns : List String) : Prop :=
  ∀ n ∈ ns, ∃ u, b.get? n = some u ∧ leq ((param n).subst s) u = true

/-- Wider bindings cover what the narrower ones do. -/
theorem Covers.widens (h : b.Covers s ns) (hb : b.Widens b') : b'.Covers s ns := by
  intro n hn
  obtain ⟨u, hu, hnu⟩ := h n hn
  obtain ⟨v, hv, huv⟩ := hb n u hu
  exact ⟨v, hv, leq_trans _ hnu huv⟩

theorem Covers.append (hn : b.Covers s ns) (hm : b.Covers s ms) : b.Covers s (ns ++ ms) :=
  List.forall_mem_append.2 ⟨hn, hm⟩

end Subst

namespace Ty

variable {s b₀ b : Subst}

/-- Rows are matched after their lengths have been compared. -/
theorem covers_of_counts {site : Site} {i j : Nat} {x : Action Subst Unit} {ns : List String}
    (ih : ∀ r, Action.Returns x r () b → b.Covers s ns)
    (h : Action.Returns (do matchCounts site i j; x) b₀ () b) : b.Covers s ns := by
  obtain ⟨⟨⟩, r, -, hx⟩ := Action.returns_bind.1 h
  exact ih r hx

mutual

/-- A match of a type with an instance, aliases at the head aside, binds every parameter above its
image. -/
theorem covers_of_matchWith (t a : Ty) {b₀ b : Subst}
    (hs : ∀ n ∈ t.params, ((param n).subst s).isVoid = false) (ha : a.strip = (t.subst s).strip)
    (h : Action.Returns (t.matchWith a) b₀ () b) : b.Covers s t.params := by
  by_cases hv : a.isVoid = true
  · have hvoid : (t.subst s).isVoid = true := isVoid_iff.2 (ha ▸ isVoid_iff.1 hv)
    rw [params_eq_nil_of_isVoid_subst t hs hvoid]
    exact nofun
  cases t with
  | param n =>
    rw [matchWith, if_neg hv] at h
    obtain ⟨-, u, hu, hau⟩ := Subst.widens_of_widen h
    intro m hm
    obtain rfl := List.mem_singleton.1 hm
    refine ⟨u, hu, ?_⟩
    rwa [leq_of_strip_eq ha.symm, leq_strip_left]
  | named n t =>
    rw [matchWith, if_neg hv] at h
    exact covers_of_matchWith t a hs ha h
  | list e =>
    simp only [matchWith, if_neg hv, ha, subst, strip] at h
    exact covers_of_matchWith e (e.subst s) hs rfl h
  | set e =>
    simp only [matchWith, if_neg hv, ha, subst, strip] at h
    exact covers_of_matchWith e (e.subst s) hs rfl h
  | map k v =>
    simp only [matchWith, if_neg hv, ha, subst, strip] at h
    obtain ⟨hk, hw⟩ := List.forall_mem_append.1 hs
    obtain ⟨⟨⟩, r, hkr, hvb⟩ := Action.returns_bind.1 h
    have hcover : r.Covers s k.params := covers_of_matchWith k (k.subst s) hk rfl hkr
    -- the match of the values only widens what that of the keys has bound
    exact (hcover.widens (meets_of_matchWith v _ hvb).widens).append
      (covers_of_matchWith v (v.subst s) hw rfl hvb)
  | tuple fs ls =>
    simp only [matchWith, if_neg hv, ha, subst, strip] at h
    exact covers_of_counts (fun r => covers_of_matchAll fs hs) h
  | rel fs ls =>
    simp only [matchWith, if_neg hv, ha, subst, strip] at h
    exact covers_of_counts (fun r => covers_of_matchAll fs hs) h
  | adt n ps =>
    simp only [matchWith, if_neg hv, ha, subst, strip, if_true] at h
    exact covers_of_counts (fun r => covers_of_matchAll ps hs) h
  | ctor n o ps fs ls =>
    simp only [matchWith, if_neg hv, ha, subst, strip, if_true] at h
    obtain ⟨hp, hf⟩ := List.forall_mem_append.1 hs
    rw [← bind_assoc] at h
    obtain ⟨⟨⟩, r, hpr, hfb⟩ := Action.returns_bind.1 h
    have hcover : r.Covers s (paramsAll ps) :=
      covers_of_counts (fun r => covers_of_matchAll ps hp) hpr
    have hall : MeetsAll fs (substAll s fs) r b :=
      meetsAll_of_counts (meetsAll_of_matchAll fs) hfb
    exact (hcover.widens hall.widens).append
      (covers_of_counts (fun r => covers_of_matchAll fs hf) hfb)
  | _ => exact nofun

theorem covers_of_matchAll (ts : List Ty) {b₀ b : Subst}
    (hs : ∀ n ∈ paramsAll ts, ((param n).subst s).isVoid = false)
    (h : Action.Returns (matchAll ts (substAll s ts)) b₀ () b) : b.Covers s (paramsAll ts) := by
  cases ts with
  | nil => exact nofun
  | cons t ts =>
    obtain ⟨ht, hts⟩ := List.forall_mem_append.1 hs
    rw [substAll, matchAll] at h
    obtain ⟨⟨⟩, r, htr, htsb⟩ := Action.returns_bind.1 h
    have hcover : r.Covers s t.params := covers_of_matchWith t (t.subst s) ht rfl htr
    have hall : MeetsAll ts (substAll s ts) r b :=
      meetsAll_of_matchAll ts _ r b (length_substAll s ts).symm htsb
    exact (hcover.widens hall.widens).append (covers_of_matchAll ts hts htsb)

end

/-! ## The way back -/

/-- **A match with an instance gives the substitution back.** Where a substitution binds every
parameter of a type to a type that has values, the match of the type with its instance succeeds from
no bindings. It binds the parameters of the type and no others, each to a type equivalent to its
image, so that the type has an equivalent instance under the new bindings. -/
theorem match_subst (t : Ty) (s : Subst)
    (hs : ∀ n ∈ t.params, ∃ u, s.get? n = some u ∧ u.isVoid = false) :
    ∃ b, Action.Returns (t.matchWith (t.subst s)) [] () b ∧
      (∀ n ∈ t.params, ∃ u v, b.get? n = some u ∧ s.get? n = some v ∧ equivalent u v = true) ∧
      (∀ n, n ∉ t.params → b.get? n = none) ∧
      equivalent (t.subst b) (t.subst s) = true := by
  obtain ⟨b, hb, hleq, hunder, -⟩ := match_least t (t.subst s) s [] (leq_refl _) nofun
  have hvoid : ∀ n ∈ t.params, ((param n).subst s).isVoid = false := by
    intro n hn
    obtain ⟨u, hu, huv⟩ := hs n hn
    rwa [subst_param_of_get? hu]
  have hcover : b.Covers s t.params := covers_of_matchWith t (t.subst s) hvoid rfl hb
  refine ⟨b, hb, ?_, ?_, ?_⟩
  · intro n hn
    obtain ⟨u, hu, hsu⟩ := hcover n hn
    obtain ⟨v, hv, -⟩ := hs n hn
    have hus : leq u ((param n).subst s) = true := hunder n u hu
    rw [subst_param_of_get? hv] at hsu hus
    exact ⟨u, v, hu, hv, equivalent_iff.2 ⟨hus, hsu⟩⟩
  · intro n hn
    have hsteps : Subst.Steps t.params (t.subst s).params [] b := by
      rw [← Action.after_eq_of_returns hb]
      exact steps_matchWith t (t.subst s) []
    exact hsteps.get?_eq hn
  · refine equivalent_iff.2 ⟨subst_leq_subst t ?_, hleq⟩
    intro n hn
    obtain ⟨u, hu, -⟩ := hcover n hn
    rw [subst_param_of_get? hu]
    exact hunder n u hu

/-- Pairs of a key and a value under each key: both parameters occur twice, once below an alias. -/
def keyedPairs : Ty :=
  map (param "K") (set (ctor "pair" "Pair" [param "K", param "V"]
    [named "Key" (param "K"), param "V"] (some ["key", "val"])))

/-- One image has an alias at its head, the other a parameter inside. -/
theorem match_subst_keyedPairs :
    let s : Subst := [("K", named "Id" int), ("V", list (param "K"))]
    (∀ n ∈ keyedPairs.params, ∃ u, s.get? n = some u ∧ u.isVoid = false) ∧
      ∃ b, Action.Returns (keyedPairs.matchWith (keyedPairs.subst s)) [] () b ∧
        (∃ u, b.get? "K" = some u ∧ equivalent u (named "Id" int) = true) ∧
        equivalent (keyedPairs.subst b) (keyedPairs.subst s) = true := by
  intro s
  have hs : ∀ n ∈ keyedPairs.params, ∃ u, s.get? n = some u ∧ u.isVoid = false := by
    intro n hn
    have hn : n = "K" ∨ n = "V" := by
      simp [keyedPairs, params, paramsAll] at hn
      tauto
    rcases hn with rfl | rfl
    · exact ⟨named "Id" int, rfl, rfl⟩
    · exact ⟨list (param "K"), rfl, rfl⟩
  obtain ⟨b, hb, hbound, -, heq⟩ := match_subst keyedPairs s hs
  obtain ⟨u, v, hu, hv, huv⟩ := hbound "K" List.mem_cons_self
  obtain rfl := Option.some.inj hv
  exact ⟨hs, b, hb, ⟨u, hu, huv⟩, heq⟩

/-- A parameter whose image has no values stays unbound. -/
example :
    Action.Returns ((list (param "T")).matchWith ((list (param "T")).subst [("T", void)]))
      [] () [] := rfl

end Ty

end ValueLattice

import ValueLattice.Proofs.OneToOne
/-!
# Agreement of digests is an equivalence

Digests of sets, relations and maps are sums, so two of them agree when their contents agree in
some order. `sameDigest` finds such an order greedily: it takes each value of the first list in
turn, and drops the first value of the second list whose digest agrees. The greedy choice finds
an order whenever there is one, because agreement of digests is an equivalence. The two facts
depend on each other at every level of nesting. One induction proves them both, for a law that
needs no second value to be smaller: if three of the four pairs at the corners of a square
agree, so does the fourth (`Zigzag`).

* `Value.contents_induction`: induction on the contents of values;
* `Value.sameDigest_zigzag`: the law that carries the induction;
* `Value.sameDigest_refl`, `Value.sameDigest_symm`, `Value.sameDigest_trans`: the equivalence.
-/

namespace ValueLattice

/-! ## Induction on contents -/

/-- What holds of all leaves, and of a composite value if it holds of its contents, holds of all
values. -/
@[elab_as_elim]
theorem Value.contents_induction {motive : Value → Prop}
    (leaf : ∀ v, v.isLeaf = true → motive v)
    (tuple : ∀ fs ls xs, (∀ x ∈ xs, motive x) → motive (.tuple fs ls xs))
    (node : ∀ g t n i xs j as, (∀ x ∈ xs, motive x) → (∀ a ∈ as, motive a.2) →
      motive (.node g t n i xs j as))
    (set : ∀ e xs, (∀ x ∈ xs, motive x) → motive (.set e xs))
    (rel : ∀ fs ls xs, (∀ x ∈ xs, motive x) → motive (.rel fs ls xs))
    (list : ∀ e xs, (∀ x ∈ xs, motive x) → motive (.list e xs))
    (map : ∀ k v es, (∀ e ∈ es, motive e.1 ∧ motive e.2) → motive (.map k v es))
    (v : Value) : motive v := by
  have ih (w : Value) (_ : sizeOf w < sizeOf v) : motive w :=
    contents_induction leaf tuple node set rel list map w
  cases v with
  | tuple fs ls xs =>
    refine tuple fs ls xs fun x hx => ih x ?_
    have := List.sizeOf_lt_of_mem hx
    simp only [Value.tuple.sizeOf_spec]
    omega
  | node g t n i xs j as =>
    refine node g t n i xs j as (fun x hx => ih x ?_) fun a ha => ih a.2 ?_
    · have := List.sizeOf_lt_of_mem hx
      simp only [Value.node.sizeOf_spec]
      omega
    · have := List.sizeOf_lt_of_mem ha
      obtain ⟨l, y⟩ := a
      simp only [Value.node.sizeOf_spec, Prod.mk.sizeOf_spec] at this ⊢
      omega
  | set e xs =>
    refine set e xs fun x hx => ih x ?_
    have := List.sizeOf_lt_of_mem hx
    simp only [Value.set.sizeOf_spec]
    omega
  | rel fs ls xs =>
    refine rel fs ls xs fun x hx => ih x ?_
    have := List.sizeOf_lt_of_mem hx
    simp only [Value.rel.sizeOf_spec]
    omega
  | list e xs =>
    refine list e xs fun x hx => ih x ?_
    have := List.sizeOf_lt_of_mem hx
    simp only [Value.list.sizeOf_spec]
    omega
  | map k v es =>
    refine map k v es fun e he => ?_
    have := List.sizeOf_lt_of_mem he
    obtain ⟨x, y⟩ := e
    simp only [Prod.mk.sizeOf_spec] at this
    constructor
    · refine ih x ?_
      simp only [Value.map.sizeOf_spec]
      omega
    · refine ih y ?_
      simp only [Value.map.sizeOf_spec]
      omega
  | _ => exact leaf _ rfl
termination_by sizeOf v

/-! ## Digests -/

namespace Value

variable {x y z : Value} {xs ys : List Value} {es fs : List (Value × Value)}

/-- Whether two entries have the same digest. -/
def sameEntryDigest (e f : Value × Value) : Bool := sameDigest e.1 f.1 && sameDigest e.2 f.2

/-- The value itself, a double with its canonical bits. -/
def canonical : Value → Value
  | double d => double ⟨d.canonical⟩
  | v => v

theorem sameDigests_iff :
    sameDigests xs ys = true ↔ List.Forall₂ (fun x y => sameDigest x y = true) xs ys := by
  induction xs generalizing ys with
  | nil => cases ys <;> simp [sameDigests]
  | cons x xs ih => cases ys <;> simp [sameDigests, ih]

theorem sameDigestSum_eq_greedy : sameDigestSum xs ys = greedy sameDigest xs ys := by
  induction xs generalizing ys with
  | nil => rw [sameDigestSum, greedy]
  | cons x xs ih =>
    rw [sameDigestSum, greedy]
    cases dropFirst? (fun y => sameDigest x y) ys with
    | none => rfl
    | some rest => exact ih

theorem sameEntrySum_eq_greedy : sameEntrySum es fs = greedy sameEntryDigest es fs := by
  induction es generalizing fs with
  | nil => rw [sameEntrySum, greedy]
  | cons e es ih =>
    have he : (fun f => sameDigest e.1 f.1 && sameDigest e.2 f.2) = sameEntryDigest e := rfl
    rw [sameEntrySum, greedy, he]
    cases dropFirst? (sameEntryDigest e) fs with
    | none => rfl
    | some rest => exact ih

theorem isLeaf_eq_of_sameDigest (h : sameDigest x y = true) : x.isLeaf = y.isLeaf := by
  cases x <;> cases y <;> first | rfl | simp [sameDigest] at h

theorem sameDigest_leaf (h : x.isLeaf = true) :
    sameDigest x y = true ↔ x.canonical = y.canonical := by
  cases x <;> cases y <;> simp_all [sameDigest, isLeaf, canonical, Double.alike]

theorem zigzag_entry {e : Value × Value} (hk : Zigzag sameDigest e.1)
    (hv : Zigzag sameDigest e.2) : Zigzag sameEntryDigest e := by
  intro f e' f' h₁ h₂ h₃
  rw [sameEntryDigest, Bool.and_eq_true] at h₁ h₂ h₃ ⊢
  exact ⟨hk h₁.1 h₂.1 h₃.1, hv h₁.2 h₂.2 h₃.2⟩

section Zigzag

variable {xs' ys' : List Value} {es' fs' : List (Value × Value)}

theorem sameDigests_zigzag (hz : ∀ x ∈ xs, Zigzag sameDigest x)
    (h₁ : sameDigests xs ys = true) (h₂ : sameDigests xs' ys = true)
    (h₃ : sameDigests xs' ys' = true) : sameDigests xs ys' = true := by
  rw [sameDigests_iff] at h₁ h₂ h₃ ⊢
  exact forall₂_zigzag hz h₁ h₂ h₃

theorem sameDigestSum_zigzag (hz : ∀ x ∈ xs, Zigzag sameDigest x)
    (h₁ : sameDigestSum xs ys = true) (h₂ : sameDigestSum xs' ys = true)
    (h₃ : sameDigestSum xs' ys' = true) : sameDigestSum xs ys' = true := by
  rw [sameDigestSum_eq_greedy] at h₁ h₂ h₃ ⊢
  exact greedy_of_oneToOne hz <| oneToOne_zigzag hz (oneToOne_of_greedy h₁)
    (oneToOne_of_greedy h₂) (oneToOne_of_greedy h₃)

theorem sameEntrySum_zigzag (hz : ∀ e ∈ es, Zigzag sameEntryDigest e)
    (h₁ : sameEntrySum es fs = true) (h₂ : sameEntrySum es' fs = true)
    (h₃ : sameEntrySum es' fs' = true) : sameEntrySum es fs' = true := by
  rw [sameEntrySum_eq_greedy] at h₁ h₂ h₃ ⊢
  exact greedy_of_oneToOne hz <| oneToOne_zigzag hz (oneToOne_of_greedy h₁)
    (oneToOne_of_greedy h₂) (oneToOne_of_greedy h₃)

end Zigzag

/-- Agreement of digests has the zigzag law. -/
theorem sameDigest_zigzag (x : Value) : Zigzag sameDigest x := by
  intro y x' y' h₁ h₂ h₃
  induction x using contents_induction generalizing y x' y' with
  | leaf v hv =>
    have hx' : x'.isLeaf = true := by
      rw [isLeaf_eq_of_sameDigest h₂, ← isLeaf_eq_of_sameDigest h₁, hv]
    rw [sameDigest_leaf hv] at h₁ ⊢
    rw [sameDigest_leaf hx'] at h₂ h₃
    rw [h₁, ← h₂, h₃]
  | tuple gs ls xs ih =>
    cases y <;> simp only [sameDigest, Bool.false_eq_true] at h₁
    cases x' <;> simp only [sameDigest, Bool.false_eq_true] at h₂
    cases y' <;> simp only [sameDigest, Bool.false_eq_true] at h₃
    rw [sameDigest]
    exact sameDigests_zigzag ih h₁ h₂ h₃
  | node g t n i xs j as ih iha =>
    cases y <;> simp only [sameDigest, Bool.false_eq_true] at h₁
    cases x' <;> simp only [sameDigest, Bool.false_eq_true] at h₂
    cases y' <;> simp only [sameDigest, Bool.false_eq_true] at h₃
    simp only [sameDigest, Bool.and_eq_true, decide_eq_true_eq] at h₁ h₂ h₃ ⊢
    obtain ⟨⟨rfl, rfl⟩, h₁⟩ := h₁
    obtain ⟨⟨rfl, rfl⟩, h₂⟩ := h₂
    obtain ⟨⟨rfl, rfl⟩, h₃⟩ := h₃
    exact ⟨⟨rfl, rfl⟩, sameDigests_zigzag ih h₁ h₂ h₃⟩
  | set e xs ih =>
    cases y <;> simp only [sameDigest, Bool.false_eq_true] at h₁
    cases x' <;> simp only [sameDigest, Bool.false_eq_true] at h₂
    cases y' <;> simp only [sameDigest, Bool.false_eq_true] at h₃
    rw [sameDigest]
    exact sameDigestSum_zigzag ih h₁ h₂ h₃
  | rel gs ls xs ih =>
    cases y <;> simp only [sameDigest, Bool.false_eq_true] at h₁
    cases x' <;> simp only [sameDigest, Bool.false_eq_true] at h₂
    cases y' <;> simp only [sameDigest, Bool.false_eq_true] at h₃
    rw [sameDigest]
    exact sameDigestSum_zigzag ih h₁ h₂ h₃
  | list e xs ih =>
    cases y <;> simp only [sameDigest, Bool.false_eq_true] at h₁
    cases x' <;> simp only [sameDigest, Bool.false_eq_true] at h₂
    cases y' <;> simp only [sameDigest, Bool.false_eq_true] at h₃
    rw [sameDigest]
    exact sameDigests_zigzag ih h₁ h₂ h₃
  | map k v es ih =>
    cases y <;> simp only [sameDigest, Bool.false_eq_true] at h₁
    cases x' <;> simp only [sameDigest, Bool.false_eq_true] at h₂
    cases y' <;> simp only [sameDigest, Bool.false_eq_true] at h₃
    rw [sameDigest]
    have hz (e) (he : e ∈ es) : Zigzag sameEntryDigest e :=
      zigzag_entry (ih e he).1 (ih e he).2
    exact sameEntrySum_zigzag hz h₁ h₂ h₃

theorem sameDigestSum_iff : sameDigestSum xs ys = true ↔ OneToOne (sameDigest · ·) xs ys := by
  rw [sameDigestSum_eq_greedy, greedy_iff fun x _ => sameDigest_zigzag x]

theorem sameEntrySum_iff :
    sameEntrySum es fs = true ↔ OneToOne (sameEntryDigest · ·) es fs := by
  rw [sameEntrySum_eq_greedy,
    greedy_iff fun e _ => zigzag_entry (sameDigest_zigzag e.1) (sameDigest_zigzag e.2)]

theorem sameDigest_refl (x : Value) : sameDigest x x = true := by
  induction x using contents_induction with
  | leaf v hv => exact (sameDigest_leaf hv).2 rfl
  | tuple fs ls xs ih => rw [sameDigest, sameDigests_iff]; exact List.forall₂_same.2 ih
  | node g t n i xs j as ih _ =>
    have hxs : sameDigests xs xs = true := sameDigests_iff.2 (List.forall₂_same.2 ih)
    simp [sameDigest, hxs]
  | set e xs ih =>
    rw [sameDigest, sameDigestSum_iff]
    exact oneToOne_refl ih
  | rel fs ls xs ih =>
    rw [sameDigest, sameDigestSum_iff]
    exact oneToOne_refl ih
  | list e xs ih => rw [sameDigest, sameDigests_iff]; exact List.forall₂_same.2 ih
  | map k v es ih =>
    rw [sameDigest, sameEntrySum_iff]
    refine oneToOne_refl fun e he => ?_
    rw [sameEntryDigest, (ih e he).1, (ih e he).2, Bool.and_self]

theorem sameDigest_symm (h : sameDigest x y = true) : sameDigest y x = true :=
  sameDigest_zigzag y (sameDigest_refl y) h (sameDigest_refl x)

theorem sameDigest_trans (h₁ : sameDigest x y = true) (h₂ : sameDigest y z = true) :
    sameDigest x z = true :=
  sameDigest_zigzag x h₁ (sameDigest_refl y) h₂

end Value

end ValueLattice

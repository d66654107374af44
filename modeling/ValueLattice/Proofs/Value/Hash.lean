import Mathlib.Algebra.BigOperators.Group.List.Basic
import Mathlib.Data.UInt
import ValueLattice.Proofs.Value.Equality
import ValueLattice.Value.Hash
/-!
# Equal values and equal hashes

Agreement of digests is what hashing needs: two values whose digests agree write the same words,
so no hasher tells them apart. Equal values write the same words where their contents meet one at
a time. Elsewhere an equal set may hold other elements, and the sums of the hashes differ.

* `Value.words_eq_of_sameDigest`: values of one digest write the same words;
* `Value.sameDigest_of_eqv`: equal values have one digest where contents meet one at a time;
* `Value.hash_eq_of_beq`: equal values, equal hashes.
-/

namespace ValueLattice.Value

variable {x y : Value} {xs ys : List Value} {es fs : List (Value × Value)} (d : Hasher)

/-! ## Sums -/

theorem digestSum_eq_sum : digestSum d xs = (xs.map fun x => d.digest (words d x)).sum := by
  induction xs with
  | nil => rw [digestSum]; rfl
  | cons x xs ih => rw [digestSum, ih, List.map_cons, List.sum_cons]

theorem entrySum_eq_sum :
    entrySum d es = (es.map fun e => d.digest (words d e.1 ++ words d e.2)).sum := by
  induction es with
  | nil => rw [entrySum]; rfl
  | cons e es ih => rw [entrySum, ih, List.map_cons, List.sum_cons]

theorem wordsAll_eq_flatten : wordsAll d xs = (xs.map (words d)).flatten := by
  induction xs with
  | nil => rw [wordsAll]; rfl
  | cons x xs ih => rw [wordsAll, ih, List.map_cons, List.flatten_cons]

/-! ## Words -/

section Words

variable (ih : ∀ x ∈ xs, ∀ y, sameDigest x y = true → words d x = words d y)

include ih

theorem sequence_eq_of_sameDigests (h : sameDigests xs ys = true) :
    Word.number xs.length :: wordsAll d xs = .number ys.length :: wordsAll d ys := by
  rw [sameDigests_iff] at h
  rw [wordsAll_eq_flatten, wordsAll_eq_flatten, map_eq_of_forall₂ h ih, h.length_eq]

theorem digestSum_eq_of_sameDigestSum (h : sameDigestSum xs ys = true) :
    digestSum d xs = digestSum d ys := by
  rw [digestSum_eq_sum, digestSum_eq_sum]
  refine ((sameDigestSum_iff.1 h).map_perm fun x hx y hxy => ?_).sum_eq
  rw [ih x hx y hxy]

end Words

theorem entrySum_eq_of_sameEntrySum
    (ihk : ∀ e ∈ es, ∀ y, sameDigest e.1 y = true → words d e.1 = words d y)
    (ihv : ∀ e ∈ es, ∀ y, sameDigest e.2 y = true → words d e.2 = words d y)
    (h : sameEntrySum es fs = true) : entrySum d es = entrySum d fs := by
  rw [entrySum_eq_sum, entrySum_eq_sum]
  refine ((sameEntrySum_iff.1 h).map_perm fun e he f hef => ?_).sum_eq
  obtain ⟨hk, hv⟩ := Bool.and_eq_true_iff.1 hef
  rw [ihk e he f.1 hk, ihv e he f.2 hv]

/-- Values of one digest write the same words. -/
theorem words_eq_of_sameDigest (h : sameDigest x y = true) : words d x = words d y := by
  induction x using contents_induction generalizing y with
  | leaf v hv =>
    cases v <;> first
      | (simp [isLeaf] at hv; done)
      | cases y <;> simp_all [sameDigest, words, Double.alike]
  | tuple fs ls xs ih =>
    cases y <;> simp only [sameDigest, Bool.false_eq_true] at h
    rw [words, words, sequence_eq_of_sameDigests d (fun x hx y => ih x hx) h]
  | node g t n i xs j as ih _ =>
    cases y <;> simp only [sameDigest, Bool.false_eq_true] at h
    simp only [Bool.and_eq_true, decide_eq_true_eq] at h
    obtain ⟨⟨rfl, rfl⟩, h⟩ := h
    rw [words, words, sequence_eq_of_sameDigests d (fun x hx y => ih x hx) h]
  | set e xs ih =>
    cases y <;> simp only [sameDigest, Bool.false_eq_true] at h
    rw [words, words, digestSum_eq_of_sameDigestSum d (fun x hx y => ih x hx) h]
  | rel gs ls xs ih =>
    cases y <;> simp only [sameDigest, Bool.false_eq_true] at h
    rw [words, words, digestSum_eq_of_sameDigestSum d (fun x hx y => ih x hx) h]
  | list e xs ih =>
    cases y <;> simp only [sameDigest, Bool.false_eq_true] at h
    rw [words, words, sequence_eq_of_sameDigests d (fun x hx y => ih x hx) h]
  | map k v es ih =>
    cases y <;> simp only [sameDigest, Bool.false_eq_true] at h
    rw [words, words, entrySum_eq_of_sameEntrySum d (fun e he y => (ih e he).1)
      (fun e he y => (ih e he).2) h]

/-! ## Equal values -/

theorem sameDigest_of_finds (h : finds x y = true) : sameDigest x y = true :=
  (Bool.and_eq_true_iff.1 h).1

theorem sameDigestSum_of_foundAll (hlen : xs.length = ys.length) (h : foundAll xs ys = true)
    (hm : ∀ y ∈ ys, xs.countP (meets · y) ≤ 1) (hs : meetsOnceEach xs ys = true) :
    sameDigestSum xs ys = true := by
  refine sameDigestSum_iff.2 ((oneToOne_of_foundAll hlen h hm hs).imp fun x _ y hxy => ?_)
  exact sameDigest_of_finds hxy.1

theorem sameEntrySum_of_boundAll
    (ih : ∀ e ∈ es, ∀ y, eqv e.2 y = true → meetsOnce e.2 y = true → sameDigest e.2 y = true)
    (hlen : es.length = fs.length) (h : boundAll es fs = true)
    (hm : ∀ f ∈ fs, es.countP (fun e => meets e.1 f.1) ≤ 1)
    (hs : meetsOnceEntries es fs = true) : sameEntrySum es fs = true := by
  refine sameEntrySum_iff.2 ((oneToOne_of_boundAll hlen h hm hs).imp fun e he f hef => ?_)
  obtain ⟨⟨hk, -⟩, hv, hsv⟩ := hef
  exact Bool.and_eq_true_iff.2 ⟨sameDigest_of_finds hk, ih e he f.2 hv hsv⟩

/-- Equal values have one digest where contents meet one at a time. -/
theorem sameDigest_of_eqv (h : eqv x y = true) (hm : meetsOnce x y = true) :
    sameDigest x y = true := by
  induction x using contents_induction generalizing y with
  | leaf v hv => rw [← eqv_leaf hv, h]
  | tuple fs ls xs ih =>
    obtain ⟨gs, ms, ys, rfl, -, hxs⟩ := exists_of_eqv_tuple h
    rw [meetsOnce] at hm
    rw [sameDigest, sameDigests_iff]
    exact forall₂_of_eqvAll (fun x hx y => ih x hx) hxs hm
  | node g t n i xs j as ih _ =>
    obtain ⟨u, i', ys, j', bs, rfl, -, hxs, -⟩ := exists_of_eqv_node h
    rw [meetsOnce, Bool.and_eq_true] at hm
    have hys : sameDigests xs ys = true :=
      sameDigests_iff.2 (forall₂_of_eqvAll (fun x hx y => ih x hx) hxs hm.1)
    simp [sameDigest, hys]
  | set e xs ih =>
    obtain ⟨f, ys, rfl, -, hlen, hfound⟩ := exists_of_eqv_set h
    simp only [meetsOnce, Bool.and_eq_true, List.all_eq_true, decide_eq_true_eq] at hm
    rw [sameDigest]
    exact sameDigestSum_of_foundAll hlen hfound hm.1 hm.2
  | rel fs ls xs ih =>
    obtain ⟨gs, ms, ys, rfl, -, hlen, hfound⟩ := exists_of_eqv_rel h
    simp only [meetsOnce, Bool.and_eq_true, List.all_eq_true, decide_eq_true_eq] at hm
    rw [sameDigest]
    exact sameDigestSum_of_foundAll hlen hfound hm.1 hm.2
  | list e xs ih =>
    obtain ⟨f, ys, rfl, -, hxs⟩ := exists_of_eqv_list h
    rw [meetsOnce] at hm
    rw [sameDigest, sameDigests_iff]
    exact forall₂_of_eqvAll (fun x hx y => ih x hx) hxs hm
  | map k v es ih =>
    obtain ⟨l, w, fs, rfl, -, -, hlen, hbound⟩ := exists_of_eqv_map h
    simp only [meetsOnce, Bool.and_eq_true, List.all_eq_true, decide_eq_true_eq] at hm
    rw [sameDigest]
    exact sameEntrySum_of_boundAll (fun e he y => (ih e he).2) hlen hbound hm.1 hm.2

/-- Equal values are hashed alike by every hasher where contents meet one at a time. -/
theorem hash_eq_of_beq {a b : Value} (h : (a == b) = true) (hm : meetsOnce a b = true)
    (g : Hasher) (s : g.State) : a.hash d g s = b.hash d g s := by
  rw [hash, hash, words_eq_of_sameDigest d (sameDigest_of_eqv h hm)]

/-- A hasher that remembers the last number it took in. -/
def lastNumber : Hasher where
  State := UInt64
  start := 0
  write s
    | .int n => .ofInt n
    | .bits b => b
    | _ => s
  finish s := s

theorem hash_catalog : (catalog == widerCatalog) = true ∧ meetsOnce catalog widerCatalog = true ∧
    catalog.hash lastNumber lastNumber lastNumber.start =
      widerCatalog.hash lastNumber lastNumber lastNumber.start :=
  have h : (catalog == widerCatalog) = true := by decide +kernel
  have hm : meetsOnce catalog widerCatalog = true := by decide +kernel
  ⟨h, hm, hash_eq_of_beq lastNumber h hm lastNumber lastNumber.start⟩

/-- The number left over enters the hash. -/
theorem hash_twoEmpties : (twoEmpties == emptyAndFive) = true ∧
    lastNumber.finish (twoEmpties.hash lastNumber lastNumber lastNumber.start) = 0 ∧
    lastNumber.finish (emptyAndFive.hash lastNumber lastNumber lastNumber.start) = 5 := by
  decide +kernel

end ValueLattice.Value

import ValueLattice.Proofs.Ty.Order
import ValueLattice.Proofs.Value.Digest
/-!
# Symmetry of equality

Two sets are equal when they have as many elements and each element of the first is found in the
second. Since equality is not transitive, two elements of the first may be found in the same
place, and then an element of the second may be left over: the equality of sets is not
symmetric. It is where elements meet one at a time (`Value.meetsOnce`). Then the elements of the
first are matched one to one with those of the second, and the same holds of maps and their
keys.

* `Value.meetsOnce`: elements and keys meet one at a time, at every depth;
* `Value.exists_of_eqv_set` and the like: what equality says of the contents, shape by shape;
* `Value.eqv_symm`, `Value.beq_comm_of_meetsOnce`: symmetry;
* `Value.comparable_of_beq`: how far equal values are of comparable types.
-/

namespace ValueLattice

/-- Whether the first type is below the second and not the other way around. -/
def Ty.strictlyBelow (a b : Ty) : Bool := leq a b && !leq b a

namespace Value

variable {x y : Value} {xs ys : List Value} {es fs : List (Value × Value)}

/-! ## Where contents meet -/

/-- Whether one of two values is found where the other is looked for. -/
def meets (x y : Value) : Bool := finds x y || finds y x

mutual

/-- Whether contents of two values meet one at a time: no element or key of the second meets two
of the first, and so on inside of those that meet. -/
def meetsOnce : Value → Value → Bool
  | tuple _ _ xs, tuple _ _ ys => meetsOnceAll xs ys
  | node _ _ _ _ xs _ as, node _ _ _ _ ys _ bs => meetsOnceAll xs ys && meetsOnceAnnos as bs
  | set _ xs, set _ ys => ys.all (fun y => xs.countP (meets · y) ≤ 1) && meetsOnceEach xs ys
  | rel _ _ xs, rel _ _ ys => ys.all (fun y => xs.countP (meets · y) ≤ 1) && meetsOnceEach xs ys
  | list _ xs, list _ ys => meetsOnceAll xs ys
  | map _ _ es, map _ _ fs =>
    fs.all (fun f => es.countP (fun e => meets e.1 f.1) ≤ 1) && meetsOnceEntries es fs
  | _, _ => true

/-- The same for the values of two lists, position by position. -/
def meetsOnceAll : List Value → List Value → Bool
  | x :: xs, y :: ys => meetsOnce x y && meetsOnceAll xs ys
  | _, _ => true

/-- The same for annotations, position by position. -/
def meetsOnceAnnos : List (String × Value) → List (String × Value) → Bool
  | (_, x) :: xs, (_, y) :: ys => meetsOnce x y && meetsOnceAnnos xs ys
  | _, _ => true

/-- The same for the values of two lists that meet. -/
def meetsOnceEach : List Value → List Value → Bool
  | [], _ => true
  | x :: xs, ys => ys.all (fun y => !meets x y || meetsOnce x y) && meetsOnceEach xs ys

/-- The same for the entries of two lists whose keys meet. -/
def meetsOnceEntries : List (Value × Value) → List (Value × Value) → Bool
  | [], _ => true
  | (k, v) :: es, fs =>
    fs.all (fun f => !meets k f.1 || (meetsOnce k f.1 && meetsOnce v f.2)) &&
      meetsOnceEntries es fs

end

/-- A value is not found at one that it is not equal to, whatever their hashes are. -/
theorem finds_eq_false_of_beq (h : (x == y) = false) : finds x y = false := by
  rw [finds, h, Bool.and_false]

theorem meets_of_finds (h : finds x y = true) : meets x y = true := by
  rw [meets, h, Bool.true_or]

theorem meets_of_found (h : finds y x = true) : meets x y = true := by
  rw [meets, h, Bool.or_true]

theorem meetsOnceEach_iff : meetsOnceEach xs ys = true ↔
    ∀ x ∈ xs, ∀ y ∈ ys, meets x y = true → meetsOnce x y = true := by
  induction xs with
  | nil => simp [meetsOnceEach]
  | cons x xs ih =>
    simp only [meetsOnceEach, Bool.and_eq_true, List.all_eq_true, ih, List.forall_mem_cons,
      Bool.or_eq_true, Bool.not_eq_true', ← Bool.not_eq_true, ← imp_iff_not_or]

theorem meetsOnceEntries_iff : meetsOnceEntries es fs = true ↔
    ∀ e ∈ es, ∀ f ∈ fs, meets e.1 f.1 = true →
      meetsOnce e.1 f.1 = true ∧ meetsOnce e.2 f.2 = true := by
  induction es with
  | nil => simp [meetsOnceEntries]
  | cons e es ih =>
    obtain ⟨k, v⟩ := e
    simp only [meetsOnceEntries, Bool.and_eq_true, List.all_eq_true, ih, List.forall_mem_cons,
      Bool.or_eq_true, Bool.not_eq_true', ← Bool.not_eq_true, ← imp_iff_not_or]

/-! ## Equality of contents -/

section Shapes

variable {fs : List Ty} {ls : Option (List String)} {e k v t : Ty} {n : String} {i j : Nat}
  {g : Guise} {es : List (Value × Value)} {as : List (String × Value)}

theorem exists_of_eqv_tuple (h : eqv (tuple fs ls xs) y = true) : ∃ gs ms ys,
    y = tuple gs ms ys ∧ Ty.comparableRows fs gs = true ∧ eqvAll xs ys = true := by
  cases y <;> simp_all [eqv]

theorem exists_of_eqv_node (h : eqv (node g t n i xs j as) y = true) : ∃ u i' ys j' bs,
    y = node g u n i' ys j' bs ∧ t.comparable u = true ∧ eqvAll xs ys = true ∧
      eqvAnnos as bs = true := by
  cases y <;> simp_all [eqv]

theorem exists_of_eqv_set (h : eqv (set e xs) y = true) : ∃ f ys,
    y = set f ys ∧ e.comparable f = true ∧ xs.length = ys.length ∧ foundAll xs ys = true := by
  cases y <;> simp_all [eqv]

theorem exists_of_eqv_rel (h : eqv (rel fs ls xs) y = true) : ∃ gs ms ys,
    y = rel gs ms ys ∧ Ty.comparableRows fs gs = true ∧ xs.length = ys.length ∧
      foundAll xs ys = true := by
  cases y <;> simp_all [eqv]

theorem exists_of_eqv_list (h : eqv (list e xs) y = true) : ∃ f ys,
    y = list f ys ∧ e.comparable f = true ∧ eqvAll xs ys = true := by
  cases y <;> simp_all [eqv]

theorem exists_of_eqv_map (h : eqv (map k v es) y = true) : ∃ l w fs,
    y = map l w fs ∧ k.comparable l = true ∧ v.comparable w = true ∧ es.length = fs.length ∧
      boundAll es fs = true := by
  cases y <;> simp_all [eqv]

end Shapes

theorem foundAll_iff : foundAll xs ys = true ↔ ∀ x ∈ xs, ∃ y ∈ ys, finds x y = true := by
  induction xs with
  | nil => simp [foundAll]
  | cons x xs ih =>
    rw [foundAll, Bool.and_eq_true, List.any_eq_true, ih, List.forall_mem_cons]
    rfl

theorem boundAll_iff : boundAll es fs = true ↔
    ∀ e ∈ es, ∃ f, fs.find? (fun f => finds e.1 f.1) = some f ∧ eqv e.2 f.2 = true := by
  induction es with
  | nil => simp [boundAll]
  | cons e es ih =>
    rw [boundAll, Bool.and_eq_true, ih, List.forall_mem_cons]
    refine and_congr_left' ?_
    have he : (fun f => sameDigest e.1 f.1 && eqv e.1 f.1) =
      fun f : Value × Value => finds e.1 f.1 := rfl
    rw [he]
    cases fs.find? (fun f => finds e.1 f.1) <;> simp

/-- The entry that a look-up returns is one that the key finds. -/
theorem mem_and_finds_of_find? {e : Value × Value}
    (h : es.find? (fun e => finds x e.1) = some e) : e ∈ es ∧ finds x e.1 = true :=
  ⟨List.mem_of_find?_eq_some h, List.find?_some (p := fun e : Value × Value => finds x e.1) h⟩

theorem exists_find? {e : Value × Value} (he : e ∈ es) (h : finds x e.1 = true) :
    ∃ f, es.find? (fun e => finds x e.1) = some f ∧ f ∈ es ∧ finds x f.1 = true := by
  obtain ⟨f, hf⟩ := Option.isSome_iff_exists.1
    (List.find?_isSome (p := fun e : Value × Value => finds x e.1).2 ⟨e, he, h⟩)
  exact ⟨f, hf, mem_and_finds_of_find? hf⟩

/-- A relation that holds of equal values whose contents meet one at a time holds at each
position of two equal lists. -/
theorem forall₂_of_eqvAll {r : Value → Value → Prop}
    (hr : ∀ x ∈ xs, ∀ y, eqv x y = true → meetsOnce x y = true → r x y)
    (h : eqvAll xs ys = true) (hm : meetsOnceAll xs ys = true) : List.Forall₂ r xs ys := by
  induction xs generalizing ys with
  | nil =>
    cases ys with
    | nil => exact .nil
    | cons y ys => simp [eqvAll] at h
  | cons x xs ih =>
    cases ys with
    | nil => simp [eqvAll] at h
    | cons y ys =>
      rw [eqvAll, Bool.and_eq_true] at h
      rw [meetsOnceAll, Bool.and_eq_true] at hm
      obtain ⟨hx, hxs⟩ := List.forall_mem_cons.1 hr
      exact .cons (hx y h.1 hm.1) (ih hxs h.2 hm.2)

theorem eqvAll_of_forall₂ (h : List.Forall₂ (fun x y => eqv x y = true) xs ys) :
    eqvAll xs ys = true := by
  induction h with
  | nil => rw [eqvAll]
  | cons hxy _ ih => rw [eqvAll, hxy, ih, Bool.and_self]

/-- The elements of equal sets that meet one at a time are matched one to one. -/
theorem oneToOne_of_foundAll (hlen : xs.length = ys.length) (h : foundAll xs ys = true)
    (hm : ∀ y ∈ ys, xs.countP (meets · y) ≤ 1) (hs : meetsOnceEach xs ys = true) :
    OneToOne (fun x y => finds x y = true ∧ meetsOnce x y = true) xs ys := by
  refine oneToOne_of_unshared hlen (fun x hx => ?_) hm
  obtain ⟨y, hy, hxy⟩ := foundAll_iff.1 h x hx
  have hxy' : meets x y = true := meets_of_finds hxy
  exact ⟨y, hy, ⟨hxy, meetsOnceEach_iff.1 hs x hx y hy hxy'⟩, hxy'⟩

/-- What a match of two entries of equal maps says, if their contents meet one at a time. -/
def EntryMatch (e f : Value × Value) : Prop :=
  (finds e.1 f.1 = true ∧ meetsOnce e.1 f.1 = true) ∧
    eqv e.2 f.2 = true ∧ meetsOnce e.2 f.2 = true

/-- The entries of equal maps whose keys meet one at a time are matched one to one. -/
theorem oneToOne_of_boundAll (hlen : es.length = fs.length) (h : boundAll es fs = true)
    (hm : ∀ f ∈ fs, es.countP (fun e => meets e.1 f.1) ≤ 1)
    (hs : meetsOnceEntries es fs = true) : OneToOne EntryMatch es fs := by
  refine oneToOne_of_unshared (m := fun e f => meets e.1 f.1) hlen (fun e he => ?_) hm
  obtain ⟨f, hf, hv⟩ := boundAll_iff.1 h e he
  obtain ⟨hf', hk⟩ := mem_and_finds_of_find? hf
  have hk' : meets e.1 f.1 = true := meets_of_finds hk
  obtain ⟨hsk, hsv⟩ := meetsOnceEntries_iff.1 hs e he f hf' hk'
  exact ⟨f, hf', ⟨⟨hk, hsk⟩, hv, hsv⟩, hk'⟩

/-! ## Symmetry -/

theorem eqvAll_symm
    (ih : ∀ x ∈ xs, ∀ y, eqv x y = true → meetsOnce x y = true → eqv y x = true)
    (h : eqvAll xs ys = true) (hm : meetsOnceAll xs ys = true) : eqvAll ys xs = true :=
  eqvAll_of_forall₂ (forall₂_of_eqvAll ih h hm).flip

theorem eqvAnnos_symm {as bs : List (String × Value)}
    (ih : ∀ a ∈ as, ∀ y, eqv a.2 y = true → meetsOnce a.2 y = true → eqv y a.2 = true)
    (h : eqvAnnos as bs = true) (hm : meetsOnceAnnos as bs = true) : eqvAnnos bs as = true := by
  induction as generalizing bs with
  | nil =>
    cases bs with
    | nil => exact h
    | cons b bs => simp [eqvAnnos] at h
  | cons a as iha =>
    cases bs with
    | nil => simp [eqvAnnos] at h
    | cons b bs =>
      obtain ⟨ha, has⟩ := List.forall_mem_cons.1 ih
      obtain ⟨l, v⟩ := a
      obtain ⟨k, w⟩ := b
      simp only [eqvAnnos, meetsOnceAnnos, Bool.and_eq_true, decide_eq_true_eq] at h hm ⊢
      obtain ⟨⟨hl, hv⟩, hrest⟩ := h
      exact ⟨⟨hl.symm, ha w hv hm.1⟩, iha has hrest hm.2⟩

theorem finds_symm (hs : eqv x y = true → eqv y x = true) (h : finds x y = true) :
    finds y x = true := by
  obtain ⟨hd, he⟩ := Bool.and_eq_true_iff.1 h
  exact Bool.and_eq_true_iff.2 ⟨sameDigest_symm hd, hs he⟩

theorem foundAll_symm
    (ih : ∀ x ∈ xs, ∀ y, eqv x y = true → meetsOnce x y = true → eqv y x = true)
    (hlen : xs.length = ys.length) (h : foundAll xs ys = true)
    (hm : ∀ y ∈ ys, xs.countP (meets · y) ≤ 1) (hs : meetsOnceEach xs ys = true) :
    foundAll ys xs = true := by
  refine foundAll_iff.2 fun y hy => ?_
  obtain ⟨x, hx, hxy, hsxy⟩ := (oneToOne_of_foundAll hlen h hm hs).exists_left hy
  exact ⟨x, hx, finds_symm (fun he => ih x hx y he hsxy) hxy⟩

theorem boundAll_symm
    (ihk : ∀ e ∈ es, ∀ y, eqv e.1 y = true → meetsOnce e.1 y = true → eqv y e.1 = true)
    (ihv : ∀ e ∈ es, ∀ y, eqv e.2 y = true → meetsOnce e.2 y = true → eqv y e.2 = true)
    (hlen : es.length = fs.length) (h : boundAll es fs = true)
    (hm : ∀ f ∈ fs, es.countP (fun e => meets e.1 f.1) ≤ 1)
    (hs : meetsOnceEntries es fs = true) : boundAll fs es = true := by
  refine boundAll_iff.2 fun f hf => ?_
  obtain ⟨e, he, ⟨hk, hsk⟩, hv, hsv⟩ := (oneToOne_of_boundAll hlen h hm hs).exists_left hf
  have hk' : finds f.1 e.1 = true := finds_symm (fun h => ihk e he f.1 h hsk) hk
  obtain ⟨e', he', hm', hfound⟩ := exists_find? he hk'
  -- the entry that is found is the partner, since both meet the key of `f`
  obtain rfl : e = e' :=
    eq_of_countP_le_one (hm f hf) he hm' (meets_of_finds hk) (meets_of_found hfound)
  exact ⟨e, he', ihv e he f.2 hv hsv⟩

/-- Leaves are equal when their digests agree. -/
theorem eqv_leaf (hx : x.isLeaf = true) : eqv x y = sameDigest x y := by
  cases x <;> cases y <;> simp_all [eqv, sameDigest, isLeaf]

/-- Equality is symmetric where contents meet one at a time. -/
theorem eqv_symm (h : eqv x y = true) (hm : meetsOnce x y = true) : eqv y x = true := by
  induction x using contents_induction generalizing y with
  | leaf v hv =>
    rw [eqv_leaf hv] at h
    rw [eqv_leaf (isLeaf_eq_of_sameDigest h ▸ hv), sameDigest_symm h]
  | tuple fs ls xs ih =>
    obtain ⟨gs, ms, ys, rfl, hrow, hxs⟩ := exists_of_eqv_tuple h
    rw [meetsOnce] at hm
    have hys : eqvAll ys xs = true := eqvAll_symm (fun x hx y => ih x hx) hxs hm
    rw [eqv, Ty.comparableRows_comm, hrow, hys, Bool.and_self]
  | node g t n i xs j as ih iha =>
    obtain ⟨u, i', ys, j', bs, rfl, ht, hxs, has⟩ := exists_of_eqv_node h
    rw [meetsOnce, Bool.and_eq_true] at hm
    have hys : eqvAll ys xs = true := eqvAll_symm (fun x hx y => ih x hx) hxs hm.1
    have hbs : eqvAnnos bs as = true := eqvAnnos_symm (fun a ha y => iha a ha) has hm.2
    rw [Ty.comparable_comm] at ht
    simp [eqv, ht, hys, hbs]
  | set e xs ih =>
    obtain ⟨f, ys, rfl, he, hlen, hfound⟩ := exists_of_eqv_set h
    simp only [meetsOnce, Bool.and_eq_true, List.all_eq_true, decide_eq_true_eq] at hm
    have hys : foundAll ys xs = true :=
      foundAll_symm (fun x hx y => ih x hx) hlen hfound hm.1 hm.2
    rw [Ty.comparable_comm] at he
    simp [eqv, he, hlen, hys]
  | rel fs ls xs ih =>
    obtain ⟨gs, ms, ys, rfl, hrow, hlen, hfound⟩ := exists_of_eqv_rel h
    simp only [meetsOnce, Bool.and_eq_true, List.all_eq_true, decide_eq_true_eq] at hm
    have hys : foundAll ys xs = true :=
      foundAll_symm (fun x hx y => ih x hx) hlen hfound hm.1 hm.2
    rw [Ty.comparableRows_comm] at hrow
    simp [eqv, hrow, hlen, hys]
  | list e xs ih =>
    obtain ⟨f, ys, rfl, he, hxs⟩ := exists_of_eqv_list h
    rw [meetsOnce] at hm
    have hys : eqvAll ys xs = true := eqvAll_symm (fun x hx y => ih x hx) hxs hm
    rw [eqv, Ty.comparable_comm, he, hys, Bool.and_self]
  | map k v es ih =>
    obtain ⟨l, w, fs, rfl, hk, hv, hlen, hbound⟩ := exists_of_eqv_map h
    simp only [meetsOnce, Bool.and_eq_true, List.all_eq_true, decide_eq_true_eq] at hm
    have hfs : boundAll fs es = true :=
      boundAll_symm (fun e he y => (ih e he).1) (fun e he y => (ih e he).2) hlen hbound hm.1 hm.2
    rw [Ty.comparable_comm] at hk hv
    simp [eqv, hk, hv, hlen, hfs]

/-- Equality gives the same answer in both directions where contents meet one at a time. -/
theorem beq_comm_of_meetsOnce {a b : Value} (hab : meetsOnce a b = true)
    (hba : meetsOnce b a = true) : (a == b) = (b == a) :=
  Bool.eq_iff_iff.2 ⟨fun h => eqv_symm h hab, fun h => eqv_symm h hba⟩

/-- A map from a set to a set with an empty set in it. -/
def catalog : Value :=
  .map (.set .int) (.set .value)
    [(.set .int [.int 1, .int 2], .set .value [.set .int [], .str "x"])]

/-- The same map at wider types, its sets in another order. -/
def widerCatalog : Value :=
  .map (.set .value) (.set .value)
    [(.set .value [.int 2, .int 1], .set .value [.str "x", .set .value []])]

theorem beq_comm_catalog : meetsOnce catalog widerCatalog = true ∧
    meetsOnce widerCatalog catalog = true ∧ (catalog == widerCatalog) = (widerCatalog == catalog) :=
  have h : meetsOnce catalog widerCatalog = true := by decide +kernel
  have h' : meetsOnce widerCatalog catalog = true := by decide +kernel
  ⟨h, h', beq_comm_of_meetsOnce h h'⟩

/-- Two empty sets of incomparable types. -/
def twoEmpties : Value := .set (.set .value) [.set .int [], .set .str []]

/-- An empty set that equals both of them, and a number. -/
def emptyAndFive : Value := .set .value [.set .value [], .int 5]

/-- Both empty sets are found in one place, so the number is left over. -/
theorem beq_twoEmpties :
    (twoEmpties == emptyAndFive) = true ∧ (emptyAndFive == twoEmpties) = false := by
  decide +kernel

/-! ## Types of equal values -/

/-- Whether both values are maps whose keys and whose values stand in opposite orders. -/
def opposed : Value → Value → Bool
  | map k v _, map l w _ =>
    (k.strictlyBelow l && w.strictlyBelow v) || (l.strictlyBelow k && v.strictlyBelow w)
  | _, _ => false

theorem ty_eq_of_leaf (hx : x.isLeaf = true) (h : eqv x y = true) : x.ty = y.ty := by
  cases x <;> first
    | (simp [isLeaf] at hx; done)
    | cases y <;> first | rfl | simp [eqv] at h

theorem comparable_map_eq_not_opposed {k l v w : Ty} (hk : k.comparable l = true)
    (hv : v.comparable w = true) :
    (Ty.map k v).comparable (.map l w) = !opposed (.map k v es) (.map l w fs) := by
  rw [Ty.comparable_map, opposed]
  rw [Ty.comparable] at hk hv
  simp only [Ty.strictlyBelow]
  -- each pair of types stands in one order or the other, so these four answers decide
  generalize k.leq l = kl at *
  generalize l.leq k = lk at *
  generalize v.leq w = vw at *
  generalize w.leq v = wv at *
  revert hk hv
  decide +revert

/-- The types of equal values are comparable, except for maps whose key types are in one order
and whose value types are in the other. -/
theorem comparable_of_beq {a b : Value} (h : (a == b) = true) :
    a.ty.comparable b.ty = !opposed a b := by
  change eqv a b = true at h
  cases a with
  | tuple fs ls xs =>
    obtain ⟨gs, ms, ys, rfl, hrow, -⟩ := exists_of_eqv_tuple h
    exact Ty.comparable_tuple.trans hrow
  | node g t n i xs j as =>
    obtain ⟨u, i', ys, j', bs, rfl, ht, -⟩ := exists_of_eqv_node h
    exact ht
  | set e xs =>
    obtain ⟨f, ys, rfl, he, -⟩ := exists_of_eqv_set h
    exact Ty.comparable_set.trans he
  | rel fs ls xs =>
    obtain ⟨gs, ms, ys, rfl, hrow, -⟩ := exists_of_eqv_rel h
    exact Ty.comparable_rel.trans hrow
  | list e xs =>
    obtain ⟨f, ys, rfl, he, -⟩ := exists_of_eqv_list h
    exact Ty.comparable_list.trans he
  | map k v es =>
    obtain ⟨l, w, fs, rfl, hk, hv, -⟩ := exists_of_eqv_map h
    exact comparable_map_eq_not_opposed hk hv
  | _ =>
    rw [ty_eq_of_leaf rfl h, Ty.comparable_refl]
    rfl

theorem comparable_of_beq_catalog : (catalog == widerCatalog) = true ∧
    catalog.ty.comparable widerCatalog.ty = !opposed catalog widerCatalog :=
  have h : (catalog == widerCatalog) = true := by decide +kernel
  ⟨h, comparable_of_beq h⟩

/-- An empty map and one whose key type is wider and whose value type is narrower. -/
theorem beq_opposed_maps :
    (map .int .value [] == map .value .int []) = true ∧
      (map .int .value []).ty.comparable (map .value .int []).ty = false := by
  decide +kernel

end Value

end ValueLattice

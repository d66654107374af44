import ValueLattice.Proofs.Ty.Bare
import ValueLattice.Proofs.Value.Hash
import ValueLattice.Proofs.Value.Table
import ValueLattice.Value.Node
import ValueLattice.Value.TypedList
import ValueLattice.Value.TypedMap
import ValueLattice.Value.TypedSet
/-!
# Values typed by their contents

Equality is not transitive where types are declared apart from contents. A value is `Inferred`
when no type in it was: it is a leaf, or was built from such values by an operation that finds
the type by itself. The type of such a value is bare, and it depends on the contents alone, not
on the order in which they were supplied. So among inferred values there is nothing more to
equality than agreement of digests (`Inferred.knownByDigest`), and that is an equivalence.

The proof is one induction. Two sets of one digest have their elements matched one to one, so by
induction the types of their elements are the same, and so are the joins of these types. Two
equal sets find the elements of the first in the second; no two elements of a table have one
digest, so none are found in one place, and the sets have one digest.

* `Inferred`, `Inferred.shape`: the values, and how they are put together;
* `Inferred.isBare_ty`: their types are bare;
* `KnownByDigest`, `Inferred.knownByDigest`: types and equality are told by digests;
* `inferred_equivalence`: equality is an equivalence, and equal values have one type and one
  hash.
-/

namespace ValueLattice

open Value

/-- The values that are typed by their contents alone, at every depth. -/
inductive Inferred : Value → Prop
  | leaf {v : Value} (h : v.isLeaf = true) : Inferred v
  | tuple {xs : List Value} (h : ∀ x ∈ xs, Inferred x) : Inferred (Tuple.ofValues xs).toValue
  /-- A plain node, without annotations. -/
  | node (c : Nat) (l : String) {xs : List Value} (h : ∀ x ∈ xs, Inferred x) :
    Inferred ((Node.plain c l xs).inGuise .plain)
  | list {xs : List Value} (h : ∀ x ∈ xs, Inferred x) :
    Inferred (TypedList.ofValues xs).val.toValue
  | set {xs : List Value} (h : ∀ x ∈ xs, Inferred x) : Inferred (TypedSet.ofValues xs).val.toValue
  | collect {xs : List Value} (h : ∀ x ∈ xs, Inferred x) : Inferred (collectValues xs).val
  /-- A map of entries of which no key equals an earlier one. -/
  | map {es : List (Value × Value)} (hk : ∀ e ∈ es, Inferred e.1) (hv : ∀ e ∈ es, Inferred e.2)
    (hes : es.Pairwise fun e f => (f.1 == e.1) = false) :
    Inferred (TypedMap.ofEntries es).val.toValue

variable {v x y : Value} {xs ys zs ws : List Value} {es fs : List (Value × Value)}

/-- The join of the types of values. -/
def joined (xs : List Value) : Ty := (xs.map Value.ty).foldl Ty.lub .void

theorem joined_snoc (xs : List Value) (x : Value) : joined (xs ++ [x]) = (joined xs).lub x.ty := by
  rw [joined, List.map_append, List.foldl_append]
  rfl

/-! ## Shapes -/

theorem toValue_ofValues_list :
    (TypedList.ofValues xs).val.toValue = .list (joined xs) xs := by
  change Value.list (Ty.joinAll .void (xs.map Value.ty)).val xs = _
  rw [Ty.joinAll_val, joined]

theorem toValue_ofValues_set :
    (TypedSet.ofValues xs).val.toValue = .set (joined xs) (Table.ofList xs) := by
  rw [TypedSet.ofValues_val, joined]
  rfl

theorem collectValues_val : (collectValues xs).val = collect (joined xs) (Table.ofList xs) := by
  change collect (Ty.joinAll .void (xs.map Value.ty)).val (Table.ofList xs) = _
  rw [Ty.joinAll_val, joined]

theorem toValue_ofEntries (h : es.Pairwise fun e f => (f.1 == e.1) = false) :
    (TypedMap.ofEntries es).val.toValue =
      .map (joined (es.map Prod.fst)) (joined (es.map Prod.snd)) es := by
  have hfinds : es.Pairwise fun e f => f.1.finds e.1 = false := h.imp finds_eq_false_of_beq
  rw [TypedMap.ofEntries_val, TypedMap.ofTable, EntryTable.putAll_eq_append (t := []) hfinds]
  rfl

/-- How a value that is typed by its contents is put together: its types are found from its
contents, and these are typed by their contents in turn. -/
def Inferred.Shape : Value → Prop
  | .tuple ts ls xs => ts = xs.map Value.ty ∧ ls = none ∧ ∀ x ∈ xs, Inferred x
  | .node _ t _ _ xs _ as => t = .node ∧ as = [] ∧ ∀ x ∈ xs, Inferred x
  | .list t xs => t = joined xs ∧ ∀ x ∈ xs, Inferred x
  | .set t xs => ∃ zs, (∀ z ∈ zs, Inferred z) ∧ t = joined zs ∧ xs = Table.ofList zs
  | .rel ts ls xs =>
    ∃ zs, (∀ z ∈ zs, Inferred z) ∧ (joined zs).strip = .tuple ts ls ∧ xs = Table.ofList zs
  | .map k t es => k = joined (es.map Prod.fst) ∧ t = joined (es.map Prod.snd) ∧
    (∀ e ∈ es, Inferred e.1) ∧ ∀ e ∈ es, Inferred e.2
  | _ => True

theorem Inferred.shape (h : Inferred v) : Inferred.Shape v := by
  cases h with
  | leaf h => cases v <;> trivial
  | tuple h => exact ⟨rfl, rfl, h⟩
  | node c l h => exact ⟨rfl, rfl, h⟩
  | list h =>
    rw [toValue_ofValues_list]
    exact ⟨rfl, h⟩
  | @set zs h =>
    rw [toValue_ofValues_set]
    exact ⟨zs, h, rfl, rfl⟩
  | @collect zs h =>
    rw [collectValues_val]
    unfold ValueLattice.collect
    split
    · next hs => exact ⟨zs, h, hs, rfl⟩
    · exact ⟨zs, h, rfl, rfl⟩
  | map hk hv hes =>
    rw [toValue_ofEntries hes]
    exact ⟨rfl, rfl, hk, hv⟩

/-! ## Bare types -/

theorem isBare_joined (h : ∀ x ∈ xs, x.ty.isBare = true) : (joined xs).isBare = true :=
  Ty.isBare_foldl_lub rfl (List.forall_mem_map.2 h)

theorem Inferred.isBare_ty (h : Inferred v) : v.ty.isBare = true := by
  induction h with
  | @leaf v h => cases v <;> first | rfl | cases h
  | tuple _ ih => exact Ty.isBareAll_iff.2 (List.forall_mem_map.2 ih)
  | node => rfl
  | list _ ih =>
    rw [toValue_ofValues_list]
    exact isBare_joined ih
  | set _ ih =>
    rw [toValue_ofValues_set]
    exact isBare_joined ih
  | @collect xs _ ih =>
    have hb : (joined xs).isBare = true := isBare_joined ih
    rw [collectValues_val]
    unfold ValueLattice.collect
    split
    · next ts ls hs =>
      rw [Ty.strip_of_isBare hb] at hs
      rw [hs] at hb
      exact hb
    · exact hb
  | map _ _ hes ihk ihv =>
    rw [toValue_ofEntries hes]
    exact Bool.and_eq_true_iff.2
      ⟨isBare_joined (List.forall_mem_map.2 ihk), isBare_joined (List.forall_mem_map.2 ihv)⟩

/-- Values with the same types have one join, in whatever order and however often they occur. -/
theorem joined_eq_of_types (hx : ∀ x ∈ xs, Inferred x) (hxy : ∀ x ∈ xs, ∃ y ∈ ys, x.ty = y.ty)
    (hyx : ∀ y ∈ ys, ∃ x ∈ xs, x.ty = y.ty) : joined xs = joined ys := by
  refine Ty.foldl_lub_eq_of_subset rfl
    (List.forall_mem_map.2 fun x hm => (hx x hm).isBare_ty) (fun t ht => ?_) fun t ht => ?_
  · obtain ⟨x, hm, rfl⟩ := List.mem_map.1 ht
    obtain ⟨y, hy, h⟩ := hxy x hm
    exact List.mem_map.2 ⟨y, hy, h.symm⟩
  · obtain ⟨y, hm, rfl⟩ := List.mem_map.1 ht
    obtain ⟨x, hx, h⟩ := hyx y hm
    exact List.mem_map.2 ⟨x, hx, h⟩

/-! ## Digests tell types and equality -/

/-- Among inferred values, those of `x`'s digest have its type and are equal to it, and no
others are. -/
structure KnownByDigest (x : Value) : Prop where
  ty_eq : ∀ y, Inferred y → sameDigest x y = true → x.ty = y.ty
  eqv_eq : ∀ y, Inferred y → eqv x y = sameDigest x y

theorem KnownByDigest.finds_eq (h : KnownByDigest x) (hy : Inferred y) :
    finds x y = sameDigest x y := by
  change (sameDigest x y && eqv x y) = sameDigest x y
  rw [h.eqv_eq y hy, Bool.and_self]

section Sequences

variable (hx : ∀ x ∈ xs, KnownByDigest x) (hy : ∀ y ∈ ys, Inferred y)

include hx hy

theorem eqvAll_eq_sameDigests : eqvAll xs ys = sameDigests xs ys := by
  induction xs generalizing ys with
  | nil => cases ys <;> simp only [eqvAll, sameDigests]
  | cons x xs ih =>
    cases ys with
    | nil => simp only [eqvAll, sameDigests]
    | cons y ys =>
      obtain ⟨hx, hxs⟩ := List.forall_mem_cons.1 hx
      obtain ⟨hy, hys⟩ := List.forall_mem_cons.1 hy
      rw [eqvAll, sameDigests, hx.eqv_eq y hy, ih hxs hys]

theorem map_ty_eq_of_sameDigests (h : sameDigests xs ys = true) :
    xs.map Value.ty = ys.map Value.ty :=
  map_eq_of_forall₂ (forall₂_and_right (sameDigests_iff.1 h) hy)
    fun x hm y hxy => (hx x hm).ty_eq y hxy.2 hxy.1

end Sequences

theorem knownByDigest_tuple (hx : ∀ x ∈ xs, KnownByDigest x) :
    KnownByDigest (.tuple (xs.map Value.ty) none xs) where
  ty_eq y hy h := by
    cases y <;> simp only [sameDigest, Bool.false_eq_true] at h
    obtain ⟨rfl, rfl, hys⟩ := hy.shape
    exact congrArg (Ty.tuple · none) (map_ty_eq_of_sameDigests hx hys h)
  eqv_eq y hy := by
    cases y <;> try (simp only [eqv, sameDigest]; done)
    obtain ⟨rfl, rfl, hys⟩ := hy.shape
    rw [eqv, sameDigest, eqvAll_eq_sameDigests hx hys, Bool.eq_iff_iff, Bool.and_eq_true]
    refine and_iff_right_of_imp fun h => ?_
    rw [map_ty_eq_of_sameDigests hx hys h, Ty.comparableRows, Ty.leqAll_refl, Bool.true_or]

theorem knownByDigest_node (c : Nat) (l : String) (hx : ∀ x ∈ xs, KnownByDigest x) :
    KnownByDigest ((Node.plain c l xs).inGuise .plain) where
  ty_eq y hy h := by
    cases y <;> simp only [Node.plain, Node.inGuise, sameDigest, Bool.false_eq_true] at h
    obtain ⟨rfl, -⟩ := hy.shape
    rfl
  eqv_eq y hy := by
    cases y <;> try (simp only [Node.plain, Node.inGuise, eqv, sameDigest]; done)
    obtain ⟨rfl, rfl, hys⟩ := hy.shape
    simp only [Node.plain, Node.inGuise, eqv, sameDigest, eqvAll_eq_sameDigests hx hys,
      Ty.comparable_refl, eqvAnnos, Bool.and_true]

theorem knownByDigest_list (hx : ∀ x ∈ xs, KnownByDigest x) :
    KnownByDigest (.list (joined xs) xs) where
  ty_eq y hy h := by
    cases y <;> simp only [sameDigest, Bool.false_eq_true] at h
    obtain ⟨rfl, hys⟩ := hy.shape
    rw [Value.ty, Value.ty, joined, joined, map_ty_eq_of_sameDigests hx hys h]
  eqv_eq y hy := by
    cases y <;> try (simp only [eqv, sameDigest]; done)
    obtain ⟨rfl, hys⟩ := hy.shape
    rw [eqv, sameDigest, eqvAll_eq_sameDigests hx hys, Bool.eq_iff_iff, Bool.and_eq_true]
    refine and_iff_right_of_imp fun h => ?_
    rw [joined, joined, map_ty_eq_of_sameDigests hx hys h, Ty.comparable_refl]

/-! ### Tables -/

/-- A value that is put into a table has the digest of an element. -/
theorem Table.exists_sameDigest (h : x ∈ xs) : ∃ y ∈ Table.ofList xs, sameDigest x y = true := by
  obtain ⟨y, hy, hxy⟩ := Table.exists_mem_ofList h
  refine ⟨y, hy, ?_⟩
  rcases hxy with rfl | hxy
  · exact sameDigest_refl y
  · exact sameDigest_of_finds hxy

section Tables

variable (hz : ∀ z ∈ zs, KnownByDigest z) (hi : ∀ z ∈ zs, Inferred z)

include hz hi

/-- No two elements of a table have one digest. -/
theorem countP_ofList_le_one (y : Value) : (Table.ofList zs).countP (sameDigest · y) ≤ 1 := by
  refine countP_le_one_of_pairwise ((Table.pairwise_ofList zs).imp_of_mem ?_)
  intro a b ha hb hba ⟨hay, hby⟩
  have hab : sameDigest b a = true := sameDigest_trans hby (sameDigest_symm hay)
  rw [(hz b (Table.mem_ofList hb)).finds_eq (hi a (Table.mem_ofList ha)), hab] at hba
  cases hba

theorem foundAll_ofList_iff (hy : ∀ y ∈ ys, Inferred y) :
    (Table.ofList zs).length = ys.length ∧ foundAll (Table.ofList zs) ys = true ↔
      sameDigestSum (Table.ofList zs) ys = true := by
  rw [sameDigestSum_iff]
  constructor
  · rintro ⟨hlen, hfound⟩
    refine oneToOne_of_unshared hlen (fun x hx => ?_) fun y _ => countP_ofList_le_one hz hi y
    obtain ⟨y, hy, hxy⟩ := foundAll_iff.1 hfound x hx
    exact ⟨y, hy, sameDigest_of_finds hxy, sameDigest_of_finds hxy⟩
  · intro h
    refine ⟨h.length_eq, foundAll_iff.2 fun x hx => ?_⟩
    obtain ⟨y, hm, hxy⟩ := h.exists_right hx
    exact ⟨y, hm, ((hz x (Table.mem_ofList hx)).finds_eq (hy y hm)).trans hxy⟩

/-- Tables of one digest hold values of the same types. -/
theorem joined_eq_of_sameDigestSum (hw : ∀ w ∈ ws, Inferred w)
    (h : sameDigestSum (Table.ofList zs) (Table.ofList ws) = true) : joined zs = joined ws := by
  rw [sameDigestSum_iff] at h
  refine joined_eq_of_types hi (fun z hm => ?_) fun w hm => ?_
  · obtain ⟨x, hx, hzx⟩ := Table.exists_sameDigest hm
    obtain ⟨y, hy, hxy⟩ := h.exists_right hx
    have hy : y ∈ ws := Table.mem_ofList hy
    exact ⟨y, hy, (hz z hm).ty_eq y (hw y hy) (sameDigest_trans hzx hxy)⟩
  · obtain ⟨y, hy, hwy⟩ := Table.exists_sameDigest hm
    obtain ⟨x, hx, hxy⟩ := h.exists_left hy
    have hx : x ∈ zs := Table.mem_ofList hx
    exact ⟨x, hx, (hz x hx).ty_eq w (hw w hm) (sameDigest_trans hxy (sameDigest_symm hwy))⟩

theorem knownByDigest_set : KnownByDigest (.set (joined zs) (Table.ofList zs)) where
  ty_eq y hy h := by
    cases y <;> simp only [sameDigest, Bool.false_eq_true] at h
    obtain ⟨ws, hw, rfl, rfl⟩ := hy.shape
    exact congrArg Ty.set (joined_eq_of_sameDigestSum hz hi hw h)
  eqv_eq y hy := by
    cases y <;> try (simp only [eqv, sameDigest]; done)
    obtain ⟨ws, hw, rfl, rfl⟩ := hy.shape
    have hw' : ∀ y ∈ Table.ofList ws, Inferred y := fun y hm => hw y (Table.mem_ofList hm)
    have hiff := foundAll_ofList_iff hz hi hw'
    rw [Bool.eq_iff_iff, eqv, sameDigest]
    simp only [Bool.and_eq_true, decide_eq_true_eq, and_assoc, hiff]
    refine and_iff_right_of_imp fun h => ?_
    rw [joined_eq_of_sameDigestSum hz hi hw h, Ty.comparable_refl]

theorem knownByDigest_rel {ts : List Ty} {ls : Option (List String)}
    (hs : (joined zs).strip = .tuple ts ls) : KnownByDigest (.rel ts ls (Table.ofList zs)) where
  ty_eq y hy h := by
    cases y <;> simp only [sameDigest, Bool.false_eq_true] at h
    obtain ⟨ws, hw, hs', rfl⟩ := hy.shape
    rw [joined_eq_of_sameDigestSum hz hi hw h, hs'] at hs
    cases hs
    rfl
  eqv_eq y hy := by
    cases y <;> try (simp only [eqv, sameDigest]; done)
    obtain ⟨ws, hw, hs', rfl⟩ := hy.shape
    have hw' : ∀ y ∈ Table.ofList ws, Inferred y := fun y hm => hw y (Table.mem_ofList hm)
    have hiff := foundAll_ofList_iff hz hi hw'
    rw [Bool.eq_iff_iff, eqv, sameDigest]
    simp only [Bool.and_eq_true, decide_eq_true_eq, and_assoc, hiff]
    refine and_iff_right_of_imp fun h => ?_
    rw [joined_eq_of_sameDigestSum hz hi hw h, hs'] at hs
    cases hs
    rw [Ty.comparableRows, Ty.leqAll_refl, Bool.true_or]

end Tables

/-! ### Tables of entries -/

/-- No two keys have one digest. -/
theorem countP_keys_le_one (hk : ∀ e ∈ es, KnownByDigest e.1) (hi : ∀ e ∈ es, Inferred e.1)
    (hes : es.Pairwise fun e f => (f.1 == e.1) = false) (k : Value) :
    es.countP (fun e => sameDigest e.1 k) ≤ 1 := by
  refine countP_le_one_of_pairwise (hes.imp_of_mem ?_)
  intro e f he hf hfe ⟨hek, hfk⟩
  have hef : sameDigest f.1 e.1 = true := sameDigest_trans hfk (sameDigest_symm hek)
  have heq : eqv f.1 e.1 = true := ((hk f hf).eqv_eq e.1 (hi e he)).trans hef
  exact Bool.false_ne_true (hfe.symm.trans heq)

section Entries

variable (hk : ∀ e ∈ es, KnownByDigest e.1) (hv : ∀ e ∈ es, KnownByDigest e.2)
  (hi : ∀ e ∈ es, Inferred e.1)

include hk hv hi

/-- Maps of one digest hold keys of the same types, and values of the same types. -/
theorem joined_eq_of_sameEntrySum (hiv : ∀ e ∈ es, Inferred e.2) (hfk : ∀ f ∈ fs, Inferred f.1)
    (hfv : ∀ f ∈ fs, Inferred f.2) (h : sameEntrySum es fs = true) :
    joined (es.map Prod.fst) = joined (fs.map Prod.fst) ∧
      joined (es.map Prod.snd) = joined (fs.map Prod.snd) := by
  rw [sameEntrySum_iff] at h
  have htypes (e) (he : e ∈ es) (f) (hf : f ∈ fs) (hef : sameEntryDigest e f = true) :
      e.1.ty = f.1.ty ∧ e.2.ty = f.2.ty := by
    obtain ⟨hkey, hval⟩ := Bool.and_eq_true_iff.1 hef
    exact ⟨(hk e he).ty_eq f.1 (hfk f hf) hkey, (hv e he).ty_eq f.2 (hfv f hf) hval⟩
  constructor
  · refine joined_eq_of_types (List.forall_mem_map.2 hi) (List.forall_mem_map.2 fun e he => ?_)
      (List.forall_mem_map.2 fun f hf => ?_)
    · obtain ⟨f, hf, hef⟩ := h.exists_right he
      exact ⟨f.1, List.mem_map_of_mem hf, (htypes e he f hf hef).1⟩
    · obtain ⟨e, he, hef⟩ := h.exists_left hf
      exact ⟨e.1, List.mem_map_of_mem he, (htypes e he f hf hef).1⟩
  · refine joined_eq_of_types (List.forall_mem_map.2 hiv) (List.forall_mem_map.2 fun e he => ?_)
      (List.forall_mem_map.2 fun f hf => ?_)
    · obtain ⟨f, hf, hef⟩ := h.exists_right he
      exact ⟨f.2, List.mem_map_of_mem hf, (htypes e he f hf hef).2⟩
    · obtain ⟨e, he, hef⟩ := h.exists_left hf
      exact ⟨e.2, List.mem_map_of_mem he, (htypes e he f hf hef).2⟩

theorem boundAll_iff_sameEntrySum (hes : es.Pairwise fun e f => (f.1 == e.1) = false)
    (hfk : ∀ f ∈ fs, Inferred f.1) (hfv : ∀ f ∈ fs, Inferred f.2) :
    es.length = fs.length ∧ boundAll es fs = true ↔ sameEntrySum es fs = true := by
  rw [sameEntrySum_iff]
  constructor
  · rintro ⟨hlen, hbound⟩
    refine oneToOne_of_unshared (m := fun e f => sameDigest e.1 f.1) hlen (fun e he => ?_)
      fun f _ => countP_keys_le_one hk hi hes f.1
    obtain ⟨f, hf, hef⟩ := boundAll_iff.1 hbound e he
    obtain ⟨hm, hfound⟩ := mem_and_finds_of_find? hf
    have hkey : sameDigest e.1 f.1 = true := sameDigest_of_finds hfound
    rw [(hv e he).eqv_eq f.2 (hfv f hm)] at hef
    exact ⟨f, hm, Bool.and_eq_true_iff.2 ⟨hkey, hef⟩, hkey⟩
  · intro h
    refine ⟨h.length_eq, boundAll_iff.2 fun e he => ?_⟩
    obtain ⟨g, hg, heg⟩ := h.exists_right he
    have hkey : finds e.1 g.1 = true :=
      ((hk e he).finds_eq (hfk g hg)).trans (Bool.and_eq_true_iff.1 heg).1
    obtain ⟨f, hf, hm, hfound⟩ := exists_find? hg hkey
    -- the key that is found has its partner on the left, which can only be `e`
    obtain ⟨e', he', hef⟩ := h.exists_left hm
    obtain ⟨hkey', hval⟩ := Bool.and_eq_true_iff.1 hef
    obtain rfl : e = e' :=
      eq_of_countP_le_one (countP_keys_le_one hk hi hes f.1) he he' (sameDigest_of_finds hfound)
        hkey'
    exact ⟨f, hf, ((hv e he).eqv_eq f.2 (hfv f hm)).trans hval⟩

theorem knownByDigest_map (hes : es.Pairwise fun e f => (f.1 == e.1) = false)
    (hiv : ∀ e ∈ es, Inferred e.2) :
    KnownByDigest (.map (joined (es.map Prod.fst)) (joined (es.map Prod.snd)) es) where
  ty_eq y hy h := by
    cases y <;> simp only [sameDigest, Bool.false_eq_true] at h
    obtain ⟨rfl, rfl, hfk, hfv⟩ := hy.shape
    obtain ⟨hkey, hval⟩ := joined_eq_of_sameEntrySum hk hv hi hiv hfk hfv h
    exact congrArg₂ Ty.map hkey hval
  eqv_eq y hy := by
    cases y <;> try (simp only [eqv, sameDigest]; done)
    obtain ⟨rfl, rfl, hfk, hfv⟩ := hy.shape
    have hiff := boundAll_iff_sameEntrySum hk hv hi hes hfk hfv
    rw [Bool.eq_iff_iff, eqv, sameDigest]
    simp only [Bool.and_eq_true, decide_eq_true_eq, and_assoc, hiff]
    rw [← and_assoc]
    refine and_iff_right_of_imp fun h => ?_
    obtain ⟨hkey, hval⟩ := joined_eq_of_sameEntrySum hk hv hi hiv hfk hfv h
    rw [hkey, hval]
    exact ⟨Ty.comparable_refl _, Ty.comparable_refl _⟩

end Entries

/-! ### All inferred values -/

theorem Inferred.knownByDigest (h : Inferred x) : KnownByDigest x := by
  induction h with
  | leaf h =>
    refine ⟨fun y _ hxy => ty_eq_of_leaf h ?_, fun y _ => eqv_leaf h⟩
    rw [eqv_leaf h, hxy]
  | tuple _ ih => exact knownByDigest_tuple ih
  | node c l _ ih => exact knownByDigest_node c l ih
  | list _ ih =>
    rw [toValue_ofValues_list]
    exact knownByDigest_list ih
  | set h ih =>
    rw [toValue_ofValues_set]
    exact knownByDigest_set ih h
  | collect h ih =>
    rw [collectValues_val]
    unfold ValueLattice.collect
    split
    · next hs => exact knownByDigest_rel ih h hs
    · exact knownByDigest_set ih h
  | map hk hv hes ihk ihv =>
    rw [toValue_ofEntries hes]
    exact knownByDigest_map ihk ihv hk hes hv

/-- Equality of inferred values is agreement of digests. -/
theorem Inferred.beq_eq (hx : Inferred x) (hy : Inferred y) : (x == y) = sameDigest x y :=
  hx.knownByDigest.eqv_eq y hy

theorem Inferred.finds_eq (hx : Inferred x) (hy : Inferred y) : x.finds y = sameDigest x y :=
  hx.knownByDigest.finds_eq hy

theorem Inferred.beq_self (hx : Inferred x) : (x == x) = true := by
  rw [hx.beq_eq hx, sameDigest_refl]

theorem Inferred.beq_symm (hx : Inferred x) (hy : Inferred y) (h : (x == y) = true) :
    (y == x) = true := by
  rw [hx.beq_eq hy] at h
  rw [hy.beq_eq hx]
  exact sameDigest_symm h

theorem Inferred.beq_trans (hx : Inferred x) (hy : Inferred y) (hv : Inferred v)
    (hxy : (x == y) = true) (hyv : (y == v) = true) : (x == v) = true := by
  rw [hx.beq_eq hy] at hxy
  rw [hy.beq_eq hv] at hyv
  rw [hx.beq_eq hv]
  exact sameDigest_trans hxy hyv

/-! ## The order in which contents are supplied -/

/-- Tables of inferred values with the same digests are equal as tables. -/
theorem sameDigestSum_ofList (hx : ∀ x ∈ xs, Inferred x) (hy : ∀ y ∈ ys, Inferred y)
    (hxy : ∀ x ∈ xs, ∃ y ∈ ys, sameDigest x y = true)
    (hyx : ∀ y ∈ ys, ∃ x ∈ xs, sameDigest y x = true) :
    sameDigestSum (Table.ofList xs) (Table.ofList ys) = true := by
  have hcover {xs ys : List Value} (hxy : ∀ x ∈ xs, ∃ y ∈ ys, sameDigest x y = true)
      (x) (hm : x ∈ Table.ofList xs) :
      ∃ y ∈ Table.ofList ys, sameDigest x y = true ∧ sameDigest x y = true := by
    obtain ⟨z, hz, hxz⟩ := hxy x (Table.mem_ofList hm)
    obtain ⟨y, hy, hzy⟩ := Table.exists_sameDigest hz
    exact ⟨y, hy, sameDigest_trans hxz hzy, sameDigest_trans hxz hzy⟩
  obtain ⟨zs, hzs, hsub⟩ := exists_subperm_of_unshared (hcover hxy) fun y _ =>
    countP_ofList_le_one (fun x hm => (hx x hm).knownByDigest) hx y
  obtain ⟨ws, hws, hsub'⟩ := exists_subperm_of_unshared (hcover hyx) fun x _ =>
    countP_ofList_le_one (fun y hm => (hy y hm).knownByDigest) hy x
  have hlen : (Table.ofList ys).length ≤ (Table.ofList xs).length :=
    hws.length_eq ▸ hsub'.length_le
  exact sameDigestSum_iff.2 ⟨zs, hzs, hsub.perm_of_length_le (hzs.length_eq ▸ hlen)⟩

theorem ofValues_beq_of_perm (h : ∀ x ∈ xs, Inferred x) (hperm : xs.Perm ys) :
    ((TypedSet.ofValues xs).val.toValue == (TypedSet.ofValues ys).val.toValue) = true := by
  have hys : ∀ y ∈ ys, Inferred y := fun y hy => h y (hperm.symm.subset hy)
  rw [(Inferred.set h).beq_eq (.set hys), toValue_ofValues_set, toValue_ofValues_set, sameDigest]
  exact sameDigestSum_ofList h hys (fun x hx => ⟨x, hperm.subset hx, sameDigest_refl x⟩)
    fun y hy => ⟨y, hperm.symm.subset hy, sameDigest_refl y⟩

theorem collectValues_beq_of_perm (h : ∀ x ∈ xs, Inferred x) (hperm : xs.Perm ys) :
    ((collectValues xs).val == (collectValues ys).val) = true := by
  have hys : ∀ y ∈ ys, Inferred y := fun y hy => h y (hperm.symm.subset hy)
  have htables : sameDigestSum (Table.ofList xs) (Table.ofList ys) = true :=
    sameDigestSum_ofList h hys (fun x hx => ⟨x, hperm.subset hx, sameDigest_refl x⟩)
      fun y hy => ⟨y, hperm.symm.subset hy, sameDigest_refl y⟩
  have hjoined : joined xs = joined ys :=
    joined_eq_of_types h (fun x hx => ⟨x, hperm.subset hx, rfl⟩)
      fun y hy => ⟨y, hperm.symm.subset hy, rfl⟩
  rw [(Inferred.collect h).beq_eq (.collect hys), collectValues_val, collectValues_val, hjoined]
  unfold collect
  split
  · exact (sameDigest.eq_def _ _).trans htables
  · exact (sameDigest.eq_def _ _).trans htables

theorem pairwise_of_perm (hk : ∀ e ∈ es, Inferred e.1)
    (hes : es.Pairwise fun e f => (f.1 == e.1) = false) (hperm : es.Perm fs) :
    fs.Pairwise fun e f => (f.1 == e.1) = false := by
  have hfk : ∀ f ∈ fs, Inferred f.1 := fun f hf => hk f (hperm.symm.subset hf)
  have hdigests : es.Pairwise fun e f => ¬ sameDigest f.1 e.1 = true := by
    refine hes.imp_of_mem fun {e f} he hf hfe => ?_
    rw [← (hk f hf).beq_eq (hk e he), hfe]
    exact Bool.false_ne_true
  have hdigests' : fs.Pairwise fun e f => ¬ sameDigest f.1 e.1 = true :=
    hperm.pairwise hdigests fun {_ _} h h' => h (sameDigest_symm h')
  refine hdigests'.imp_of_mem fun {e f} he hf hfe => ?_
  rw [(hfk f hf).beq_eq (hfk e he)]
  exact Bool.eq_false_iff.2 hfe

theorem ofEntries_beq_of_perm (hk : ∀ e ∈ es, Inferred e.1) (hv : ∀ e ∈ es, Inferred e.2)
    (hes : es.Pairwise fun e f => (f.1 == e.1) = false) (hperm : es.Perm fs) :
    ((TypedMap.ofEntries es).val.toValue == (TypedMap.ofEntries fs).val.toValue) = true := by
  have hfs : fs.Pairwise fun e f => (f.1 == e.1) = false := pairwise_of_perm hk hes hperm
  have hi : Inferred (TypedMap.ofEntries fs).val.toValue :=
    .map (fun f hf => hk f (hperm.symm.subset hf)) (fun f hf => hv f (hperm.symm.subset hf)) hfs
  rw [(Inferred.map hk hv hes).beq_eq hi, toValue_ofEntries hes, toValue_ofEntries hfs, sameDigest,
    sameEntrySum_iff]
  refine ⟨es, List.forall₂_same.2 fun e _ => ?_, hperm⟩
  rw [sameEntryDigest, sameDigest_refl, sameDigest_refl, Bool.and_self]

/-! ## Equality of inferred values -/

/-- **Equality is an equivalence of inferred values.** Equal ones are of one type and hashed alike
by every hasher, and sets and maps are equal in whatever order their contents are supplied. -/
theorem inferred_equivalence :
    Equivalence (fun a b : {v : Value // Inferred v} => (a.val == b.val) = true) ∧
      (∀ a b, Inferred a → Inferred b → (a == b) = true →
        a.ty = b.ty ∧ ∀ (d g : Hasher) (s : g.State), a.hash d g s = b.hash d g s) ∧
      (∀ xs ys, (∀ x ∈ xs, Inferred x) → xs.Perm ys →
        ((TypedSet.ofValues xs).val.toValue == (TypedSet.ofValues ys).val.toValue) = true ∧
          ((collectValues xs).val == (collectValues ys).val) = true) ∧
      ∀ es fs, (∀ e ∈ es, Inferred e.1) → (∀ e ∈ es, Inferred e.2) →
        es.Pairwise (fun e f => (f.1 == e.1) = false) → es.Perm fs →
        ((TypedMap.ofEntries es).val.toValue == (TypedMap.ofEntries fs).val.toValue) = true := by
  refine ⟨⟨fun a => ?_, fun {a b} h => ?_, fun {a b c} hab hbc => ?_⟩, fun a b ha hb h => ?_,
    ?_, ?_⟩
  · rw [a.2.beq_eq a.2, sameDigest_refl]
  · rw [a.2.beq_eq b.2] at h
    rw [b.2.beq_eq a.2, sameDigest_symm h]
  · rw [a.2.beq_eq b.2] at hab
    rw [b.2.beq_eq c.2] at hbc
    rw [a.2.beq_eq c.2, sameDigest_trans hab hbc]
  · rw [ha.beq_eq hb] at h
    refine ⟨ha.knownByDigest.ty_eq b hb h, fun d g s => ?_⟩
    rw [Value.hash, Value.hash, words_eq_of_sameDigest d h]
  · exact fun xs ys h hperm => ⟨ofValues_beq_of_perm h hperm, collectValues_beq_of_perm h hperm⟩
  · exact fun es fs hk hv hes hperm => ofEntries_beq_of_perm hk hv hes hperm

/-- A set of a set of numbers and zero. -/
def numbersAndZero : Value :=
  (TypedSet.ofValues [(TypedSet.ofValues [int 1, int 2]).val.toValue, double ⟨0⟩]).val.toValue

/-- The same set, put together in another order and with the other zero. -/
def zeroAndNumbers : Value :=
  (TypedSet.ofValues [double ⟨0x8000000000000000⟩,
    (TypedSet.ofValues [int 2, int 1, int 2]).val.toValue]).val.toValue

theorem inferred_numbersAndZero : Inferred numbersAndZero := by
  have hset : Inferred (TypedSet.ofValues [int 1, int 2]).val.toValue :=
    .set (List.forall_mem_cons.2 ⟨.leaf rfl, List.forall_mem_singleton.2 (.leaf rfl)⟩)
  exact .set (List.forall_mem_cons.2 ⟨hset, List.forall_mem_singleton.2 (.leaf rfl)⟩)

theorem inferred_zeroAndNumbers : Inferred zeroAndNumbers := by
  have hset : Inferred (TypedSet.ofValues [int 2, int 1, int 2]).val.toValue :=
    .set (List.forall_mem_cons.2 ⟨.leaf rfl, List.forall_mem_cons.2
      ⟨.leaf rfl, List.forall_mem_singleton.2 (.leaf rfl)⟩⟩)
  exact .set (List.forall_mem_cons.2 ⟨.leaf rfl, List.forall_mem_singleton.2 hset⟩)

/-- The entries of a map with two keys. -/
def twoEntries : List (Value × Value) := [(int 1, str "a"), (numbersAndZero, str "b")]

/-- The nested sets are equal, of one type and hashed alike; a set and a map equal those put
together in the other order. -/
theorem equivalence_numbersAndZero :
    ((numbersAndZero == zeroAndNumbers) = true ∧ numbersAndZero.ty = zeroAndNumbers.ty ∧
      ∀ (d g : Hasher) (s : g.State), numbersAndZero.hash d g s = zeroAndNumbers.hash d g s) ∧
    ((TypedSet.ofValues [numbersAndZero, int 1]).val.toValue ==
      (TypedSet.ofValues [int 1, numbersAndZero]).val.toValue) = true ∧
    ((TypedMap.ofEntries twoEntries).val.toValue ==
      (TypedMap.ofEntries twoEntries.reverse).val.toValue) = true := by
  have h : (numbersAndZero == zeroAndNumbers) = true := by decide +kernel
  have hkeys : (numbersAndZero == int 1) = false := by decide +kernel
  have hleaf : ∀ v : Value, v.isLeaf = true → Inferred v := fun _ => .leaf
  have hxs : ∀ x ∈ [numbersAndZero, int 1], Inferred x :=
    List.forall_mem_cons.2 ⟨inferred_numbersAndZero, List.forall_mem_singleton.2 (hleaf _ rfl)⟩
  have hk : ∀ e ∈ twoEntries, Inferred e.1 := List.forall_mem_cons.2
    ⟨hleaf _ rfl, List.forall_mem_singleton.2 inferred_numbersAndZero⟩
  have hv : ∀ e ∈ twoEntries, Inferred e.2 := List.forall_mem_cons.2
    ⟨hleaf _ rfl, List.forall_mem_singleton.2 (hleaf _ rfl)⟩
  have hes : twoEntries.Pairwise fun e f => (f.1 == e.1) = false :=
    List.pairwise_pair.2 hkeys
  exact ⟨⟨h, inferred_equivalence.2.1 numbersAndZero zeroAndNumbers inferred_numbersAndZero
      inferred_zeroAndNumbers h⟩,
    (inferred_equivalence.2.2.1 [numbersAndZero, int 1] [int 1, numbersAndZero] hxs
      (List.Perm.swap _ _ [])).1,
    inferred_equivalence.2.2.2 twoEntries twoEntries.reverse hk hv hes
      (List.reverse_perm twoEntries).symm⟩

end ValueLattice

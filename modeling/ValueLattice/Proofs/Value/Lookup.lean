import ValueLattice.Proofs.Value.Collections
import ValueLattice.Proofs.Value.Inferred
/-!
# Look-ups among values typed by their contents

A table keeps one of several equal values, and which one depends on the order in which they were put
in. Equality is not transitive, so a value of a declared type could find one of them and miss
another. It does not where the stored values are typed by their contents: those of one digest have
the same types throughout, and every value whatever is equal to all of them or to none (`steady`).
So a table finds exactly what one of the values finds that were put in.

The value that is looked for may have wider types than the one that is found, but no others, since
types that come from contents are the least ones (`aboveFound`). It also has the digest of every
value that it is equal to, whether or not that is stored (`sameDigest_of_eqv_of_inferred`).

* `Steady`, `steady`: equality with a value, among stored values of one digest;
* `Table.has_ofList_iff`: what a table finds;
* `AboveFound`, `aboveFound`: types of well-typed values, and of the values they find;
* `sameDigest_of_eqv_of_inferred`: equality with a value of a stored digest.

All three are proved by induction on the contents of the value that is looked for.
-/

namespace ValueLattice

open Value

variable {x y z : Value} {xs ys zs : List Value} {es fs gs : List (Value × Value)} {t : Ty}

/-- If the value is equal to one that is typed by its contents, it is equal to all those of the same
digest. -/
def Steady (x : Value) : Prop :=
  ∀ y z, Inferred y → Inferred z → sameDigest y z = true → eqv x y = true → eqv x z = true

theorem Steady.finds (h : Steady x) (hy : Inferred y) (hz : Inferred z)
    (hyz : sameDigest y z = true) (hxy : x.finds y = true) : x.finds z = true := by
  obtain ⟨hd, he⟩ := Bool.and_eq_true_iff.1 hxy
  exact Bool.and_eq_true_iff.2 ⟨sameDigest_trans hd hyz, h y z hy hz hyz he⟩

/-! ## Contents -/

theorem eqvAll_of_sameDigests (h : ∀ x ∈ xs, Steady x) (hy : ∀ y ∈ ys, Inferred y)
    (hz : ∀ z ∈ zs, Inferred z) (hyz : sameDigests ys zs = true) (hxy : eqvAll xs ys = true) :
    eqvAll xs zs = true := by
  rw [sameDigests_iff] at hyz
  induction hyz generalizing xs with
  | nil => exact hxy
  | @cons y z ys zs hyz _ ih =>
    cases xs with
    | nil => simp [eqvAll] at hxy
    | cons x xs =>
      obtain ⟨hx, hxs⟩ := List.forall_mem_cons.1 h
      obtain ⟨hy, hys⟩ := List.forall_mem_cons.1 hy
      obtain ⟨hz, hzs⟩ := List.forall_mem_cons.1 hz
      rw [eqvAll, Bool.and_eq_true] at hxy ⊢
      exact ⟨hx y z hy hz hyz hxy.1, ih hxs hys hzs hxy.2⟩

theorem foundAll_of_sameDigestSum (h : ∀ x ∈ xs, Steady x) (hy : ∀ y ∈ ys, Inferred y)
    (hz : ∀ z ∈ zs, Inferred z) (hyz : sameDigestSum ys zs = true) (hxy : foundAll xs ys = true) :
    foundAll xs zs = true := by
  rw [foundAll_iff] at hxy ⊢
  intro x hx
  obtain ⟨y, hm, hfinds⟩ := hxy x hx
  obtain ⟨z, hn, hd⟩ := (sameDigestSum_iff.1 hyz).exists_right hm
  exact ⟨z, hn, (h x hx).finds (hy y hm) (hz z hn) hd hfinds⟩

theorem Inferred.forall_mem_set {t : Ty} (h : Inferred (.set t ys)) : ∀ y ∈ ys, Inferred y := by
  obtain ⟨zs, hzs, -, rfl⟩ := h.shape
  exact fun y hy => hzs y (Table.mem_ofList hy)

theorem Inferred.forall_mem_rel {ts : List Ty} {ls : Option (List String)}
    (h : Inferred (.rel ts ls ys)) : ∀ y ∈ ys, Inferred y := by
  obtain ⟨zs, hzs, -, rfl⟩ := h.shape
  exact fun y hy => hzs y (Table.mem_ofList hy)

/-- No two keys of a map that is typed by its contents are equal. -/
theorem Inferred.pairwise_keys {k v : Ty} (h : Inferred (.map k v es)) :
    es.Pairwise fun e f => (f.1 == e.1) = false := by
  generalize hm : Value.map k v es = m at h
  cases h with
  | leaf h =>
    rw [← hm] at h
    simp [isLeaf] at h
  | collect h =>
    rw [collectValues_val] at hm
    unfold ValueLattice.collect at hm
    split at hm <;> cases hm
  | map hk hv hes =>
    rw [toValue_ofEntries hes] at hm
    obtain ⟨-, -, rfl⟩ := Value.map.inj hm
    exact hes
  | _ => cases hm

/-- A map that is typed by its contents has one entry for a digest of keys. -/
theorem eq_of_sameDigest_keys {e f : Value × Value} (hi : ∀ f ∈ fs, Inferred f.1)
    (hfs : fs.Pairwise fun e f => (f.1 == e.1) = false) (he : e ∈ fs) (hf : f ∈ fs)
    (h : sameDigest e.1 f.1 = true) : e = f :=
  eq_of_countP_le_one (countP_keys_le_one (fun f hm => (hi f hm).knownByDigest) hi hfs f.1) he hf h
    (sameDigest_refl f.1)

theorem boundAll_of_sameEntrySum (hk : ∀ e ∈ es, Steady e.1) (hv : ∀ e ∈ es, Steady e.2)
    (hf : ∀ f ∈ fs, Inferred f.1 ∧ Inferred f.2) (hg : ∀ g ∈ gs, Inferred g.1 ∧ Inferred g.2)
    (hfs : fs.Pairwise fun e f => (f.1 == e.1) = false) (hfg : sameEntrySum fs gs = true)
    (h : boundAll es fs = true) : boundAll es gs = true := by
  rw [boundAll_iff] at h ⊢
  rw [sameEntrySum_iff] at hfg
  intro e he
  obtain ⟨f, hfound, hef⟩ := h e he
  obtain ⟨hm, hkey⟩ := mem_and_finds_of_find? hfound
  obtain ⟨g, hgm, hd⟩ := hfg.exists_right hm
  have heg : e.1.finds g.1 = true :=
    (hk e he).finds (hf f hm).1 (hg g hgm).1 (Bool.and_eq_true_iff.1 hd).1 hkey
  obtain ⟨g', hfound', hgm', hkey'⟩ := exists_find? hgm heg
  refine ⟨g', hfound', ?_⟩
  -- the entry that is found now has a partner, whose key is that of the entry found before
  obtain ⟨f', hm', hd'⟩ := hfg.exists_left hgm'
  obtain ⟨hdk, hdv⟩ := Bool.and_eq_true_iff.1 hd'
  have hff : sameDigest f.1 f'.1 = true :=
    sameDigest_trans (sameDigest_symm (sameDigest_of_finds hkey))
      (sameDigest_trans (sameDigest_of_finds hkey') (sameDigest_symm hdk))
  obtain rfl : f = f' := eq_of_sameDigest_keys (fun f hm => (hf f hm).1) hfs hm hm' hff
  exact hv e he f.2 g'.2 (hf f hm).2 (hg g' hgm').2 hdv hef

/-! ## All values -/

/-- Every value is equal to all values of one digest that are typed by their contents, or to none of
them. -/
theorem steady (x : Value) : Steady x := by
  induction x using contents_induction with
  | leaf v hv =>
    intro y z _ _ hyz hxy
    rw [eqv_leaf hv] at hxy ⊢
    exact sameDigest_trans hxy hyz
  | tuple ts ls xs ih =>
    intro y z hy hz hyz hxy
    have hty : y.ty = z.ty := hy.knownByDigest.ty_eq z hz hyz
    obtain ⟨us, ms, ys, rfl, hrow, hxs⟩ := exists_of_eqv_tuple hxy
    cases z <;> simp only [sameDigest, Bool.false_eq_true] at hyz
    cases hty
    obtain ⟨-, -, hys⟩ := hy.shape
    obtain ⟨-, -, hzs⟩ := hz.shape
    rw [eqv, hrow, Bool.true_and]
    exact eqvAll_of_sameDigests ih hys hzs hyz hxs
  | node g t n i xs j as ih _ =>
    intro y z hy hz hyz hxy
    obtain ⟨u, i', ys, j', bs, rfl, ht, hxs, has⟩ := exists_of_eqv_node hxy
    cases z <;> simp only [sameDigest, Bool.false_eq_true] at hyz
    obtain ⟨rfl, rfl, hys⟩ := hy.shape
    obtain ⟨rfl, rfl, hzs⟩ := hz.shape
    simp only [Bool.and_eq_true, decide_eq_true_eq] at hyz
    obtain ⟨⟨rfl, rfl⟩, hyz⟩ := hyz
    simp [eqv, ht, has, eqvAll_of_sameDigests ih hys hzs hyz hxs]
  | set e xs ih =>
    intro y z hy hz hyz hxy
    have hty : y.ty = z.ty := hy.knownByDigest.ty_eq z hz hyz
    obtain ⟨f, ys, rfl, he, hlen, hfound⟩ := exists_of_eqv_set hxy
    cases z <;> simp only [sameDigest, Bool.false_eq_true] at hyz
    cases hty
    rw [(sameDigestSum_iff.1 hyz).length_eq] at hlen
    have hzs := foundAll_of_sameDigestSum ih hy.forall_mem_set hz.forall_mem_set hyz hfound
    simp [eqv, he, hlen, hzs]
  | rel ts ls xs ih =>
    intro y z hy hz hyz hxy
    have hty : y.ty = z.ty := hy.knownByDigest.ty_eq z hz hyz
    obtain ⟨us, ms, ys, rfl, hrow, hlen, hfound⟩ := exists_of_eqv_rel hxy
    cases z <;> simp only [sameDigest, Bool.false_eq_true] at hyz
    cases hty
    rw [(sameDigestSum_iff.1 hyz).length_eq] at hlen
    have hzs := foundAll_of_sameDigestSum ih hy.forall_mem_rel hz.forall_mem_rel hyz hfound
    simp [eqv, hrow, hlen, hzs]
  | list e xs ih =>
    intro y z hy hz hyz hxy
    have hty : y.ty = z.ty := hy.knownByDigest.ty_eq z hz hyz
    obtain ⟨f, ys, rfl, he, hxs⟩ := exists_of_eqv_list hxy
    cases z <;> simp only [sameDigest, Bool.false_eq_true] at hyz
    cases hty
    rw [eqv, he, Bool.true_and]
    exact eqvAll_of_sameDigests ih hy.shape.2 hz.shape.2 hyz hxs
  | map k v es ih =>
    intro y z hy hz hyz hxy
    have hty : y.ty = z.ty := hy.knownByDigest.ty_eq z hz hyz
    obtain ⟨l, w, fs, rfl, hk, hv, hlen, hbound⟩ := exists_of_eqv_map hxy
    cases z <;> simp only [sameDigest, Bool.false_eq_true] at hyz
    cases hty
    obtain ⟨-, -, hfk, hfv⟩ := hy.shape
    obtain ⟨-, -, hgk, hgv⟩ := hz.shape
    rw [(sameEntrySum_iff.1 hyz).length_eq] at hlen
    have hgs := boundAll_of_sameEntrySum (fun e he => (ih e he).1) (fun e he => (ih e he).2)
      (fun f hf => ⟨hfk f hf, hfv f hf⟩) (fun g hg => ⟨hgk g hg, hgv g hg⟩) hy.pairwise_keys
      hyz hbound
    simp [eqv, hk, hv, hlen, hgs]

/-! ## Tables -/

/-- What a table finds, one of the values finds that were put in, and the other way round. -/
theorem Table.has_ofList_iff (h : ∀ y ∈ xs, Inferred y) :
    has (ofList xs) x = true ↔ ∃ y ∈ xs, x.finds y = true := by
  rw [has, List.any_eq_true]
  constructor
  · rintro ⟨y, hy, hxy⟩
    exact ⟨y, mem_ofList hy, hxy⟩
  · rintro ⟨y, hy, hxy⟩
    obtain ⟨z, hz, hyz⟩ := exists_sameDigest hy
    exact ⟨z, hz, (steady x).finds (h y hy) (h z (mem_ofList hz)) hyz hxy⟩

/-! ## Least types -/

theorem Inferred.wellTyped (h : Inferred x) : x.WellTyped := by
  induction h with
  | leaf h => exact .leaf h
  | tuple _ ih => exact wellTyped_tuple_iff.2 (forall₂_hasTy_self ih)
  | node c l _ ih => exact .plain ih nofun
  | @list xs _ ih => exact (ListCall.ofValues xs).wellTyped ih
  | set _ ih => exact TypedSet.wellTyped_ofValues ih
  | collect _ ih => exact wellTyped_collectValues ih
  | map _ _ _ ihk ihv => exact TypedMap.wellTyped_ofEntries fun e he => ⟨ihk e he, ihv e he⟩

theorem forall₂_finds (hd : sameDigests xs ys = true) (he : eqvAll xs ys = true) :
    List.Forall₂ (fun x y => x.finds y = true) xs ys := by
  rw [sameDigests_iff] at hd
  induction hd with
  | nil => exact .nil
  | cons hxy _ ih =>
    rw [eqvAll, Bool.and_eq_true] at he
    exact .cons (Bool.and_eq_true_iff.2 ⟨hxy, he.1⟩) (ih he.2)

/-- Every value that was put into a table is found by a value of an equal set. -/
theorem exists_finds_of_foundAll (hz : ∀ z ∈ zs, Inferred z)
    (hd : sameDigestSum xs (Table.ofList zs) = true) (h : foundAll xs (Table.ofList zs) = true) :
    ∀ z ∈ zs, ∃ x ∈ xs, x.finds z = true := by
  intro z hm
  obtain ⟨y, hy, hzy⟩ := Table.exists_sameDigest hm
  obtain ⟨x, hx, hxy⟩ := (sameDigestSum_iff.1 hd).exists_left hy
  obtain ⟨y', hy', hxy'⟩ := foundAll_iff.1 h x hx
  have hyz : sameDigest y' z = true := sameDigest_trans
    (sameDigest_symm (sameDigest_of_finds hxy')) (sameDigest_trans hxy (sameDigest_symm hzy))
  exact ⟨x, hx, (steady x).finds (hz y' (Table.mem_ofList hy')) (hz z hm) hyz hxy'⟩

/-- Every entry of a map is found by an entry of an equal map. -/
theorem exists_finds_of_boundAll (hf : ∀ f ∈ fs, Inferred f.1)
    (hfs : fs.Pairwise fun e f => (f.1 == e.1) = false) (hd : sameEntrySum es fs = true)
    (h : boundAll es fs = true) :
    ∀ f ∈ fs, ∃ e ∈ es, e.1.finds f.1 = true ∧ e.2.finds f.2 = true := by
  intro f hm
  obtain ⟨e, he, hef⟩ := (sameEntrySum_iff.1 hd).exists_left hm
  obtain ⟨hdk, hdv⟩ := Bool.and_eq_true_iff.1 hef
  obtain ⟨f', hfound, hv⟩ := boundAll_iff.1 h e he
  obtain ⟨hm', hk⟩ := mem_and_finds_of_find? hfound
  obtain rfl : f' = f :=
    eq_of_sameDigest_keys hf hfs hm' hm
      (sameDigest_trans (sameDigest_symm (sameDigest_of_finds hk)) hdk)
  exact ⟨e, he, hk, Bool.and_eq_true_iff.2 ⟨hdv, hv⟩⟩

/-- The type of `x` is above those of the inferred values that a table takes for it. -/
def AboveFound (x : Value) : Prop := ∀ y, Inferred y → x.finds y = true → y.ty.leq x.ty = true

theorem leqAll_of_finds (h : ∀ x ∈ xs, AboveFound x) (hy : ∀ y ∈ ys, Inferred y)
    (hxy : List.Forall₂ (fun x y => x.finds y = true) xs ys) :
    Ty.leqAll (ys.map Value.ty) (xs.map Value.ty) = true := by
  rw [Ty.leqAll_iff_forall₂, List.forall₂_map_left_iff, List.forall₂_map_right_iff]
  exact (forall₂_imp_of_mem (forall₂_and_right hxy hy)
    fun x hx y hfound => h x hx y hfound.2 hfound.1).flip

theorem joined_leq_of_finds (h : ∀ x ∈ xs, AboveFound x) (hx : ∀ x ∈ xs, x.ty.leq t = true)
    (hz : ∀ z ∈ zs, Inferred z) (hxz : ∀ z ∈ zs, ∃ x ∈ xs, x.finds z = true) :
    (joined zs).leq t = true := by
  refine Ty.foldl_lub_leq (Ty.leq_of_below (.bottom _)) (List.forall_mem_map.2 fun z hm => ?_)
  obtain ⟨x, hxm, hfound⟩ := hxz z hm
  exact Ty.leq_trans z.ty (h x hxm z (hz z hm) hfound) (hx x hxm)

/-- A node that is typed by its contents is a plain one. -/
theorem Inferred.guise_eq {g : Guise} {n : String} {i j : Nat} {as : List (String × Value)}
    (h : Inferred (.node g t n i xs j as)) : g = .plain := by
  generalize hm : Value.node g t n i xs j as = m at h
  cases h with
  | leaf h =>
    rw [← hm] at h
    simp [isLeaf] at h
  | node c l h => exact (Value.node.inj hm).1
  | list => cases hm
  | collect h =>
    rw [collectValues_val] at hm
    unfold ValueLattice.collect at hm
    split at hm <;> cases hm
  | map hk hv hes =>
    rw [toValue_ofEntries hes] at hm
    cases hm
  | _ => cases hm

/-- A value that is typed by its contents has the least type of all values that are equal to it. -/
theorem aboveFound (h : x.WellTyped) : AboveFound x := by
  induction x using contents_induction with
  | leaf v hv =>
    intro y _ hxy
    rw [ty_eq_of_leaf hv (Bool.and_eq_true_iff.1 hxy).2]
    exact Ty.leq_refl y.ty
  | tuple ts ls xs ih =>
    intro y hy hxy
    obtain ⟨hd, he⟩ := Bool.and_eq_true_iff.1 hxy
    obtain ⟨us, ms, ys, rfl, -, hxs⟩ := exists_of_eqv_tuple he
    rw [sameDigest] at hd
    obtain ⟨rfl, rfl, hys⟩ := hy.shape
    obtain ⟨hts, hw⟩ := forall₂_hasTy_iff.1 (wellTyped_tuple_iff.1 h)
    have hle : Ty.leqAll (ys.map Value.ty) (xs.map Value.ty) = true :=
      leqAll_of_finds (fun x hx => ih x hx (hw x hx)) hys (forall₂_finds hd hxs)
    exact Ty.leq_of_below (.tuple (Ty.leqAll_trans _ hle hts))
  | node g t n i xs j as _ _ =>
    intro y hy hxy
    obtain ⟨u, i', ys, j', bs, rfl, -⟩ := exists_of_eqv_node (Bool.and_eq_true_iff.1 hxy).2
    obtain rfl := hy.guise_eq
    obtain ⟨rfl, -, -⟩ := hy.shape
    cases h with
    | leaf h => simp [isLeaf] at h
    | plain => exact Ty.leq_refl .node
  | set e xs ih =>
    intro y hy hxy
    obtain ⟨hd, he⟩ := Bool.and_eq_true_iff.1 hxy
    obtain ⟨f, ys, rfl, -, -, hfound⟩ := exists_of_eqv_set he
    rw [sameDigest] at hd
    obtain ⟨zs, hzs, rfl, rfl⟩ := hy.shape
    have hx : ∀ x ∈ xs, x.HasTy e := wellTyped_set_iff.1 h
    have hle : (joined zs).leq e = true :=
      joined_leq_of_finds (fun x hm => ih x hm (hx x hm).1) (fun x hm => (hx x hm).2) hzs
        (exists_finds_of_foundAll hzs hd hfound)
    exact Ty.leq_of_below (.set hle)
  | rel ts ls xs ih =>
    intro y hy hxy
    obtain ⟨hd, he⟩ := Bool.and_eq_true_iff.1 hxy
    obtain ⟨us, ms, ys, rfl, -, -, hfound⟩ := exists_of_eqv_rel he
    rw [sameDigest] at hd
    obtain ⟨zs, hzs, hjoined, rfl⟩ := hy.shape
    have hx : ∀ x ∈ xs, x.HasTy (.tuple ts ls) := wellTyped_rel_iff.1 h
    have hle : (joined zs).leq (.tuple ts ls) = true :=
      joined_leq_of_finds (fun x hm => ih x hm (hx x hm).1) (fun x hm => (hx x hm).2) hzs
        (exists_finds_of_foundAll hzs hd hfound)
    rw [Ty.leq_iff_below, hjoined] at hle
    cases hle with
    | tuple hle => exact Ty.leq_of_below (.rel hle)
  | list e xs ih =>
    intro y hy hxy
    obtain ⟨hd, he⟩ := Bool.and_eq_true_iff.1 hxy
    obtain ⟨f, ys, rfl, -, hxs⟩ := exists_of_eqv_list he
    rw [sameDigest] at hd
    obtain ⟨rfl, hys⟩ := hy.shape
    have hx : ∀ x ∈ xs, x.HasTy e := wellTyped_list_iff.1 h
    have hfound : OneToOne (fun x y => x.finds y = true) xs ys :=
      ⟨ys, forall₂_finds hd hxs, .refl ys⟩
    have hle : (joined ys).leq e = true :=
      joined_leq_of_finds (fun x hm => ih x hm (hx x hm).1) (fun x hm => (hx x hm).2) hys
        fun y hm => hfound.exists_left hm
    exact Ty.leq_of_below (.list hle)
  | map k v es ih =>
    intro y hy hxy
    obtain ⟨hd, he⟩ := Bool.and_eq_true_iff.1 hxy
    obtain ⟨l, w, fs, rfl, -, -, -, hbound⟩ := exists_of_eqv_map he
    rw [sameDigest] at hd
    obtain ⟨rfl, rfl, hfk, hfv⟩ := hy.shape
    have hx : ∀ e ∈ es, e.1.HasTy k ∧ e.2.HasTy v := wellTyped_map_iff.1 h
    have hfound := exists_finds_of_boundAll hfk hy.pairwise_keys hd hbound
    have hkey : (joined (fs.map Prod.fst)).leq k = true :=
      joined_leq_of_finds (List.forall_mem_map.2 fun e hm => (ih e hm).1 (hx e hm).1.1)
        (List.forall_mem_map.2 fun e hm => (hx e hm).1.2) (List.forall_mem_map.2 hfk)
        (List.forall_mem_map.2 fun f hm => by
          obtain ⟨e, he, hek, -⟩ := hfound f hm
          exact ⟨e.1, List.mem_map_of_mem he, hek⟩)
    have hval : (joined (fs.map Prod.snd)).leq v = true :=
      joined_leq_of_finds (List.forall_mem_map.2 fun e hm => (ih e hm).2 (hx e hm).2.1)
        (List.forall_mem_map.2 fun e hm => (hx e hm).2.2) (List.forall_mem_map.2 hfv)
        (List.forall_mem_map.2 fun f hm => by
          obtain ⟨e, he, -, hev⟩ := hfound f hm
          exact ⟨e.2, List.mem_map_of_mem he, hev⟩)
    exact Ty.leq_of_below (.map hkey hval)

/-! ## Equal values of known digests -/

theorem sameDigests_of_eqvAll
    (ih : ∀ x ∈ xs, ∀ y z, Inferred z → sameDigest x z = true → eqv x y = true →
      sameDigest x y = true)
    (hz : ∀ z ∈ zs, Inferred z) (hd : sameDigests xs zs = true) (h : eqvAll xs ys = true) :
    sameDigests xs ys = true := by
  rw [sameDigests_iff] at hd
  induction hd generalizing ys with
  | nil =>
    cases ys with
    | nil => rw [sameDigests]
    | cons y ys => simp [eqvAll] at h
  | @cons x z xs zs hxz _ ihs =>
    cases ys with
    | nil => simp [eqvAll] at h
    | cons y ys =>
      obtain ⟨hx, hxs⟩ := List.forall_mem_cons.1 ih
      obtain ⟨hz, hzs⟩ := List.forall_mem_cons.1 hz
      rw [eqvAll, Bool.and_eq_true] at h
      rw [sameDigests, hx y z hz hxz h.1, ihs hxs hzs h.2, Bool.and_self]

/-- Where partners have keys of one digest, as many keys on either side have the digest of `y`. -/
theorem countP_eq_of_oneToOne {α : Type} {r : α → α → Prop} {k : α → Value} {as bs : List α}
    (h : OneToOne r as bs) (hr : ∀ a ∈ as, ∀ b, r a b → sameDigest (k a) (k b) = true)
    (y : Value) :
    as.countP (fun a => sameDigest (k a) y) = bs.countP fun b => sameDigest (k b) y := by
  have hperm : (as.map fun a => sameDigest (k a) y).Perm (bs.map fun b => sameDigest (k b) y) :=
    h.map_perm fun a ha b hab => Bool.eq_iff_iff.2
      ⟨sameDigest_trans (sameDigest_symm (hr a ha b hab)), sameDigest_trans (hr a ha b hab)⟩
  have hcount := hperm.countP_eq id
  rwa [List.countP_map, List.countP_map] at hcount

theorem sameDigestSum_of_foundAll_of_inferred (hz : ∀ z ∈ zs, Inferred z)
    (hd : sameDigestSum xs (Table.ofList zs) = true) (hlen : xs.length = ys.length)
    (h : foundAll xs ys = true) : sameDigestSum xs ys = true := by
  refine sameDigestSum_iff.2
    (oneToOne_of_unshared (m := sameDigest) hlen (fun x hx => ?_) fun y _ => ?_)
  · obtain ⟨y, hy, hxy⟩ := foundAll_iff.1 h x hx
    exact ⟨y, hy, sameDigest_of_finds hxy, sameDigest_of_finds hxy⟩
  · have hcount : xs.countP (sameDigest · y) = (Table.ofList zs).countP (sameDigest · y) :=
      countP_eq_of_oneToOne (k := id) (sameDigestSum_iff.1 hd) (fun _ _ _ hxz => hxz) y
    rw [hcount]
    exact countP_ofList_le_one (fun z hm => (hz z hm).knownByDigest) hz y

theorem sameEntrySum_of_boundAll_of_inferred
    (ih : ∀ e ∈ es, ∀ y z, Inferred z → sameDigest e.2 z = true → eqv e.2 y = true →
      sameDigest e.2 y = true)
    (hg : ∀ g ∈ gs, Inferred g.1 ∧ Inferred g.2)
    (hgs : gs.Pairwise fun e f => (f.1 == e.1) = false) (hd : sameEntrySum es gs = true)
    (hlen : es.length = fs.length) (h : boundAll es fs = true) : sameEntrySum es fs = true := by
  have hpart : OneToOne (sameEntryDigest · ·) es gs := sameEntrySum_iff.1 hd
  refine sameEntrySum_iff.2 (oneToOne_of_unshared (m := fun e f => sameDigest e.1 f.1) hlen
    (fun e he => ?_) fun f _ => ?_)
  · obtain ⟨f, hfound, hef⟩ := boundAll_iff.1 h e he
    obtain ⟨hm', hkey⟩ := mem_and_finds_of_find? hfound
    have hk : sameDigest e.1 f.1 = true := sameDigest_of_finds hkey
    obtain ⟨g, hm, heg⟩ := hpart.exists_right he
    have hv : sameDigest e.2 f.2 = true :=
      ih e he f.2 g.2 (hg g hm).2 (Bool.and_eq_true_iff.1 heg).2 hef
    exact ⟨f, hm', Bool.and_eq_true_iff.2 ⟨hk, hv⟩, hk⟩
  · rw [countP_eq_of_oneToOne (k := Prod.fst) hpart
      (fun _ _ _ heg => (Bool.and_eq_true_iff.1 heg).1) f.1]
    exact countP_keys_le_one (fun g hm => (hg g hm).1.knownByDigest) (fun g hm => (hg g hm).1)
      hgs f.1

/-- A value of the digest of an inferred one has the digests of all values it is equal to: no two
of its contents have one digest, so none meet in one place. -/
theorem sameDigest_of_eqv_of_inferred (hz : Inferred z) (hd : sameDigest x z = true)
    (h : eqv x y = true) : sameDigest x y = true := by
  induction x using contents_induction generalizing y z with
  | leaf v hv => rwa [eqv_leaf hv] at h
  | tuple ts ls xs ih =>
    obtain ⟨us, ms, ys, rfl, -, hxs⟩ := exists_of_eqv_tuple h
    cases z <;> simp only [sameDigest, Bool.false_eq_true] at hd
    obtain ⟨-, -, hzs⟩ := hz.shape
    rw [sameDigest]
    exact sameDigests_of_eqvAll (fun x hm y z hz => ih x hm hz) hzs hd hxs
  | node g t n i xs j as ih _ =>
    obtain ⟨u, i', ys, j', bs, rfl, -, hxs, -⟩ := exists_of_eqv_node h
    cases z <;> simp only [sameDigest, Bool.false_eq_true] at hd
    obtain ⟨-, -, hzs⟩ := hz.shape
    have hys : sameDigests xs ys = true :=
      sameDigests_of_eqvAll (fun x hm y z hz => ih x hm hz) hzs (Bool.and_eq_true_iff.1 hd).2 hxs
    simp [sameDigest, hys]
  | set e xs ih =>
    obtain ⟨f, ys, rfl, -, hlen, hfound⟩ := exists_of_eqv_set h
    cases z <;> simp only [sameDigest, Bool.false_eq_true] at hd
    obtain ⟨zs, hzs, -, rfl⟩ := hz.shape
    rw [sameDigest]
    exact sameDigestSum_of_foundAll_of_inferred hzs hd hlen hfound
  | rel ts ls xs ih =>
    obtain ⟨us, ms, ys, rfl, -, hlen, hfound⟩ := exists_of_eqv_rel h
    cases z <;> simp only [sameDigest, Bool.false_eq_true] at hd
    obtain ⟨zs, hzs, -, rfl⟩ := hz.shape
    rw [sameDigest]
    exact sameDigestSum_of_foundAll_of_inferred hzs hd hlen hfound
  | list e xs ih =>
    obtain ⟨f, ys, rfl, -, hxs⟩ := exists_of_eqv_list h
    cases z <;> simp only [sameDigest, Bool.false_eq_true] at hd
    rw [sameDigest]
    exact sameDigests_of_eqvAll (fun x hm y z hz => ih x hm hz) hz.shape.2 hd hxs
  | map k v es ih =>
    obtain ⟨l, w, fs, rfl, -, -, hlen, hbound⟩ := exists_of_eqv_map h
    cases z <;> simp only [sameDigest, Bool.false_eq_true] at hd
    obtain ⟨-, -, hgk, hgv⟩ := hz.shape
    rw [sameDigest]
    exact sameEntrySum_of_boundAll_of_inferred (fun e hm y z hz => (ih e hm).2 hz)
      (fun g hm => ⟨hgk g hm, hgv g hm⟩) hz.pairwise_keys hd hlen hbound

end ValueLattice

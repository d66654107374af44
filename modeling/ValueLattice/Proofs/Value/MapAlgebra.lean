import ValueLattice.Proofs.Ty.Algebra
import ValueLattice.Proofs.Value.InferredTable
/-!
# Laws of maps

Among maps with keys and values that are typed by their contents, a map is what is looked up in it:
two maps with the same look-ups are equal if their bounds are comparable, whichever keys stand for
equal ones and in whatever order the entries are. So the laws of merging and of common entries are
laws of look-ups.

* `EntryTable.OfInferred`: the tables of entries, closed under all operations;
* `EntryTable.get?_put`, `get?_erase`, `get?_putAll`: what is looked up in the results;
* `TypedMap.submap_iff`, `TypedMap.beq_of_submap`: inclusion of maps, and equality by inclusion in
  both directions;
* `map_laws`: merging, common entries, inclusion, single updates, and bounds.
-/

namespace ValueLattice

open Value

variable {k l v x : Value} {t u es : List (Value × Value)} {e : Value × Value}

namespace EntryTable

/-! ## Tables of entries -/

/-- Keys and values are typed by their contents, and no key finds an earlier one. -/
structure OfInferred (t : List (Value × Value)) : Prop where
  keys : Table.OfInferred (t.map Prod.fst)
  vals : ∀ e ∈ t, Inferred e.2

theorem OfInferred.key (ht : OfInferred t) (he : e ∈ t) : Inferred e.1 :=
  ht.keys.inferred e.1 (List.mem_map_of_mem he)

namespace OfInferred

theorem nil : OfInferred [] := ⟨⟨nofun, .nil⟩, nofun⟩

theorem tail (h : OfInferred (e :: t)) : OfInferred t :=
  ⟨h.keys.sublist (List.sublist_cons_self _ _), fun f hf => h.vals f (List.mem_cons_of_mem e hf)⟩

theorem sublist (ht : OfInferred t) (h : u.Sublist t) : OfInferred u :=
  ⟨ht.keys.sublist (h.map Prod.fst), fun e he => ht.vals e (h.subset he)⟩

theorem put (ht : OfInferred t) (hk : Inferred k) (hv : Inferred v) :
    OfInferred (EntryTable.put t k v) := by
  refine ⟨?_, fun e he => ?_⟩
  · rw [map_fst_put]
    exact ht.keys.insert hk
  · exact (forall_put (p := fun _ => True) (fun e he => ⟨trivial, ht.vals e he⟩) trivial hv e he).2

theorem putAll (ht : OfInferred t) (hes : ∀ e ∈ es, Inferred e.1 ∧ Inferred e.2) :
    OfInferred (EntryTable.putAll t es) := by
  induction es generalizing t with
  | nil => exact ht
  | cons e es ih =>
    obtain ⟨he, hes⟩ := List.forall_mem_cons.1 hes
    exact ih (ht.put he.1 he.2) hes

theorem erase (ht : OfInferred t) (k : Value) : OfInferred (EntryTable.erase t k) :=
  ht.sublist List.eraseP_sublist

end OfInferred

/-! ## Look-ups -/

theorem get?_cons (e : Value × Value) (t : List (Value × Value)) (k : Value) :
    get? (e :: t) k = if k.finds e.1 then some e.2 else get? t k := by
  unfold get? find?
  rw [List.find?_cons]
  cases k.finds e.1 <;> rfl

theorem get?_eq_none_iff : get? t k = none ↔ ∀ e ∈ t, k.finds e.1 = false := by
  simp [get?, find?]

theorem exists_of_get? (h : get? t k = some v) : ∃ e ∈ t, k.finds e.1 = true ∧ e.2 = v := by
  obtain ⟨e, he, rfl⟩ := Option.map_eq_some_iff.1 h
  obtain ⟨hm, hk⟩ := mem_and_finds_of_find? he
  exact ⟨e, hm, hk, rfl⟩

/-- In a table no two entries are found by one key. -/
theorem get?_eq_none_of_finds (h : OfInferred (e :: t)) (hk : k.finds e.1 = true) :
    get? t k = none := by
  refine get?_eq_none_iff.2 fun f hf => Bool.eq_false_iff.2 fun hkf => ?_
  have hfe : f.1.finds e.1 = false :=
    (List.pairwise_cons.1 (List.pairwise_map.1 h.keys.pairwise)).1 f hf
  have he : Inferred e.1 := h.key List.mem_cons_self
  exact Bool.eq_false_iff.1 hfe (Table.finds_of_finds (h.tail.key hf) he hkf hk)

theorem get?_of_mem (ht : OfInferred t) (he : e ∈ t) (hk : k.finds e.1 = true) :
    get? t k = some e.2 := by
  induction t with
  | nil => nomatch he
  | cons f t ih =>
    rw [get?_cons]
    split
    · next hf =>
      rcases List.mem_cons.1 he with rfl | he
      · rfl
      · have hnone : k.finds e.1 = false :=
          get?_eq_none_iff.1 (get?_eq_none_of_finds ht hf) e he
        exact absurd hk (Bool.eq_false_iff.1 hnone)
    · next hf =>
      rcases List.mem_cons.1 he with rfl | he
      · exact absurd hk hf
      · exact ih ht.tail he

/-- What a key looks up is looked up by every value that finds the key. -/
theorem get?_congr (ht : ∀ e ∈ t, Inferred e.1) (hk : Inferred k) (hl : l.finds k = true) :
    get? t l = get? t k := by
  induction t with
  | nil => rfl
  | cons e t ih =>
    obtain ⟨he, ht⟩ := List.forall_mem_cons.1 ht
    rw [get?_cons, get?_cons, Table.finds_congr hk he hl, ih ht]

theorem get?_put (ht : OfInferred t) (hk : Inferred k) (v l : Value) :
    get? (put t k v) l = if l.finds k then some v else get? t l := by
  -- the old key is kept where `k` finds it, but whatever looks for one of the two finds the other
  induction t with
  | nil => simp [put, get?_cons]
  | cons e t ih =>
    have he : Inferred e.1 := ht.key List.mem_cons_self
    unfold put
    split
    · next hke =>
      have hle : l.finds e.1 = l.finds k :=
        (Table.finds_eq_of_sameDigest l hk he (sameDigest_of_finds hke)).symm
      rw [get?_cons, get?_cons, hle]
      split <;> rfl
    · next hke =>
      rw [get?_cons, get?_cons, ih ht.tail]
      split
      · next hle =>
        rw [if_neg fun hlk => hke (Table.finds_of_finds hk he hlk hle)]
      · rfl

theorem erase_cons (e : Value × Value) (t : List (Value × Value)) (k : Value) :
    erase (e :: t) k = if k.finds e.1 then t else e :: erase t k := by
  unfold erase
  rw [List.eraseP_cons]
  cases k.finds e.1 <;> rfl

theorem get?_erase (ht : OfInferred t) (hk : Inferred k) (l : Value) :
    get? (erase t k) l = if l.finds k then none else get? t l := by
  induction t with
  | nil => simp [erase, get?, find?]
  | cons e t ih =>
    have he : Inferred e.1 := ht.key List.mem_cons_self
    rw [erase_cons]
    split
    · next hke =>
      have hle : l.finds e.1 = l.finds k :=
        (Table.finds_eq_of_sameDigest l hk he (sameDigest_of_finds hke)).symm
      rw [get?_cons, hle]
      split
      · next hlk => exact get?_eq_none_of_finds ht (hle.trans hlk)
      · rfl
    · next hke =>
      rw [get?_cons, get?_cons]
      split
      · next hle => rw [if_neg fun hlk => hke (Table.finds_of_finds hk he hlk hle)]
      · exact ih ht.tail

/-- Where the later entries bind a key, they win. -/
theorem get?_putAll (ht : OfInferred t) (hes : OfInferred es) (k : Value) :
    get? (putAll t es) k = (get? es k).or (get? t k) := by
  induction es generalizing t with
  | nil => rfl
  | cons e es ih =>
    have he : Inferred e.1 := hes.key List.mem_cons_self
    have hput : OfInferred (put t e.1 e.2) := ht.put he (hes.vals e List.mem_cons_self)
    calc get? (putAll (put t e.1 e.2) es) k
      _ = (get? es k).or (if k.finds e.1 then some e.2 else get? t k) := by
        rw [ih hput hes.tail, get?_put ht he]
      _ = (get? (e :: es) k).or (get? t k) := by
        rw [get?_cons]
        split
        · next hke => rw [get?_eq_none_of_finds hes hke, Option.none_or, Option.some_or]
        · rfl

end EntryTable

/-! ## Inclusion and equality -/

namespace TypedMap

variable {m o p w : TypedMap}

theorem binds_iff : EntryTable.binds t e = true ↔
    ∃ v, EntryTable.get? t e.1 = some v ∧ (v == e.2) = true := by
  unfold EntryTable.binds
  cases EntryTable.get? t e.1 <;> simp

section Inclusion

variable (hm : EntryTable.OfInferred m.entries) (ho : EntryTable.OfInferred o.entries)

include hm

theorem inferred_of_get? (h : m.get? k = some v) : Inferred v := by
  obtain ⟨e, he, -, rfl⟩ := EntryTable.exists_of_get? h
  exact hm.vals e he

include ho

/-- A map is included in another exactly if equal values are looked up there. -/
theorem submap_iff : m.submap o = true ↔
    ∀ k v, m.get? k = some v → ∃ w, o.get? k = some w ∧ (w == v) = true := by
  simp only [submap, List.all_eq_true, binds_iff]
  constructor
  · intro h k v hv
    obtain ⟨e, he, hke, rfl⟩ := EntryTable.exists_of_get? hv
    obtain ⟨w, hw, hwv⟩ := h e he
    exact ⟨w, (EntryTable.get?_congr (fun _ => ho.key) (hm.key he) hke).trans hw, hwv⟩
  · exact fun h e he => h e.1 e.2 (EntryTable.get?_of_mem hm he (Table.finds_self (hm.key he)))

/-- Maps in which the same is looked up are included in each other. -/
theorem submap_of_get? (h : ∀ k, o.get? k = m.get? k) : m.submap o = true :=
  (submap_iff hm ho).2 fun k v hv => ⟨v, (h k).trans hv, (inferred_of_get? hm hv).beq_self⟩

theorem boundAll_iff_submap : boundAll m.entries o.entries = true ↔ m.submap o = true := by
  simp only [boundAll_iff, submap, List.all_eq_true, binds_iff]
  refine forall₂_congr fun e he => ⟨?_, ?_⟩
  · rintro ⟨f, hf, hef⟩
    have hfo : f ∈ o.entries := List.mem_of_find?_eq_some hf
    exact ⟨f.2, congrArg (Option.map Prod.snd) hf, (hm.vals e he).beq_symm (ho.vals f hfo) hef⟩
  · rintro ⟨v, hv, hve⟩
    obtain ⟨f, hf, rfl⟩ := Option.map_eq_some_iff.1 hv
    have hfo : f ∈ o.entries := List.mem_of_find?_eq_some hf
    exact ⟨f, hf, (ho.vals f hfo).beq_symm (hm.vals e he) hve⟩

omit ho in
/-- A map has no more entries than one that includes it. -/
theorem length_le_of_submap (h : m.submap o = true) : m.entries.length ≤ o.entries.length := by
  have hkeys (k) (hk : k ∈ m.entries.map Prod.fst) :
      Table.has (o.entries.map Prod.fst) k = true := by
    obtain ⟨e, he, rfl⟩ := List.mem_map.1 hk
    obtain ⟨v, hv, -⟩ := binds_iff.1 (List.all_eq_true.1 h e he)
    obtain ⟨f, hf, hkf, -⟩ := EntryTable.exists_of_get? hv
    exact Table.has_iff.2 ⟨f.1, List.mem_map_of_mem hf, hkf⟩
  simpa only [List.length_map] using hm.keys.length_le hkeys

/-- Maps that include each other are equal if their bounds are comparable. -/
theorem beq_of_submap (hkey : m.key.comparable o.key = true) (hval : m.val.comparable o.val = true)
    (hmo : m.submap o = true) (hom : o.submap m = true) : (m.toValue == o.toValue) = true := by
  have hlength : m.entries.length = o.entries.length :=
    Nat.le_antisymm (length_le_of_submap hm hmo) (length_le_of_submap ho hom)
  change eqv (.map m.key m.val m.entries) (.map o.key o.val o.entries) = true
  simp only [eqv, hkey, hval, hlength, (boundAll_iff_submap hm ho).2 hmo, decide_true,
    Bool.and_self]

theorem submap_of_beq (h : (m.toValue == o.toValue) = true) : m.submap o = true := by
  change eqv (.map m.key m.val m.entries) (.map o.key o.val o.entries) = true at h
  rw [eqv, Bool.and_eq_true] at h
  exact (boundAll_iff_submap hm ho).1 h.2

end Inclusion

/-! ## Merging and common entries -/

/-- The map is included in both, and every map of values typed by their contents that is included
in both is included in it. -/
structure IsGreatestCommon (m o w : TypedMap) : Prop where
  left : w.submap m = true
  right : w.submap o = true
  greatest : ∀ p : TypedMap, EntryTable.OfInferred p.entries → p.submap m = true →
    p.submap o = true → p.submap w = true

section Laws

variable (hm : EntryTable.OfInferred m.entries) (ho : EntryTable.OfInferred o.entries)

include hm ho

theorem ofInferred_merge : EntryTable.OfInferred (m.merge o).val.entries :=
  hm.putAll fun e he => ⟨ho.key he, ho.vals e he⟩

omit ho in
theorem ofInferred_common (o : TypedMap) : EntryTable.OfInferred (m.common o).val.entries :=
  hm.sublist List.filter_sublist

/-- Where the second map binds a key, it wins. -/
theorem get?_merge (k : Value) : (m.merge o).val.get? k = (o.get? k).or (m.get? k) :=
  EntryTable.get?_putAll hm ho k

theorem get?_common : (m.common o).val.get? k = some v ↔
    m.get? k = some v ∧ ∃ x, o.get? k = some x ∧ (x == v) = true := by
  constructor
  · intro h
    obtain ⟨e, he, hke, rfl⟩ := EntryTable.exists_of_get? h
    obtain ⟨he, hbinds⟩ := List.mem_filter.1 he
    obtain ⟨x, hx, hxv⟩ := binds_iff.1 hbinds
    exact ⟨EntryTable.get?_of_mem hm he hke, x,
      (EntryTable.get?_congr (fun _ => ho.key) (hm.key he) hke).trans hx, hxv⟩
  · rintro ⟨h, x, hx, hxv⟩
    obtain ⟨e, he, hke, rfl⟩ := EntryTable.exists_of_get? h
    have hxe : o.get? e.1 = some x :=
      (EntryTable.get?_congr (fun _ => ho.key) (hm.key he) hke).symm.trans hx
    exact EntryTable.get?_of_mem (ofInferred_common hm o)
      (List.mem_filter.2 ⟨he, binds_iff.2 ⟨x, hxe, hxv⟩⟩) hke

theorem merge_assoc (hp : EntryTable.OfInferred p.entries) :
    (((m.merge o).val.merge p).val.toValue == (m.merge (o.merge p).val).val.toValue) = true := by
  have hmo : EntryTable.OfInferred (m.merge o).val.entries := ofInferred_merge hm ho
  have hop : EntryTable.OfInferred (o.merge p).val.entries := ofInferred_merge ho hp
  have hget (k : Value) : ((m.merge o).val.merge p).val.get? k =
      (m.merge (o.merge p).val).val.get? k := by
    rw [get?_merge hmo hp, get?_merge hm ho, get?_merge hm hop, get?_merge ho hp, Option.or_assoc]
  have hl := ofInferred_merge hmo hp
  have hr := ofInferred_merge hm hop
  exact beq_of_submap hl hr (Ty.comparable_of_leq (Ty.lub_assoc_leq m.key o.key p.key))
    (Ty.comparable_of_leq (Ty.lub_assoc_leq m.val o.val p.val))
    (submap_of_get? hl hr fun k => (hget k).symm) (submap_of_get? hr hl hget)

theorem isGreatestCommon_common : IsGreatestCommon m o (m.common o).val where
  left := by
    refine (submap_iff (ofInferred_common hm o) hm).2 fun k v h => ?_
    obtain ⟨hv, -⟩ := (get?_common hm ho).1 h
    exact ⟨v, hv, (inferred_of_get? hm hv).beq_self⟩
  right :=
    (submap_iff (ofInferred_common hm o) ho).2 fun k v h => ((get?_common hm ho).1 h).2
  greatest p hp hpm hpo := by
    refine (submap_iff hp (ofInferred_common hm o)).2 fun k v h => ?_
    obtain ⟨x, hx, hxv⟩ := (submap_iff hp hm).1 hpm k v h
    obtain ⟨y, hy, hyv⟩ := (submap_iff hp ho).1 hpo k v h
    have hix : Inferred x := inferred_of_get? hm hx
    have hiv : Inferred v := inferred_of_get? hp h
    have hyx : (y == x) = true :=
      (inferred_of_get? ho hy).beq_trans hiv hix hyv (hix.beq_symm hiv hxv)
    exact ⟨x, (get?_common hm ho).2 ⟨hx, y, hy, hyx⟩, hxv⟩

theorem common_comm : ((m.common o).val.toValue == (o.common m).val.toValue) = true := by
  have hmo := isGreatestCommon_common hm ho
  have hom := isGreatestCommon_common ho hm
  refine beq_of_submap (ofInferred_common hm o) (ofInferred_common ho m) ?_ ?_
    (hom.greatest _ (ofInferred_common hm o) hmo.right hmo.left)
    (hmo.greatest _ (ofInferred_common ho m) hom.right hom.left)
  · rw [common_val, common_val, Ty.lub_comm, Ty.comparable_refl]
  · rw [common_val, common_val, Ty.lub_comm m.val, Ty.comparable_refl]

theorem submap_iff_common_beq :
    m.submap o = true ↔ ((m.common o).val.toValue == m.toValue) = true := by
  constructor
  · intro h
    have hself : m.submap m = true := submap_of_get? hm hm fun _ => rfl
    have hgreatest := isGreatestCommon_common hm ho
    exact beq_of_submap (ofInferred_common hm o) hm (Ty.comparable_lub_left m.key o.key)
      (Ty.comparable_lub_left m.val o.val) hgreatest.left (hgreatest.greatest m hm hself h)
  · intro h
    change eqv (.map _ _ (m.entries.filter _)) (.map _ _ m.entries) = true at h
    simp only [eqv, Bool.and_eq_true, decide_eq_true_eq, List.length_filter_eq_length_iff] at h
    exact List.all_eq_true.2 h.1.2

theorem submap_iff_merge_beq :
    m.submap o = true ↔ ((o.merge m).val.toValue == o.toValue) = true := by
  have hom : EntryTable.OfInferred (o.merge m).val.entries := ofInferred_merge ho hm
  have hget := get?_merge ho hm
  constructor
  · intro h
    have hle : (o.merge m).val.submap o = true := by
      refine (submap_iff hom ho).2 fun k v hv => ?_
      rcases Option.or_eq_some_iff.1 ((hget k).symm.trans hv) with hv | ⟨-, hv⟩
      · exact (submap_iff hm ho).1 h k v hv
      · exact ⟨v, hv, (inferred_of_get? ho hv).beq_self⟩
    have hge : o.submap (o.merge m).val = true := by
      refine (submap_iff ho hom).2 fun k v hv => ?_
      cases hu : m.get? k with
      | none => exact ⟨v, by rw [hget, hu, Option.none_or, hv], (inferred_of_get? ho hv).beq_self⟩
      | some u =>
        obtain ⟨x, hx, hxu⟩ := (submap_iff hm ho).1 h k u hu
        obtain rfl : v = x := Option.some_inj.1 (hv.symm.trans hx)
        exact ⟨u, by rw [hget, hu, Option.some_or],
          (inferred_of_get? ho hv).beq_symm (inferred_of_get? hm hu) hxu⟩
    exact beq_of_submap hom ho (Ty.comparable_lub_left o.key m.key)
      (Ty.comparable_lub_left o.val m.val) hle hge
  · intro h
    refine (submap_iff hm ho).2 fun k v hv => ?_
    exact (submap_iff hom ho).1 (submap_of_beq hom ho h) k v (by rw [hget, hv, Option.some_or])

end Laws

/-! ## Single updates -/

section Updates

variable (hm : EntryTable.OfInferred m.entries) (hk : Inferred k) (hl : Inferred l)

include hm hk hl

theorem get?_put (v : Value) : (m.put k v).val.get? l = if l == k then some v else m.get? l := by
  rw [hl.beq_eq hk, ← hl.finds_eq hk]
  exact EntryTable.get?_put hm hk v l

theorem get?_erase : (m.erase k).get? l = if l == k then none else m.get? l := by
  rw [hl.beq_eq hk, ← hl.finds_eq hk]
  exact EntryTable.get?_erase hm hk l

end Updates

/-! ## Bounds -/

/-- The bounds are above the types of all keys and of all values. -/
def Bounded (m : TypedMap) : Prop :=
  ∀ e ∈ m.entries, e.1.ty.leq m.key = true ∧ e.2.ty.leq m.val = true

theorem bounded_iff_wellTyped (hm : EntryTable.OfInferred m.entries) :
    m.Bounded ↔ m.toValue.WellTyped := by
  rw [wellTyped_iff]
  refine forall₂_congr fun e he => ?_
  have hkey : e.1.WellTyped := (hm.key he).wellTyped
  have hval : e.2.WellTyped := (hm.vals e he).wellTyped
  simp only [HasTy, hkey, hval, true_and]

/-! ## The laws -/

/-- What is looked up in the merged map, in which the second map wins, and that a third may be
merged in either grouping; the common entries, the greatest map included in both whichever of the
two comes first; inclusion, told by the common entries and by the merged map; and what is looked up
after a key is bound or removed, which is as before by all other keys. -/
structure Lawful (m o : TypedMap) : Prop where
  get?_merge : ∀ k, (m.merge o).val.get? k = (o.get? k).or (m.get? k)
  merge_assoc : ∀ p : TypedMap, EntryTable.OfInferred p.entries →
    (((m.merge o).val.merge p).val.toValue == (m.merge (o.merge p).val).val.toValue) = true
  greatest : IsGreatestCommon m o (m.common o).val
  common_comm : ((m.common o).val.toValue == (o.common m).val.toValue) = true
  submap_iff_common : m.submap o = true ↔ ((m.common o).val.toValue == m.toValue) = true
  submap_iff_merge : m.submap o = true ↔ ((o.merge m).val.toValue == o.toValue) = true
  get?_put : ∀ k l v, Inferred k → Inferred l →
    (m.put k v).val.get? l = if l == k then some v else m.get? l
  get?_erase : ∀ k l, Inferred k → Inferred l →
    (m.erase k).get? l = if l == k then none else m.get? l

theorem lawful (hm : EntryTable.OfInferred m.entries) (ho : EntryTable.OfInferred o.entries) :
    m.Lawful o where
  get?_merge := get?_merge hm ho
  merge_assoc _ := merge_assoc hm ho
  greatest := isGreatestCommon_common hm ho
  common_comm := common_comm hm ho
  submap_iff_common := submap_iff_common_beq hm ho
  submap_iff_merge := submap_iff_merge_beq hm ho
  get?_put _ _ v hk hl := get?_put hm hk hl v
  get?_erase _ _ := get?_erase hm

/-- The results of the operations are typed by their contents as the maps are, and their bounds are
above their contents if those of the maps are. -/
structure KeepsBounds (m o : TypedMap) (k v : Value) : Prop where
  ofInferred : ∀ w ∈ [(m.put k v).val, m.erase k, (m.merge o).val, (m.common o).val],
    EntryTable.OfInferred w.entries
  bounded : m.Bounded → o.Bounded →
    ∀ w ∈ [(m.put k v).val, m.erase k, (m.merge o).val, (m.common o).val], w.Bounded

theorem keepsBounds (hm : EntryTable.OfInferred m.entries) (ho : EntryTable.OfInferred o.entries)
    (hk : Inferred k) (hv : Inferred v) : m.KeepsBounds o k v where
  ofInferred := by
    simp only [List.forall_mem_cons]
    exact ⟨hm.put hk hv, hm.erase k, ofInferred_merge hm ho, ofInferred_common hm o,
      List.forall_mem_nil _⟩
  bounded hmb hob := by
    rw [bounded_iff_wellTyped hm] at hmb
    rw [bounded_iff_wellTyped ho] at hob
    simp only [List.forall_mem_cons]
    exact ⟨(bounded_iff_wellTyped (hm.put hk hv)).2 (wellTyped_put hmb hk.wellTyped hv.wellTyped),
      (bounded_iff_wellTyped (hm.erase k)).2 (wellTyped_erase hmb),
      (bounded_iff_wellTyped (ofInferred_merge hm ho)).2 (wellTyped_merge hmb hob),
      (bounded_iff_wellTyped (ofInferred_common hm o)).2 (wellTyped_common hmb),
      List.forall_mem_nil _⟩

end TypedMap

/-- **The laws of maps.** Maps with keys and values that are typed by their contents obey the laws
of merging, of common entries, of inclusion and of single updates, whatever their bounds are. The
maps of given entries are such maps, and the operations lead to such maps again. A map without
entries and the maps of given entries have bounds above the types of their contents, and the
operations keep that. -/
theorem map_laws :
    (∀ key val es, (∀ e ∈ es, Inferred e.1 ∧ Inferred e.2) →
      EntryTable.OfInferred (TypedMap.ofTable key val es).entries) ∧
    (∀ m o : TypedMap, EntryTable.OfInferred m.entries → EntryTable.OfInferred o.entries →
      m.Lawful o ∧ ∀ k v, Inferred k → Inferred v → m.KeepsBounds o k v) ∧
    (∀ key val, (TypedMap.empty key val).Bounded) ∧
    ∀ es, (∀ e ∈ es, Inferred e.1 ∧ Inferred e.2) →
      EntryTable.OfInferred (TypedMap.ofEntries es).val.entries ∧
        (TypedMap.ofEntries es).val.Bounded := by
  have hentries (es) (hes : ∀ e ∈ es, Inferred e.1 ∧ Inferred e.2) :
      EntryTable.OfInferred (EntryTable.putAll [] es) := EntryTable.OfInferred.nil.putAll hes
  refine ⟨fun _ _ => hentries, fun m o hm ho => ⟨TypedMap.lawful hm ho,
    fun k v => TypedMap.keepsBounds hm ho⟩, fun _ _ => nofun, fun es hes => ?_⟩
  have hof : EntryTable.OfInferred (TypedMap.ofEntries es).val.entries := by
    rw [TypedMap.ofEntries_val]
    exact hentries es hes
  refine ⟨hof, (TypedMap.bounded_iff_wellTyped hof).2 (TypedMap.wellTyped_ofEntries fun e he => ?_)⟩
  exact ⟨(hes e he).1.wellTyped, (hes e he).2.wellTyped⟩

/-! ### Two maps that share a key -/

/-- Texts for two numbers. -/
def numberTexts : List (Value × Value) := [(int 1, str "a"), (int 2, str "b")]

/-- The text of the second number again, and another for the first. -/
def otherTexts : List (Value × Value) := [(int 2, str "b"), (str "k", int 3), (int 1, str "c")]

/-- The two maps differ at the first number, so the first is not the map of the common entries; the
merged map has the second map's text there, and the grouping of three does not matter; without the
first number the second is bound as before. -/
theorem map_laws_texts :
    let m := (TypedMap.ofEntries numberTexts).val
    let o := (TypedMap.ofEntries otherTexts).val
    (m.merge o).val.get? (int 1) = some (str "c") ∧
      (((m.merge o).val.merge m).val.toValue == (m.merge (o.merge m).val).val.toValue) = true ∧
      ¬ ((m.common o).val.toValue == m.toValue) = true ∧
      (m.erase (int 1)).get? (int 2) = some (str "b") ∧ (m.merge o).val.Bounded := by
  intro m o
  have hone : Inferred (int 1) := .leaf rfl
  have htwo : Inferred (int 2) := .leaf rfl
  have htexts : ∀ e ∈ numberTexts, Inferred e.1 ∧ Inferred e.2 :=
    List.forall_mem_cons.2 ⟨⟨hone, .leaf rfl⟩, List.forall_mem_singleton.2 ⟨htwo, .leaf rfl⟩⟩
  have hothers : ∀ e ∈ otherTexts, Inferred e.1 ∧ Inferred e.2 :=
    List.forall_mem_cons.2 ⟨⟨htwo, .leaf rfl⟩, List.forall_mem_cons.2
      ⟨⟨.leaf rfl, .leaf rfl⟩, List.forall_mem_singleton.2 ⟨hone, .leaf rfl⟩⟩⟩
  obtain ⟨-, hlaws, -, hentries⟩ := map_laws
  obtain ⟨hm, hmb⟩ := hentries numberTexts htexts
  obtain ⟨ho, hob⟩ := hentries otherTexts hothers
  obtain ⟨hlawful, hkeeps⟩ := hlaws m o hm ho
  have hnot : ¬ m.submap o = true := by decide +kernel
  have hne : ¬ (int 2 == int 1) = true := by decide +kernel
  have hget : o.get? (int 1) = some (str "c") := by with_unfolding_all rfl
  have hbound : m.get? (int 2) = some (str "b") := by with_unfolding_all rfl
  refine ⟨?_, hlawful.merge_assoc m hm, fun h => hnot (hlawful.submap_iff_common.2 h), ?_,
    (hkeeps (int 1) (str "c") hone (.leaf rfl)).bounded hmb hob _ (by simp)⟩
  · rw [hlawful.get?_merge, hget, Option.some_or]
  · rw [hlawful.get?_erase (int 1) (int 2) hone htwo, if_neg hne, hbound]

end ValueLattice

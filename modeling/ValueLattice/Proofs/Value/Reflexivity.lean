import ValueLattice.Proofs.Value.Hash
import ValueLattice.Proofs.Value.Table
import ValueLattice.Value.Relation
import ValueLattice.Value.TypedMap
/-!
# Reflexivity of equality

Every value is equal to itself, whatever its types. An element of a set need not be the first one
that it finds, but it finds itself. The entries of a map are looked up by their keys, and there it
counts which one is found first: in a table no key finds an earlier one, so that each key finds its
own entry (`find?_eq_self`). Neither the types nor the contents need to agree for this: a set may be
made unchecked of anything, as long as its elements are put in one by one.

* `Value.Tabled`: at every depth, the contents of sets, relations and maps are tables;
* `Value.tabled_set_ofTable`, `tabled_rel_ofTable`, `tabled_map_ofTable`: what is put in one by one;
* `Value.Tabled.eqv_self`: such values are equal to themselves;
* `contents_found`: they are, and sets, relations and maps find what they hold.
-/

namespace ValueLattice

/-- At every depth, the contents of sets, relations and maps are what is left where they are put in
one by one: no element, and no key, finds an earlier one. -/
inductive Value.Tabled : Value → Prop
  | leaf {v : Value} (h : v.isLeaf = true) : Tabled v
  | tuple {ts : List Ty} {ls : Option (List String)} {xs : List Value}
    (hx : ∀ x ∈ xs, Tabled x) : Tabled (tuple ts ls xs)
  | node {g : Guise} {t : Ty} {n : String} {i j : Nat} {xs : List Value}
    {as : List (String × Value)} (hx : ∀ x ∈ xs, Tabled x) (ha : ∀ a ∈ as, Tabled a.2) :
    Tabled (node g t n i xs j as)
  | set {t : Ty} {xs : List Value} (h : xs.Pairwise fun x y => y.finds x = false)
    (hx : ∀ x ∈ xs, Tabled x) : Tabled (set t xs)
  | rel {ts : List Ty} {ls : Option (List String)} {xs : List Value}
    (h : xs.Pairwise fun x y => y.finds x = false) (hx : ∀ x ∈ xs, Tabled x) :
    Tabled (rel ts ls xs)
  | list {t : Ty} {xs : List Value} (hx : ∀ x ∈ xs, Tabled x) : Tabled (list t xs)
  | map {k v : Ty} {es : List (Value × Value)}
    (h : es.Pairwise fun e f => f.1.finds e.1 = false) (hk : ∀ e ∈ es, Tabled e.1)
    (hv : ∀ e ∈ es, Tabled e.2) : Tabled (map k v es)

namespace Value

variable {x : Value} {xs : List Value} {es : List (Value × Value)} {as : List (String × Value)}

theorem finds_self_of_eqv (h : eqv x x = true) : x.finds x = true :=
  Bool.and_eq_true_iff.2 ⟨sameDigest_refl x, h⟩

theorem eqvAnnos_self (h : ∀ a ∈ as, eqv a.2 a.2 = true) : eqvAnnos as as = true := by
  induction as with
  | nil => rw [eqvAnnos]
  | cons a as ih =>
    obtain ⟨l, y⟩ := a
    obtain ⟨ha, has⟩ := List.forall_mem_cons.1 h
    simp [eqvAnnos, ha, ih has]

theorem foundAll_self (h : ∀ x ∈ xs, eqv x x = true) : foundAll xs xs = true :=
  foundAll_iff.2 fun x hx => ⟨x, hx, finds_self_of_eqv (h x hx)⟩

/-- In a table of entries each key finds its own entry first. -/
theorem find?_eq_self {e : Value × Value} (h : es.Pairwise fun e f => f.1.finds e.1 = false)
    (he : e ∈ es) (hself : e.1.finds e.1 = true) :
    es.find? (fun f => e.1.finds f.1) = some e := by
  obtain ⟨fs, gs, rfl⟩ := List.append_of_mem he
  have hearlier : fs.find? (fun f => e.1.finds f.1) = none := List.find?_eq_none.2 fun f hf =>
    Bool.eq_false_iff.1 ((List.pairwise_append.1 h).2.2 f hf e List.mem_cons_self)
  rw [List.find?_append, hearlier, Option.none_or]
  exact List.find?_cons_of_pos (p := fun f : Value × Value => e.1.finds f.1) hself

theorem boundAll_self (h : es.Pairwise fun e f => f.1.finds e.1 = false)
    (hk : ∀ e ∈ es, eqv e.1 e.1 = true) (hv : ∀ e ∈ es, eqv e.2 e.2 = true) :
    boundAll es es = true :=
  boundAll_iff.2 fun e he => ⟨e, find?_eq_self h he (finds_self_of_eqv (hk e he)), hv e he⟩

theorem Tabled.eqv_self (h : x.Tabled) : eqv x x = true := by
  induction h with
  | leaf h => rw [eqv_leaf h, sameDigest_refl]
  | tuple _ ih =>
    rw [eqv, Ty.comparableRows, Ty.leqAll_refl, eqvAll_of_forall₂ (List.forall₂_same.2 ih)]
    rfl
  | node _ _ ih iha =>
    simp [eqv, Ty.comparable_refl, eqvAll_of_forall₂ (List.forall₂_same.2 ih), eqvAnnos_self iha]
  | set _ _ ih => simp [eqv, Ty.comparable_refl, foundAll_self ih]
  | rel _ _ ih => simp [eqv, Ty.comparableRows, Ty.leqAll_refl, foundAll_self ih]
  | list _ ih =>
    rw [eqv, Ty.comparable_refl, eqvAll_of_forall₂ (List.forall₂_same.2 ih), Bool.and_self]
  | map h _ _ ihk ihv => simp [eqv, Ty.comparable_refl, boundAll_self h ihk ihv]

/-! ## Contents -/

/-- The values that a tabled value is made of are tabled. -/
theorem Tabled.contents (h : x.Tabled) : ∀ y ∈ x.contents, y.Tabled := by
  cases h with
  | leaf h => cases x <;> simp_all [isLeaf, Value.contents]
  | tuple hx => exact hx
  | node hx ha => exact List.forall_mem_append.2 ⟨hx, List.forall_mem_map.2 ha⟩
  | set _ hx => exact hx
  | rel _ hx => exact hx
  | list hx => exact hx
  | map _ hk hv =>
    exact List.forall_mem_append.2 ⟨List.forall_mem_map.2 hk, List.forall_mem_map.2 hv⟩

theorem Tabled.finds_self (h : x.Tabled) : x.finds x = true := finds_self_of_eqv h.eqv_self

theorem has_of_tabled (hx : x ∈ xs) (h : x.Tabled) : Table.has xs x = true :=
  List.any_eq_true.2 ⟨x, hx, h.finds_self⟩

theorem hasKey_of_tabled {e : Value × Value} (he : e ∈ es) (h : e.1.Tabled) :
    EntryTable.has es e.1 = true := by
  obtain ⟨f, hf, -⟩ := exists_find? he h.finds_self
  exact Option.isSome_iff_exists.2 ⟨f, hf⟩

/-! ## What is put in one by one -/

theorem tabled_set_ofTable {t : Ty} (h : ∀ x ∈ Table.ofList xs, x.Tabled) :
    (TypedSet.ofTable t xs).toValue.Tabled :=
  .set (Table.pairwise_ofList xs) h

theorem tabled_rel_ofTable {r : Row} (h : ∀ x ∈ Table.ofList xs, x.Tabled) :
    (Relation.ofTable r xs).toValue.Tabled :=
  .rel (Table.pairwise_ofList xs) h

theorem tabled_map_ofTable {k v : Ty} (h : ∀ e ∈ EntryTable.putAll [] es, e.1.Tabled ∧ e.2.Tabled) :
    (TypedMap.ofTable k v es).toValue.Tabled :=
  .map (EntryTable.pairwise_putAll .nil) (fun e he => (h e he).1) fun e he => (h e he).2

end Value

/-- **Equality is reflexive, and collections find what they hold.** A value of any shape, with any
types and contents, is equal to itself, and each element of a set or a relation is found in it, and
so is each key of a map, if only the contents of sets, relations and maps were put in one by one, at
every depth. -/
theorem contents_found :
    (∀ t xs, (∀ x ∈ Table.ofList xs, x.Tabled) → (TypedSet.ofTable t xs).toValue.Tabled) ∧
    (∀ r xs, (∀ x ∈ Table.ofList xs, x.Tabled) → (Relation.ofTable r xs).toValue.Tabled) ∧
    (∀ k v es, (∀ e ∈ EntryTable.putAll [] es, e.1.Tabled ∧ e.2.Tabled) →
      (TypedMap.ofTable k v es).toValue.Tabled) ∧
    ∀ v : Value, v.Tabled → (v == v) = true ∧ (∀ x ∈ v.contents, x.Tabled) ∧
      (∀ s, v.set? = some s → ∀ x ∈ s.elems, s.has x = true) ∧
      (∀ r, v.rel? = some r → ∀ x ∈ r.elems, r.has x = true) ∧
      ∀ m, v.map? = some m → ∀ e ∈ m.entries, m.has e.1 = true := by
  refine ⟨fun t xs => Value.tabled_set_ofTable, fun r xs => Value.tabled_rel_ofTable,
    fun k v es => Value.tabled_map_ofTable, fun v hv => ⟨hv.eqv_self, hv.contents, ?_⟩⟩
  have hcontents : ∀ x ∈ v.contents, x.Tabled := hv.contents
  refine ⟨fun s hs x hx => ?_, fun r hr x hx => ?_, fun m hm e he => ?_⟩
  · cases v <;> cases hs
    exact Value.has_of_tabled hx (hcontents x hx)
  · cases v <;> cases hr
    exact Value.has_of_tabled hx (hcontents x hx)
  · cases v <;> cases hm
    exact Value.hasKey_of_tabled he
      (hcontents e.1 (List.mem_append_left _ (List.mem_map_of_mem he)))

/-! ### A map with one-sided keys -/

namespace Value

/-- The set, of type `set[value]`, of two empty sets with the given bounds. -/
def emptiesOf (t u : Ty) : Value := (TypedSet.ofTable .value [set t [], set u []]).toValue

theorem tabled_emptiesOf (t u : Ty) : (emptiesOf t u).Tabled := by
  refine tabled_set_ofTable fun x hx => ?_
  rcases List.mem_pair.1 (Table.mem_ofList hx) with rfl | rfl
  · exact .set .nil nofun
  · exact .set .nil nofun

/-- A map of which the first key finds the second as well, and not the other way around. Its bounds
have nothing to do with its entries, and its values are no numbers, with different bits. -/
def oneSided : TypedMap :=
  .ofTable .int .bool
    [(emptiesOf (.list .int) (.list .str), double ⟨0x7ff8000000000000⟩),
      (emptiesOf (.list .value) .int, double ⟨0xfff8000000000001⟩)]

theorem tabled_oneSided : oneSided.toValue.Tabled := by
  refine tabled_map_ofTable (EntryTable.forall_putAll (p := Tabled) (q := Tabled)
    (List.forall_mem_nil _) fun e he => ?_)
  rcases List.mem_pair.1 he with rfl | rfl
  · exact ⟨tabled_emptiesOf _ _, .leaf rfl⟩
  · exact ⟨tabled_emptiesOf _ _, .leaf rfl⟩

end Value

open Value in
theorem contents_found_oneSided :
    (emptiesOf (.list .int) (.list .str)).finds (emptiesOf (.list .value) .int) = true ∧
      (emptiesOf (.list .value) .int).finds (emptiesOf (.list .int) (.list .str)) = false ∧
      oneSided.size = 2 ∧ oneSided.toValue.Tabled ∧ (oneSided.toValue == oneSided.toValue) = true ∧
      ∀ e ∈ oneSided.entries, oneSided.has e.1 = true := by
  obtain ⟨-, -, -, hlaw⟩ := contents_found
  obtain ⟨hself, -, -, -, hkeys⟩ := hlaw oneSided.toValue tabled_oneSided
  have h₁ : (emptiesOf (.list .int) (.list .str)).finds (emptiesOf (.list .value) .int) = true := by
    decide +kernel
  have h₂ : (emptiesOf (.list .value) .int).finds (emptiesOf (.list .int) (.list .str)) = false := by
    decide +kernel
  have hsize : oneSided.size = 2 := by decide +kernel
  exact ⟨h₁, h₂, hsize, tabled_oneSided, hself, hkeys oneSided rfl⟩

end ValueLattice

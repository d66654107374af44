import ValueLattice.Ty.Document
import ValueLattice.Proofs.Ty.Labels
/-!
# Types survive as documents

The document of a well-labelled type is read back as that type. What is read is well-labelled,
whatever the document, because every row is made by the checked construction on the way. So the
well-labelled types are exactly those that can be read, and reading is the inverse of writing on
them.

* `ofDoc_toDoc`: reading what was written;
* `wellLabelled_ofDoc`: what is read is well-labelled;
* `document_round_trip`: both together.
-/

namespace ValueLattice.Ty

variable {d : Doc} {ds : List Doc} {t : Ty} {fs ps : List Ty} {ls : Option (List String)}
  {n o : String}

/-! ## Reading what was written -/

theorem mapM_readText (ls : List String) : (ls.map Doc.str).mapM readText = .ok ls := by
  induction ls with
  | nil => rfl
  | cons l ls ih =>
    rw [List.map_cons, List.mapM_cons, ih]
    rfl

theorem readLabels_labelsDoc (ls : Option (List String)) : readLabels (labelsDoc ls) = .ok ls := by
  cases ls with
  | none => rfl
  | some ls => rw [labelsDoc, readLabels, mapM_readText, Except.map_ok]

theorem readRowOf_eq_ok {r : Row} : readRowOf fs ls = .ok r ↔ r = ⟨fs, ls⟩ ∧ r.WellLabelled := by
  rw [← Row.make_eq_ok, readRowOf]
  cases Row.make fs ls <;> simp

theorem readRow_rowDoc (hd : readEach ds = .ok fs) (h : (⟨fs, ls⟩ : Row).WellLabelled) :
    readRow (rowDoc ds ls) = .ok ⟨fs, ls⟩ := by
  have hrow : readRowOf fs ls = .ok ⟨fs, ls⟩ := readRowOf_eq_ok.2 ⟨rfl, h⟩
  simp [rowDoc, readRow, readRowEntries, readTypes, onceOnly, needEntry, hd, readLabels_labelsDoc,
    bind, Except.bind, hrow]

theorem readAdt_adtDoc (hd : readEach ds = .ok ps) : readAdt (adtDoc n ds) = .ok (n, ps) := by
  simp [adtDoc, readAdt, readAdtEntries, readTypes, readText, onceOnly, needEntry, hd, bind,
    Except.bind, pure, Except.pure]

theorem readNamed_entries (hd : ofDoc d = .ok t) :
    readNamed none none [("alias", .str n), ("aliased", d)] = .ok (named n t) := by
  simp [readNamed, readText, onceOnly, needEntry, hd, bind, Except.bind, pure, Except.pure]

theorem readCtor_obj {a r : Doc} (ha : readAdt a = .ok (o, ps)) (hr : readRow r = .ok ⟨fs, ls⟩) :
    readCtor (.obj [("adt", a), ("fields", r), ("name", .str n)]) = .ok (ctor n o ps fs ls) := by
  simp [readCtor, readCtorEntries, readText, onceOnly, needEntry, ha, hr, bind, Except.bind, pure,
    Except.pure]

mutual

/-- Reading the document of a well-labelled type gives the type. -/
theorem ofDoc_toDoc (t : Ty) (h : t.WellLabelled) : ofDoc t.toDoc = .ok t := by
  cases t with
  | list e => rw [toDoc, ofDoc, ofDoc_toDoc e h]; rfl
  | set e => rw [toDoc, ofDoc, ofDoc_toDoc e h]; rfl
  | map k v =>
    obtain ⟨hk, hv⟩ := wellLabelled_map.1 h
    rw [toDoc, ofDoc, ofDoc_toDoc k hk]
    change (do let v ← ofDoc v.toDoc; noMore []; return map k v) = _
    rw [ofDoc_toDoc v hv]
    rfl
  | tuple fs ls =>
    obtain ⟨hl, hf⟩ := wellLabelled_tuple.1 h
    rw [toDoc, ofDoc, readRow_rowDoc (readEach_toDocs fs hf) hl]
    rfl
  | rel fs ls =>
    obtain ⟨hl, hf⟩ := wellLabelled_tuple.1 h
    rw [toDoc, ofDoc, readRow_rowDoc (readEach_toDocs fs hf) hl]
    rfl
  | named n t => rw [toDoc, ofDoc, readNamed_entries (ofDoc_toDoc t h)]
  | adt n ps =>
    rw [toDoc, ofDoc, readAdt_adtDoc (readEach_toDocs ps (wellLabelled_adt.1 h))]
    rfl
  | ctor n o ps fs ls =>
    obtain ⟨hp, hf⟩ := wellLabelled_ctor.1 h
    obtain ⟨hl, hf⟩ := wellLabelled_tuple.1 hf
    rw [toDoc, ofDoc, readCtor_obj (readAdt_adtDoc (readEach_toDocs ps (wellLabelled_adt.1 hp)))
      (readRow_rowDoc (readEach_toDocs fs hf) hl)]
  | param n => rfl
  | _ => rfl

theorem readEach_toDocs (ts : List Ty) (h : ∀ t ∈ ts, t.WellLabelled) :
    readEach (toDocs ts) = .ok ts := by
  cases ts with
  | nil => rfl
  | cons t ts =>
    obtain ⟨ht, hts⟩ := List.forall_mem_cons.1 h
    rw [toDocs, readEach, ofDoc_toDoc t ht, readEach_toDocs ts hts]
    rfl

end

/-! ## What is read -/

theorem wellLabelled_leafOfName {s : String} (h : leafOfName s = some t) : t.WellLabelled := by
  unfold leafOfName at h
  split at h <;> cases h <;> exact nofun

theorem needEntry_eq_ok {α : Type} {o : Option α} {a : α} : needEntry o = .ok a ↔ o = some a := by
  cases o <;> simp [needEntry]

theorem wellLabelled_readRowOf {r : Row} (hf : ∀ t ∈ fs, t.WellLabelled)
    (h : readRowOf fs ls = .ok r) : r.toTuple.WellLabelled := by
  obtain ⟨rfl, hl⟩ := readRowOf_eq_ok.1 h
  exact wellLabelled_tuple.2 ⟨hl, hf⟩

mutual

/-- What is read is well-labelled. -/
theorem wellLabelled_ofDoc (d : Doc) {t : Ty} (h : ofDoc d = .ok t) : t.WellLabelled := by
  unfold ofDoc at h
  split at h
  · exact wellLabelled_leafOfName (needEntry_eq_ok.1 h)
  · next key d =>
    split at h
    · obtain ⟨e, he, h⟩ := bind_eq_ok.1 h
      obtain rfl := pure_eq_ok.1 h
      exact wellLabelled_list.2 (wellLabelled_ofDoc d he)
    · obtain ⟨e, he, h⟩ := bind_eq_ok.1 h
      obtain rfl := pure_eq_ok.1 h
      exact wellLabelled_set.2 (wellLabelled_ofDoc d he)
    · obtain ⟨r, hr, h⟩ := bind_eq_ok.1 h
      obtain rfl := pure_eq_ok.1 h
      exact wellLabelled_readRow d hr
    · split at h
      · next k rest =>
        obtain ⟨k', hk, h⟩ := bind_eq_ok.1 h
        cases rest with
        | nil => nomatch h
        | cons v more =>
          obtain ⟨v', hv, h⟩ := bind_eq_ok.1 h
          obtain ⟨-, -, h⟩ := bind_eq_ok.1 h
          obtain rfl := pure_eq_ok.1 h
          exact wellLabelled_map.2 ⟨wellLabelled_ofDoc k hk, wellLabelled_ofDoc v hv⟩
      · nomatch h
    · obtain ⟨r, hr, h⟩ := bind_eq_ok.1 h
      obtain rfl := pure_eq_ok.1 h
      exact wellLabelled_readRow d hr
    · split at h
      · next entries => exact wellLabelled_readNamed none none entries nofun h
      · nomatch h
    · obtain ⟨a, ha, h⟩ := bind_eq_ok.1 h
      obtain rfl := pure_eq_ok.1 h
      exact wellLabelled_adt.2 (wellLabelled_readAdt d ha)
    · exact wellLabelled_readCtor d h
    · obtain ⟨n, hn, h⟩ := bind_eq_ok.1 h
      obtain rfl := pure_eq_ok.1 h
      exact nofun
    · split at h
      · exact wellLabelled_leafOfName (needEntry_eq_ok.1 h)
      · nomatch h
  · nomatch h
termination_by sizeOf d

theorem wellLabelled_readEach (ds : List Doc) {ts : List Ty} (h : readEach ds = .ok ts) :
    ∀ t ∈ ts, t.WellLabelled := by
  cases ds with
  | nil =>
    obtain rfl := pure_eq_ok.1 h
    exact nofun
  | cons d ds =>
    obtain ⟨t, ht, h⟩ := bind_eq_ok.1 h
    obtain ⟨ts, hts, h⟩ := bind_eq_ok.1 h
    rw [← pure_eq_ok.1 h]
    exact List.forall_mem_cons.2 ⟨wellLabelled_ofDoc d ht, wellLabelled_readEach ds hts⟩
termination_by sizeOf ds

theorem wellLabelled_readTypes (d : Doc) {ts : List Ty} (h : readTypes d = .ok ts) :
    ∀ t ∈ ts, t.WellLabelled := by
  cases d with
  | arr ds => exact wellLabelled_readEach ds h
  | _ => nomatch h
termination_by sizeOf d

theorem wellLabelled_readRow (d : Doc) {r : Row} (h : readRow d = .ok r) :
    r.toTuple.WellLabelled := by
  unfold readRow at h
  split at h
  · next fs rest =>
    obtain ⟨ts, hts, h⟩ := bind_eq_ok.1 h
    split at h
    · obtain ⟨ls, -, h⟩ := bind_eq_ok.1 h
      exact wellLabelled_readRowOf (wellLabelled_readTypes fs hts) h
    · nomatch h
  · next entries => exact wellLabelled_readRowEntries none none entries nofun h
  · nomatch h
termination_by sizeOf d

theorem wellLabelled_readRowEntries (fields : Option (List Ty))
    (labels : Option (Option (List String))) (entries : List (String × Doc)) {r : Row}
    (hf : ∀ fs ∈ fields, ∀ t ∈ fs, t.WellLabelled)
    (h : readRowEntries fields labels entries = .ok r) : r.toTuple.WellLabelled := by
  unfold readRowEntries at h
  split at h
  · obtain ⟨fs, hfs, h⟩ := bind_eq_ok.1 h
    exact wellLabelled_readRowOf (hf fs (needEntry_eq_ok.1 hfs)) h
  · next key d rest =>
    split at h
    · obtain ⟨-, -, h⟩ := bind_eq_ok.1 h
      obtain ⟨fs, hfs, h⟩ := bind_eq_ok.1 h
      refine wellLabelled_readRowEntries (some fs) labels rest ?_ h
      rintro _ ⟨⟩
      exact wellLabelled_readTypes d hfs
    · split at h
      · obtain ⟨-, -, h⟩ := bind_eq_ok.1 h
        obtain ⟨ls, -, h⟩ := bind_eq_ok.1 h
        exact wellLabelled_readRowEntries fields (some ls) rest hf h
      · exact wellLabelled_readRowEntries fields labels rest hf h
termination_by sizeOf entries

theorem wellLabelled_readAdt (d : Doc) {a : String × List Ty} (h : readAdt d = .ok a) :
    ∀ p ∈ a.2, p.WellLabelled := by
  unfold readAdt at h
  split at h
  · next n ps more =>
    obtain ⟨n', -, h⟩ := bind_eq_ok.1 h
    obtain ⟨ps', hps, h⟩ := bind_eq_ok.1 h
    obtain ⟨-, -, h⟩ := bind_eq_ok.1 h
    obtain rfl := pure_eq_ok.1 h
    exact wellLabelled_readTypes ps hps
  · next entries => exact wellLabelled_readAdtEntries none none entries nofun h
  · nomatch h
termination_by sizeOf d

theorem wellLabelled_readAdtEntries (name : Option String) (params : Option (List Ty))
    (entries : List (String × Doc)) {a : String × List Ty}
    (hp : ∀ ps ∈ params, ∀ p ∈ ps, p.WellLabelled)
    (h : readAdtEntries name params entries = .ok a) : ∀ p ∈ a.2, p.WellLabelled := by
  unfold readAdtEntries at h
  split at h
  · obtain ⟨n, -, h⟩ := bind_eq_ok.1 h
    obtain ⟨ps, hps, h⟩ := bind_eq_ok.1 h
    obtain rfl := pure_eq_ok.1 h
    exact hp ps (needEntry_eq_ok.1 hps)
  · next key d rest =>
    split at h
    · obtain ⟨-, -, h⟩ := bind_eq_ok.1 h
      obtain ⟨n, -, h⟩ := bind_eq_ok.1 h
      exact wellLabelled_readAdtEntries (some n) params rest hp h
    · split at h
      · obtain ⟨-, -, h⟩ := bind_eq_ok.1 h
        obtain ⟨ps, hps, h⟩ := bind_eq_ok.1 h
        refine wellLabelled_readAdtEntries name (some ps) rest ?_ h
        rintro _ ⟨⟩
        exact wellLabelled_readTypes d hps
      · exact wellLabelled_readAdtEntries name params rest hp h
termination_by sizeOf entries

theorem wellLabelled_readCtor (d : Doc) {t : Ty} (h : readCtor d = .ok t) : t.WellLabelled := by
  unfold readCtor at h
  split at h
  · next n a rest =>
    obtain ⟨n', -, h⟩ := bind_eq_ok.1 h
    obtain ⟨a', ha, h⟩ := bind_eq_ok.1 h
    cases rest with
    | nil => nomatch h
    | cons r more =>
      obtain ⟨r', hr, h⟩ := bind_eq_ok.1 h
      obtain ⟨-, -, h⟩ := bind_eq_ok.1 h
      obtain rfl := pure_eq_ok.1 h
      exact wellLabelled_ctor.2
        ⟨wellLabelled_adt.2 (wellLabelled_readAdt a ha), wellLabelled_readRow r hr⟩
  · next entries => exact wellLabelled_readCtorEntries none none none entries nofun nofun h
  · nomatch h
termination_by sizeOf d

theorem wellLabelled_readCtorEntries (name : Option String) (owner : Option (String × List Ty))
    (row : Option Row) (entries : List (String × Doc)) {t : Ty}
    (ho : ∀ a ∈ owner, ∀ p ∈ a.2, p.WellLabelled) (hr : ∀ r ∈ row, r.toTuple.WellLabelled)
    (h : readCtorEntries name owner row entries = .ok t) : t.WellLabelled := by
  unfold readCtorEntries at h
  split at h
  · obtain ⟨n, -, h⟩ := bind_eq_ok.1 h
    obtain ⟨a, ha, h⟩ := bind_eq_ok.1 h
    obtain ⟨r, hrow, h⟩ := bind_eq_ok.1 h
    obtain rfl := pure_eq_ok.1 h
    exact wellLabelled_ctor.2
      ⟨wellLabelled_adt.2 (ho a (needEntry_eq_ok.1 ha)), hr r (needEntry_eq_ok.1 hrow)⟩
  · next key d rest =>
    split at h
    · obtain ⟨-, -, h⟩ := bind_eq_ok.1 h
      obtain ⟨n, -, h⟩ := bind_eq_ok.1 h
      exact wellLabelled_readCtorEntries (some n) owner row rest ho hr h
    · split at h
      · obtain ⟨-, -, h⟩ := bind_eq_ok.1 h
        obtain ⟨a, ha, h⟩ := bind_eq_ok.1 h
        refine wellLabelled_readCtorEntries name (some a) row rest ?_ hr h
        rintro _ ⟨⟩
        exact wellLabelled_readAdt d ha
      · split at h
        · obtain ⟨-, -, h⟩ := bind_eq_ok.1 h
          obtain ⟨r, hrow, h⟩ := bind_eq_ok.1 h
          refine wellLabelled_readCtorEntries name owner (some r) rest ho ?_ h
          rintro _ ⟨⟩
          exact wellLabelled_readRow d hrow
        · exact wellLabelled_readCtorEntries name owner row rest ho hr h
termination_by sizeOf entries

theorem wellLabelled_readNamed (name : Option String) (target : Option Ty)
    (entries : List (String × Doc)) {t : Ty} (ht : ∀ u ∈ target, u.WellLabelled)
    (h : readNamed name target entries = .ok t) : t.WellLabelled := by
  unfold readNamed at h
  split at h
  · obtain ⟨n, -, h⟩ := bind_eq_ok.1 h
    obtain ⟨u, hu, h⟩ := bind_eq_ok.1 h
    obtain rfl := pure_eq_ok.1 h
    exact ht u (needEntry_eq_ok.1 hu)
  · next key d rest =>
    split at h
    · obtain ⟨-, -, h⟩ := bind_eq_ok.1 h
      obtain ⟨n, -, h⟩ := bind_eq_ok.1 h
      exact wellLabelled_readNamed (some n) target rest ht h
    · split at h
      · obtain ⟨-, -, h⟩ := bind_eq_ok.1 h
        obtain ⟨u, hu, h⟩ := bind_eq_ok.1 h
        refine wellLabelled_readNamed name (some u) rest ?_ h
        rintro _ ⟨⟩
        exact wellLabelled_ofDoc d hu
      · exact wellLabelled_readNamed name target rest ht h
termination_by sizeOf entries

end

/-! ## Both directions -/

/-- **Types survive as documents, and reading is safe.** The document of a well-labelled type is
read back as that very type. Whatever type is read, from any document, is well-labelled, and its
own document is read back as that type again. -/
theorem document_round_trip :
    (∀ t : Ty, t.WellLabelled → ofDoc t.toDoc = .ok t) ∧
    ∀ (d : Doc) (t : Ty), ofDoc d = .ok t → t.WellLabelled ∧ ofDoc t.toDoc = .ok t := by
  refine ⟨ofDoc_toDoc, fun d t h => ?_⟩
  have ht : t.WellLabelled := wellLabelled_ofDoc d h
  exact ⟨ht, ofDoc_toDoc t ht⟩

/-- Labelled leaves of a tree, by their names. -/
def leavesByName : Ty :=
  map str (named "Leaf" (ctor "leaf" "Tree" [param "A"] [param "A", tuple [int, loc] none]
    (some ["label", "at"])))

/-- A relation whose labels are left out, with an entry that is passed over. -/
def plainRelationDoc : Doc :=
  .obj [("Relation", .obj [("fields", .arr [.str "Node"]), ("since", .num 7 0)])]

/-- One type goes through its document; another is read from a document that leaves its labels
out, and then goes through a document that does not. -/
theorem document_round_trip_leaves :
    leavesByName.WellLabelled ∧ ofDoc leavesByName.toDoc = .ok leavesByName ∧
    ofDoc plainRelationDoc = .ok (rel [node] none) ∧
    ofDoc (rel [node] none).toDoc = .ok (rel [node] none) := by
  have hleaves : leavesByName.WellLabelled := by
    simp [WellLabelled, leavesByName, rows, rowsAll, Row.WellLabelled, Row.arity]
  have hread : ofDoc plainRelationDoc = .ok (rel [node] none) := rfl
  obtain ⟨hwrite, hsafe⟩ := document_round_trip
  exact ⟨hleaves, hwrite leavesByName hleaves, hread, (hsafe plainRelationDoc _ hread).2⟩

end ValueLattice.Ty

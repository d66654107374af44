import Mathlib.Data.List.Forall2
import ValueLattice.Proofs.Value.Reflexivity
import ValueLattice.Value.Printer
/-!
# The text of a value does not tell the order of its parts

The elements of a set are printed in the order of their texts. Two texts of which neither precedes
the other are one text, so that given texts can be put in ascending order in one way only, also where
different elements print alike (`Value.Lists.unique`). It is left to show that the texts themselves
do not depend on the order. An element of one set may stand at another place in the other, and there
its own parts may be in another order, and so on at every depth. The induction is on the first of the
two values: partners have the same text before the texts are sorted.

* `Value.Lists`: a text that lists texts in ascending order;
* `Value.Reordered`: two values that differ only in the order of unordered parts;
* `Value.text_eq_of_reordered`: such values have the same text;
* `text_independent_of_order`: so have sets, relations and maps of the same parts put in in any order.
-/

namespace ValueLattice

namespace Value

variable {v w x y : Value} {xs ys : List Value} {es fs : List (Value × Value)}
variable {as bs : List (String × Value)} {s s' left right : String} {ts us : List String}

/-! ## Ascending texts -/

theorem sorted_perm (ts : List String) : (sorted ts).Perm ts := List.mergeSort_perm ts _

theorem not_lt_iff_le {s t : String} : (!decide (t < s)) = true ↔ s ≤ t := by
  rw [Bool.not_eq_true', decide_eq_false_iff_not, String.not_lt]

theorem pairwise_sorted (ts : List String) : (sorted ts).Pairwise (· ≤ ·) := by
  have htrans (a b c : String) (hab : (!decide (b < a)) = true) (hbc : (!decide (c < b)) = true) :
      (!decide (c < a)) = true :=
    not_lt_iff_le.2 (String.le_trans (not_lt_iff_le.1 hab) (not_lt_iff_le.1 hbc))
  have htotal (a b : String) : (!decide (b < a) || !decide (a < b)) = true := by
    rw [Bool.or_eq_true, not_lt_iff_le, not_lt_iff_le]
    exact String.le_total a b
  exact (List.pairwise_mergeSort htrans htotal ts).imp not_lt_iff_le.1

/-- The text `s` lists the texts `ts` in ascending order between two brackets. -/
def Lists (s left : String) (ts : List String) (right : String) : Prop :=
  ∃ us, us.Perm ts ∧ us.Pairwise (· ≤ ·) ∧ s = bracketed left us right

theorem lists_sorted (left : String) (ts : List String) (right : String) :
    Lists (bracketed left (sorted ts) right) left ts right :=
  ⟨sorted ts, sorted_perm ts, pairwise_sorted ts, rfl⟩

/-- There is one way to list given texts, whatever order they are given in. -/
theorem Lists.unique (h : Lists s left ts right) (h' : Lists s' left us right) (hp : ts.Perm us) :
    s = s' := by
  obtain ⟨ts', hts, hasc, rfl⟩ := h
  obtain ⟨us', hus, hasc', rfl⟩ := h'
  have hperm : ts'.Perm us' := hts.trans (hp.trans hus.symm)
  rw [hperm.eq_of_pairwise (fun _ _ _ _ => String.le_antisymm) hasc hasc']

/-! ## The texts of parts -/

/-- The text of an annotation. -/
def annoText (a : String × Value) : String := "@" ++ a.1 ++ "=" ++ text a.2

/-- The text of an entry of a map. -/
def entryText (e : Value × Value) : String := text e.1 ++ ":" ++ text e.2

theorem texts_eq_map (xs : List Value) : texts xs = xs.map text := by
  induction xs with
  | nil => rw [texts, List.map_nil]
  | cons x xs ih => rw [texts, ih, List.map_cons]

theorem annoTexts_eq_map (as : List (String × Value)) : annoTexts as = as.map annoText := by
  induction as with
  | nil => rw [annoTexts, List.map_nil]
  | cons a as ih => rw [annoTexts, ih, List.map_cons, annoText]

theorem entryTexts_eq_map (es : List (Value × Value)) : entryTexts es = es.map entryText := by
  induction es with
  | nil => rw [entryTexts, List.map_nil]
  | cons e es ih => rw [entryTexts, ih, List.map_cons, entryText]

theorem lists_text_set (t : Ty) (xs : List Value) :
    Lists (set t xs).text "\x7b" (xs.map text) "\x7d" := by
  rw [text, texts_eq_map]
  exact lists_sorted _ _ _

theorem lists_text_rel (gs : List Ty) (ls : Option (List String)) (xs : List Value) :
    Lists (rel gs ls xs).text "\x7b" (xs.map text) "\x7d" := by
  rw [text, texts_eq_map]
  exact lists_sorted _ _ _

theorem lists_text_map (t u : Ty) (es : List (Value × Value)) :
    Lists (map t u es).text "(" (es.map entryText) ")" := by
  rw [text, entryTexts_eq_map]
  exact lists_sorted _ _ _

end Value

/-! ## Parts in another order -/

/-- Two values that differ only in the order of the elements of sets and relations and of the
entries of maps, at any depth. The types that they carry are left open, since types that are joined
in another order may be written in another way, and so are the identities of the parts of nodes. -/
inductive Value.Reordered : Value → Value → Prop
  | leaf {v : Value} (h : v.isLeaf = true) : Reordered v v
  | tuple {ts us : List Ty} {ls ms : Option (List String)} {xs ys : List Value}
    (hx : List.Forall₂ Reordered xs ys) : Reordered (tuple ts ls xs) (tuple us ms ys)
  | node {g : Guise} {t u : Ty} {n : String} {i j i' j' : Nat} {xs ys : List Value}
    {as bs : List (String × Value)} (hx : List.Forall₂ Reordered xs ys)
    (hl : List.Forall₂ (fun a b => a.1 = b.1) as bs)
    (ha : List.Forall₂ (fun a b => Reordered a.2 b.2) as bs) :
    Reordered (node g t n i xs j as) (node g u n i' ys j' bs)
  | set {t u : Ty} {xs zs ys : List Value} (hx : List.Forall₂ Reordered xs zs) (hp : zs.Perm ys) :
    Reordered (set t xs) (set u ys)
  | rel {ts us : List Ty} {ls ms : Option (List String)} {xs zs ys : List Value}
    (hx : List.Forall₂ Reordered xs zs) (hp : zs.Perm ys) : Reordered (rel ts ls xs) (rel us ms ys)
  | list {t u : Ty} {xs ys : List Value} (hx : List.Forall₂ Reordered xs ys) :
    Reordered (list t xs) (list u ys)
  | map {k v l w : Ty} {es gs fs : List (Value × Value)}
    (hk : List.Forall₂ (fun e f => Reordered e.1 f.1) es gs)
    (hv : List.Forall₂ (fun e f => Reordered e.2 f.2) es gs) (hp : gs.Perm fs) :
    Reordered (map k v es) (map l w fs)

namespace Value

theorem text_node (g : Guise) (t : Ty) (n : String) (i j : Nat) (xs : List Value)
    (as : List (String × Value)) :
    (node g t n i xs j as).text = n ++ bracketed "(" (xs.map text) ")" ++
      (if (as.map annoText).isEmpty then "" else bracketed "[" (as.map annoText) "]") := by
  rw [text, texts_eq_map, annoTexts_eq_map, List.isEmpty_map]

theorem map_annoText_eq (hl : List.Forall₂ (fun a b => a.1 = b.1) as bs)
    (ha : List.Forall₂ (fun a b => Reordered a.2 b.2) as bs)
    (ih : ∀ a ∈ as, ∀ y, Reordered a.2 y → text a.2 = text y) :
    as.map annoText = bs.map annoText := by
  refine map_eq_of_forall₂ (forall₂_and hl ha) fun a hmem b hab => ?_
  rw [annoText, annoText, hab.1, ih a hmem b.2 hab.2]

/-- Values that differ only in the order of unordered parts have the same text. -/
theorem text_eq_of_reordered (h : Reordered v w) : text v = text w := by
  induction v using contents_induction generalizing w with
  | leaf v hv =>
    cases h with
    | leaf => rfl
    | _ => nomatch hv
  | tuple ts ls xs ih =>
    cases h with
    | leaf h => nomatch h
    | tuple hx =>
      have hxs : xs.map text = _ := map_eq_of_forall₂ hx fun x hmem y => ih x hmem
      rw [text, text, texts_eq_map, texts_eq_map, hxs]
  | node g t n i xs j as ih iha =>
    cases h with
    | leaf h => nomatch h
    | node hx hl ha =>
      have hxs : xs.map text = _ := map_eq_of_forall₂ hx fun x hmem y => ih x hmem
      have has : as.map annoText = _ := map_annoText_eq hl ha fun a hmem y => iha a hmem
      rw [text_node, text_node, hxs, has]
  | set t xs ih =>
    cases h with
    | leaf h => nomatch h
    | set hx hp =>
      have hperm := OneToOne.map_perm ⟨_, hx, hp⟩ fun x hmem y => ih x hmem
      exact (lists_text_set t xs).unique (lists_text_set _ _) hperm
  | rel ts ls xs ih =>
    cases h with
    | leaf h => nomatch h
    | rel hx hp =>
      have hperm := OneToOne.map_perm ⟨_, hx, hp⟩ fun x hmem y => ih x hmem
      exact (lists_text_rel ts ls xs).unique (lists_text_rel _ _ _) hperm
  | list t xs ih =>
    cases h with
    | leaf h => nomatch h
    | list hx =>
      have hxs : xs.map text = _ := map_eq_of_forall₂ hx fun x hmem y => ih x hmem
      rw [text, text, texts_eq_map, texts_eq_map, hxs]
  | map k v es ih =>
    cases h with
    | leaf h => nomatch h
    | map hk hv hp =>
      have hperm : (es.map entryText).Perm _ :=
        OneToOne.map_perm ⟨_, forall₂_and hk hv, hp⟩ fun e hmem f hef => by
          rw [entryText, entryText, (ih e hmem).1 hef.1, (ih e hmem).2 hef.2]
      exact (lists_text_map k v es).unique (lists_text_map _ _ _) hperm

/-! ## Parts put in, in two orders -/

/-- No value of the list is equal to an earlier one, so that a table takes in each of them. -/
def EachNew (xs : List Value) : Prop := xs.Pairwise fun x y => (y == x) = false

instance (xs : List Value) : Decidable (EachNew xs) :=
  inferInstanceAs (Decidable (xs.Pairwise fun x y => (y == x) = false))

theorem EachNew.pairwise_finds (h : EachNew xs) : xs.Pairwise fun x y => y.finds x = false :=
  h.imp finds_eq_false_of_beq

theorem EachNew.ofList_eq (h : EachNew xs) : Table.ofList xs = xs :=
  Table.ofList_eq_self h.pairwise_finds

theorem EachNew.putAll_eq (h : EachNew (es.map Prod.fst)) : EntryTable.putAll [] es = es :=
  EntryTable.putAll_eq_append (t := []) (List.pairwise_map.1 h.pairwise_finds)

theorem reordered_set_ofTable {t u : Ty} (hxs : EachNew xs) (hys : EachNew ys)
    (h : OneToOne Reordered xs ys) :
    (TypedSet.ofTable t xs).toValue.Reordered (TypedSet.ofTable u ys).toValue := by
  obtain ⟨zs, hx, hp⟩ := h
  show Reordered (set t (Table.ofList xs)) (set u (Table.ofList ys))
  rw [hxs.ofList_eq, hys.ofList_eq]
  exact .set hx hp

theorem reordered_rel_ofTable {r q : Row} (hxs : EachNew xs) (hys : EachNew ys)
    (h : OneToOne Reordered xs ys) :
    (Relation.ofTable r xs).toValue.Reordered (Relation.ofTable q ys).toValue := by
  obtain ⟨zs, hx, hp⟩ := h
  show Reordered (rel r.fields r.labels (Table.ofList xs)) (rel q.fields q.labels (Table.ofList ys))
  rw [hxs.ofList_eq, hys.ofList_eq]
  exact .rel hx hp

theorem reordered_map_ofTable {t u t' u' : Ty} (hes : EachNew (es.map Prod.fst))
    (hfs : EachNew (fs.map Prod.fst))
    (h : OneToOne (fun e f => Reordered e.1 f.1 ∧ Reordered e.2 f.2) es fs) :
    (TypedMap.ofTable t u es).toValue.Reordered (TypedMap.ofTable t' u' fs).toValue := by
  obtain ⟨gs, hg, hp⟩ := h
  show Reordered (map t u (EntryTable.putAll [] es)) (map t' u' (EntryTable.putAll [] fs))
  rw [hes.putAll_eq, hfs.putAll_eq]
  exact .map (hg.imp fun _ _ hef => hef.1) (hg.imp fun _ _ hef => hef.2) hp

end Value

open Value in
/-- **The text of a value does not tell the order of its parts.** Let the elements of one set be
those of another, up to the order of their own parts, and let both lists of elements be put in one by
one, with none equal to an earlier one: then the sets differ only in the order of parts, and so do
relations and maps. Values that differ only in the order of parts, at any depth, have the same text,
in which the texts of all elements, or entries, stand in ascending order. -/
theorem text_independent_of_order :
    (∀ t u xs ys, EachNew xs → EachNew ys → OneToOne Reordered xs ys →
      (TypedSet.ofTable t xs).toValue.Reordered (TypedSet.ofTable u ys).toValue) ∧
    (∀ r q xs ys, EachNew xs → EachNew ys → OneToOne Reordered xs ys →
      (Relation.ofTable r xs).toValue.Reordered (Relation.ofTable q ys).toValue) ∧
    (∀ t u t' u' es fs, EachNew (es.map Prod.fst) → EachNew (fs.map Prod.fst) →
      OneToOne (fun e f => Reordered e.1 f.1 ∧ Reordered e.2 f.2) es fs →
      (TypedMap.ofTable t u es).toValue.Reordered (TypedMap.ofTable t' u' fs).toValue) ∧
    (∀ v w : Value, v.Reordered w → v.text = w.text) ∧
    (∀ s : TypedSet, Lists s.toValue.text "\x7b" (s.elems.map text) "\x7d") ∧
    (∀ r : Relation, Lists r.toValue.text "\x7b" (r.elems.map text) "\x7d") ∧
    ∀ m : TypedMap, Lists m.toValue.text "(" (m.entries.map entryText) ")" :=
  ⟨fun _ _ _ _ => reordered_set_ofTable, fun _ _ _ _ => reordered_rel_ofTable,
    fun _ _ _ _ _ _ => reordered_map_ofTable, fun _ _ => text_eq_of_reordered,
    fun s => lists_text_set s.elem s.elems, fun r => lists_text_rel r.row.fields r.row.labels r.elems,
    fun m => lists_text_map m.key m.val m.entries⟩

/-! ### Unordered parts at three depths -/

namespace Value

/-- The tuple of one value. -/
def single (x : Value) : Value := tuple [x.ty] none [x]

/-- A node that has a relation of one column as its child, annotated with a map. -/
def markedNode (column : List Value) (marks : List (Value × Value)) : Value :=
  node .plain .node "n" 0 [(Relation.ofTable (.plain [.int]) column).toValue] 1
    [("at", (TypedMap.ofTable .int .bool marks).toValue)]

/-- A set of two empty sets, which print alike, in a set, next to a marked node. -/
def layers : TypedSet :=
  .ofTable .value [emptiesOf .int .str,
    markedNode [single (int 7), single (int 8)] [(int 1, bool true), (int 2, bool false)]]

/-- The same set, with the contents of each table put in in the opposite order. -/
def layersReversed : TypedSet :=
  .ofTable .value [
    markedNode [single (int 8), single (int 7)] [(int 2, bool false), (int 1, bool true)],
    emptiesOf .str .int]

theorem oneToOne_swap {α : Type} {r : α → α → Prop} {a b c d : α} (hac : r a c) (hbd : r b d) :
    OneToOne r [a, b] [d, c] :=
  ⟨[c, d], .cons hac (.cons hbd .nil), .swap d c []⟩

end Value

open Value in
theorem text_independent_of_order_layers :
    (set .int [] == set .str []) = false ∧ (set .int []).text = (set .str []).text ∧
      layers.elems.map Value.ty = [.set .value, .node] ∧
      layersReversed.elems.map Value.ty = [.node, .set .value] ∧
      layers.toValue.Reordered layersReversed.toValue ∧
      layers.toValue.text = layersReversed.toValue.text := by
  obtain ⟨hset, hrel, hmap, htext, -⟩ := text_independent_of_order
  have hempty (t u : Ty) : (set t []).Reordered (set u []) := .set .nil .nil
  have hint (n : Int) : (int n).Reordered (int n) := .leaf rfl
  have hbool (b : Bool) : (bool b).Reordered (bool b) := .leaf rfl
  have hsingle (n : Int) : (single (int n)).Reordered (single (int n)) :=
    .tuple (.cons (hint n) .nil)
  have hempties : (emptiesOf .int .str).Reordered (emptiesOf .str .int) :=
    hset _ _ _ _ (by decide +kernel) (by decide +kernel)
      (oneToOne_swap (hempty .int .int) (hempty .str .str))
  have hcolumn := hrel (.plain [.int]) (.plain [.int]) _ _ (by decide +kernel) (by decide +kernel)
    (oneToOne_swap (hsingle 7) (hsingle 8))
  have hmarks := hmap .int .bool .int .bool [(int 1, bool true), (int 2, bool false)]
    [(int 2, bool false), (int 1, bool true)] (by decide +kernel) (by decide +kernel)
    (oneToOne_swap ⟨hint 1, hbool true⟩ ⟨hint 2, hbool false⟩)
  have hnode : (markedNode [single (int 7), single (int 8)]
      [(int 1, bool true), (int 2, bool false)]).Reordered
      (markedNode [single (int 8), single (int 7)] [(int 2, bool false), (int 1, bool true)]) :=
    .node (.cons hcolumn .nil) (.cons rfl .nil) (.cons hmarks .nil)
  have hlayers : layers.toValue.Reordered layersReversed.toValue :=
    hset _ _ _ _ (by decide +kernel) (by decide +kernel) (oneToOne_swap hempties hnode)
  have htypes : layers.elems.map Value.ty = [.set .value, .node] := by decide +kernel
  have htypes' : layersReversed.elems.map Value.ty = [.node, .set .value] := by decide +kernel
  have hunequal : (set .int [] == set .str []) = false := by decide +kernel
  exact ⟨hunequal, htext _ _ (hempty _ _), htypes, htypes', hlayers, htext _ _ hlayers⟩

end ValueLattice

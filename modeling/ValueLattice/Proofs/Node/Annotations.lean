import ValueLattice.Proofs.Node.Outcome
import ValueLattice.Proofs.Ty.Order
import ValueLattice.Proofs.Ty.Params
/-!
# Annotations are declared

What a node carries was checked when it was set, against the declarations for the type of the node.
No update changes that type, so the check holds of every node that operations with one registry lead
to: a child that is exchanged leaves the annotations alone, and annotations are added under the same
type. The labels are in order, so each is carried once, and looking it up finds the value that was
checked.

* `Node.Declared`, `NodeOutcome.declared`: the invariant, and what one operation keeps of it;
* `Node.Reachable`, `Node.Reachable.declared`: the nodes that operations lead to, and the invariant
  of all of them;
* `annoType_of_ctor`: the owners at which a label is looked up on a constructor;
* `annotations_declared`: what a node carries is declared, and a declaration depends on names only.
-/

namespace ValueLattice

variable {n m : Node} {r : Registry} {t : Ty} {l : String} {x : Value} {id : Nat} {c d : Ty}
  {as : List (String × Value)} {op : NodeOp}

/-! ## The invariant -/

namespace Node

/-- The annotations are in the order of their labels, and the node may carry each of them. -/
structure Declared (r : Registry) (n : Node) : Prop where
  sorted : n.annos.Pairwise (·.1 < ·.1)
  checked : ∀ a ∈ n.annos, n.checkAnno r a.1 a.2 = .ok ()

theorem pairwise_insertAnno (h : as.Pairwise (·.1 < ·.1)) :
    (insertAnno l x as).Pairwise (·.1 < ·.1) := by
  induction as with
  | nil => exact List.pairwise_singleton _ _
  | cons a as ih =>
    obtain ⟨ha, has⟩ := List.pairwise_cons.1 h
    unfold insertAnno
    split
    · next hla =>
      exact .cons (List.forall_mem_cons.2 ⟨hla, fun b hb => String.lt_trans hla (ha b hb)⟩) h
    · next hla =>
      split
      · next heq => exact .cons (fun b hb => heq ▸ ha b hb) has
      · next hne =>
        have hal : a.1 < l := Std.lt_of_le_of_ne (Std.not_lt.1 hla) (Ne.symm hne)
        refine .cons (fun b hb => ?_) (ih has)
        rcases mem_insertAnno hb with rfl | hb
        · exact hal
        · exact ha b hb

theorem pairwise_foldl_insertAnno (bs : List (String × Value)) (h : as.Pairwise (·.1 < ·.1)) :
    (bs.foldl (fun as e => insertAnno e.1 e.2 as) as).Pairwise (·.1 < ·.1) := by
  induction bs generalizing as with
  | nil => exact h
  | cons b bs ih => exact ih (pairwise_insertAnno h)

theorem lookup_eq_some_of_mem (h : as.Pairwise (·.1 < ·.1)) (hx : (l, x) ∈ as) :
    as.lookup l = some x := by
  obtain ⟨bs, cs, rfl⟩ := List.append_of_mem hx
  refine List.lookup_eq_some_iff.2 ⟨bs, cs, rfl, fun b hb => bne_iff_ne.2 ?_⟩
  have hb : b.1 < l := (List.pairwise_append.1 h).2.2 b hb (l, x) List.mem_cons_self
  rintro rfl
  exact String.lt_irrefl _ hb

theorem Bare.declared {xs : List Value} (h : n.Bare id xs) : n.Declared r := by
  refine ⟨?_, ?_⟩ <;> rw [h.annos]
  · exact .nil
  · exact nofun

/-- Annotations that are set are checked first, those that the node has were checked before. -/
theorem Declared.setAnnos (hm : m.Declared r) (h : m.setAnnos id r as = .ok n) :
    n.Declared r := by
  obtain ⟨hcheck, rfl⟩ := setAnnos_eq_ok.1 h
  refine ⟨pairwise_foldl_insertAnno as hm.sorted, fun a ha => ?_⟩
  rcases mem_foldl_insertAnno ha with ha | ha
  · exact hcheck a ha
  · exact hm.checked a ha

theorem checkAnno_eq_ok :
    n.checkAnno r l x = .ok () ↔ ∃ t, r.annoType n.ty l = some t ∧ x.ty.leq t = true := by
  unfold checkAnno
  cases r.annoType n.ty l with
  | none => simp
  | some t => by_cases h : x.ty.leq t = true <;> simp [h]

/-- A label that is carried is looked up without fail. -/
theorem Declared.get (hn : n.Declared r) (hx : (l, x) ∈ n.annos) :
    n.hasAnno r l = .ok true ∧ n.getAnno r l = .ok (some x) := by
  have hanno : n.anno? l = some x := lookup_eq_some_of_mem hn.sorted hx
  obtain ⟨t, ht, -⟩ := checkAnno_eq_ok.1 (hn.checked (l, x) hx)
  simp [hasAnno, getAnno, Registry.declaresAnno, ht, hanno]

end Node

/-- One operation keeps the invariant. -/
theorem NodeOutcome.declared {c : NodeChange} {vs : List Value} (h : NodeOutcome r id c vs n)
    (hc : ∀ m ∈ c.of?, m.Declared r) : n.Declared r := by
  cases h with
  | bare h => exact h.declared
  | annotated hb h => exact hb.declared.setAnnos h
  | @set m _ _ _ h =>
    obtain rfl := Node.set_eq_ok h
    exact ⟨(hc m rfl).sorted, (hc m rfl).checked⟩
  | @setAnnos m _ _ h => exact (hc m rfl).setAnnos h
  | removeAnno m l =>
    exact ⟨(hc m rfl).sorted.filter _, fun a ha => (hc m rfl).checked a (List.mem_filter.1 ha).1⟩
  | removeAnnos m => exact ⟨.nil, nofun⟩

/-- The nodes that operations with the declarations `r` lead to. -/
inductive Node.Reachable (r : Registry) : Node → Prop
  | step (op : NodeOp) (id : Nat) {n : Node} (hm : ∀ m ∈ op.receiver?, Reachable r m)
    (h : (op.run r id).Returns n) : Reachable r n

theorem Node.Reachable.declared (h : n.Reachable r) : n.Declared r := by
  induction h with
  | step op id hm h ih => exact (NodeOp.outcome_of_run h).declared ih

/-- The constructor `name` of the abstract data type `adt`, whatever its parameters and fields. -/
def Ty.IsCtor (name adt : String) (t : Ty) : Prop :=
  ∃ ps fs ls, t.strip = .ctor name adt ps fs ls

theorem Node.Reachable.fits (h : n.Reachable r) : Fits n.ty n.children := by
  induction h with
  | step op id hm h ih => exact (NodeOp.outcome_of_run h).fits ih

/-- The type of a node is that of plain nodes, or a constructor. -/
theorem Node.Reachable.ty (h : n.Reachable r) :
    n.ty = .node ∨ ∃ name adt, n.ty.IsCtor name adt := by
  generalize ht : n.ty = t
  cases ht ▸ h.fits with
  | plain => exact .inl rfl
  | ctor => exact .inr ⟨_, _, _, _, _, rfl⟩

/-! ## Owners -/

/-- The declared type of the annotation `l` at one owner. -/
def Registry.annoAt (r : Registry) (o : Owner) (l : String) : Option Ty :=
  (r.annos.get? o).bind fun declared => declared.get? l

section Owners

variable {name adt name' adt' : String}

theorem annoType_eq (t : Ty) (l : String) :
    r.annoType t l = t.owners.findSome? fun o => r.annoAt o l := rfl

/-- A label is looked up at the constructor, at its abstract data type and at any node, in this
order. -/
theorem annoType_of_ctor (hc : c.IsCtor name adt) (l : String) : r.annoType c l =
    ((r.annoAt (.ctor adt name) l).or (r.annoAt (.adt adt) l)).or (r.annoAt .anyNode l) := by
  obtain ⟨ps, fs, ls, hc⟩ := hc
  have howners : c.owners = [.ctor adt name, .adt adt, .anyNode] := by
    simp [Ty.owners, Ty.owner?, hc]
  rw [annoType_eq, howners]
  simp only [List.findSome?_cons, List.findSome?_nil]
  cases r.annoAt (.ctor adt name) l <;> cases r.annoAt (.adt adt) l <;>
    cases r.annoAt .anyNode l <;> rfl

theorem annoType_node (l : String) : r.annoType .node l = r.annoAt .anyNode l := by
  have howners : Ty.node.owners = [.anyNode, .anyNode] := rfl
  rw [annoType_eq, howners]
  simp only [List.findSome?_cons, List.findSome?_nil]
  cases r.annoAt .anyNode l <;> rfl

theorem Ty.IsCtor.subst (hc : c.IsCtor name adt) (s : Subst) : (c.subst s).IsCtor name adt := by
  obtain ⟨ps, fs, ls, hc⟩ := hc
  exact ⟨_, _, _, (strip_subst_of_ctor hc).trans (Ty.subst.eq_def ..)⟩

/-- Comparable constructor types have the same names. -/
theorem Ty.IsCtor.names_eq (hc : c.IsCtor name adt) (hd : d.IsCtor name' adt')
    (h : c.leq d = true) : name' = name ∧ adt' = adt := by
  obtain ⟨ps, fs, ls, hc⟩ := hc
  obtain ⟨qs, gs, ms, hd⟩ := hd
  have hbelow : Below (.ctor name adt ps fs ls) (.ctor name' adt' qs gs ms) :=
    hc ▸ hd ▸ (leq_iff_below c d).1 h
  cases hbelow
  exact ⟨rfl, rfl⟩

end Owners

/-- **What a node carries is declared.** A node that operations with the declarations `r` lead to
is plain or of a constructor type. Each label that it carries is declared for its type, the value
under it has a type below the declared one, and the label is looked up without fail. The
declaration is found at the first owner that has one: the constructor itself, its abstract data
type, or any node. It thus depends on the names of the constructor alone, and is the same for its
instances and for all constructor types above and below. -/
theorem annotations_declared (r : Registry) :
    (∀ n : Node, n.Reachable r →
      (n.ty = .node ∨ ∃ name adt, n.ty.IsCtor name adt) ∧
      ∀ l x, (l, x) ∈ n.annos →
        (∃ t, r.annoType n.ty l = some t ∧ x.ty.leq t = true) ∧
        n.hasAnno r l = .ok true ∧ n.getAnno r l = .ok (some x)) ∧
    (∀ l, r.annoType .node l = r.annoAt .anyNode l) ∧
    ∀ (c : Ty) (name adt : String), c.IsCtor name adt → ∀ l : String,
      r.annoType c l =
        ((r.annoAt (.ctor adt name) l).or (r.annoAt (.adt adt) l)).or (r.annoAt .anyNode l) ∧
      (∀ s : Subst, r.annoType (c.subst s) l = r.annoType c l) ∧
      ∀ (d : Ty) (name' adt' : String), d.IsCtor name' adt' → c.leq d = true ∨ d.leq c = true →
        r.annoType d l = r.annoType c l := by
  refine ⟨fun n hn => ⟨hn.ty, fun l x hx => ?_⟩, annoType_node, fun c name adt hc l => ?_⟩
  · exact ⟨Node.checkAnno_eq_ok.1 (hn.declared.checked (l, x) hx), hn.declared.get hx⟩
  · refine ⟨annoType_of_ctor hc l, fun s => ?_, fun d name' adt' hd hcd => ?_⟩
    · rw [annoType_of_ctor hc, annoType_of_ctor (hc.subst s)]
    · obtain ⟨rfl, rfl⟩ : name' = name ∧ adt' = adt := by
        rcases hcd with h | h
        · exact hc.names_eq hd h
        · exact (hd.names_eq hc h).imp Eq.symm Eq.symm
      rw [annoType_of_ctor hc, annoType_of_ctor hd]

/-- A constructor with a parameter, whose nodes carry a line. -/
def boxed : Ty := .ctor "some" "Box" [.param "T"] [.param "T"] none

/-- The line is declared for all constructors of the abstract data type. -/
def boxes : Registry := { Registry.empty with annos := [(.adt "Box", [("line", .int)])] }

/-- A box with a number in it, on some line. -/
def numberBox : Node :=
  ⟨.ctor "some" "Box" [.int] [.int] none, "some", 1, [.int 7], 1, [("line", .int 3)]⟩

theorem reachable_numberBox : numberBox.Reachable boxes :=
  .step (.constructWithAnnos boxed [.int 7] [("line", .int 3)]) 1
    (fun m hm => absurd hm (Option.not_mem_none m)) rfl

/-- A box is built for the instance of its constructor, and keeps its line when its content is
exchanged. -/
theorem annotations_declared_box : ∃ n : Node, n.Reachable boxes ∧ n.children = [.int 8] ∧
    n.hasAnno boxes "line" = .ok true ∧ n.getAnno boxes "line" = .ok (some (.int 3)) ∧
    boxes.annoType n.ty "line" = boxes.annoType boxed "line" := by
  obtain ⟨hnode, -, hctor⟩ := annotations_declared boxes
  have hn : Node.Reachable boxes { numberBox with childrenId := 2, children := [.int 8] } := by
    refine .step (.set numberBox 0 (.int 8)) 2 (fun m hm => ?_) rfl
    obtain rfl := Option.some.inj hm
    exact reachable_numberBox
  have hline := ((hnode _ hn).2 "line" (.int 3) List.mem_cons_self).2
  have hboxed : boxed.IsCtor "some" "Box" := ⟨_, _, _, rfl⟩
  exact ⟨_, hn, rfl, hline.1, hline.2, (hctor boxed _ _ hboxed "line").2.1 [("T", .int)]⟩

end ValueLattice

import ValueLattice.NodeRun
import ValueLattice.Proofs.Computation
/-!
# Outcomes of operations on nodes

The operations on nodes come down to a few outcomes, which say all that an operation can do: a node
is built of given children, with no annotations or with given ones, or it is an earlier node with a
child, an annotation or all annotations exchanged. Whatever holds of every node is proved by cases
on them.

A part of a new node is made under the identity of its operation, or it is taken over from the node
that is updated, together with its identity.

* `Node.Fits`: as many children as the type of the node asks for;
* `NodeOutcome`, `NodeOp.outcome_of_run`: the outcomes of operations;
* `NodeChange.Makes`, `NodeOutcome.makes`: what is made anew, and what is taken over;
* `NodeOutcome.mem_parts`: nothing is in a new node but what was given, or in the earlier one;
* `NodeOutcome.ty_eq`, `NodeOutcome.fits`: a node keeps its type, and has as many children as the
  type asks for.
-/

namespace ValueLattice

variable {n m : Node} {r : Registry} {t : Ty} {xs vs : List Value} {as bs : List (String × Value)}
  {l : String} {x : Value} {i id : Nat} {a : String × Value} {c : NodeChange} {op : NodeOp}

/-! ## Outcomes -/

/-- The type is one of nodes, and a constructor has as many fields as there are children. -/
inductive Node.Fits : Ty → List Value → Prop
  | plain (xs : List Value) : Fits .node xs
  | ctor {l o : String} {ps fs : List Ty} {ls : Option (List String)} {xs : List Value}
    (h : fs.length = xs.length) : Fits (.ctor l o ps fs ls) xs

theorem Node.Fits.of_length {ys : List Value} (h : Fits t xs) (hl : ys.length = xs.length) :
    Fits t ys := by
  cases h with
  | plain => exact .plain ys
  | ctor h => exact .ctor (h.trans hl.symm)

/-- The node has the given children, under the identity `id`, and no annotations. -/
structure Node.Bare (id : Nat) (xs : List Value) (n : Node) : Prop where
  fits : Fits n.ty xs
  childrenId : n.childrenId = id
  children : n.children = xs
  annosId : n.annosId = noAnnos
  annos : n.annos = []

/-- What an operation comes to that makes a change, with the values `vs`: the node `n`. -/
inductive NodeOutcome (r : Registry) (id : Nat) : NodeChange → List Value → Node → Prop
  | bare {xs : List Value} {n : Node} (h : n.Bare id xs) : NodeOutcome r id .all xs n
  | annotated {xs : List Value} {as : List (String × Value)} {b n : Node} (hb : b.Bare id xs)
    (h : b.setAnnos id r as = .ok n) : NodeOutcome r id .all (xs ++ as.map Prod.snd) n
  | set {m n : Node} {i : Nat} {x : Value} (h : m.set id i x = .ok n) :
    NodeOutcome r id (.children m) [x] n
  | setAnnos {m n : Node} {as : List (String × Value)} (h : m.setAnnos id r as = .ok n) :
    NodeOutcome r id (.annos m) (as.map Prod.snd) n
  | removeAnno (m : Node) (l : String) : NodeOutcome r id (.annos m) [] (m.removeAnno id l)
  | removeAnnos (m : Node) : NodeOutcome r id (.cleared m) [] m.removeAnnos

namespace Node

theorem bare_plain (id : Nat) (l : String) (xs : List Value) : (plain id l xs).Bare id xs :=
  ⟨.plain xs, rfl, rfl, rfl, rfl⟩

theorem bare_ofCtor (h : ofCtor id t xs = .ok n) : n.Bare id xs := by
  unfold ofCtor at h
  split at h
  · split at h
    · next hl =>
      obtain ⟨⟨⟩, -, h⟩ := bind_eq_ok.1 h
      obtain rfl := pure_eq_ok.1 h
      exact ⟨.ctor hl, rfl, rfl, rfl, rfl⟩
    · cases h
  · cases h

theorem bare_construct (h : (construct id t xs).Returns n) : n.Bare id xs := by
  unfold construct at h
  split at h
  · split at h
    · obtain ⟨bound, -, h⟩ := Checked.returns_bind.1 h
      exact bare_ofCtor (Checked.returns_except.1 h)
    · exact bare_ofCtor (Checked.returns_except.1 h)
  · exact absurd h Checked.returns_throw

theorem bare_constructNamed {adt : String} (h : (constructNamed id r adt l xs).Returns n) :
    n.Bare id xs := by
  unfold constructNamed at h
  split at h
  · exact bare_construct h
  · exact absurd h Checked.returns_throw

/-- One annotation is set as a list of one is. -/
theorem setAnno_eq (id : Nat) (m : Node) (r : Registry) (l : String) (x : Value) :
    m.setAnno id r l x = m.setAnnos id r [(l, x)] := by
  simp [setAnno, setAnnos]

end Node

/-- The operations have no other outcomes. -/
theorem NodeOp.outcome_of_run (h : (op.run r id).Returns n) :
    NodeOutcome r id op.change op.values n := by
  cases op with
  | plain l xs =>
    obtain rfl := Checked.returns_pure.1 h
    exact .bare (Node.bare_plain id l xs)
  | plainWithAnnos l xs as => exact .annotated (Node.bare_plain id l xs) h
  | ofCtor t xs => exact .bare (Node.bare_ofCtor h)
  | construct t xs => exact .bare (Node.bare_construct h)
  | constructNamed o l xs => exact .bare (Node.bare_constructNamed h)
  | constructWithAnnos t xs as =>
    obtain ⟨b, hb, h⟩ := Checked.returns_bind.1 h
    exact .annotated (Node.bare_construct hb) h
  | set m i x => exact .set h
  | setLabel m l x =>
    obtain ⟨i, -, h⟩ := bind_eq_ok.1 h
    exact .set h
  | setAnno m l x =>
    have h : m.setAnnos id r [(l, x)] = .ok n := Node.setAnno_eq id m r l x ▸ h
    exact .setAnnos h
  | setAnnos m as => exact .setAnnos h
  | removeAnno m l =>
    obtain rfl := Checked.returns_pure.1 h
    exact .removeAnno m l
  | removeAnnos m =>
    obtain rfl := Checked.returns_pure.1 h
    exact .removeAnnos m

/-! ## What is made anew -/

/-- The parts of `n` are made under the identity `id`, or taken over together with theirs. -/
def NodeChange.Makes (id : Nat) (n : Node) : NodeChange → Prop
  | all => n.childrenId = id ∧ (n.annosId = id ∨ n.annosId = Node.noAnnos ∧ n.annos = [])
  | children m => n.childrenId = id ∧ n.annosId = m.annosId ∧ n.annos = m.annos
  | annos m => n.childrenId = m.childrenId ∧ n.children = m.children ∧ n.annosId = id
  | cleared m => n.childrenId = m.childrenId ∧ n.children = m.children ∧
    n.annosId = Node.noAnnos ∧ n.annos = []

/-- The values that a node is made of. -/
def Node.parts (n : Node) : List Value := n.children ++ n.annos.map Prod.snd

namespace Node

theorem set_eq_ok (h : m.set id i x = .ok n) :
    n = { m with childrenId := id, children := m.children.set i x } := by
  unfold set at h
  split at h
  · obtain ⟨t, -, h⟩ := bind_eq_ok.1 h
    split at h
    · exact (pure_eq_ok.1 h).symm
    · nomatch h
  · nomatch h

theorem setAnnos_eq_ok : m.setAnnos id r as = .ok n ↔
    (∀ e ∈ as, m.checkAnno r e.1 e.2 = .ok ()) ∧
    n = { m with
      annosId := id
      annos := as.foldl (fun as e => insertAnno e.1 e.2 as) m.annos } := by
  rw [setAnnos, bind_eq_ok]
  constructor
  · rintro ⟨⟨⟩, hcheck, h⟩
    exact ⟨forM_eq_ok.1 hcheck, (pure_eq_ok.1 h).symm⟩
  · rintro ⟨hcheck, rfl⟩
    exact ⟨(), forM_eq_ok.2 hcheck, rfl⟩

theorem mem_insertAnno (h : a ∈ insertAnno l x as) : a = (l, x) ∨ a ∈ as := by
  induction as with
  | nil => exact .inl (List.mem_singleton.1 h)
  | cons b as ih =>
    unfold insertAnno at h
    split at h
    · exact List.mem_cons.1 h
    · split at h
      · exact (List.mem_cons.1 h).imp_right (List.mem_cons_of_mem b)
      · rcases List.mem_cons.1 h with rfl | h
        · exact .inr List.mem_cons_self
        · exact (ih h).imp_right (List.mem_cons_of_mem b)

theorem mem_foldl_insertAnno (h : a ∈ bs.foldl (fun as e => insertAnno e.1 e.2 as) as) :
    a ∈ bs ∨ a ∈ as := by
  induction bs generalizing as with
  | nil => exact .inr h
  | cons b bs ih =>
    rcases ih h with h | h
    · exact .inl (List.mem_cons_of_mem b h)
    · rcases mem_insertAnno h with rfl | h
      · exact .inl List.mem_cons_self
      · exact .inr h

theorem mem_parts : x ∈ n.parts ↔ x ∈ n.children ∨ ∃ a ∈ n.annos, a.2 = x := by
  rw [parts, List.mem_append, List.mem_map]

/-- Setting annotations adds nothing but their values. -/
theorem mem_parts_of_setAnnos (h : m.setAnnos id r as = .ok n) (hx : x ∈ n.parts) :
    x ∈ as.map Prod.snd ∨ x ∈ m.parts := by
  obtain ⟨-, rfl⟩ := setAnnos_eq_ok.1 h
  rcases mem_parts.1 hx with hx | ⟨a, ha, rfl⟩
  · exact .inr (mem_parts.2 (.inl hx))
  · rcases mem_foldl_insertAnno ha with ha | ha
    · exact .inl (List.mem_map_of_mem ha)
    · exact .inr (mem_parts.2 (.inr ⟨a, ha, rfl⟩))

theorem Bare.parts_eq (h : n.Bare id xs) : n.parts = xs := by
  rw [parts, h.children, h.annos, List.map_nil, List.append_nil]

end Node

namespace NodeOutcome

theorem makes (h : NodeOutcome r id c vs n) : c.Makes id n := by
  cases h with
  | bare h => exact ⟨h.childrenId, .inr ⟨h.annosId, h.annos⟩⟩
  | annotated hb h =>
    obtain ⟨-, rfl⟩ := Node.setAnnos_eq_ok.1 h
    exact ⟨hb.childrenId, .inl rfl⟩
  | set h =>
    obtain rfl := Node.set_eq_ok h
    exact ⟨rfl, rfl, rfl⟩
  | setAnnos h =>
    obtain ⟨-, rfl⟩ := Node.setAnnos_eq_ok.1 h
    exact ⟨rfl, rfl, rfl⟩
  | removeAnno m l => exact ⟨rfl, rfl, rfl⟩
  | removeAnnos m => exact ⟨rfl, rfl, rfl, rfl⟩

/-- Everything in a new node was given, or was in the node that is updated. -/
theorem mem_parts (h : NodeOutcome r id c vs n) (hx : x ∈ n.parts) :
    x ∈ vs ∨ ∃ m ∈ c.of?, x ∈ m.parts := by
  cases h with
  | bare h => exact .inl (h.parts_eq ▸ hx)
  | annotated hb h =>
    rcases Node.mem_parts_of_setAnnos h hx with hx | hx
    · exact .inl (List.mem_append_right _ hx)
    · exact .inl (List.mem_append_left _ (hb.parts_eq ▸ hx))
  | @set m n i y h =>
    obtain rfl := Node.set_eq_ok h
    rcases Node.mem_parts.1 hx with hx | hx
    · rcases List.mem_or_eq_of_mem_set hx with hx | rfl
      · exact .inr ⟨m, rfl, Node.mem_parts.2 (.inl hx)⟩
      · exact .inl List.mem_cons_self
    · exact .inr ⟨m, rfl, Node.mem_parts.2 (.inr hx)⟩
  | setAnnos h => exact (Node.mem_parts_of_setAnnos h hx).imp_right fun hx => ⟨_, rfl, hx⟩
  | removeAnno m l =>
    refine .inr ⟨m, rfl, Node.mem_parts.2 ((Node.mem_parts.1 hx).imp_right ?_)⟩
    rintro ⟨a, ha, rfl⟩
    exact ⟨a, (List.mem_filter.1 ha).1, rfl⟩
  | removeAnnos m =>
    refine .inr ⟨m, rfl, Node.mem_parts.2 ((Node.mem_parts.1 hx).imp_right ?_)⟩
    rintro ⟨a, ha, -⟩
    nomatch ha

/-- A node keeps its type through all updates. -/
theorem ty_eq (h : NodeOutcome r id c vs n) (hm : m ∈ c.of?) : n.ty = m.ty := by
  cases h with
  | bare => nomatch hm
  | annotated => nomatch hm
  | set h =>
    obtain rfl := Option.some.inj hm
    obtain rfl := Node.set_eq_ok h
    rfl
  | setAnnos h =>
    obtain rfl := Option.some.inj hm
    obtain ⟨-, rfl⟩ := Node.setAnnos_eq_ok.1 h
    rfl
  | removeAnno m l => exact Option.some.inj hm ▸ rfl
  | removeAnnos m => exact Option.some.inj hm ▸ rfl

/-- Every node has as many children as its type asks for. -/
theorem fits (h : NodeOutcome r id c vs n) (hc : ∀ m ∈ c.of?, Node.Fits m.ty m.children) :
    Node.Fits n.ty n.children := by
  cases h with
  | bare h => exact h.children ▸ h.fits
  | @annotated _ _ b _ hb h =>
    obtain ⟨-, rfl⟩ := Node.setAnnos_eq_ok.1 h
    exact (hb.children ▸ hb.fits : Node.Fits b.ty b.children)
  | set h =>
    obtain rfl := Node.set_eq_ok h
    exact (hc _ rfl).of_length List.length_set
  | @setAnnos m _ _ h =>
    obtain ⟨-, rfl⟩ := Node.setAnnos_eq_ok.1 h
    exact hc m rfl
  | removeAnno m l => exact hc m rfl
  | removeAnnos m => exact hc m rfl

end NodeOutcome

end ValueLattice

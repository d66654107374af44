import ValueLattice.Proofs.Node.Annotations
import ValueLattice.Proofs.Ty.Row
import ValueLattice.Proofs.Value.Construct
import ValueLattice.Proofs.Value.Reflexivity
/-!
# Laws of updates

An update of a node is checked against the type of the node alone, and the type never changes. So
the check of one update does not depend on the others, and whatever updates succeed by themselves
succeed together. The results differ only in the identities of the parts that were made.

That a child can be put back where it was read needs the types of the children, which were checked
when they were put there, by whatever operation that was.

* `Node.ShowsSame`: nodes that differ in identities only;
* `Node.Commute`, `Node.Overrides`: two updates in either order, and a later one that wins;
* `Node.Takes`, `Node.Made.fitted`: the check of a child, and that all children have passed it;
* `Node.setEach`, `Node.setEach_eq_ok`: annotations set one by one;
* `node_update_laws`: updates of children and annotations, one after the other and in bulk.
-/

namespace ValueLattice

variable {n m : Node} {r : Registry} {t : Ty} {l k : String} {x y : Value} {i j c id : Nat}
  {xs : List Value} {as cs : List (String × Value)} {op : NodeOp}

namespace Node

/-! ## Updates -/

/-- The nodes have the same type, name, children and annotations. -/
structure ShowsSame (n m : Node) : Prop where
  ty : n.ty = m.ty
  name : n.name = m.name
  children : n.children = m.children
  annos : n.annos = m.annos

/-- Two updates of `n` succeed one after the other, in either order, exactly if both succeed on `n`
itself, and the order does not show. -/
structure Commute (f g : Node → Except Fault Node) (n : Node) : Prop where
  first : (∃ m, f n >>= g = .ok m) ↔ (∃ m, f n = .ok m) ∧ ∃ m, g n = .ok m
  second : (∃ m, g n >>= f = .ok m) ↔ (∃ m, f n = .ok m) ∧ ∃ m, g n = .ok m
  same : ∀ m m', f n >>= g = .ok m → g n >>= f = .ok m' → m.ShowsSame m'

/-- The second of two updates of `n` succeeds after the first exactly if both succeed on `n`
itself, and only the second shows. -/
structure Overrides (f g : Node → Except Fault Node) (n : Node) : Prop where
  both : (∃ m, f n >>= g = .ok m) ↔ (∃ m, f n = .ok m) ∧ ∃ m, g n = .ok m
  same : ∀ m m', f n >>= g = .ok m → g n = .ok m' → m.ShowsSame m'

/-- The function checks whether nodes satisfy `p` and makes the change `u` where they do. -/
def Checks (f : Node → Except Fault Node) (p : Node → Prop) (u : Node → Node) : Prop :=
  ∀ n m, f n = .ok m ↔ p n ∧ m = u n

section Checks

variable {f g : Node → Except Fault Node} {p q : Node → Prop} {u w : Node → Node}

theorem Checks.exists_iff (h : Checks f p u) : (∃ m, f n = .ok m) ↔ p n := by
  constructor
  · rintro ⟨m, hm⟩
    exact ((h n m).1 hm).1
  · exact fun hp => ⟨u n, (h n (u n)).2 ⟨hp, rfl⟩⟩

theorem Checks.bind (hf : Checks f p u) (hg : Checks g q w) :
    Checks (fun n => f n >>= g) (fun n => p n ∧ q (u n)) (fun n => w (u n)) := by
  intro n m
  rw [bind_eq_ok]
  constructor
  · rintro ⟨d, hd, hm⟩
    obtain ⟨hp, rfl⟩ := (hf n d).1 hd
    obtain ⟨hq, rfl⟩ := (hg (u n) m).1 hm
    exact ⟨⟨hp, hq⟩, rfl⟩
  · rintro ⟨⟨hp, hq⟩, rfl⟩
    exact ⟨u n, (hf n (u n)).2 ⟨hp, rfl⟩, (hg (u n) _).2 ⟨hq, rfl⟩⟩

/-- Two changes that leave each other's checks alone commute where their order does not show. -/
theorem Checks.commute (hf : Checks f p u) (hg : Checks g q w) (hpw : p (w n) ↔ p n)
    (hqu : q (u n) ↔ q n) (hs : (w (u n)).ShowsSame (u (w n))) : Commute f g n where
  first := by rw [(hf.bind hg).exists_iff, hf.exists_iff, hg.exists_iff, hqu]
  second := by rw [(hg.bind hf).exists_iff, hf.exists_iff, hg.exists_iff, hpw, and_comm]
  same := by
    intro m m' hm hm'
    rw [((hf.bind hg n m).1 hm).2, ((hg.bind hf n m').1 hm').2]
    exact hs

theorem Checks.overrides (hf : Checks f p u) (hg : Checks g q w) (hqu : q (u n) ↔ q n)
    (hs : (w (u n)).ShowsSame (w n)) : Overrides f g n where
  both := by rw [(hf.bind hg).exists_iff, hf.exists_iff, hg.exists_iff, hqu]
  same := by
    intro m m' hm hm'
    rw [((hf.bind hg n m).1 hm).2, ((hg n m').1 hm').2]
    exact hs

end Checks

/-! ## Children -/

/-- The node may have `x` as its child at position `i`. -/
def Takes (n : Node) (i : Nat) (x : Value) : Prop :=
  i < n.arity ∧ ∃ t, n.ty.field i = .ok t ∧ x.ty.leq t = true

theorem set_eq_ok_iff : m.set c i x = .ok n ↔
    m.Takes i x ∧ n = { m with childrenId := c, children := m.children.set i x } := by
  constructor
  · intro h
    refine ⟨?_, set_eq_ok h⟩
    unfold set at h
    split at h
    · next hi =>
      obtain ⟨t, ht, h⟩ := bind_eq_ok.1 h
      split at h
      · next hx => exact ⟨hi, t, ht, hx⟩
      · nomatch h
    · nomatch h
  · rintro ⟨⟨hi, t, ht, hx⟩, rfl⟩
    rw [set, if_pos hi]
    exact bind_eq_ok.2 ⟨t, ht, if_pos hx⟩

theorem checks_set (c i : Nat) (x : Value) : Checks (fun n => n.set c i x) (fun n => n.Takes i x)
    (fun n => { n with childrenId := c, children := n.children.set i x }) :=
  fun _ _ => set_eq_ok_iff

/-- The check of a child reads the number of children, but not the children. -/
theorem takes_set : Takes { n with childrenId := c, children := n.children.set i x } j y ↔
    n.Takes j y := by
  rw [Takes, Takes, arity, arity, List.length_set]

theorem commute_set (hij : i ≠ j) (c d : Nat) (x y : Value) (n : Node) :
    Commute (fun n => n.set c i x) (fun n => n.set d j y) n :=
  (checks_set c i x).commute (checks_set d j y) takes_set takes_set
    ⟨rfl, rfl, List.set_comm x y hij, rfl⟩

theorem overrides_set (c d i : Nat) (x y : Value) (n : Node) :
    Overrides (fun n => n.set c i x) (fun n => n.set d i y) n :=
  (checks_set c i x).overrides (checks_set d i y) takes_set ⟨rfl, rfl, List.set_set x, rfl⟩

/-! ## Children that were checked -/

/-- The node may have each of its children where it is. -/
def Fitted (n : Node) : Prop := ∀ i x, n.children[i]? = some x → n.Takes i x

theorem fitted_of_ty_eq (hty : n.ty = m.ty) (hc : n.children = m.children) (h : m.Fitted) :
    n.Fitted := by
  intro i x hx
  rw [hc] at hx
  rw [Takes, arity, hty, hc]
  exact h i x hx

theorem fitted_plain (c : Nat) (l : String) (xs : List Value) : (plain c l xs).Fitted := by
  intro i x hx
  obtain ⟨hi, -⟩ := List.getElem?_eq_some_iff.1 hx
  exact ⟨hi, .value, rfl, Ty.leq_value x.ty⟩

theorem fitted_ofCtor (h : ofCtor c t xs = .ok n) : n.Fitted := by
  cases ht : t.strip with
  | ctor l o ps fs ls =>
    obtain ⟨hleq, rfl⟩ := (ofCtor_eq_ok ht).1 h
    intro i x hx
    have hfit : List.Forall₂ (fun x f => x.ty.leq f = true) xs fs :=
      List.forall₂_map_left_iff.1 (Ty.leqAll_iff_forall₂.1 hleq)
    obtain ⟨hi, rfl⟩ := List.getElem?_eq_some_iff.1 hx
    have hfs : i < fs.length := hfit.length_eq ▸ hi
    exact ⟨hi, fs[i], Row.field_eq_ok.2 (List.getElem?_eq_getElem hfs), hfit.get hi hfs⟩
  | _ => simp [ofCtor, ht] at h

theorem fitted_construct (h : (construct c t xs).Returns n) : n.Fitted := by
  unfold construct at h
  split at h
  · split at h
    · obtain ⟨b, -, h⟩ := Checked.returns_bind.1 h
      exact fitted_ofCtor (Checked.returns_except.1 h)
    · exact fitted_ofCtor (Checked.returns_except.1 h)
  · exact absurd h Checked.returns_throw

theorem fitted_constructNamed {adt : String} (h : (constructNamed c r adt l xs).Returns n) :
    n.Fitted := by
  unfold constructNamed at h
  split at h
  · exact fitted_construct h
  · exact absurd h Checked.returns_throw

theorem Fitted.setAnnos (hm : m.Fitted) (h : m.setAnnos id r as = .ok n) : n.Fitted := by
  obtain ⟨-, rfl⟩ := setAnnos_eq_ok.1 h
  exact fitted_of_ty_eq rfl rfl hm

/-- A child that is exchanged was checked, and the others stay where they were. -/
theorem Fitted.set (hm : m.Fitted) (h : m.set c i x = .ok n) : n.Fitted := by
  obtain ⟨htakes, rfl⟩ := set_eq_ok_iff.1 h
  intro j y hy
  refine takes_set.2 ?_
  rw [List.getElem?_set] at hy
  split at hy
  · next hij =>
    rw [if_pos (show i < m.children.length from htakes.1)] at hy
    exact hij ▸ Option.some.inj hy ▸ htakes
  · exact hm j y hy

/-- One operation leads to a node with all children fitted, if it starts from such a node. -/
theorem fitted_of_run (h : (op.run r id).Returns n) (hm : ∀ m ∈ op.receiver?, m.Fitted) :
    n.Fitted := by
  cases op with
  | plain l xs =>
    obtain rfl := Checked.returns_pure.1 h
    exact fitted_plain id l xs
  | plainWithAnnos l xs as => exact (fitted_plain id l xs).setAnnos h
  | ofCtor t xs => exact fitted_ofCtor h
  | construct t xs => exact fitted_construct h
  | constructNamed o l xs => exact fitted_constructNamed h
  | constructWithAnnos t xs as =>
    obtain ⟨b, hb, h⟩ := Checked.returns_bind.1 h
    exact (fitted_construct hb).setAnnos (Checked.returns_except.1 h)
  | set m i x => exact (hm m rfl).set h
  | setLabel m l x =>
    obtain ⟨i, -, h⟩ := bind_eq_ok.1 h
    exact (hm m rfl).set h
  | setAnno m l x =>
    have h : m.setAnnos id r [(l, x)] = .ok n := setAnno_eq id m r l x ▸ h
    exact (hm m rfl).setAnnos h
  | setAnnos m as => exact (hm m rfl).setAnnos h
  | removeAnno m l =>
    obtain rfl := Checked.returns_pure.1 h
    exact fitted_of_ty_eq rfl rfl (hm m rfl)
  | removeAnnos m =>
    obtain rfl := Checked.returns_pure.1 h
    exact fitted_of_ty_eq rfl rfl (hm m rfl)

/-- The nodes that operations lead to, each with the declarations of its time. -/
inductive Made : Node → Prop
  | step (r : Registry) (op : NodeOp) (id : Nat) {n : Node} (hm : ∀ m ∈ op.receiver?, Made m)
    (h : (op.run r id).Returns n) : Made n

theorem Made.fitted (h : n.Made) : n.Fitted := by
  induction h with
  | step r op id hm h ih => exact fitted_of_run h ih

theorem ShowsSame.toValue_beq (h : m.ShowsSame n) (hn : n.toValue.Tabled) :
    (m.toValue == n.toValue) = true := by
  have hself : Value.eqv n.toValue n.toValue = true := hn.eqv_self
  obtain ⟨t, l, i, xs, j, as⟩ := m
  obtain ⟨ht, hl, hxs, has⟩ := h
  subst ht hl hxs has
  rw [toValue, inGuise, Value.eqv] at hself
  change Value.eqv _ _ = true
  rw [toValue, toValue, inGuise, inGuise, Value.eqv]
  exact hself

/-- A child can be put back where it is. -/
theorem Made.set_get (h : n.Made) (c : Nat) (hi : i < n.arity) :
    ∃ x m, n.get i = .ok x ∧ n.set c i x = .ok m ∧ m.ShowsSame n := by
  have hx : n.children[i]? = some n.children[i] := List.getElem?_eq_getElem hi
  refine ⟨n.children[i], _, ?_, set_eq_ok_iff.2 ⟨h.fitted i _ hx, rfl⟩, rfl, rfl, ?_, rfl⟩
  · rw [get, hx]
  · exact List.set_getElem_self hi

/-! ## Annotations -/

theorem setAnno_eq_ok : m.setAnno id r l x = .ok n ↔ m.checkAnno r l x = .ok () ∧
    n = { m with annosId := id, annos := insertAnno l x m.annos } := by
  rw [setAnno_eq, setAnnos_eq_ok, List.forall_mem_singleton]
  rfl

theorem checks_setAnno (id : Nat) (r : Registry) (l : String) (x : Value) :
    Checks (fun n => n.setAnno id r l x) (fun n => n.checkAnno r l x = .ok ())
      (fun n => { n with annosId := id, annos := insertAnno l x n.annos }) :=
  fun _ _ => setAnno_eq_ok

/-- The check of an annotation reads nothing but the type of the node, and that of a child nothing
that annotations change. -/
theorem commute_set_setAnno (c id i : Nat) (r : Registry) (l : String) (x y : Value) (n : Node) :
    Commute (fun n => n.set c i x) (fun n => n.setAnno id r l y) n :=
  (checks_set c i x).commute (checks_setAnno id r l y) .rfl .rfl ⟨rfl, rfl, rfl, rfl⟩

theorem insertAnno_comm (h : l ≠ k) (x y : Value) (as : List (String × Value)) :
    insertAnno l x (insertAnno k y as) = insertAnno k y (insertAnno l x as) := by
  -- Both labels stop at the first one that is not below them, so only their order with the first
  -- label carried counts.
  induction as with
  | nil => grind [insertAnno]
  | cons a as ih => grind [insertAnno]

/-- Annotations with different labels may be inserted in any order. -/
theorem foldl_insertAnno_perm {bs : List (String × Value)} (hp : bs.Perm cs)
    (hl : (cs.map Prod.fst).Nodup) (as : List (String × Value)) :
    bs.foldl (fun as e => insertAnno e.1 e.2 as) as =
      cs.foldl (fun as e => insertAnno e.1 e.2 as) as := by
  refine hp.foldl_eq' (fun a ha b hb as => ?_) as
  by_cases hab : a.1 = b.1
  · rw [List.inj_on_of_nodup_map hl (hp.subset ha) (hp.subset hb) hab]
  · exact insertAnno_comm (Ne.symm hab) b.2 a.2 as

/-- Sets annotations one by one, each under an identity of its own. -/
def setEach (r : Registry) (n : Node) (steps : List (Nat × String × Value)) : Except Fault Node :=
  steps.foldlM (fun m s => m.setAnno s.1 r s.2.1 s.2.2) n

theorem setEach_eq_ok {steps : List (Nat × String × Value)} (h : n.setEach r steps = .ok m) :
    m.ShowsSame { n with
      annos := (steps.map Prod.snd).foldl (fun as e => insertAnno e.1 e.2 as) n.annos } := by
  induction steps generalizing n with
  | nil =>
    obtain rfl := pure_eq_ok.1 h
    exact ⟨rfl, rfl, rfl, rfl⟩
  | cons s steps ih =>
    obtain ⟨d, hd, h⟩ := bind_eq_ok.1 h
    obtain ⟨-, rfl⟩ := setAnno_eq_ok.1 hd
    obtain ⟨hty, hname, hchildren, hannos⟩ := ih h
    exact ⟨hty, hname, hchildren, hannos⟩

/-- No step changes the check of a later one. -/
theorem exists_setEach_iff {steps : List (Nat × String × Value)} :
    (∃ m, n.setEach r steps = .ok m) ↔ ∀ s ∈ steps, n.checkAnno r s.2.1 s.2.2 = .ok () := by
  induction steps generalizing n with
  | nil => exact iff_of_true ⟨n, rfl⟩ (List.forall_mem_nil _)
  | cons s steps ih =>
    rw [List.forall_mem_cons]
    constructor
    · rintro ⟨m, h⟩
      obtain ⟨d, hd, h⟩ := bind_eq_ok.1 h
      obtain ⟨hs, rfl⟩ := setAnno_eq_ok.1 hd
      have hsteps := ih.1 ⟨m, h⟩
      exact ⟨hs, hsteps⟩
    · rintro ⟨hs, hsteps⟩
      obtain ⟨m, hm⟩ : ∃ m, setEach r { n with
          annosId := s.1, annos := insertAnno s.2.1 s.2.2 n.annos } steps = .ok m := ih.2 hsteps
      exact ⟨m, bind_eq_ok.2 ⟨_, setAnno_eq_ok.2 ⟨hs, rfl⟩, hm⟩⟩

theorem exists_setAnnos_iff :
    (∃ m, n.setAnnos id r as = .ok m) ↔ ∀ a ∈ as, n.checkAnno r a.1 a.2 = .ok () := by
  simp only [setAnnos_eq_ok, exists_and_left, exists_eq, and_true]

theorem exists_setAnno_iff :
    (∃ m, n.setAnno id r l x = .ok m) ↔ n.checkAnno r l x = .ok () :=
  (checks_setAnno id r l x).exists_iff

end Node

/-! ## All laws -/

open Node in
/-- **Updates of a node do not get in each other's way.** An update of a child and an update of an
annotation commute, and so do updates of two children; of two updates of one child the later wins. A
child of a node that operations lead to can be put back where it was read, and the node shows the
same as before. Annotations are set in bulk exactly if each of them can be set by itself, and then
it makes no difference whether they are set at once or one by one, in whatever order. Nodes that
show the same are equal, if the tables in them are. -/
theorem node_update_laws (n : Node) :
    (∀ c id i r l x y, Commute (fun n => n.set c i x) (fun n => n.setAnno id r l y) n) ∧
    (∀ c d i j x y, i ≠ j → Commute (fun n => n.set c i x) (fun n => n.set d j y) n) ∧
    (∀ c d i x y, Overrides (fun n => n.set c i x) (fun n => n.set d i y) n) ∧
    (n.Made → ∀ c i, i < n.arity →
      ∃ x m, n.get i = .ok x ∧ n.set c i x = .ok m ∧ m.ShowsSame n) ∧
    (∀ r id as, (as.map Prod.fst).Nodup →
      ((∃ m, n.setAnnos id r as = .ok m) ↔ ∀ a ∈ as, ∃ m, n.setAnno id r a.1 a.2 = .ok m) ∧
      ∀ steps : List (Nat × String × Value), (steps.map Prod.snd).Perm as →
        ((∃ m, n.setEach r steps = .ok m) ↔ ∃ m, n.setAnnos id r as = .ok m) ∧
        ∀ m m', n.setAnnos id r as = .ok m → n.setEach r steps = .ok m' → m'.ShowsSame m) ∧
    ∀ m : Node, m.ShowsSame n → n.toValue.Tabled → (m.toValue == n.toValue) = true := by
  refine ⟨fun c id i r l x y => commute_set_setAnno c id i r l x y n,
    fun c d i j x y hij => commute_set hij c d x y n, fun c d i x y => overrides_set c d i x y n,
    fun h c i hi => h.set_get c hi, fun r id as hl => ⟨?_, fun steps hp => ⟨?_, ?_⟩⟩,
    fun m h => h.toValue_beq⟩
  · simp only [exists_setAnnos_iff, exists_setAnno_iff]
  · rw [exists_setEach_iff, exists_setAnnos_iff]
    constructor
    · intro h a ha
      obtain ⟨s, hs, rfl⟩ := List.mem_map.1 (hp.symm.subset ha)
      exact h s hs
    · exact fun h s hs => h s.2 (hp.subset (List.mem_map_of_mem hs))
  · intro m m' hm hm'
    obtain ⟨-, rfl⟩ := setAnnos_eq_ok.1 hm
    obtain ⟨hty, hname, hchildren, hannos⟩ := setEach_eq_ok hm'
    exact ⟨hty, hname, hchildren, hannos.trans (foldl_insertAnno_perm hp hl _)⟩

/-- Boxes carry a line and a column. -/
def placedBoxes : Registry :=
  { Registry.empty with annos := [(.adt "Box", [("line", .int), ("column", .int)])] }

theorem made_numberBox : numberBox.Made :=
  .step placedBoxes (.constructWithAnnos boxed [.int 7] [("line", .int 3)]) 1
    (fun m hm => absurd hm (Option.not_mem_none m)) rfl

theorem tabled_numberBox : numberBox.toValue.Tabled := by
  refine .node (fun x hx => ?_) fun a ha => ?_
  · obtain rfl := List.mem_singleton.1 hx
    exact .leaf rfl
  · obtain rfl := List.mem_singleton.1 ha
    exact .leaf rfl

/-- The number in a box can be put back, and a line and a column are set in either order. -/
theorem node_update_laws_box :
    (∃ x m, numberBox.get 0 = .ok x ∧ numberBox.set 2 0 x = .ok m ∧
      (m.toValue == numberBox.toValue) = true) ∧
    ∃ m m', numberBox.setAnnos 2 placedBoxes [("line", .int 4), ("column", .int 9)] = .ok m ∧
      numberBox.setEach placedBoxes [(3, "column", .int 9), (4, "line", .int 4)] = .ok m' ∧
      m'.ShowsSame m := by
  obtain ⟨-, -, -, hput, hbulk, hequal⟩ := node_update_laws numberBox
  obtain ⟨x, m, hx, hm, hs⟩ := hput made_numberBox 2 0 (by decide)
  refine ⟨⟨x, m, hx, hm, hequal m hs tabled_numberBox⟩, ?_⟩
  obtain ⟨halone, hsteps⟩ :=
    hbulk placedBoxes 2 [("line", .int 4), ("column", .int 9)] (by decide)
  obtain ⟨hiff, hsame⟩ := hsteps [(3, "column", .int 9), (4, "line", .int 4)] (.swap _ _ _)
  obtain ⟨m, hm⟩ := halone.2
    (List.forall_mem_cons.2 ⟨⟨_, rfl⟩, List.forall_mem_singleton.2 ⟨_, rfl⟩⟩)
  obtain ⟨m', hm'⟩ := hiff.2 ⟨m, hm⟩
  exact ⟨m, m', hm, hm', hsame m m' hm hm'⟩

end ValueLattice

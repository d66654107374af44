import ValueLattice.Proofs.Node.Outcome
/-!
# Structural sharing

Two nodes share their children when the identities agree, and likewise their annotations. Sharing
never lies: in every run nodes that share a part have the same part. One invariant carries this. No
earlier part has the identity of the next operation, a part that is taken over keeps its identity,
and the identity of the empty annotations belongs to the empty map alone.

* `NodeRun.Coherent`: nodes that share a part have the same part;
* `NodeRun.Sound`, `NodeRun.Sound.perform`, `NodeRun.Sound.leads`: the invariant, after one
  operation and after every run;
* `NodeChange.Shares`: which parts of a new node are shared, and with whom;
* `sharing_never_lies`: shared parts are identical, and updates share what they should.
-/

namespace ValueLattice

variable {n m : Node} {r : Registry} {x : Value} {c : NodeChange} {op : NodeOp}

/-! ## Runs -/

namespace NodeRun

variable {s u : NodeRun}

theorem perform_of_returns (h : (op.run r s.next).Returns n) :
    s.perform r op = ⟨s.made ++ [n], s.next + 1⟩ := by
  unfold perform
  rw [show (op.run r s.next).start.val = .ok n from h]

theorem perform_of_error {e : Fault} (h : (op.run r s.next).start.val = .error e) :
    s.perform r op = s := by
  unfold perform
  rw [h]

/-- The next node, if there is one, is put after all others. -/
theorem perform_cases (r : Registry) (op : NodeOp) (s : NodeRun) :
    s.perform r op = s ∨ ∃ n, (op.run r s.next).Returns n ∧
      s.perform r op = ⟨s.made ++ [n], s.next + 1⟩ := by
  cases h : (op.run r s.next).start.val with
  | error e => exact .inl (perform_of_error h)
  | ok n => exact .inr ⟨n, h, perform_of_returns h⟩

theorem made_subset_of_leads (h : Leads s u) : s.made <+: u.made := by
  induction h with
  | refl => exact List.prefix_refl _
  | @step t op r h hg ih =>
    rcases perform_cases r op t with heq | ⟨n, -, heq⟩
    · rw [heq]
      exact ih
    · rw [heq]
      exact ih.trans (List.prefix_append _ _)

/-- Nodes that share a part have the same part. -/
structure Coherent (nodes : List Node) : Prop where
  children : ∀ n ∈ nodes, ∀ m ∈ nodes, n.sharesChildren m = true → n.children = m.children
  annos : ∀ n ∈ nodes, ∀ m ∈ nodes, n.sharesAnnos m = true → n.annos = m.annos

/-- The identities given out so far are below the next, nodes that share a part have the same part,
the shared identity of no annotations belongs to none, and what is nested in a node was made
before. -/
structure Sound (s : NodeRun) : Prop where
  childrenId_lt : ∀ n ∈ s.made, n.childrenId < s.next
  annosId_lt : ∀ n ∈ s.made, n.annosId < s.next
  noAnnos : ∀ n ∈ s.made, n.annosId = Node.noAnnos → n.annos = []
  noAnnos_lt : Node.noAnnos < s.next
  coherent : Coherent s.made
  nested : ∀ n ∈ s.made, ∀ x ∈ n.parts, ∀ m : Node, m.Within x → m ∈ s.made

theorem sound_start : start.Sound where
  childrenId_lt := nofun
  annosId_lt := nofun
  noAnnos := nofun
  noAnnos_lt := Nat.lt_succ_self _
  coherent := ⟨nofun, nofun⟩
  nested := nofun

variable {e : Node}

/-- A node that is made now shares its children only with nodes that have the same. -/
theorem Sound.children_eq (h : s.Sound) (hn : c.Makes s.next n) (hc : ∀ m ∈ c.of?, m ∈ s.made)
    (he : e ∈ s.made) (hs : n.sharesChildren e = true) : n.children = e.children := by
  have hid : n.childrenId = e.childrenId := of_decide_eq_true hs
  have hold : e.childrenId ≠ s.next := Nat.ne_of_lt (h.childrenId_lt e he)
  have htaken {m : Node} (hm : m ∈ s.made) (hi : n.childrenId = m.childrenId)
      (heq : n.children = m.children) : n.children = e.children :=
    heq.trans (h.coherent.children m hm e he (decide_eq_true (hi.symm.trans hid)))
  cases c with
  | all => exact absurd (hid.symm.trans hn.1) hold
  | children m => exact absurd (hid.symm.trans hn.1) hold
  | annos m => exact htaken (hc m rfl) hn.1 hn.2.1
  | cleared m => exact htaken (hc m rfl) hn.1 hn.2.1

/-- It shares its annotations only with nodes that have the same. -/
theorem Sound.annos_eq (h : s.Sound) (hn : c.Makes s.next n) (hc : ∀ m ∈ c.of?, m ∈ s.made)
    (he : e ∈ s.made) (hs : n.sharesAnnos e = true) : n.annos = e.annos := by
  have hid : n.annosId = e.annosId := of_decide_eq_true hs
  have hold : e.annosId ≠ s.next := Nat.ne_of_lt (h.annosId_lt e he)
  have hnone (hi : n.annosId = Node.noAnnos) (hnil : n.annos = []) : n.annos = e.annos := by
    rw [hnil, h.noAnnos e he (hid.symm.trans hi)]
  cases c with
  | all =>
    rcases hn.2 with hi | ⟨hi, hnil⟩
    · exact absurd (hid.symm.trans hi) hold
    · exact hnone hi hnil
  | children m =>
    exact hn.2.2.trans
      (h.coherent.annos m (hc m rfl) e he (decide_eq_true (hn.2.1.symm.trans hid)))
  | annos m => exact absurd (hid.symm.trans hn.2.2) hold
  | cleared m => exact hnone hn.2.2.1 hn.2.2.2

/-- What holds of any two nodes, in either order, when one is put after all others. -/
theorem forall_snoc {nodes : List Node} {R : Node → Node → Prop} (hself : R n n)
    (hsymm : ∀ d e, R d e → R e d) (hold : ∀ d ∈ nodes, ∀ e ∈ nodes, R d e)
    (hnew : ∀ e ∈ nodes, R n e) : ∀ d ∈ nodes ++ [n], ∀ e ∈ nodes ++ [n], R d e := by
  intro d hd e he
  rcases List.mem_append.1 hd with hd | hd <;> rcases List.mem_append.1 he with he | he
  · exact hold d hd e he
  · exact List.mem_singleton.1 he ▸ hsymm n d (hnew d hd)
  · exact List.mem_singleton.1 hd ▸ hnew e he
  · rw [List.mem_singleton.1 hd, List.mem_singleton.1 he]
    exact hself

theorem Coherent.snoc {nodes : List Node} (h : Coherent nodes)
    (hc : ∀ e ∈ nodes, n.sharesChildren e = true → n.children = e.children)
    (ha : ∀ e ∈ nodes, n.sharesAnnos e = true → n.annos = e.annos) : Coherent (nodes ++ [n]) where
  children := by
    refine forall_snoc (fun _ => rfl) (fun d e hde hs => ?_) h.children hc
    exact (hde (decide_eq_true (of_decide_eq_true hs).symm)).symm
  annos := by
    refine forall_snoc (fun _ => rfl) (fun d e hde hs => ?_) h.annos ha
    exact (hde (decide_eq_true (of_decide_eq_true hs).symm)).symm

/-- The identities of a new node are the next one, or given out before. -/
theorem Sound.ids_le (h : s.Sound) (hn : c.Makes s.next n) (hc : ∀ m ∈ c.of?, m ∈ s.made) :
    n.childrenId ≤ s.next ∧ n.annosId ≤ s.next := by
  have hnone : Node.noAnnos ≤ s.next := Nat.le_of_lt h.noAnnos_lt
  cases c with
  | all =>
    refine ⟨Nat.le_of_eq hn.1, ?_⟩
    rcases hn.2 with hi | ⟨hi, -⟩
    · exact Nat.le_of_eq hi
    · exact hi ▸ hnone
  | children m =>
    have hm : m.annosId < s.next := h.annosId_lt m (hc m rfl)
    exact ⟨Nat.le_of_eq hn.1, hn.2.1 ▸ Nat.le_of_lt hm⟩
  | annos m =>
    have hm : m.childrenId < s.next := h.childrenId_lt m (hc m rfl)
    exact ⟨hn.1 ▸ Nat.le_of_lt hm, Nat.le_of_eq hn.2.2⟩
  | cleared m =>
    have hm : m.childrenId < s.next := h.childrenId_lt m (hc m rfl)
    exact ⟨hn.1 ▸ Nat.le_of_lt hm, hn.2.2.1 ▸ hnone⟩

/-- Only a node without annotations has the identity of none. -/
theorem Sound.noAnnos_of_makes (h : s.Sound) (hn : c.Makes s.next n)
    (hc : ∀ m ∈ c.of?, m ∈ s.made) (hi : n.annosId = Node.noAnnos) : n.annos = [] := by
  have hne : s.next ≠ Node.noAnnos := (Nat.ne_of_lt h.noAnnos_lt).symm
  cases c with
  | all => exact hn.2.elim (fun hid => absurd (hid.symm.trans hi) hne) And.right
  | children m => exact hn.2.2.trans (h.noAnnos m (hc m rfl) (hn.2.1.symm.trans hi))
  | annos m => exact absurd (hn.2.2.symm.trans hi) hne
  | cleared m => exact hn.2.2.2

/-- One operation keeps the invariant. -/
theorem Sound.perform (h : s.Sound) (hg : op.Given s.made) (r : Registry) :
    (s.perform r op).Sound := by
  rcases perform_cases r op s with heq | ⟨n, hn, heq⟩
  · exact heq.symm ▸ h
  rw [heq]
  have hout : NodeOutcome r s.next op.change op.values n := NodeOp.outcome_of_run hn
  have hmakes : op.change.Makes s.next n := hout.makes
  obtain ⟨hci, hai⟩ := h.ids_le hmakes hg.receiver
  have hsnoc {p : Node → Prop} (hold : ∀ e ∈ s.made, p e) (hnew : p n) :
      ∀ e ∈ s.made ++ [n], p e :=
    List.forall_mem_append.2 ⟨hold, List.forall_mem_singleton.2 hnew⟩
  refine ⟨hsnoc (fun e he => ?_) (Nat.lt_succ_of_le hci),
    hsnoc (fun e he => ?_) (Nat.lt_succ_of_le hai),
    hsnoc h.noAnnos (h.noAnnos_of_makes hmakes hg.receiver), Nat.lt_succ_of_lt h.noAnnos_lt,
    h.coherent.snoc (fun e => h.children_eq hmakes hg.receiver)
      fun e => h.annos_eq hmakes hg.receiver,
    hsnoc (fun e he x hx m hm => ?_) fun x hx m hm => ?_⟩
  · exact Nat.lt_succ_of_lt (h.childrenId_lt e he)
  · exact Nat.lt_succ_of_lt (h.annosId_lt e he)
  · exact List.mem_append_left _ (h.nested e he x hx m hm)
  · rcases hout.mem_parts hx with hx | ⟨e, he, hx⟩
    · exact List.mem_append_left _ (hg.within x hx m hm)
    · exact List.mem_append_left _ (h.nested e (hg.receiver e he) x hx m hm)

theorem Sound.leads (h : s.Sound) (hl : Leads s u) : u.Sound := by
  induction hl with
  | refl => exact h
  | step r hl hg ih => exact ih.perform hg r

end NodeRun

/-! ## Sharing -/

/-- What a new node shares with the earlier ones. -/
def NodeChange.Shares (earlier : List Node) (n : Node) : NodeChange → Prop
  /- A node that is constructed shares nothing but the empty annotations. -/
  | all => (∀ e ∈ earlier, n.sharesChildren e = false) ∧
    (n.annosId = Node.noAnnos ∨ ∀ e ∈ earlier, n.sharesAnnos e = false)
  | children m => n.sharesAnnos m = true ∧ ∀ e ∈ earlier, n.sharesChildren e = false
  | annos m => n.sharesChildren m = true ∧ n.annosId ≠ Node.noAnnos ∧
    ∀ e ∈ earlier, n.sharesAnnos e = false
  | cleared m => n.sharesChildren m = true ∧ n.annosId = Node.noAnnos

theorem NodeRun.Sound.shares {s : NodeRun} (h : s.Sound) (hn : c.Makes s.next n) :
    c.Shares s.made n := by
  have hchildren (hi : n.childrenId = s.next) : ∀ e ∈ s.made, n.sharesChildren e = false :=
    fun e he => decide_eq_false (hi ▸ (Nat.ne_of_lt (h.childrenId_lt e he)).symm)
  have hannos (hi : n.annosId = s.next) : ∀ e ∈ s.made, n.sharesAnnos e = false :=
    fun e he => decide_eq_false (hi ▸ (Nat.ne_of_lt (h.annosId_lt e he)).symm)
  cases c with
  | all => exact ⟨hchildren hn.1, hn.2.symm.imp And.left hannos⟩
  | children m => exact ⟨decide_eq_true hn.2.1, hchildren hn.1⟩
  | annos m =>
    exact ⟨decide_eq_true hn.1, hn.2.2 ▸ (Nat.ne_of_lt h.noAnnos_lt).symm, hannos hn.2.2⟩
  | cleared m => exact ⟨decide_eq_true hn.1, hn.2.2.1⟩

/-- **Sharing never lies.** In every state that a run leads to, nodes that share their children have
the same children, and nodes that share their annotations have the same annotations; this includes
the nodes that are nested in others. Whatever comes later only adds nodes, and these too agree with
the earlier ones on what they share. An operation that fails adds nothing. One that succeeds adds
its node: an update of a child shares the annotations and nothing else, an update of annotations
shares the children and nothing else, and a node that is cleared shares its children and the empty
annotations. Removals, and updates by no annotations, always succeed. -/
theorem sharing_never_lies (s : NodeRun) (h : NodeRun.start.Leads s) :
    NodeRun.Coherent s.made ∧
    (∀ n ∈ s.made, ∀ x ∈ n.parts, ∀ m : Node, m.Within x → m ∈ s.made) ∧
    (∀ u, s.Leads u → s.made <+: u.made ∧ NodeRun.Coherent u.made) ∧
    ∀ (r : Registry) (op : NodeOp), op.Given s.made →
      (∀ e, (op.run r s.next).start.val = .error e → s.perform r op = s) ∧
      (∀ n, (op.run r s.next).Returns n →
        (s.perform r op).made = s.made ++ [n] ∧ op.change.Shares s.made n) ∧
      ∀ m, (∃ l, op = .removeAnno m l) ∨ op = .removeAnnos m ∨ op = .setAnnos m [] →
        ∃ n, (op.run r s.next).Returns n := by
  have hs : s.Sound := NodeRun.sound_start.leads h
  refine ⟨hs.coherent, hs.nested, fun u hu => ?_, fun r op hg => ⟨?_, fun n hn => ?_, ?_⟩⟩
  · exact ⟨NodeRun.made_subset_of_leads hu, (hs.leads hu).coherent⟩
  · exact fun e he => NodeRun.perform_of_error he
  · rw [NodeRun.perform_of_returns hn]
    exact ⟨rfl, hs.shares (NodeOp.outcome_of_run hn).makes⟩
  · rintro m (⟨l, rfl⟩ | rfl | rfl)
    · exact ⟨m.removeAnno s.next l, Checked.returns_pure.2 rfl⟩
    · exact ⟨m.removeAnnos, Checked.returns_pure.2 rfl⟩
    · exact ⟨{ m with annosId := s.next }, rfl⟩

theorem Node.not_within_of_isLeaf {v : Value} (hv : v.isLeaf = true) : ¬ m.Within v := by
  rintro (h | ⟨hx, -⟩)
  · cases v <;> simp [Value.node?, Value.isLeaf] at h hv
  · cases v <;> simp [Value.contents, Value.isLeaf] at hx hv

/-- A call of a function with a number. -/
def call : Node := .plain 1 "call" [.str "f", .int 1]

/-- The call, and then the call without an annotation that it does not have. -/
def callRun : NodeRun :=
  (NodeRun.start.perform .empty (.plain "call" [.str "f", .int 1])).perform .empty
    (.removeAnno call "line")

theorem leads_callRun : NodeRun.start.Leads callRun := by
  refine .step .empty (.step .empty .refl ⟨nofun, fun x hx m hm => ?_⟩)
    ⟨fun m hm => ?_, fun _ hx => absurd hx List.not_mem_nil⟩
  · have hleaf : x.isLeaf = true := by
      rcases List.mem_pair.1 hx with rfl | rfl <;> rfl
    exact absurd hm (Node.not_within_of_isLeaf hleaf)
  · obtain rfl := Option.some.inj hm
    exact List.mem_singleton_self call

/-- The copy of a call shares its children until one of them is updated. -/
theorem sharing_never_lies_call : NodeRun.start.Leads callRun ∧
    ∃ copy ∈ callRun.made, copy.sharesChildren call = true ∧ copy.children = call.children ∧
      ∃ n, ((NodeOp.set copy 0 (.str "g")).run .empty callRun.next).Returns n ∧
        n.sharesAnnos copy = true ∧ ∀ e ∈ callRun.made, n.sharesChildren e = false := by
  obtain ⟨hcoherent, -, -, hnext⟩ := sharing_never_lies callRun leads_callRun
  have hcall : call ∈ callRun.made := List.mem_of_getElem? (i := 0) rfl
  have hcopy : call.removeAnno 2 "line" ∈ callRun.made := List.mem_of_getElem? (i := 1) rfl
  have hshares : (call.removeAnno 2 "line").sharesChildren call = true := rfl
  refine ⟨leads_callRun, _, hcopy, hshares, hcoherent.children _ hcopy call hcall hshares,
    ⟨.node, "call", 3, [.str "g", .int 1], 2, []⟩, rfl, ?_⟩
  have hgiven : (NodeOp.set (call.removeAnno 2 "line") 0 (.str "g")).Given callRun.made := by
    refine ⟨fun m hm => ?_, fun x hx m hm => ?_⟩
    · obtain rfl := Option.some.inj hm
      exact hcopy
    · obtain rfl := List.mem_singleton.1 hx
      exact absurd hm (Node.not_within_of_isLeaf rfl)
  exact ((hnext .empty _ hgiven).2.1 _ rfl).2

end ValueLattice

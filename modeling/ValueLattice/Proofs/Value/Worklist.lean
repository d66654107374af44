import Mathlib.Data.List.ProdSigma
import Mathlib.Logic.Relation
import ValueLattice.Proofs.Value.Inferred
import ValueLattice.Proofs.Value.Relation
/-!
# The worklist of the transitive closure

The closure of pairs is computed with a list of pending pairs. A pass takes a pending pair,
extends it on the right by the successors of its second element, and adds the extensions that are
new, to the closed pairs and to the pending ones. When nothing is pending any more, a pair is
closed exactly when a chain of given pairs leads from its first element to its second.

Neither the order of the given pairs nor that of the pending ones matters, so passes are taken
here in any order (`Worklist.Step`). At each time every closed pair is the pair of ends of a chain,
and is pending or has all its extensions closed (`Worklist.Holds`). Extensions on the right are
enough, since a chain can be walked from its first pair on (`Worklist.Holds.hasPair_of_extends`). A
pass adds only pairs of a first and a second element of given pairs that were not there, so passes
come to an end (`Worklist.Holds.size_lt`).

* `Leads`: chains of pairs;
* `mem_successorsOf`: the table of successors;
* `fresh`, `addPairs_eq`: the pairs that are added;
* `Worklist.Step`, `Worklist.Holds`, `Worklist.size`: a pass, what it keeps, and what it lowers;
* `Worklist.Holds.acc`, `Worklist.Holds.hasPair_iff_leads`: runs end, with the pairs that chains
  lead between;
* `closePairs_reaches`: the closure of pairs is such a run.
-/

namespace ValueLattice

open Value

variable {a b c x y : Value} {p q : Value × Value} {ps qs closed : List (Value × Value)}

/-! ## Pairs of inferred values -/

/-- The elements of the pairs are typed by their contents. -/
def InferredPairs (ps : List (Value × Value)) : Prop := ∀ p ∈ ps, Inferred p.1 ∧ Inferred p.2

/-- The components of two pairs have the same digests. -/
def Alike (p q : Value × Value) : Prop :=
  sameDigest p.1 q.1 = true ∧ sameDigest p.2 q.2 = true

theorem Alike.refl (p : Value × Value) : Alike p p := ⟨sameDigest_refl p.1, sameDigest_refl p.2⟩

theorem Alike.trans {r : Value × Value} (h : Alike p q) (h' : Alike q r) : Alike p r :=
  ⟨sameDigest_trans h.1 h'.1, sameDigest_trans h.2 h'.2⟩

/-! ## Chains -/

/-- Some chain of pairs leads from one value to another: it begins at the first, ends at the
second, and each of its pairs begins where the one before ends. -/
inductive Leads (ps : List (Value × Value)) : Value → Value → Prop
  | single {a b : Value} {p : Value × Value} (hp : p ∈ ps) (ha : (a == p.1) = true)
    (hb : (p.2 == b) = true) : Leads ps a b
  | cons {a b : Value} {p : Value × Value} (hp : p ∈ ps) (ha : (a == p.1) = true)
    (rest : Leads ps p.2 b) : Leads ps a b

namespace Leads

theorem congr_left (hps : InferredPairs ps) (ha : Inferred a) (hb : Inferred b)
    (hab : sameDigest a b = true) (h : Leads ps b c) : Leads ps a c := by
  have hfirst {p : Value × Value} (hp : p ∈ ps) (hbp : (b == p.1) = true) :
      (a == p.1) = true := by
    have hp1 : Inferred p.1 := (hps p hp).1
    rw [hb.beq_eq hp1] at hbp
    rw [ha.beq_eq hp1]
    exact sameDigest_trans hab hbp
  cases h with
  | single hp hbp hc => exact .single hp (hfirst hp hbp) hc
  | cons hp hbp rest => exact .cons hp (hfirst hp hbp) rest

theorem congr_right (hps : InferredPairs ps) (hb : Inferred b) (hc : Inferred c)
    (hbc : sameDigest b c = true) (h : Leads ps a b) : Leads ps a c := by
  induction h with
  | single hp ha hpb =>
    have hp2 : Inferred _ := (hps _ hp).2
    rw [hp2.beq_eq hb] at hpb
    refine .single hp ha ?_
    rw [hp2.beq_eq hc]
    exact sameDigest_trans hpb hbc
  | cons hp ha _ ih => exact .cons hp ha (ih hb hbc)

theorem trans (hps : InferredPairs ps) (hb : Inferred b) (h : Leads ps a b) (h' : Leads ps b c) :
    Leads ps a c := by
  induction h with
  | single hp ha hpb =>
    have hp2 : Inferred _ := (hps _ hp).2
    rw [hp2.beq_eq hb] at hpb
    exact .cons hp ha (h'.congr_left hps hp2 hb hpb)
  | cons hp ha _ ih => exact .cons hp ha (ih hb h')

theorem of_mem (hps : InferredPairs ps) (hp : p ∈ ps) : Leads ps p.1 p.2 := by
  obtain ⟨h1, h2⟩ := hps p hp
  exact .single hp h1.beq_self h2.beq_self

end Leads

namespace Relation

/-! ## Successors -/

theorem forall_key_addSuccessor {P : Value → Prop} {table : List (Value × List Value)}
    (ht : ∀ e ∈ table, P e.1) (ha : P a) (b : Value) : ∀ e ∈ addSuccessor table a b, P e.1 := by
  induction table with
  | nil => simpa [addSuccessor] using ha
  | cons e table ih =>
    obtain ⟨he, ht⟩ := List.forall_mem_cons.1 ht
    unfold addSuccessor
    split
    · exact List.forall_mem_cons.2 ⟨he, ht⟩
    · exact List.forall_mem_cons.2 ⟨he, ih ht⟩

/-- A successor is added for the values with the digest of its predecessor. -/
theorem successorsOf_addSuccessor {table : List (Value × List Value)}
    (ht : ∀ e ∈ table, Inferred e.1) (ha : Inferred a) (hx : Inferred x) (b : Value) :
    successorsOf (addSuccessor table a b) x =
      if sameDigest x a then successorsOf table x ++ [b] else successorsOf table x := by
  unfold successorsOf
  induction table with
  | nil =>
    rw [addSuccessor, List.find?_singleton, hx.finds_eq ha]
    cases sameDigest x a <;> rfl
  | cons e table ih =>
    obtain ⟨he, ht⟩ := List.forall_mem_cons.1 ht
    rw [addSuccessor, ha.finds_eq he]
    by_cases hae : sameDigest a e.1 = true
    · have hxe : sameDigest x e.1 = sameDigest x a :=
        Bool.eq_iff_iff.2 ⟨fun h => sameDigest_trans h (sameDigest_symm hae),
          fun h => sameDigest_trans h hae⟩
      rw [if_pos hae, List.find?_cons, List.find?_cons, hx.finds_eq he, hxe]
      cases sameDigest x a <;> rfl
    · rw [if_neg hae, List.find?_cons, List.find?_cons, hx.finds_eq he]
      cases hxe : sameDigest x e.1 with
      | false => exact ih ht
      | true =>
        have hxa : sameDigest x a = false :=
          Bool.eq_false_iff.2 fun h => hae (sameDigest_trans (sameDigest_symm h) hxe)
        rw [hxa]
        rfl

theorem mem_successorsOf_foldl {table : List (Value × List Value)}
    (ht : ∀ e ∈ table, Inferred e.1) (hps : InferredPairs ps) (hx : Inferred x) :
    c ∈ successorsOf (ps.foldl (fun table p => addSuccessor table p.1 p.2) table) x ↔
      c ∈ successorsOf table x ∨ ∃ p ∈ ps, sameDigest x p.1 = true ∧ p.2 = c := by
  induction ps generalizing table with
  | nil => simp
  | cons p ps ih =>
    obtain ⟨⟨hp, -⟩, hps⟩ := List.forall_mem_cons.1 hps
    rw [List.foldl_cons, ih (forall_key_addSuccessor ht hp p.2) hps,
      successorsOf_addSuccessor ht hp hx, List.exists_mem_cons_iff]
    cases sameDigest x p.1 with
    | false => simp
    | true => simp [or_assoc, @eq_comm _ p.2 c]

/-- The successors of a value are the second elements of the pairs that begin at it. -/
theorem mem_successorsOf (hps : InferredPairs ps) (hx : Inferred x) :
    c ∈ successorsOf (successors ps) x ↔ ∃ p ∈ ps, sameDigest x p.1 = true ∧ p.2 = c := by
  rw [successors, mem_successorsOf_foldl (List.forall_mem_nil _) hps hx]
  simp [successorsOf]

/-! ## Closed pairs -/

theorem hasPair_iff (hcl : InferredPairs closed) (ha : Inferred a) (hb : Inferred b) :
    hasPair closed (a, b) = true ↔ ∃ q ∈ closed, Alike (a, b) q := by
  rw [hasPair, List.any_eq_true]
  refine exists_congr fun q => and_congr_right fun hq => ?_
  rw [ha.finds_eq (hcl q hq).1, hb.finds_eq (hcl q hq).2, Bool.and_eq_true]
  rfl

theorem hasPair_of_mem (hcl : InferredPairs closed) (hq : q ∈ closed) :
    hasPair closed q = true :=
  (hasPair_iff hcl (hcl q hq).1 (hcl q hq).2).2 ⟨q, hq, .refl q⟩

theorem hasPair_append (closed added : List (Value × Value)) (p : Value × Value) :
    hasPair (closed ++ added) p = (hasPair closed p || hasPair added p) :=
  List.any_append

/-- The pairs of a list that are new when they are added one after another. -/
def fresh (closed : List (Value × Value)) : List (Value × Value) → List (Value × Value)
  | [] => []
  | p :: ps => if hasPair closed p then fresh closed ps else p :: fresh (closed ++ [p]) ps

theorem addPairs_eq (closed added ps : List (Value × Value)) :
    addPairs closed added ps = (closed ++ fresh closed ps, (fresh closed ps).reverse ++ added) := by
  induction ps generalizing closed added with
  | nil => simp [addPairs, fresh]
  | cons p ps ih =>
    unfold addPairs fresh
    split
    · exact ih closed added
    · rw [ih]
      simp

theorem fresh_subset (closed ps : List (Value × Value)) : fresh closed ps ⊆ ps := by
  induction ps generalizing closed with
  | nil => exact List.Subset.refl []
  | cons p ps ih =>
    unfold fresh
    split
    · exact List.subset_cons_of_subset p (ih closed)
    · exact List.cons_subset_cons p (ih (closed ++ [p]))

theorem length_fresh_le (closed ps : List (Value × Value)) :
    (fresh closed ps).length ≤ ps.length := by
  induction ps generalizing closed with
  | nil => exact Nat.le_refl 0
  | cons p ps ih =>
    unfold fresh
    split
    · exact Nat.le_succ_of_le (ih closed)
    · exact Nat.succ_le_succ (ih (closed ++ [p]))

/-- What was added is closed. -/
theorem hasPair_append_fresh (hps : InferredPairs ps) (hp : p ∈ ps) :
    hasPair (closed ++ fresh closed ps) p = true := by
  induction ps generalizing closed with
  | nil => nomatch hp
  | cons q ps ih =>
    obtain ⟨hq, hrest⟩ := List.forall_mem_cons.1 hps
    unfold fresh
    rcases List.mem_cons.1 hp with rfl | hp
    · split
      · next h => rw [hasPair_append, h, Bool.true_or]
      · have hself : hasPair [p] p = true :=
          hasPair_of_mem (List.forall_mem_singleton.2 hq) (List.mem_singleton_self p)
        rw [List.append_cons, hasPair_append, hasPair_append, hself, Bool.or_true, Bool.true_or]
    · split
      · exact ih hrest hp
      · rw [List.append_cons]
        exact ih hrest hp

/-! ## Candidates -/

/-- The pairs of a first and a second element of given pairs. -/
def candidates (ps : List (Value × Value)) : List (Value × Value) :=
  ps.map Prod.fst ×ˢ ps.map Prod.snd

theorem mem_candidates : q ∈ candidates ps ↔ q.1 ∈ ps.map Prod.fst ∧ q.2 ∈ ps.map Prod.snd :=
  List.mem_product

theorem mem_candidates_of_mem (hp : p ∈ ps) : p ∈ candidates ps :=
  mem_candidates.2 ⟨List.mem_map_of_mem hp, List.mem_map_of_mem hp⟩

theorem inferredPairs_candidates (hps : InferredPairs ps) : InferredPairs (candidates ps) := by
  intro q hq
  obtain ⟨h1, h2⟩ := mem_candidates.1 hq
  obtain ⟨p, hp, hp1⟩ := List.mem_map.1 h1
  obtain ⟨p', hp', hp2⟩ := List.mem_map.1 h2
  exact ⟨hp1 ▸ (hps p hp).1, hp2 ▸ (hps p' hp').2⟩

/-- The number of candidates that are not closed. -/
def missing (ps closed : List (Value × Value)) : Nat :=
  (candidates ps).countP fun q => !hasPair closed q

theorem missing_snoc_lt (hps : InferredPairs ps) (hp : p ∈ candidates ps)
    (h : hasPair closed p = false) : missing ps (closed ++ [p]) < missing ps closed := by
  obtain ⟨qs, rs, hsplit⟩ := List.append_of_mem hp
  have hmono (l : List (Value × Value)) :
      l.countP (fun q => !hasPair (closed ++ [p]) q) ≤ l.countP fun q => !hasPair closed q := by
    refine List.countP_mono_left fun q _ hq => ?_
    rw [hasPair_append, Bool.not_or, Bool.and_eq_true] at hq
    exact hq.1
  have hself : hasPair (closed ++ [p]) p = true := by
    have hinf : InferredPairs [p] :=
      List.forall_mem_singleton.2 (inferredPairs_candidates hps p hp)
    rw [hasPair_append, hasPair_of_mem hinf (List.mem_singleton_self p), Bool.or_true]
  have hqs := hmono qs
  have hrs := hmono rs
  unfold missing
  simp only [hsplit, List.countP_append, List.countP_cons, h, hself]
  simp only [Bool.not_true, Bool.not_false, if_true, Bool.false_eq_true, if_false]
  omega

/-- Each pair that is added is one candidate less. -/
theorem length_fresh_add_missing_le (hps : InferredPairs ps) (hqs : qs ⊆ candidates ps) :
    (fresh closed qs).length + missing ps (closed ++ fresh closed qs) ≤ missing ps closed := by
  induction qs generalizing closed with
  | nil => simp [fresh]
  | cons q qs ih =>
    obtain ⟨hq, hqs⟩ := List.cons_subset.1 hqs
    unfold fresh
    split
    · exact ih hqs
    · next h =>
      have hrest : (fresh (closed ++ [q]) qs).length +
          missing ps (closed ++ [q] ++ fresh (closed ++ [q]) qs) ≤ missing ps (closed ++ [q]) :=
        ih hqs
      have hlt := missing_snoc_lt hps hq (Bool.eq_false_iff.2 h)
      rw [List.append_cons closed q (fresh (closed ++ [q]) qs), List.length_cons]
      omega

/-! ## Passes -/

/-- The state of the loop: the closed pairs, and those of them that are pending. -/
structure Worklist where
  closed : List (Value × Value)
  pending : List (Value × Value)

namespace Worklist

/-- The state before the first pass, in any order: the given pairs are closed and pending. -/
def Start (ps : List (Value × Value)) (w : Worklist) : Prop :=
  ∃ qs, qs.Perm ps ∧ w.closed = (addPairs [] [] qs).1 ∧ w.pending.Perm w.closed

/-- A pass: some pending pair is taken, and its extensions are added in some order. -/
inductive Step (ps : List (Value × Value)) : Worklist → Worklist → Prop
  | take {closed pending rest : List (Value × Value)} {p : Value × Value} {cs : List Value}
    (hp : pending.Perm (p :: rest)) (hcs : cs.Perm (successorsOf (successors ps) p.2)) :
    Step ps ⟨closed, pending⟩
      ⟨(addPairs closed [] (cs.map fun c => (p.1, c))).1,
        (addPairs closed [] (cs.map fun c => (p.1, c))).2 ++ rest⟩

/-- What holds at each time: the closed pairs are the ends of chains, the given ones are among
them, and each is pending or has been extended. -/
structure Holds (ps : List (Value × Value)) (w : Worklist) : Prop where
  pending : w.pending ⊆ w.closed
  closed : w.closed ⊆ candidates ps
  sound : ∀ q ∈ w.closed, Leads ps q.1 q.2
  given : ∀ p ∈ ps, hasPair w.closed p = true
  extended : ∀ q ∈ w.closed, q ∈ w.pending ∨
    ∀ c ∈ successorsOf (successors ps) q.2, hasPair w.closed (q.1, c) = true

/-- The pending pairs, and those that may still become pending. -/
def size (ps : List (Value × Value)) (w : Worklist) : Nat :=
  w.pending.length + missing ps w.closed

variable {w w' : Worklist}

theorem Holds.inferredPairs (hps : InferredPairs ps) (h : Holds ps w) : InferredPairs w.closed :=
  fun q hq => inferredPairs_candidates hps q (h.closed hq)

theorem holds_of_start (hps : InferredPairs ps) (h : Start ps w) : Holds ps w := by
  obtain ⟨qs, hqs, hclosed, hpending⟩ := h
  rw [addPairs_eq, List.nil_append] at hclosed
  have hsub : w.closed ⊆ ps := hclosed ▸ List.Subset.trans (fresh_subset [] qs) hqs.subset
  refine ⟨hpending.subset, fun q hq => mem_candidates_of_mem (hsub hq),
    fun q hq => .of_mem hps (hsub hq), fun p hp => ?_, fun q hq => .inl (hpending.symm.subset hq)⟩
  rw [hclosed, ← List.nil_append (fresh [] qs)]
  exact hasPair_append_fresh (fun q hq => hps q (hqs.subset hq)) (hqs.symm.subset hp)

theorem size_le_of_start (h : Start ps w) : size ps w ≤ ps.length + ps.length * ps.length := by
  obtain ⟨qs, hqs, hclosed, hpending⟩ := h
  rw [addPairs_eq, List.nil_append] at hclosed
  have hpairs : w.pending.length ≤ ps.length := by
    rw [hpending.length_eq, hclosed, ← hqs.length_eq]
    exact length_fresh_le [] qs
  have hcand : missing ps w.closed ≤ ps.length * ps.length := by
    refine Nat.le_trans List.countP_le_length (Nat.le_of_eq ?_)
    rw [candidates, List.length_product, List.length_map, List.length_map]
  exact Nat.add_le_add hpairs hcand

/-- An extension of the pair of ends of a chain is one. -/
theorem Holds.extension (hps : InferredPairs ps) (h : Holds ps w) (hp : p ∈ w.closed)
    (hc : c ∈ successorsOf (successors ps) p.2) : (p.1, c) ∈ candidates ps ∧ Leads ps p.1 c := by
  have hcand := mem_candidates.1 (h.closed hp)
  obtain ⟨-, h2⟩ := h.inferredPairs hps p hp
  obtain ⟨q, hq, hpq, rfl⟩ := (mem_successorsOf hps h2).1 hc
  refine ⟨mem_candidates.2 ⟨hcand.1, (List.mem_map_of_mem hq : q.2 ∈ _)⟩, ?_⟩
  exact (h.sound p hp).trans hps h2 ((Leads.of_mem hps hq).congr_left hps h2 (hps q hq).1 hpq)

/-- What a pass does: it takes a pending pair `p`, and those of its extensions that are new become
closed and pending. -/
theorem Holds.exists_of_step (hps : InferredPairs ps) (h : Holds ps w) (hs : Step ps w w') :
    ∃ p rest ext, w.pending.Perm (p :: rest) ∧
      (∀ q ∈ ext, q ∈ candidates ps ∧ Leads ps q.1 q.2) ∧
      (∀ c ∈ successorsOf (successors ps) p.2, (p.1, c) ∈ ext) ∧
      w'.closed = w.closed ++ fresh w.closed ext ∧
      w'.pending = (fresh w.closed ext).reverse ++ rest := by
  obtain @⟨closed, pending, rest, p, cs, hp, hcs⟩ := hs
  have hpclosed : p ∈ closed := h.pending (hp.symm.subset List.mem_cons_self)
  refine ⟨p, rest, cs.map fun c => (p.1, c), hp, ?_, fun c hc => ?_, ?_, ?_⟩
  · exact List.forall_mem_map.2 fun c hc => h.extension hps hpclosed (hcs.subset hc)
  · exact List.mem_map_of_mem (hcs.symm.subset hc)
  · rw [addPairs_eq]
  · rw [addPairs_eq, List.append_nil]

/-- A pass keeps the invariant. -/
theorem Holds.step (hps : InferredPairs ps) (h : Holds ps w) (hs : Step ps w w') :
    Holds ps w' := by
  obtain ⟨p, rest, ext, hp, hext, hall, hclosed, hpending⟩ := h.exists_of_step hps hs
  have hnew : ∀ q ∈ fresh w.closed ext, q ∈ candidates ps ∧ Leads ps q.1 q.2 :=
    fun q hq => hext q (fresh_subset w.closed ext hq)
  have hold {q : Value × Value} (hq : hasPair w.closed q = true) : hasPair w'.closed q = true := by
    rw [hclosed, hasPair_append, hq, Bool.true_or]
  have hmem {q : Value × Value} (hq : q ∈ w'.closed) : q ∈ w.closed ∨ q ∈ fresh w.closed ext :=
    List.mem_append.1 (hclosed ▸ hq)
  refine ⟨fun q hq => ?_, fun q hq => ?_, fun q hq => ?_, fun q hq => hold (h.given q hq),
    fun q hq => ?_⟩
  · rw [hclosed]
    rcases List.mem_append.1 (hpending ▸ hq) with hq | hq
    · exact List.mem_append_right _ (List.mem_reverse.1 hq)
    · exact List.mem_append_left _ (h.pending (hp.symm.subset (List.mem_cons_of_mem p hq)))
  · exact (hmem hq).elim (fun hq => h.closed hq) fun hq => (hnew q hq).1
  · exact (hmem hq).elim (h.sound q) fun hq => (hnew q hq).2
  · -- the pair that was taken has been extended; the others are as before, or new
    rw [hpending]
    rcases hmem hq with hq | hq
    · rcases h.extended q hq with hpend | hdone
      · rcases List.mem_cons.1 (hp.subset hpend) with rfl | hpend
        · refine .inr fun c hc => ?_
          rw [hclosed]
          exact hasPair_append_fresh (fun q hq => inferredPairs_candidates hps q (hext q hq).1)
            (hall c hc)
        · exact .inl (List.mem_append_right _ hpend)
      · exact .inr fun c hc => hold (hdone c hc)
    · exact .inl (List.mem_append_left _ (List.mem_reverse.2 hq))

/-- A pass leaves less to do. -/
theorem Holds.size_lt (hps : InferredPairs ps) (h : Holds ps w) (hs : Step ps w w') :
    size ps w' < size ps w := by
  obtain ⟨p, rest, ext, hp, hext, -, hclosed, hpending⟩ := h.exists_of_step hps hs
  have hle : (fresh w.closed ext).length + missing ps (w.closed ++ fresh w.closed ext) ≤
      missing ps w.closed :=
    length_fresh_add_missing_le hps fun q hq => (hext q hq).1
  have hlen : w.pending.length = rest.length + 1 := hp.length_eq
  rw [size, size, hclosed, hpending, List.length_append, List.length_reverse]
  omega

/-- When nothing is pending, a closed pair goes on along any chain that begins at its end. -/
theorem Holds.hasPair_of_extends (hps : InferredPairs ps) (h : Holds ps w) (hw : w.pending = [])
    (ha : Inferred a) (hb : Inferred b) (hl : Leads ps a b) {q : Value × Value}
    (hq : q ∈ w.closed) (hqa : sameDigest q.2 a = true) : hasPair w.closed (q.1, b) = true := by
  have hcl : InferredPairs w.closed := h.inferredPairs hps
  -- the pair of the first element of `q` and the second one of the first link is closed
  have hlink {q p : Value × Value} (hq : q ∈ w.closed) (hp : p ∈ ps)
      (hqp : sameDigest q.2 p.1 = true) : ∃ r ∈ w.closed, Alike (q.1, p.2) r := by
    have hc : p.2 ∈ successorsOf (successors ps) q.2 :=
      (mem_successorsOf hps (hcl q hq).2).2 ⟨p, hp, hqp, rfl⟩
    rcases h.extended q hq with hpend | hdone
    · rw [hw] at hpend
      nomatch hpend
    · exact (hasPair_iff hcl (hcl q hq).1 (hps p hp).2).1 (hdone p.2 hc)
  induction hl generalizing q with
  | @single a b p hp hap hpb =>
    rw [ha.beq_eq (hps p hp).1] at hap
    rw [(hps p hp).2.beq_eq hb] at hpb
    obtain ⟨r, hr, h1, h2⟩ := hlink hq hp (sameDigest_trans hqa hap)
    exact (hasPair_iff hcl (hcl q hq).1 hb).2
      ⟨r, hr, h1, sameDigest_trans (sameDigest_symm hpb) h2⟩
  | @cons a b p hp hap _ ih =>
    rw [ha.beq_eq (hps p hp).1] at hap
    obtain ⟨r, hr, h1, h2⟩ := hlink hq hp (sameDigest_trans hqa hap)
    obtain ⟨t, ht, ht1, ht2⟩ :=
      (hasPair_iff hcl (hcl r hr).1 hb).1 (ih (hps p hp).2 hb hr (sameDigest_symm h2))
    exact (hasPair_iff hcl (hcl q hq).1 hb).2 ⟨t, ht, sameDigest_trans h1 ht1, ht2⟩

/-- When nothing is pending, the closed pairs are those that chains lead between. -/
theorem Holds.hasPair_iff_leads (hps : InferredPairs ps) (h : Holds ps w) (hw : w.pending = [])
    (ha : Inferred a) (hb : Inferred b) : hasPair w.closed (a, b) = true ↔ Leads ps a b := by
  have hcl : InferredPairs w.closed := h.inferredPairs hps
  constructor
  · intro hab
    obtain ⟨q, hq, h1, h2⟩ := (hasPair_iff hcl ha hb).1 hab
    exact ((h.sound q hq).congr_left hps ha (hcl q hq).1 h1).congr_right hps (hcl q hq).2 hb
      (sameDigest_symm h2)
  · intro hl
    have hfirst {p : Value × Value} (hp : p ∈ ps) (hap : (a == p.1) = true) :
        ∃ q ∈ w.closed, Alike (a, p.2) q := by
      obtain ⟨h1, h2⟩ := hps p hp
      rw [ha.beq_eq h1] at hap
      obtain ⟨q, hq, hpq⟩ := (hasPair_iff hcl h1 h2).1 (h.given p hp)
      exact ⟨q, hq, sameDigest_trans hap hpq.1, hpq.2⟩
    cases hl with
    | @single _ _ p hp hap hpb =>
      rw [(hps p hp).2.beq_eq hb] at hpb
      obtain ⟨q, hq, h1, h2⟩ := hfirst hp hap
      exact (hasPair_iff hcl ha hb).2 ⟨q, hq, h1, sameDigest_trans (sameDigest_symm hpb) h2⟩
    | @cons _ _ p hp hap rest =>
      obtain ⟨q, hq, h1, h2⟩ := hfirst hp hap
      have hqb := h.hasPair_of_extends hps hw (hps p hp).2 hb rest hq (sameDigest_symm h2)
      obtain ⟨r, hr, hr1, hr2⟩ := (hasPair_iff hcl (hcl q hq).1 hb).1 hqb
      exact (hasPair_iff hcl ha hb).2 ⟨r, hr, sameDigest_trans h1 hr1, hr2⟩

/-- Passes come to an end, in whatever order they are taken. -/
theorem Holds.acc (hps : InferredPairs ps) (h : Holds ps w) :
    Acc (fun w' w => Step ps w w') w := by
  induction hn : size ps w using Nat.strong_induction_on generalizing w with
  | _ n ih =>
    exact ⟨w, fun w' hs => ih _ (hn ▸ h.size_lt hps hs) (h.step hps hs) rfl⟩

theorem Holds.run (hps : InferredPairs ps) (h : Holds ps w)
    (hs : Relation.ReflTransGen (Step ps) w w') : Holds ps w' := by
  induction hs with
  | refl => exact h
  | tail _ hlast ih => exact ih.step hps hlast

/-- The loop takes passes until nothing is pending: there is fuel for all of them. -/
theorem close_reaches (hps : InferredPairs ps) (h : Holds ps w) {fuel : Nat}
    (hf : size ps w ≤ fuel) : ∃ w', Relation.ReflTransGen (Step ps) w w' ∧ w'.pending = [] ∧
      w'.closed = close (successors ps) fuel w.closed w.pending := by
  induction fuel generalizing w with
  | zero =>
    have hlen : w.pending.length = 0 := (Nat.eq_zero_of_add_eq_zero (Nat.le_zero.1 hf)).1
    exact ⟨w, .refl, List.length_eq_zero_iff.1 hlen, rfl⟩
  | succ fuel ih =>
    obtain ⟨closed, pending⟩ := w
    cases pending with
    | nil => exact ⟨_, .refl, rfl, rfl⟩
    | cons p rest =>
      have hs : Step ps ⟨closed, p :: rest⟩ _ := .take (List.Perm.refl _) (List.Perm.refl _)
      have hlt := Nat.lt_of_lt_of_le (h.size_lt hps hs) hf
      obtain ⟨w', hrun, hnil, hclosed⟩ := ih (h.step hps hs) (Nat.le_of_lt_succ hlt)
      exact ⟨w', .head hs hrun, hnil, hclosed⟩

end Worklist

/-- The closure of pairs is a run from the given ones until nothing is pending. -/
theorem closePairs_reaches (hps : InferredPairs ps) : ∃ w w' : Worklist, w.Start ps ∧
    Relation.ReflTransGen (Worklist.Step ps) w w' ∧ w'.pending = [] ∧
      w'.closed = closePairs ps := by
  have hstart : Worklist.Start ps ⟨(addPairs [] [] ps).1, (addPairs [] [] ps).2⟩ := by
    refine ⟨ps, List.Perm.refl ps, rfl, ?_⟩
    rw [addPairs_eq, List.append_nil]
    exact List.reverse_perm _
  obtain ⟨w', hrun, hnil, hclosed⟩ := Worklist.close_reaches hps
    (Worklist.holds_of_start hps hstart) (Nat.le_succ_of_le (Worklist.size_le_of_start hstart))
  exact ⟨_, w', hstart, hrun, hnil, hclosed⟩

end Relation

end ValueLattice

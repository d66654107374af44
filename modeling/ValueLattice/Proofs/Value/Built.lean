import ValueLattice.Proofs.Value.Relation
/-!
# All values that calls can build are well-typed

Values begin with leaves and are built by calls. `Call` gathers the calls on tuples, nodes, sets,
relations, lists and maps, and `Built` closes the leaves under them, in any order and to any
depth. One call keeps well-typed arguments well-typed, whichever it is, so everything built is.

* `Call.wellTyped`: one call;
* `wellTyped_of_built`: all of them.
-/

namespace ValueLattice

open Value

/-- The calls that take values to a value. -/
inductive Call : List Value → Value → Prop
  | tuple {args : List Value} {v : Value} (h : TupleCall args v) : Call args v
  | node {args : List Value} {v : Value} (h : NodeCall args v) : Call args v
  | set {args : List Value} {v : Value} (h : SetCall args v) : Call args v
  | relation {args : List Value} {v : Value} (h : RelationCall args v) : Call args v
  | list {args : List Value} {v : Value} (h : ListCall args v) : Call args v
  | map {args : List Value} {v : Value} (h : MapCall args v) : Call args v

/-- The values built from leaves by calls. -/
inductive Built : Value → Prop
  | leaf {v : Value} (h : v.isLeaf = true) : Built v
  | call {args : List Value} {v : Value} (h : Call args v) (ha : ∀ x ∈ args, Built x) : Built v

variable {args : List Value} {v : Value}

theorem Call.wellTyped (h : Call args v) (ha : ∀ x ∈ args, x.WellTyped) : v.WellTyped := by
  cases h with
  | tuple h => exact h.wellTyped ha
  | node h => exact h.wellTyped ha
  | set h => exact h.wellTyped ha
  | relation h => exact h.wellTyped ha
  | list h => exact h.wellTyped ha
  | map h => exact h.wellTyped ha

/-- **Everything built from leaves by calls is well-typed**, at every depth. -/
theorem wellTyped_of_built (h : Built v) : v.WellTyped := by
  induction h with
  | leaf h => exact .leaf h
  | call h _ ih => exact h.wellTyped ih

/-! ## A composition -/

/-- The tuple of a number and a letter. -/
def numberedLetter : Tuple := .ofValues [int 1, str "a"]

/-- The relation of that tuple alone. -/
def numbering : Relation := ⟨numberedLetter.row, [numberedLetter.toValue]⟩

/-- The map from the number to the letters of the relation. -/
def letters : TypedMap := ⟨.int, .set .str, [(int 1, .set .str [str "a"])]⟩

theorem built_numberedLetter : Built numberedLetter.toValue := by
  refine .call (.tuple (.ofValues [int 1, str "a"])) fun x hx => ?_
  rcases List.mem_pair.1 hx with rfl | rfl
  · exact .leaf rfl
  · exact .leaf rfl

theorem built_numbering : Built numbering.toValue := by
  have hof : (Relation.ofValues [numberedLetter.toValue]).Returns numbering := rfl
  exact .call (.relation (.ofValues hof)) (List.forall_mem_singleton.2 built_numberedLetter)

theorem built_letters : Built letters.toValue := by
  have hrange : numbering.range = .ok (.set .str [str "a"]) := rfl
  have hset : Built (.set .str [str "a"]) :=
    .call (.relation (.range hrange)) (List.forall_mem_singleton.2 built_numbering)
  refine .call (.map (.ofEntries [(int 1, .set .str [str "a"])])) fun x hx => ?_
  rcases List.mem_pair.1 hx with rfl | rfl
  · exact .leaf rfl
  · exact hset

/-- A map of sets that a relation gave was built, and is well-typed. -/
theorem letters_wellTyped : Built letters.toValue ∧ letters.toValue.WellTyped :=
  ⟨built_letters, wellTyped_of_built built_letters⟩

end ValueLattice

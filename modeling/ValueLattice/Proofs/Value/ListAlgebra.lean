import Mathlib.Data.UInt
import ValueLattice.Proofs.Ty.Algebra
import ValueLattice.Value.TypedList
/-!
# Laws of lists

The part of a list is given by a position and a length, words of 64 bits. Their sum may wrap around,
and a part that ends behind the list is to be refused and not to be cut out. The sum is therefore
checked before anything is cut out, and what is reported where it wraps around is the greatest word.
Computed in that way, `sublist` does what it does with unbounded numbers (`sublistOfWords_eq`), on
every list that is itself counted by a word.

The other laws are those of sequences, for the elements, together with those of joins, for the bound:
a reversal exchanges the two bounds that are joined, which makes no difference to how their join is
written, and a regrouping makes none up to equivalence.

* `checkedSum`, `saturatedSum`, `slice?`: sums of words, and the elements between two positions;
* `TypedList.sublist_eq_ok_iff`, `sublist_eq_error_iff`: what a part is, and when there is none;
* `TypedList.concat_sublist`: a list is put together from two parts;
* `TypedList.reverse_concat`, `TypedList.concat_assoc_equivalent`: reversal and regrouping;
* `list_laws`: all of it.
-/

namespace ValueLattice

/-! ## Words -/

/-- The sum of two words, unless it wraps around. -/
def checkedSum (a b : UInt64) : Option UInt64 := if a ≤ a + b then some (a + b) else none

/-- The sum of two words, or the greatest word where it wraps around. -/
def saturatedSum (a b : UInt64) : UInt64 := (checkedSum a b).getD (-1)

/-- The elements from the position `start` up to the position `stop`, if these are two positions of
the list in this order. -/
def slice? (xs : List Value) (start stop : UInt64) : Option (List Value) :=
  if start ≤ stop ∧ stop.toNat ≤ xs.length then some ((xs.take stop.toNat).drop start.toNat)
  else none

section Words

variable {a b : UInt64}

theorem le_add_iff : a ≤ a + b ↔ a.toNat + b.toNat < 2 ^ 64 := by
  have ha : a.toNat < 2 ^ 64 := a.toNat_lt
  have hb : b.toNat < 2 ^ 64 := b.toNat_lt
  rw [UInt64.le_iff_toNat_le, UInt64.toNat_add]
  omega

theorem checkedSum_of_lt (h : a.toNat + b.toNat < 2 ^ 64) : checkedSum a b = some (a + b) :=
  if_pos (le_add_iff.2 h)

theorem checkedSum_of_le (h : 2 ^ 64 ≤ a.toNat + b.toNat) : checkedSum a b = none :=
  if_neg fun hab => by
    have hlt : a.toNat + b.toNat < 2 ^ 64 := le_add_iff.1 hab
    omega

theorem toNat_add_of_lt (h : a.toNat + b.toNat < 2 ^ 64) : (a + b).toNat = a.toNat + b.toNat := by
  rw [UInt64.toNat_add, Nat.mod_eq_of_lt h]

theorem toNat_saturatedSum (a b : UInt64) :
    (saturatedSum a b).toNat = min (a.toNat + b.toNat) (2 ^ 64 - 1) := by
  unfold saturatedSum
  by_cases h : a.toNat + b.toNat < 2 ^ 64
  · rw [checkedSum_of_lt h, Option.getD_some, toNat_add_of_lt h]
    omega
  · rw [checkedSum_of_le (Nat.le_of_not_lt h), Option.getD_none]
    have hmax : (-1 : UInt64).toNat = 2 ^ 64 - 1 := rfl
    omega

end Words

namespace TypedList

variable {l m n : TypedList} {start length k : Nat} {f : Fault}

/-! ## Parts -/

/-- The part of a list, computed with words. There is no answer at all where a slice is asked for
that the list does not have. -/
def sublistOfWords (l : TypedList) (start length : UInt64) : Option (Except Fault TypedList) :=
  match (checkedSum start length).filter fun stop => stop.toNat ≤ l.size with
  | some stop => (slice? l.elems start stop).map fun xs => .ok ⟨l.elem, xs⟩
  | none => some (.error (.outOfBounds (saturatedSum start length).toNat l.size))

/-- A part is cut out where the list has it. -/
theorem slice?_of_le {o n : UInt64} (h : o.toNat + n.toNat ≤ l.size) (hl : l.size < 2 ^ 64) :
    slice? l.elems o (o + n) = some ((l.elems.drop o.toNat).take n.toNat) := by
  have hlt : o.toNat + n.toNat < 2 ^ 64 := Nat.lt_of_le_of_lt h hl
  unfold slice?
  rw [if_pos ⟨le_add_iff.2 hlt, (toNat_add_of_lt hlt).trans_le h⟩, toNat_add_of_lt hlt,
    List.drop_take, Nat.add_sub_cancel_left]

/-- Words do for a list that is counted by one: the part is the same, so is the fault, and no
slice is asked for that the list does not have. -/
theorem sublistOfWords_eq (hl : l.size < 2 ^ 64) (o n : UInt64) :
    l.sublistOfWords o n = some (l.sublist o.toNat n.toNat) := by
  unfold sublistOfWords sublist
  by_cases h : o.toNat + n.toNat ≤ l.size
  · have hlt : o.toNat + n.toNat < 2 ^ 64 := Nat.lt_of_le_of_lt h hl
    have hstop : (checkedSum o n).filter (fun stop => stop.toNat ≤ l.size) = some (o + n) := by
      rw [checkedSum_of_lt hlt]
      exact Option.filter_some_pos (decide_eq_true ((toNat_add_of_lt hlt).trans_le h))
    rw [hstop, if_pos h]
    exact congrArg (Option.map _) (slice?_of_le h hl)
  · have hstop : (checkedSum o n).filter (fun stop => stop.toNat ≤ l.size) = none := by
      by_cases hlt : o.toNat + n.toNat < 2 ^ 64
      · rw [checkedSum_of_lt hlt, Option.filter_eq_none_iff]
        intro stop hs
        obtain rfl := Option.some.inj hs
        rw [toNat_add_of_lt hlt, decide_eq_true_eq]
        exact h
      · rw [checkedSum_of_le (Nat.le_of_not_lt hlt)]
        rfl
    rw [hstop, if_neg h, toNat_saturatedSum]
    rfl

/-- A part has the bound of the list, as many elements as asked for, and these stand in the list
from `start` on. -/
theorem sublist_eq_ok_iff : l.sublist start length = .ok m ↔
    start + length ≤ l.size ∧ m.elem = l.elem ∧ m.size = length ∧
      ∀ i < length, m.elems[i]? = l.elems[start + i]? := by
  unfold sublist
  constructor
  · intro h
    split at h
    · next hle =>
      obtain rfl := Except.ok.inj h
      have hsize : ((l.elems.drop start).take length).length = length := by
        have hle : start + length ≤ l.elems.length := hle
        rw [List.length_take, List.length_drop]
        omega
      refine ⟨hle, rfl, hsize, fun i hi => ?_⟩
      rw [List.getElem?_take_of_lt hi, List.getElem?_drop]
    · nomatch h
  · rintro ⟨hle, helem, hsize, helems⟩
    rw [if_pos hle]
    obtain ⟨t, xs⟩ := m
    obtain rfl : t = l.elem := helem
    refine congrArg (fun xs => Except.ok (TypedList.mk l.elem xs)) (List.ext_getElem? fun i => ?_)
    by_cases hi : i < length
    · rw [List.getElem?_take_of_lt hi, List.getElem?_drop, ← helems i hi]
    · have hxs : xs.length ≤ i := by
        have hsize : xs.length = length := hsize
        omega
      rw [List.getElem?_take_eq_none (Nat.le_of_not_lt hi), List.getElem?_eq_none hxs]

theorem sublist_eq_error_iff : l.sublist start length = .error f ↔
    l.size < start + length ∧ f = .outOfBounds (min (start + length) (2 ^ 64 - 1)) l.size := by
  unfold sublist
  by_cases h : start + length ≤ l.size
  · rw [if_pos h]
    exact iff_of_false nofun fun hf => absurd hf.1 (Nat.not_lt.2 h)
  · rw [if_neg h]
    have hmax : maxPosition = 2 ^ 64 - 1 := rfl
    rw [Except.error.injEq, hmax]
    exact ⟨fun hf => ⟨Nat.lt_of_not_le h, hf.symm⟩, fun hf => hf.2.symm⟩

/-- There is a part exactly where the true sum is not behind the end of the list. -/
theorem exists_sublist_iff : (∃ m, l.sublist start length = .ok m) ↔ start + length ≤ l.size := by
  constructor
  · rintro ⟨m, hm⟩
    exact (sublist_eq_ok_iff.1 hm).1
  · intro h
    exact ⟨_, if_pos h⟩

/-! ## Both parts of a list -/

/-- A list cut in two is put together again, with its bound. -/
theorem concat_sublist (h : k ≤ l.size) : ∃ a b, l.sublist 0 k = .ok a ∧
    l.sublist k (l.size - k) = .ok b ∧ (a.concat b).val = l := by
  have hfirst : 0 + k ≤ l.size := (Nat.zero_add k).trans_le h
  have hsecond : k + (l.size - k) ≤ l.size := (Nat.add_sub_cancel' h).le
  refine ⟨_, _, if_pos hfirst, if_pos hsecond, ?_⟩
  have hrest : (l.elems.drop k).take (l.size - k) = l.elems.drop k :=
    List.take_of_length_le List.length_drop.le
  rw [concat_val, Ty.lub_self, List.drop_zero, hrest, List.take_append_drop]

/-! ## Reversal and regrouping -/

theorem reverse_reverse (l : TypedList) : l.reverse.reverse = l :=
  congrArg (TypedList.mk l.elem) (List.reverse_reverse l.elems)

theorem reverse_concat (l m : TypedList) :
    (l.concat m).val.reverse = (m.reverse.concat l.reverse).val :=
  congrArg₂ TypedList.mk (Ty.lub_comm l.elem m.elem) List.reverse_append

/-- Equivalent bounds make equivalent types of lists. -/
theorem equivalent_ty (h : l.elem.equivalent m.elem = true) :
    l.toValue.ty.equivalent m.toValue.ty = true := by
  obtain ⟨hlm, hml⟩ := Ty.equivalent_iff.1 h
  exact Ty.equivalent_iff.2 ⟨Ty.leq_of_below (.list hlm), Ty.leq_of_below (.list hml)⟩

theorem concat_assoc_equivalent (l m n : TypedList) :
    ((l.concat m).val.concat n).val.elems = (l.concat (m.concat n).val).val.elems ∧
      ((l.concat m).val.concat n).val.toValue.ty.equivalent
        (l.concat (m.concat n).val).val.toValue.ty = true :=
  ⟨List.append_assoc l.elems m.elems n.elems,
    equivalent_ty (Ty.lub_assoc_equivalent l.elem m.elem n.elem)⟩

end TypedList

/-- **Lists are sequences with a bound.** A part succeeds exactly where the true sum of position and
length is not behind the end, whether it is computed with words or without bounds; it keeps the
bound. Two parts make the list again, reversals undo each other and exchange what is put together,
and the grouping of three lists shows at most in how their bound is written. -/
theorem list_laws (l m n : TypedList) :
    (∀ start length : UInt64, l.size < 2 ^ 64 →
      l.sublistOfWords start length = some (l.sublist start.toNat length.toNat)) ∧
    (∀ start length,
      ((∃ p, l.sublist start length = .ok p) ↔ start + length ≤ l.size) ∧
      (∀ p, l.sublist start length = .ok p → p.elem = l.elem ∧ p.size = length ∧
        ∀ i < length, p.elems[i]? = l.elems[start + i]?) ∧
      ∀ f, l.sublist start length = .error f →
        f = .outOfBounds (min (start + length) (2 ^ 64 - 1)) l.size) ∧
    (∀ k ≤ l.size, ∃ a b, l.sublist 0 k = .ok a ∧ l.sublist k (l.size - k) = .ok b ∧
      (a.concat b).val = l) ∧
    l.reverse.reverse = l ∧ (l.concat m).val.reverse = (m.reverse.concat l.reverse).val ∧
    ((l.concat m).val.concat n).val.elems = (l.concat (m.concat n).val).val.elems ∧
    ((l.concat m).val.concat n).val.toValue.ty.equivalent
      (l.concat (m.concat n).val).val.toValue.ty = true := by
  refine ⟨fun o k hl => TypedList.sublistOfWords_eq hl o k, fun o k => ⟨?_, fun p hp => ?_,
    fun f hf => ?_⟩, fun k hk => TypedList.concat_sublist hk, l.reverse_reverse,
    l.reverse_concat m, l.concat_assoc_equivalent m n⟩
  · exact TypedList.exists_sublist_iff
  · exact (TypedList.sublist_eq_ok_iff.1 hp).2
  · exact (TypedList.sublist_eq_error_iff.1 hf).2

/-- A list of three numbers: the greatest word and two wrap around to one, which is a position, but
there is no such part. -/
theorem list_laws_wrapped :
    let l : TypedList := ⟨.int, [.int 1, .int 2, .int 3]⟩
    let m : TypedList := ⟨.tuple [.str] (some ["x"]), []⟩
    let n : TypedList := ⟨.tuple [.str] (some ["y"]), []⟩
    (-1 + 2 : UInt64) = 1 ∧ l.size < 2 ^ 64 ∧
      l.sublistOfWords (-1) 2 = some (.error (.outOfBounds (2 ^ 64 - 1) 3)) ∧
      l.sublistOfWords 1 2 = some (.ok ⟨.int, [.int 2, .int 3]⟩) ∧
      (m.concat l).val.reverse = (l.reverse.concat m.reverse).val ∧
      ((m.concat n).val.concat l).val.toValue.ty.equivalent
        (m.concat (n.concat l).val).val.toValue.ty = true := by
  intro l m n
  have hl : l.size < 2 ^ 64 := by decide
  have hwords := (list_laws l m n).1
  refine ⟨by decide, hl, ?_, ?_, (list_laws m l n).2.2.2.2.1, (list_laws m n l).2.2.2.2.2.2⟩
  · rw [hwords (-1) 2 hl]
    rfl
  · rw [hwords 1 2 hl]
    rfl

end ValueLattice

import Mathlib.Data.List.Perm.Basic
import ValueLattice.Value.Equality
/-!
# Lists matched one to one

Two lists are matched one to one by a relation when some order of the second stands in the
relation to the first, position by position. There are two ways to such a match here. A search
may take the first partner it meets for each value (`greedy`); it finds a match whenever there is
one, if the relation has the zigzag law. And if the lists are of one length and each value has a
partner that no other value has, the partners are a match.

* `OneToOne`: the match;
* `greedy_iff`: the search, under the zigzag law;
* `oneToOne_of_unshared`: a partner for each value, and none shared.
-/

namespace ValueLattice

section OneToOne

variable {α β : Type} {r s : α → β → Prop} {y : β} {xs : List α} {ys : List β}

/-- Each value of the first list is related to one of the second, and each of the second is used
once. -/
def OneToOne (r : α → β → Prop) (xs : List α) (ys : List β) : Prop :=
  ∃ zs, List.Forall₂ r xs zs ∧ zs.Perm ys

theorem forall₂_imp_of_mem (h : List.Forall₂ r xs ys) (hrs : ∀ x ∈ xs, ∀ y, r x y → s x y) :
    List.Forall₂ s xs ys :=
  ((List.forall₂_and_left xs ys).2 ⟨hrs, h⟩).imp fun _ y hxy => hxy.1 y hxy.2

theorem forall₂_and_right {p : β → Prop} (h : List.Forall₂ r xs ys) (hp : ∀ y ∈ ys, p y) :
    List.Forall₂ (fun x y => r x y ∧ p y) xs ys :=
  (((List.forall₂_and_left ys xs).2 ⟨hp, h.flip⟩).imp fun _ _ hyx => hyx.symm).flip

theorem forall₂_and (hr : List.Forall₂ r xs ys) (hs : List.Forall₂ s xs ys) :
    List.Forall₂ (fun x y => r x y ∧ s x y) xs ys := by
  induction hr with
  | nil => exact .nil
  | cons hxy _ ih =>
    cases hs with
    | cons hxy' hs => exact .cons ⟨hxy, hxy'⟩ (ih hs)

theorem OneToOne.length_eq (h : OneToOne r xs ys) : xs.length = ys.length := by
  obtain ⟨zs, hzs, hperm⟩ := h
  exact hzs.length_eq.trans hperm.length_eq

theorem OneToOne.imp (h : OneToOne r xs ys) (hrs : ∀ x ∈ xs, ∀ y, r x y → s x y) :
    OneToOne s xs ys := by
  obtain ⟨zs, hzs, hperm⟩ := h
  exact ⟨zs, forall₂_imp_of_mem hzs hrs, hperm⟩

theorem oneToOne_refl {r : α → α → Prop} (h : ∀ x ∈ xs, r x x) : OneToOne r xs xs :=
  ⟨xs, List.forall₂_same.2 h, .refl xs⟩

/-- Each value of the first list has a partner in the second. -/
theorem OneToOne.exists_right {x : α} (h : OneToOne r xs ys) (hx : x ∈ xs) : ∃ y ∈ ys, r x y := by
  obtain ⟨zs, hzs, hperm⟩ := h
  obtain ⟨i, hi, rfl⟩ := List.getElem_of_mem hx
  have hj : i < zs.length := hzs.length_eq ▸ hi
  exact ⟨zs[i], hperm.subset (List.getElem_mem hj), hzs.get hi hj⟩

/-- Each value of the second list has a partner in the first. -/
theorem OneToOne.exists_left (h : OneToOne r xs ys) (hy : y ∈ ys) : ∃ x ∈ xs, r x y := by
  obtain ⟨zs, hzs, hperm⟩ := h
  have hz : y ∈ zs := hperm.symm.subset hy
  clear hperm hy
  induction hzs with
  | nil => nomatch hz
  | @cons x z xs zs hxz _ ih =>
    rcases List.mem_cons.1 hz with rfl | hz
    · exact ⟨x, List.mem_cons_self, hxz⟩
    · obtain ⟨w, hw, hwy⟩ := ih hz
      exact ⟨w, List.mem_cons_of_mem x hw, hwy⟩

theorem map_eq_of_forall₂ {γ : Type} {r : α → α → Prop} {g : α → γ} {xs ys : List α}
    (h : List.Forall₂ r xs ys) (hg : ∀ x ∈ xs, ∀ y, r x y → g x = g y) : xs.map g = ys.map g := by
  rw [← List.forall₂_eq_eq_eq, List.forall₂_map_left_iff, List.forall₂_map_right_iff]
  exact forall₂_imp_of_mem h hg

/-- What agrees on partners has the same values on both lists, in some order. -/
theorem OneToOne.map_perm {γ : Type} {r : α → α → Prop} {g : α → γ} {xs ys : List α}
    (h : OneToOne r xs ys) (hg : ∀ x ∈ xs, ∀ y, r x y → g x = g y) :
    (xs.map g).Perm (ys.map g) := by
  obtain ⟨zs, hzs, hperm⟩ := h
  rw [map_eq_of_forall₂ hzs hg]
  exact hperm.map g

end OneToOne

/-! ## The greedy search -/

section Greedy

variable {α β : Type} {r : α → β → Bool} {y z : β} {xs xs' : List α} {ys ys' zs : List β}

/-- The search for a match that takes the first value related to each. -/
def greedy (r : α → β → Bool) : List α → List β → Bool
  | [], ys => ys.isEmpty
  | x :: xs, ys =>
    match dropFirst? (r x) ys with
    | some rest => greedy r xs rest
    | none => false

/-- If three of the four pairs of `x` and `x'` with `y` and `y'` are related, so is the pair of
`x` and `y'`. -/
def Zigzag (r : α → β → Bool) (x : α) : Prop :=
  ∀ ⦃y : β⦄ ⦃x' : α⦄ ⦃y' : β⦄, r x y = true → r x' y = true → r x' y' = true → r x y' = true

theorem perm_of_dropFirst? {p : β → Bool} (h : dropFirst? p ys = some zs) :
    ∃ y, p y = true ∧ (y :: zs).Perm ys := by
  induction ys generalizing zs with
  | nil => nomatch h
  | cons z ys ih =>
    unfold dropFirst? at h
    split at h
    · next hz =>
      obtain rfl := Option.some.inj h
      exact ⟨z, hz, .refl _⟩
    · obtain ⟨rest, hrest, rfl⟩ := Option.map_eq_some_iff.1 h
      obtain ⟨y, hy, hperm⟩ := ih hrest
      exact ⟨y, hy, (List.Perm.swap z y rest).trans (hperm.cons z)⟩

theorem exists_dropFirst? {p : β → Bool} (hz : z ∈ ys) (hp : p z = true) :
    ∃ zs, dropFirst? p ys = some zs := by
  induction ys with
  | nil => nomatch hz
  | cons y ys ih =>
    unfold dropFirst?
    split
    · exact ⟨ys, rfl⟩
    · next hy =>
      rcases List.mem_cons.1 hz with rfl | hz
      · exact absurd hp hy
      · obtain ⟨zs, hzs⟩ := ih hz
        exact ⟨y :: zs, by rw [hzs, Option.map_some]⟩

theorem oneToOne_of_greedy (h : greedy r xs ys = true) : OneToOne (r · ·) xs ys := by
  induction xs generalizing ys with
  | nil =>
    rw [greedy, List.isEmpty_iff] at h
    exact ⟨[], .nil, h ▸ .refl _⟩
  | cons x xs ih =>
    unfold greedy at h
    split at h
    · next rest hrest =>
      obtain ⟨y, hy, hperm⟩ := perm_of_dropFirst? hrest
      obtain ⟨zs, hzs, hperm'⟩ := ih h
      exact ⟨y :: zs, .cons hy hzs, (hperm'.cons y).trans hperm⟩
    · nomatch h

/-- In a list matched with another, a value `z` may take the place of a value `y` of which every
partner is a partner of `z`. -/
theorem exchange (h : List.Forall₂ (fun x z => r x z = true) xs zs) (hy : y ∈ zs)
    (hyz : ∀ x ∈ xs, r x y = true → r x z = true) :
    ∃ ws, List.Forall₂ (fun x w => r x w = true) xs ws ∧ (y :: ws).Perm (z :: zs) := by
  induction h with
  | nil => nomatch hy
  | @cons x w xs zs hxw h ih =>
    obtain ⟨hx, hxs⟩ := List.forall_mem_cons.1 hyz
    rcases List.mem_cons.1 hy with rfl | hy
    · exact ⟨z :: zs, .cons (hx hxw) h, List.Perm.swap z y zs⟩
    · obtain ⟨ws, hws, hperm⟩ := ih hy hxs
      refine ⟨w :: ws, .cons hxw hws, ?_⟩
      calc (y :: w :: ws).Perm (w :: y :: ws) := List.Perm.swap w y ws
        _ |>.Perm (w :: z :: zs) := hperm.cons w
        _ |>.Perm (z :: w :: zs) := List.Perm.swap z w zs

theorem greedy_of_oneToOne (hz : ∀ x ∈ xs, Zigzag r x) (h : OneToOne (r · ·) xs ys) :
    greedy r xs ys = true := by
  induction xs generalizing ys with
  | nil =>
    obtain ⟨zs, hzs, hperm⟩ := h
    cases hzs
    rw [hperm.nil_eq.symm]
    rfl
  | cons x xs ih =>
    obtain ⟨_, hzs, hperm⟩ := h
    cases hzs with
    | @cons _ z _ zs hxz hzs =>
      obtain ⟨hx, hxs⟩ := List.forall_mem_cons.1 hz
      obtain ⟨rest, hrest⟩ := exists_dropFirst? (hperm.subset List.mem_cons_self) hxz
      obtain ⟨y, hxy, hperm'⟩ := perm_of_dropFirst? hrest
      rw [greedy, hrest]
      refine ih hxs ?_
      -- the search takes `y`, where the match had `z`; so the partner of `y` gets `z`
      have hy : y ∈ z :: zs := hperm.symm.subset (hperm'.subset List.mem_cons_self)
      rcases List.mem_cons.1 hy with rfl | hy
      · exact ⟨zs, hzs, (hperm.trans hperm'.symm).cons_inv⟩
      · obtain ⟨ws, hws, hperm''⟩ := exchange hzs hy fun w hw hwy => hxs w hw hwy hxy hxz
        exact ⟨ws, hws, (hperm''.trans (hperm.trans hperm'.symm)).cons_inv⟩

theorem greedy_iff (hz : ∀ x ∈ xs, Zigzag r x) : greedy r xs ys = true ↔ OneToOne (r · ·) xs ys :=
  ⟨oneToOne_of_greedy, greedy_of_oneToOne hz⟩

theorem forall₂_zigzag (hz : ∀ x ∈ xs, Zigzag r x)
    (h₁ : List.Forall₂ (fun x y => r x y = true) xs ys)
    (h₂ : List.Forall₂ (fun x y => r x y = true) xs' ys)
    (h₃ : List.Forall₂ (fun x y => r x y = true) xs' ys') :
    List.Forall₂ (fun x y => r x y = true) xs ys' := by
  induction h₁ generalizing xs' ys' with
  | nil =>
    cases h₂
    cases h₃
    exact .nil
  | cons hxy h₁ ih =>
    obtain ⟨hx, hxs⟩ := List.forall_mem_cons.1 hz
    cases h₂ with
    | cons hx'y h₂ =>
      cases h₃ with
      | cons hx'y' h₃ => exact .cons (hx hxy hx'y hx'y') (ih hxs h₂ h₃)

theorem oneToOne_zigzag (hz : ∀ x ∈ xs, Zigzag r x) (h₁ : OneToOne (r · ·) xs ys)
    (h₂ : OneToOne (r · ·) xs' ys) (h₃ : OneToOne (r · ·) xs' ys') :
    OneToOne (r · ·) xs ys' := by
  obtain ⟨zs, hzs, hperm⟩ := h₁
  obtain ⟨zs₂, hzs₂, hperm₂⟩ := h₂
  obtain ⟨zs₃, hzs₃, hperm₃⟩ := h₃
  obtain ⟨xs₂, hxs₂, hperm'⟩ := List.perm_comp_forall₂ (hperm.trans hperm₂.symm) hzs₂.flip
  obtain ⟨zs₄, hzs₄, hperm₄⟩ := List.perm_comp_forall₂ hperm' hzs₃
  exact ⟨zs₄, forall₂_zigzag hz hzs hxs₂.flip hzs₄, hperm₄.trans hperm₃⟩

end Greedy

/-! ## Unshared partners -/

section Unshared

variable {α β : Type} {xs : List α} {ys : List β}

theorem eq_of_countP_le_one {p : α → Bool} {x y : α} (h : xs.countP p ≤ 1) (hx : x ∈ xs)
    (hy : y ∈ xs) (hpx : p x = true) (hpy : p y = true) : x = y := by
  have hx' : x ∈ xs.filter p := List.mem_filter.2 ⟨hx, hpx⟩
  have hy' : y ∈ xs.filter p := List.mem_filter.2 ⟨hy, hpy⟩
  rw [List.countP_eq_length_filter] at h
  match hf : xs.filter p, h with
  | [], _ => rw [hf] at hx'; nomatch hx'
  | [z], _ =>
    rw [hf, List.mem_singleton] at hx' hy'
    rw [hx', hy']

theorem countP_le_one_of_pairwise {p : α → Bool}
    (h : xs.Pairwise fun x y => ¬ (p x = true ∧ p y = true)) : xs.countP p ≤ 1 := by
  induction h with
  | nil => exact Nat.zero_le 1
  | @cons x xs hx h ih =>
    cases hpx : p x with
    | false => rwa [List.countP_cons_of_neg (by rw [hpx]; exact Bool.false_ne_true)]
    | true =>
      have hxs : xs.countP p = 0 := List.countP_eq_zero.2 fun y hy hpy => hx y hy ⟨hpx, hpy⟩
      exact Nat.le_of_eq ((List.countP_cons_of_pos hpx).trans (congrArg (· + 1) hxs))

/-- Where no two values pass a test, to drop the first that does is to drop all that do. -/
theorem eraseP_eq_filter {p : α → Bool} (h : xs.Pairwise fun x y => ¬ (p x = true ∧ p y = true)) :
    xs.eraseP p = xs.filter fun x => !p x := by
  induction h with
  | nil => rfl
  | @cons x xs hx h ih =>
    cases hpx : p x with
    | false =>
      rw [List.eraseP_cons_of_neg (Bool.eq_false_iff.1 hpx), List.filter_cons_of_pos, ih]
      rw [hpx, Bool.not_false]
    | true =>
      have hxs : xs.filter (fun x => !p x) = xs := by
        refine List.filter_eq_self.2 fun y hy => ?_
        rw [Bool.eq_false_iff.2 fun hpy => hx y hy ⟨hpx, hpy⟩, Bool.not_false]
      rw [List.eraseP_cons_of_pos hpx, List.filter_cons_of_neg, hxs]
      rw [hpx]
      exact Bool.false_ne_true

/-- If each value of a list has a partner in another list, and no two share a partner, then the
partners are among the values of the other list, each used once. -/
theorem exists_subperm_of_unshared {r : α → β → Prop} {m : α → β → Bool}
    (hr : ∀ x ∈ xs, ∃ y ∈ ys, r x y ∧ m x y = true) (hm : ∀ y ∈ ys, xs.countP (m · y) ≤ 1) :
    ∃ zs, List.Forall₂ r xs zs ∧ zs.Subperm ys := by
  induction xs generalizing ys with
  | nil => exact ⟨[], .nil, List.nil_subperm⟩
  | cons x xs ih =>
    obtain ⟨⟨y, hy, hxy, hmxy⟩, hxs⟩ := List.forall_mem_cons.1 hr
    obtain ⟨as, bs, rfl⟩ := List.append_of_mem hy
    -- `y` is taken by `x`, so no other value has it for a partner
    have hxs' (w) (hw : w ∈ xs) : ∃ z ∈ as ++ bs, r w z ∧ m w z = true := by
      obtain ⟨z, hz, hwz, hmwz⟩ := hxs w hw
      have hzy : z ≠ y := by
        rintro rfl
        have hpos : 0 < xs.countP (m · z) := List.countP_pos_iff.2 ⟨w, hw, hmwz⟩
        have hcount := hm z hy
        rw [List.countP_cons, if_pos hmxy] at hcount
        omega
      refine ⟨z, ?_, hwz, hmwz⟩
      rcases List.mem_append.1 hz with hz | hz
      · exact List.mem_append_left _ hz
      · exact List.mem_append_right _ ((List.mem_cons.1 hz).resolve_left hzy)
    have hm' (z) (hz : z ∈ as ++ bs) : xs.countP (m · z) ≤ 1 := by
      have hz' : z ∈ as ++ y :: bs := List.perm_middle.symm.subset (List.mem_cons_of_mem y hz)
      exact Nat.le_trans (List.sublist_cons_self x xs).countP_le (hm z hz')
    obtain ⟨zs, hzs, hsub⟩ := ih hxs' hm'
    refine ⟨y :: zs, .cons hxy hzs, ?_⟩
    exact ((List.subperm_cons y).2 hsub).trans List.perm_middle.symm.subperm

/-- Two lists of one length are matched one to one if each value of the first has a partner in
the second, and no two share a partner. -/
theorem oneToOne_of_unshared {r : α → β → Prop} {m : α → β → Bool}
    (hlen : xs.length = ys.length) (hr : ∀ x ∈ xs, ∃ y ∈ ys, r x y ∧ m x y = true)
    (hm : ∀ y ∈ ys, xs.countP (m · y) ≤ 1) : OneToOne r xs ys := by
  obtain ⟨zs, hzs, hsub⟩ := exists_subperm_of_unshared hr hm
  exact ⟨zs, hzs, hsub.perm_of_length_le (Nat.le_of_eq (hlen.symm.trans hzs.length_eq))⟩

end Unshared

end ValueLattice

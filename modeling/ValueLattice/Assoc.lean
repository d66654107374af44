/-!
# Association lists

Finite maps that remember the order in which their keys were first bound. A key is bound at
most once when the list is grown from the empty one by `Assoc.insert`.

* `Assoc.get?`: the value bound to a key;
* `Assoc.insert`: binds a key, in place when it is bound already;
* `get?_insert_self`, `get?_insert_of_ne`: what a binding changes, and what it leaves.
-/

namespace ValueLattice

/-- A finite map as the list of its bindings, in the order of first binding. -/
abbrev Assoc (κ ν : Type) := List (κ × ν)

namespace Assoc

variable {κ ν : Type} [DecidableEq κ]

/-- The value bound to `k`. -/
def get? (m : Assoc κ ν) (k : κ) : Option ν :=
  match m with
  | [] => none
  | (l, v) :: rest => if l = k then some v else get? rest k

/-- Binds `k` to `v`: in place when `k` is bound already, else after all other bindings. -/
def insert (m : Assoc κ ν) (k : κ) (v : ν) : Assoc κ ν :=
  match m with
  | [] => [(k, v)]
  | (l, w) :: rest => if l = k then (k, v) :: rest else (l, w) :: insert rest k v

/-- The bindings made by inserting `entries` one by one. -/
def ofList (entries : List (κ × ν)) : Assoc κ ν :=
  entries.foldl (fun m e => insert m e.1 e.2) []

theorem get?_insert_self (m : Assoc κ ν) (k : κ) (v : ν) : get? (insert m k v) k = some v := by
  induction m with
  | nil => simp [insert, get?]
  | cons e rest ih =>
    by_cases h : e.1 = k
    · simp [insert, get?, h]
    · simp [insert, get?, h, ih]

theorem get?_insert_of_ne (m : Assoc κ ν) {k l : κ} (h : k ≠ l) (v : ν) :
    get? (insert m k v) l = get? m l := by
  induction m with
  | nil => simp [insert, get?, h]
  | cons e rest ih =>
    obtain ⟨i, w⟩ := e
    by_cases hi : i = k
    · simp [insert, get?, hi, h]
    · by_cases hl : i = l
      · simp [insert, get?, hl, h.symm]
      · simp [insert, get?, hi, hl, ih]

end Assoc

end ValueLattice

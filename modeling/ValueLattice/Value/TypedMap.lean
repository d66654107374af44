import ValueLattice.Value.Table
import ValueLattice.Widening
/-!
# Maps

A map has types that bound its keys and its values. Binding a key widens both bounds, removal
keeps them, and a map made of two has the joins of their bounds. Every operation makes a new
map.

* `TypedMap.ofEntries`: the map of given entries, bounded by the joins of their types;
* `get?`, `has`: look-up;
* `put`, `erase`, `merge`, `common`, `submap`: the operations.
-/

namespace ValueLattice

namespace TypedMap

/-- The map of the given entries, bound one by one, with the given bounds, which are not
checked. -/
def ofTable (key val : Ty) (es : List (Value × Value)) : TypedMap :=
  ⟨key, val, EntryTable.putAll [] es⟩

/-- The map without entries. -/
def empty (key val : Ty) : TypedMap := ⟨key, val, []⟩

/-- The joins of given bounds with the types of the keys and of the values of entries. -/
def joinEntries (key val : Ty) : List (Value × Value) → Logged (Ty × Ty)
  | [] => return (key, val)
  | (k, v) :: es => do
    let key ← key.join k.ty
    let val ← val.join v.ty
    joinEntries key val es

/-- The map of the given entries, bounded by the joins of the types of keys and of values.
Later entries replace earlier ones with an equal key. -/
def ofEntries (es : List (Value × Value)) : Logged TypedMap := do
  let (key, val) ← joinEntries .void .void es
  return ofTable key val es

/-- The number of entries. -/
def size (m : TypedMap) : Nat := m.entries.length

/-- The value bound to `k`. -/
def get? (m : TypedMap) (k : Value) : Option Value := EntryTable.get? m.entries k

/-- Whether `k` is bound. -/
def has (m : TypedMap) (k : Value) : Bool := EntryTable.has m.entries k

/-- The map with `k` bound to `v`. -/
def put (m : TypedMap) (k v : Value) : Logged TypedMap := do
  let key ← m.key.join k.ty
  let val ← m.val.join v.ty
  return ⟨key, val, EntryTable.put m.entries k v⟩

/-- The map without `k`. -/
def erase (m : TypedMap) (k : Value) : TypedMap :=
  ⟨m.key, m.val, EntryTable.erase m.entries k⟩

/-- The entries of both maps; where both bind a key, those of the second. -/
def merge (m o : TypedMap) : Logged TypedMap := do
  let key ← m.key.join o.key
  let val ← m.val.join o.val
  return ⟨key, val, EntryTable.putAll m.entries o.entries⟩

/-- The entries of the first map that the second has as well. -/
def common (m o : TypedMap) : Logged TypedMap := do
  let key ← m.key.join o.key
  let val ← m.val.join o.val
  return ⟨key, val, m.entries.filter (EntryTable.binds o.entries)⟩

/-- Whether the second map has every entry of the first. -/
def submap (m o : TypedMap) : Bool := m.entries.all (EntryTable.binds o.entries)

/-! ## Results -/

/-- The results of joining entries are the joins of the types of their keys and of their values,
each from the left. -/
theorem joinEntries_val (key val : Ty) (es : List (Value × Value)) :
    (joinEntries key val es).val =
      (((es.map Prod.fst).map Value.ty).foldl Ty.lub key,
        ((es.map Prod.snd).map Value.ty).foldl Ty.lub val) := by
  induction es generalizing key val with
  | nil => rfl
  | cons e es ih => exact ih (key.lub e.1.ty) (val.lub e.2.ty)

theorem ofEntries_val (es : List (Value × Value)) :
    (ofEntries es).val = ofTable (((es.map Prod.fst).map Value.ty).foldl Ty.lub .void)
      (((es.map Prod.snd).map Value.ty).foldl Ty.lub .void) es := by
  change ofTable (joinEntries .void .void es).val.1 (joinEntries .void .void es).val.2 es = _
  rw [joinEntries_val]

@[simp] theorem put_val (m : TypedMap) (k v : Value) :
    (m.put k v).val = ⟨m.key.lub k.ty, m.val.lub v.ty, EntryTable.put m.entries k v⟩ := rfl

@[simp] theorem merge_val (m o : TypedMap) :
    (m.merge o).val =
      ⟨m.key.lub o.key, m.val.lub o.val, EntryTable.putAll m.entries o.entries⟩ := rfl

@[simp] theorem common_val (m o : TypedMap) :
    (m.common o).val =
      ⟨m.key.lub o.key, m.val.lub o.val,
        m.entries.filter (EntryTable.binds o.entries)⟩ := rfl

end TypedMap

end ValueLattice

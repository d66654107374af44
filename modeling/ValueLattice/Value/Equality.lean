import ValueLattice.Ty.Order
import ValueLattice.Value.Basic
/-!
# Equality of values

Two values are equal when they are of one variant, their types are comparable and their
contents are equal. Nodes also agree in guise, name and annotations. Since comparability is
not transitive, neither is this equality.

A table finds its elements by a digest first, and then by equality. The digest of a value is
taken from its contents alone: those of a set, a relation or a map are added up, so their order
does not count, and neither types nor annotations enter it. `sameDigest` says that two values
agree in every part that enters the digest.

Sets and relations are equal when they have as many elements and each element on the left is
found among those on the right, and maps likewise with their entries.

* `Value.sameDigest`: agreement of digests;
* `Value.eqv`: equality, also written `==`;
* `Value.finds`: what a table looks for.
-/

namespace ValueLattice

/-- The list without its first element that passes the test, if there is one. -/
def dropFirst? {α : Type} (p : α → Bool) : List α → Option (List α)
  | [] => none
  | x :: xs => if p x then some xs else (dropFirst? p xs).map (x :: ·)

namespace Value

/-! ## Digests -/

mutual

/-- Whether two values have the same digest. -/
def sameDigest : Value → Value → Bool
  | bool a, bool b => a = b
  | int a, int b => a = b
  | double a, double b => a.alike b
  | str a, str b => a = b
  | loc a, loc b => a = b
  | range a, range b => a = b
  | tuple _ _ xs, tuple _ _ ys => sameDigests xs ys
  | node g _ n _ xs _ _, node h _ m _ ys _ _ => g = h && n = m && sameDigests xs ys
  | set _ xs, set _ ys => sameDigestSum xs ys
  | rel _ _ xs, rel _ _ ys => sameDigestSum xs ys
  | list _ xs, list _ ys => sameDigests xs ys
  | map _ _ es, map _ _ fs => sameEntrySum es fs
  | _, _ => false

/-- Whether the values of two lists have the same digests, position by position. -/
def sameDigests : List Value → List Value → Bool
  | [], [] => true
  | x :: xs, y :: ys => sameDigest x y && sameDigests xs ys
  | _, _ => false

/-- Whether the values of two lists have the same digests in some order. -/
def sameDigestSum : List Value → List Value → Bool
  | [], ys => ys.isEmpty
  | x :: xs, ys =>
    match dropFirst? (fun y => sameDigest x y) ys with
    | some rest => sameDigestSum xs rest
    | none => false

/-- Whether the entries of two lists have the same digests in some order. -/
def sameEntrySum : List (Value × Value) → List (Value × Value) → Bool
  | [], fs => fs.isEmpty
  | (k, v) :: es, fs =>
    match dropFirst? (fun f => sameDigest k f.1 && sameDigest v f.2) fs with
    | some rest => sameEntrySum es rest
    | none => false

end

/-! ## Equality -/

mutual

/-- Equality of values. -/
def eqv : Value → Value → Bool
  | bool a, bool b => a = b
  | int a, int b => a = b
  | double a, double b => a.alike b
  | str a, str b => a = b
  | loc a, loc b => a = b
  | range a, range b => a = b
  | tuple fs _ xs, tuple gs _ ys => Ty.comparableRows fs gs && eqvAll xs ys
  | node g t n _ xs _ as, node h u m _ ys _ bs =>
    g = h && n = m && t.comparable u && eqvAll xs ys && eqvAnnos as bs
  | set e xs, set f ys => e.comparable f && xs.length = ys.length && foundAll xs ys
  | rel fs _ xs, rel gs _ ys =>
    Ty.comparableRows fs gs && xs.length = ys.length && foundAll xs ys
  | list e xs, list f ys => e.comparable f && eqvAll xs ys
  | map k v es, map l w fs =>
    k.comparable l && v.comparable w && es.length = fs.length && boundAll es fs
  | _, _ => false

/-- Equality of lists, position by position. -/
def eqvAll : List Value → List Value → Bool
  | [], [] => true
  | x :: xs, y :: ys => eqv x y && eqvAll xs ys
  | _, _ => false

/-- Equality of annotations, label by label. -/
def eqvAnnos : List (String × Value) → List (String × Value) → Bool
  | [], [] => true
  | (l, x) :: xs, (m, y) :: ys => l = m && eqv x y && eqvAnnos xs ys
  | _, _ => false

/-- Whether each value of the first list is found in the second. -/
def foundAll : List Value → List Value → Bool
  | [], _ => true
  | x :: xs, ys => ys.any (fun y => sameDigest x y && eqv x y) && foundAll xs ys

/-- Whether the second list of entries binds each key of the first to an equal value. -/
def boundAll : List (Value × Value) → List (Value × Value) → Bool
  | [], _ => true
  | (k, v) :: es, fs =>
    (match fs.find? (fun f => sameDigest k f.1 && eqv k f.1) with
    | some f => eqv v f.2
    | none => false) && boundAll es fs

end

instance : BEq Value := ⟨eqv⟩

/-- Whether a table in search of `x` takes `y` for it: the digests agree and the values are
equal. -/
def finds (x y : Value) : Bool := sameDigest x y && x == y

end Value

end ValueLattice

import ValueLattice.Value.Basic
/-!
# Hashes of values

A hasher takes in words one by one and ends with a number of 64 bits. A value is hashed by the
words it writes: its variant first, then its contents. Types, labels of tuples and annotations
are not written. A sequence writes its length and then its parts in order. A set, a relation or
a map writes one number, the sum of the hashes of its elements or entries, so their order does
not count; the sum wraps around at `2 ^ 64`. These inner hashes are always taken by one hasher
of their own, whatever hasher the value itself is written to.

* `Hasher`, `Hasher.digest`: hashers, and the number that a hasher makes of some words;
* `Value.words`: what a value writes;
* `Value.hash`: a hasher after it has taken in a value.
-/

namespace ValueLattice

/-- The variants of values. -/
inductive Variant
  | bool
  | int
  | double
  | str
  | loc
  | range
  | tuple
  | node
  | constructed
  | set
  | rel
  | list
  | map
  deriving DecidableEq

/-- The variant of a node in a guise. -/
def Guise.variant : Guise → Variant
  | plain => .node
  | constructed => .constructed

/-- What a hasher takes in at one time. -/
inductive Word
  | variant (v : Variant)
  | bool (b : Bool)
  | int (n : Int)
  | bits (b : UInt64)
  | text (s : String)
  | number (n : Nat)
  deriving DecidableEq

/-- A hasher: its states, how it takes in a word, and the number it ends with. -/
structure Hasher where
  State : Type
  start : State
  write : State → Word → State
  finish : State → UInt64

/-- The state of a hasher after the words of a list. -/
def Hasher.run (h : Hasher) (s : h.State) (ws : List Word) : h.State := ws.foldl h.write s

/-- The number that a hasher makes of the words of a list. -/
def Hasher.digest (h : Hasher) (ws : List Word) : UInt64 := h.finish (h.run h.start ws)

/-- The words of a span: its six numbers. -/
def Span.words (s : Span) : List Word :=
  [.number s.offset, .number s.length, .number s.startLine, .number s.startColumn,
    .number s.endLine, .number s.endColumn]

namespace Value

mutual

/-- The words of a value, the inner hashes taken by `d`. -/
def words (d : Hasher) : Value → List Word
  | bool b => [.variant .bool, .bool b]
  | int n => [.variant .int, .int n]
  | double x => [.variant .double, .bits x.canonical]
  | str s => [.variant .str, .text s]
  | loc l => .variant .loc :: .text l.path :: l.span.words
  | range s => .variant .range :: s.words
  | tuple _ _ xs => .variant .tuple :: .number xs.length :: wordsAll d xs
  | node g _ n _ xs _ _ =>
    .variant g.variant :: .text n :: .number xs.length :: wordsAll d xs
  | set _ xs => [.variant .set, .bits (digestSum d xs)]
  | rel _ _ xs => [.variant .rel, .bits (digestSum d xs)]
  | list _ xs => .variant .list :: .number xs.length :: wordsAll d xs
  | map _ _ es => [.variant .map, .bits (entrySum d es)]

/-- The words of the values of a list, one value after the other. -/
def wordsAll (d : Hasher) : List Value → List Word
  | [] => []
  | x :: xs => words d x ++ wordsAll d xs

/-- The sum of the hashes of the values of a list. -/
def digestSum (d : Hasher) : List Value → UInt64
  | [] => 0
  | x :: xs => d.digest (words d x) + digestSum d xs

/-- The sum of the hashes of the entries of a list, the key before the value. -/
def entrySum (d : Hasher) : List (Value × Value) → UInt64
  | [] => 0
  | (k, v) :: es => d.digest (words d k ++ words d v) + entrySum d es

end

/-- The hasher `h` in the state `s` takes in a value, the inner hashes taken by `d`. -/
def hash (d h : Hasher) (s : h.State) (v : Value) : h.State := h.run s (v.words d)

end Value

end ValueLattice

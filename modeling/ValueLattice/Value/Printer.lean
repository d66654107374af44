import ValueLattice.Text.Quoted
import ValueLattice.Value.Basic
/-!
# The text of a value

The text of a value shows its contents, without the types that composite values carry. The parts
of unordered collections are written in the order of their texts, so the text does not depend on
the order in which the parts were put in.

* `Value.text`: the text.
-/

namespace ValueLattice

/-- The text of a span. -/
def Span.text (s : Span) : String :=
  "(" ++ toString s.offset ++ "," ++ toString s.length ++
    ",<" ++ toString s.startLine ++ "," ++ toString s.startColumn ++ ">" ++
    ",<" ++ toString s.endLine ++ "," ++ toString s.endColumn ++ ">)"

/-- The text of a location. -/
def Location.text (l : Location) : String := "|" ++ l.path ++ "|" ++ l.span.text

namespace Value

/-- Texts in a row between two brackets, separated by commas. -/
def bracketed (left : String) (texts : List String) (right : String) : String :=
  left ++ ",".intercalate texts ++ right

/-- Texts in ascending order. -/
def sorted (texts : List String) : List String :=
  texts.mergeSort fun s t => !decide (t < s)

/-- The text of an integer. -/
def intText (n : Int) : String := toString n

/-- The text of a truth value. -/
def boolText (b : Bool) : String := if b then "true" else "false"

mutual

/-- The text of a value. -/
def text : Value → String
  | bool b => boolText b
  | int n => intText n
  | double d => d.text
  | str s => Text.quote s
  | loc l => l.text
  | range s => s.text
  | tuple _ _ xs => bracketed "<" (texts xs) ">"
  | node _ _ n _ xs _ as =>
    n ++ bracketed "(" (texts xs) ")" ++
      (if as.isEmpty then "" else bracketed "[" (annoTexts as) "]")
  | set _ xs => bracketed "\x7b" (sorted (texts xs)) "\x7d"
  | rel _ _ xs => bracketed "\x7b" (sorted (texts xs)) "\x7d"
  | list _ xs => bracketed "[" (texts xs) "]"
  | map _ _ es => bracketed "(" (sorted (entryTexts es)) ")"

/-- The texts of the values of a list. -/
def texts : List Value → List String
  | [] => []
  | x :: xs => text x :: texts xs

/-- The texts of annotations. -/
def annoTexts : List (String × Value) → List String
  | [] => []
  | (l, x) :: as => ("@" ++ l ++ "=" ++ text x) :: annoTexts as

/-- The texts of the entries of a map. -/
def entryTexts : List (Value × Value) → List String
  | [] => []
  | (k, v) :: es => (text k ++ ":" ++ text v) :: entryTexts es

end

end Value

end ValueLattice

/-!
# Source locations

A location is a one-based line and column. Columns count characters, so a tab is one column, and
only a line feed starts a new line.

Main statement: `Location.advance_append` — advancing over two runs of characters one after the
other is advancing over their concatenation.
-/

namespace DeskCalc

/-- The place of one character in a source. -/
structure Location where
  line : Nat
  column : Nat
deriving DecidableEq, Inhabited

namespace Location

/-- Where the first character of a source stands. -/
def start : Location := ⟨1, 1⟩

/-- The location that follows the character `c` at `l`. -/
def after (l : Location) (c : Char) : Location :=
  if c = '\n' then ⟨l.line + 1, 1⟩ else ⟨l.line, l.column + 1⟩

/-- The location reached from `l` by reading `cs`. -/
def advance (l : Location) (cs : List Char) : Location :=
  cs.foldl after l

/-- The next column of the same line. -/
def right (l : Location) : Location := ⟨l.line, l.column + 1⟩

/-- The characters `cs` laid out on one line from `l`, each with its column. -/
def along (l : Location) : List Char → List (Char × Location)
  | [] => []
  | c :: cs => (c, l) :: l.right.along cs

/-- How messages name a location. -/
def text (l : Location) : String :=
  s!"line {l.line}, column {l.column}"

@[simp] theorem advance_nil (l : Location) : l.advance [] = l := rfl

@[simp] theorem advance_cons (l : Location) (c : Char) (cs : List Char) :
    l.advance (c :: cs) = (l.after c).advance cs := rfl

/-- Reading two runs one after the other is reading their concatenation. -/
theorem advance_append (l : Location) (cs ds : List Char) :
    l.advance (cs ++ ds) = (l.advance cs).advance ds := by
  simp [advance, List.foldl_append]

@[simp] theorem length_along (l : Location) (cs : List Char) :
    (l.along cs).length = cs.length := by
  induction cs generalizing l with
  | nil => rfl
  | cons c cs ih => simp [along, ih]

@[simp] theorem map_fst_along (l : Location) (cs : List Char) :
    (l.along cs).map Prod.fst = cs := by
  induction cs generalizing l with
  | nil => rfl
  | cons c cs ih => simp [along, ih]

end Location

end DeskCalc

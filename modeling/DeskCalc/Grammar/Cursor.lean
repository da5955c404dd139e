import DeskCalc.Program
import DeskCalc.Reader

/-!
# Where a parse stands

A cursor is a reader together with the lexemes obtained from it so far. A lexeme that was read too
far is handed back and will be obtained again. A parse is a step from a cursor to a result and the
cursor behind it; also a parse that fails leaves a cursor, from which another parse can start.

Main statements: `Cursor.next_size` — obtaining a lexeme costs at least its length, so that handing
it back never leaves more to read than there was; `NonGrowing.bind` — parses that never add to what
is left to read compose.
-/

namespace DeskCalc

/-- The most characters that a name may have. -/
def maxNameLength : Nat := 64

/-! ## Errors -/

/-- What would have been right where a parse failed. -/
inductive Expectation where
  | declaration
  | unreservedName
  | name
  | shortName
  | statement
  | assignment
  | value
  | continuation
deriving DecidableEq, Inhabited

namespace Expectation

/-- The wording of an expectation. -/
def text : Expectation → String
  | declaration => "Expect declarations"
  | unreservedName => "Reserved letter cannot be used as id"
  | name => "Expect an identifier"
  | shortName => s!"Identifier longer than {maxNameLength} characters"
  | statement => "Expect statements"
  | assignment => "Expect an assignment op"
  | value => "Expect Identifier or a Number"
  | continuation => "Expect a numeric value or an identifier"

end Expectation

/-- Why a source is no program. -/
inductive ParseError where
  | lexical (cause : LexicalError)
  | unexpected (expected : Expectation) (found : Lexeme)
deriving DecidableEq, Inhabited

namespace ParseError

/-- The place that the error names. -/
def location : ParseError → Location
  | lexical cause => cause.location
  | unexpected _ found => found.location

/-- The wording of the error. -/
def message : ParseError → String
  | lexical cause => "Lexical error: " ++ cause.message
  | unexpected expected found =>
    "Syntax error at " ++ found.location.text ++ ": " ++ expected.text ++ ", found " ++
      found.display

end ParseError

/-! ## Cursors -/

/-- A reader and the lexemes obtained from it, the latest first. -/
structure Cursor where
  reader : Reader
  obtained : List Lexeme
deriving DecidableEq, Inhabited

/-- A step from a cursor to a value or an error, and the cursor behind it. -/
abbrev Parse := EStateM ParseError Cursor

/-- The outcome of a parse. -/
abbrev Reply := EStateM.Result ParseError Cursor

namespace Cursor

/-- A cursor that has obtained nothing from `reader` yet. -/
def ofReader (reader : Reader) : Cursor := ⟨reader, []⟩

/-- A cursor at the start of `source`. -/
def ofString (source : String) : Cursor := ofReader (.ofString source)

/-- How many characters are left to read. -/
def size (c : Cursor) : Nat := c.reader.size

/-- The lexemes obtained so far, in order. -/
def lexemes (c : Cursor) : List Lexeme := c.obtained.reverse

/-- Obtain the next lexeme. -/
def next (c : Cursor) : Reply Lexeme :=
  match c.reader.next with
  | .ok l reader => .ok l ⟨reader, l :: c.obtained⟩
  | .error e reader => .error (.lexical e) { c with reader }

/-- Hand a lexeme back, to be obtained again. -/
def unread (c : Cursor) (l : Lexeme) : Cursor :=
  { c with reader := c.reader.unread l.text l.location }

/-- A lexeme costs at least as many characters as it has. -/
theorem next_size {c behind : Cursor} {l : Lexeme} (h : c.next = .ok l behind) :
    behind.size + l.text.length ≤ c.size := by
  unfold next at h
  split at h
  · next l' reader hr =>
    cases h
    exact Reader.next_size hr
  · cases h

/-- Every lexeme but the last shortens what is left to read. -/
theorem size_lt_of_next {c behind : Cursor} {l : Lexeme} (h : c.next = .ok l behind)
    (hl : l.kind ≠ .endOfFile) : behind.size < c.size := by
  unfold next at h
  split at h
  · next l' reader hr =>
    cases h
    exact Reader.size_lt_of_next hr hl
  · cases h

@[simp] theorem size_unread (c : Cursor) (l : Lexeme) :
    (c.unread l).size = l.text.length + c.size := by
  simp [unread, size]

end Cursor

/-! ## Parses that never add to what is left to read -/

/-- After a success no more is left to read than before. -/
def NonGrowing {α : Type} (p : Parse α) : Prop :=
  ∀ ⦃c : Cursor⦄ ⦃a : α⦄ ⦃behind : Cursor⦄, p c = .ok a behind → behind.size ≤ c.size

namespace NonGrowing

variable {α β : Type}

theorem pure (a : α) : NonGrowing (Pure.pure a : Parse α) := by
  intro c b behind h
  cases h
  exact Nat.le_refl _

theorem throw (e : ParseError) : NonGrowing (MonadExcept.throw e : Parse α) := by
  intro c b behind h
  cases h

/-- Parses that never add to what is left to read compose. -/
theorem bind {p : Parse α} {f : α → Parse β} (hp : NonGrowing p) (hf : ∀ a, NonGrowing (f a)) :
    NonGrowing (p >>= f) := by
  intro c b behind h
  change EStateM.bind p f c = _ at h
  unfold EStateM.bind at h
  split at h
  · next a middle hm =>
    exact Nat.le_trans (hf a h) (hp hm)
  · cases h

theorem next : NonGrowing Cursor.next := by
  intro c l behind h
  have := Cursor.next_size h
  omega

end NonGrowing

end DeskCalc

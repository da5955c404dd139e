import DeskCalc.Location
import DeskCalc.Operator

/-!
# Lexemes

A lexeme is a classified run of source characters: a reserved letter, an operator, a name, a
number or the end of the source. A number carries its value, which is fixed once, when the lexeme
is read.

Main statement: `Lexeme.Kind.ofWord_eq_identifier_iff` — a word is a name unless it is one of the
three reserved letters.
-/

namespace DeskCalc

/-- A number as written or computed: an integer, or a single-precision number. -/
inductive Literal where
  | int (value : Int32)
  | float (value : Float32)
deriving DecidableEq, Inhabited

/-- What a lexeme is. -/
inductive Lexeme.Kind where
  | floatKeyword
  | intKeyword
  | printKeyword
  | assign
  | operator (op : Operator)
  | identifier
  | number (value : Literal)
  | endOfFile
deriving DecidableEq, Inhabited

/-- A classified run of source characters and the place of the first one. -/
structure Lexeme where
  kind : Lexeme.Kind
  text : String
  location : Location
deriving DecidableEq, Inhabited

namespace Lexeme

/-- The most characters that a word or a number may have. -/
def maxLength : Nat := 1024

namespace Kind

/-- The kind of a run of lowercase letters: three single letters are reserved. -/
def ofWord (word : List Char) : Kind :=
  match word with
  | ['f'] => .floatKeyword
  | ['i'] => .intKeyword
  | ['p'] => .printKeyword
  | _ => .identifier

/-- The kind of a character that is a lexeme by itself. -/
def ofSymbol? (c : Char) : Option Kind :=
  if c = '=' then some .assign else (Operator.ofSymbol? c).map .operator

/-- The name of the kind in the log. -/
def label : Kind → String
  | floatKeyword => "FloatDeclaration"
  | intKeyword => "IntegerDeclaration"
  | printKeyword => "Print"
  | assign => "Assign"
  | operator .add => "Plus"
  | operator .sub => "Minus"
  | operator .mul => "Star"
  | operator .div => "Slash"
  | identifier => "Identifier"
  | number (.int _) => "IntLiteral"
  | number (.float _) => "FloatLiteral"
  | endOfFile => "Eof"

/-- A word is a name unless it is one of the reserved letters. -/
theorem ofWord_eq_identifier_iff {word : List Char} :
    ofWord word = .identifier ↔ word ≠ ['f'] ∧ word ≠ ['i'] ∧ word ≠ ['p'] := by
  unfold ofWord
  split <;> simp_all

end Kind

/-- The lexeme that ends every source. -/
def endOfFile (location : Location) : Lexeme := ⟨.endOfFile, "", location⟩

/-- Whether the lexeme is the end of the source. -/
def isEnd (l : Lexeme) : Bool := l.kind = .endOfFile

/-- How messages show a lexeme. -/
def display (l : Lexeme) : String :=
  match l.kind with
  | .endOfFile => "end of file"
  | _ => "'" ++ l.text ++ "'"

/-- The value of a run of decimal digits. -/
def digitsValue (digits : List Char) : Nat :=
  digits.foldl (fun n d => 10 * n + (d.toNat - '0'.toNat)) 0

/-- The greatest integer that can be written. -/
def maxInt : Nat := 2147483647

/-- The integer that a run of digits writes, if it has 32 bits. -/
def intValue? (digits : List Char) : Option Int32 :=
  if digitsValue digits ≤ maxInt then some (Int32.ofNat (digitsValue digits)) else none

/-- The single-precision number nearest to the decimal `whole.fraction`. -/
def floatValue (whole fraction : List Char) : Float32 :=
  Float32.ofScientific (digitsValue (whole ++ fraction)) true fraction.length

end Lexeme

/-! ## Lexical errors -/

/-- Why the characters at some place form no lexeme. -/
inductive LexicalError where
  /-- A character that starts no lexeme. -/
  | invalidCharacter (c : Char) (location : Location)
  /-- A point after digits that no digit follows; `found` is what stands there, if anything. -/
  | malformedFloat (found : Option Char) (location : Location)
  /-- A word or number of more than `Lexeme.maxLength` characters, with the place of the first. -/
  | tooLong (location : Location)
  /-- Digits whose value is beyond `Lexeme.maxInt`. -/
  | intOutOfRange (digits : String) (location : Location)
deriving DecidableEq, Inhabited

namespace LexicalError

/-- The place that the error names. -/
def location : LexicalError → Location
  | invalidCharacter _ l | malformedFloat _ l | tooLong l | intOutOfRange _ l => l

/-- How messages show what follows a point: a quoted character, or the end of the source. -/
def foundText : Option Char → String
  | some c => "'" ++ c.toString ++ "'"
  | none => "end of file"

/-- The wording of the error. -/
def message : LexicalError → String
  | invalidCharacter c l => "Invalid character '" ++ c.toString ++ "' at " ++ l.text
  | malformedFloat found l =>
    "Expect a digit after '.', found " ++ foundText found ++ " at " ++ l.text
  | tooLong l => s!"Lexeme longer than {Lexeme.maxLength} characters at " ++ l.text
  | intOutOfRange digits l => "Integer literal " ++ digits ++ " out of range at " ++ l.text

end LexicalError

end DeskCalc

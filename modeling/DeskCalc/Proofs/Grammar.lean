import Mathlib.Computability.Language
import DeskCalc.Grammar.Cursor

/-!
# The grammar

The sentences of the grammar are lists of kinds of lexemes:

- `program := declaration* statement*`
- `declaration := ('f' | 'i') identifier`
- `statement := identifier '=' expression | 'p' identifier`
- `expression := term (('+' | '-') term)*`
- `term := value (('*' | '/') value)*`
- `value := identifier | number`

A derivation reads lexemes as a tree. Both pairs of operators associate to the left, and an
operation stands where its operator does.

Main statement: `represents_program` — exactly the sentences are read as programs.
-/

namespace DeskCalc.Grammar

open Lexeme (Kind)
open Computability

/-! ## Sentences -/

def value : Language Kind := {w | w = [.identifier] ∨ ∃ v, w = [.number v]}

/-- The operators that bind tight, or those that do not. -/
def operator (tight : Bool) : Language Kind :=
  {w | ∃ op : Operator, op.bindsTight = tight ∧ w = [.operator op]}

/-- Operands joined by operators of one pair. -/
def tier (tight : Bool) (operand : Language Kind) : Language Kind :=
  operand * (operator tight * operand)∗

def term : Language Kind := tier true value

def expression : Language Kind := tier false term

def declaration : Language Kind := ({[.floatKeyword]} + {[.intKeyword]}) * {[.identifier]}

def statement : Language Kind :=
  {[.identifier]} * {[.assign]} * expression + {[.printKeyword]} * {[.identifier]}

def program : Language Kind := declaration∗ * statement∗

/-! ## Derivations -/

inductive IsValue : List Lexeme → Expr → Prop where
  | identifier {l : Lexeme} (hl : l.kind = .identifier) :
      IsValue [l] (.identifier l.text none l.location)
  | number {l : Lexeme} {v : Literal} (hl : l.kind = .number v) :
      IsValue [l] (.literal v none l.location)

/-- An operator at its place with the operand to its right. -/
structure Step where
  op : Operator
  location : Location
  right : Expr

/-- The operation on `left` that a step makes. -/
def Step.apply (left : Expr) (s : Step) : Expr := .binary s.op left s.right none s.location

/-- Lexemes that repeat what `one` reads. -/
inductive Repeated {α : Type} (one : List Lexeme → α → Prop) : List Lexeme → List α → Prop where
  | nil : Repeated one [] []
  | cons {ls more : List Lexeme} {x : α} {xs : List α} (hx : one ls x)
      (hxs : Repeated one more xs) : Repeated one (ls ++ more) (x :: xs)

inductive IsStep (tight : Bool) (operand : List Lexeme → Expr → Prop) :
    List Lexeme → Step → Prop where
  | mk {o : Lexeme} {ls : List Lexeme} {op : Operator} {right : Expr}
      (ho : o.kind = .operator op) (htight : op.bindsTight = tight) (hright : operand ls right) :
      IsStep tight operand (o :: ls) ⟨op, o.location, right⟩

/-- Operands joined by operators of one pair, which associate to the left. -/
inductive IsTier (tight : Bool) (operand : List Lexeme → Expr → Prop) :
    List Lexeme → Expr → Prop where
  | mk {ls more : List Lexeme} {first : Expr} {steps : List Step} (hfirst : operand ls first)
      (hsteps : Repeated (IsStep tight operand) more steps) :
      IsTier tight operand (ls ++ more) (steps.foldl Step.apply first)

def IsTerm : List Lexeme → Expr → Prop := IsTier true IsValue

def IsExpression : List Lexeme → Expr → Prop := IsTier false IsTerm

inductive IsDeclaration : List Lexeme → Declaration → Prop where
  | float {keyword name : Lexeme} (hkeyword : keyword.kind = .floatKeyword)
      (hname : name.kind = .identifier) :
      IsDeclaration [keyword, name] ⟨.float, name.text, keyword.location⟩
  | int {keyword name : Lexeme} (hkeyword : keyword.kind = .intKeyword)
      (hname : name.kind = .identifier) :
      IsDeclaration [keyword, name] ⟨.int, name.text, keyword.location⟩

inductive IsStatement : List Lexeme → Statement → Prop where
  | assign {target sign : Lexeme} {ls : List Lexeme} {e : Expr}
      (htarget : target.kind = .identifier) (hsign : sign.kind = .assign)
      (he : IsExpression ls e) :
      IsStatement (target :: sign :: ls) (.assign target.text e none target.location)
  | print {keyword name : Lexeme} (hkeyword : keyword.kind = .printKeyword)
      (hname : name.kind = .identifier) :
      IsStatement [keyword, name] (.print name.text keyword.location)

inductive IsProgram : List Lexeme → Program → Prop where
  | mk {ls more : List Lexeme} {ds : List Declaration} {ss : List Statement}
      (hds : Repeated IsDeclaration ls ds) (hss : Repeated IsStatement more ss) :
      IsProgram (ls ++ more) ⟨ds, ss⟩

/-! ## Exactly the sentences are read -/

/-- The derivations read exactly the lexemes whose kinds are in the language. -/
def Represents {α : Type} (language : Language Kind) (reads : List Lexeme → α → Prop) : Prop :=
  ∀ ls : List Lexeme, ls.map Lexeme.kind ∈ language ↔ ∃ x, reads ls x

/-- The kinds of lexemes are a word of two parts exactly if the lexemes fall into two such parts. -/
theorem map_kind_mem_mul {first second : Language Kind} {ls : List Lexeme} :
    ls.map Lexeme.kind ∈ first * second ↔
      ∃ as bs, ls = as ++ bs ∧ as.map Lexeme.kind ∈ first ∧ bs.map Lexeme.kind ∈ second := by
  rw [Language.mem_mul]
  constructor
  · intro h
    obtain ⟨a, ha, b, hb, hab⟩ := h
    -- kinds that fall into two parts are those of lexemes that do
    obtain ⟨as, bs, rfl, rfl, rfl⟩ := List.map_eq_append_iff.1 hab.symm
    exact ⟨as, bs, rfl, ha, hb⟩
  · intro h
    obtain ⟨as, bs, rfl, ha, hb⟩ := h
    exact ⟨_, ha, _, hb, List.map_append.symm⟩

theorem map_kind_mem_singleton {k : Kind} {ls : List Lexeme} :
    ls.map Lexeme.kind ∈ ({[k]} : Language Kind) ↔ ∃ l, ls = [l] ∧ l.kind = k := by
  change ls.map Lexeme.kind = [k] ↔ _
  rw [List.map_eq_singleton_iff]

/-- A repetition of what a language represents represents its star. -/
private theorem Represents.repeated {α : Type} {language : Language Kind}
    {one : List Lexeme → α → Prop} (h : Represents language one) :
    Represents language∗ (Repeated one) := by
  intro ls
  rw [Language.mem_kstar]
  constructor
  · intro h
    obtain ⟨words, hwords, hall⟩ := h
    -- word by word, each with the lexemes that it is the kinds of
    induction words generalizing ls with
    | nil =>
      rw [List.flatten_nil, List.map_eq_nil_iff] at hwords
      subst hwords
      exact ⟨[], .nil⟩
    | cons word words ih =>
      rw [List.flatten_cons] at hwords
      obtain ⟨as, bs, rfl, rfl, hbs⟩ := List.map_eq_append_iff.1 hwords
      obtain ⟨x, hx⟩ := (h as).1 (hall _ List.mem_cons_self)
      obtain ⟨xs, hxs⟩ := ih bs hbs fun w hw => hall w (List.mem_cons_of_mem _ hw)
      exact ⟨x :: xs, .cons hx hxs⟩
  · intro h
    obtain ⟨xs, hxs⟩ := h
    induction hxs with
    | nil => exact ⟨[], rfl, by simp⟩
    | @cons as more x xs hx _ ih =>
      -- the other way round each part gives the word of its kinds
      obtain ⟨words, hwords, hall⟩ := ih
      refine ⟨as.map Lexeme.kind :: words, by simp [hwords], ?_⟩
      intro word hword
      rcases List.mem_cons.1 hword with rfl | hword
      · exact (h as).2 ⟨x, hx⟩
      · exact hall word hword

private theorem represents_value : Represents value IsValue := by
  intro ls
  constructor
  · intro h
    rcases h with h | ⟨v, h⟩
    · obtain ⟨l, rfl, hl⟩ := List.map_eq_singleton_iff.1 h
      exact ⟨_, .identifier hl⟩
    · obtain ⟨l, rfl, hl⟩ := List.map_eq_singleton_iff.1 h
      exact ⟨_, .number hl⟩
  · intro h
    obtain ⟨e, he⟩ := h
    cases he with
    -- a value is one lexeme, and its kind is one letter
    | identifier hl => exact .inl (by simp [hl])
    | @number l v hl => exact .inr ⟨v, by simp [hl]⟩

/-- Tiers of what a language represents are represented by the tier of the language. -/
private theorem Represents.tier {language : Language Kind} {operand : List Lexeme → Expr → Prop}
    (h : Represents language operand) (tight : Bool) :
    Represents (tier tight language) (IsTier tight operand) := by
  -- a step is an operator with an operand, so steps in a row are a star
  have hstep : Represents (operator tight * language) (IsStep tight operand) := by
    intro ls
    rw [map_kind_mem_mul]
    constructor
    · intro h'
      obtain ⟨os, bs, rfl, ⟨op, htight, hop⟩, hbs⟩ := h'
      obtain ⟨o, rfl, ho⟩ := List.map_eq_singleton_iff.1 hop
      obtain ⟨right, hright⟩ := (h bs).1 hbs
      exact ⟨_, .mk ho htight hright⟩
    · intro h'
      obtain ⟨s, hs⟩ := h'
      cases hs with
      | @mk o bs op right ho htight hright =>
        exact ⟨[o], bs, rfl, ⟨op, htight, by simp [ho]⟩, (h bs).2 ⟨right, hright⟩⟩
  intro ls
  rw [Grammar.tier, map_kind_mem_mul]
  constructor
  · intro h'
    obtain ⟨as, bs, rfl, has, hbs⟩ := h'
    obtain ⟨first, hfirst⟩ := (h as).1 has
    obtain ⟨steps, hsteps⟩ := (hstep.repeated bs).1 hbs
    exact ⟨_, .mk hfirst hsteps⟩
  · intro h'
    obtain ⟨e, he⟩ := h'
    cases he with
    | mk hfirst hsteps =>
      exact ⟨_, _, rfl, (h _).2 ⟨_, hfirst⟩, (hstep.repeated _).2 ⟨_, hsteps⟩⟩

private theorem represents_expression : Represents expression IsExpression :=
  (represents_value.tier true).tier false

private theorem represents_declaration : Represents declaration IsDeclaration := by
  intro ls
  rw [declaration, map_kind_mem_mul]
  simp only [Language.mem_add, map_kind_mem_singleton]
  constructor
  · intro h
    obtain ⟨as, bs, rfl, hkeyword, name, rfl, hname⟩ := h
    -- the two keywords are told apart by their kinds
    rcases hkeyword with ⟨keyword, rfl, hkeyword⟩ | ⟨keyword, rfl, hkeyword⟩
    · exact ⟨_, .float hkeyword hname⟩
    · exact ⟨_, .int hkeyword hname⟩
  · intro h
    obtain ⟨d, hd⟩ := h
    cases hd with
    | float hkeyword hname => exact ⟨[_], [_], rfl, .inl ⟨_, rfl, hkeyword⟩, _, rfl, hname⟩
    | int hkeyword hname => exact ⟨[_], [_], rfl, .inr ⟨_, rfl, hkeyword⟩, _, rfl, hname⟩

private theorem represents_statement : Represents statement IsStatement := by
  intro ls
  rw [statement, Language.mem_add, map_kind_mem_mul, map_kind_mem_mul]
  simp only [map_kind_mem_mul, map_kind_mem_singleton]
  constructor
  · intro h
    rcases h with ⟨_, es, rfl, ⟨_, _, rfl, ⟨target, rfl, htarget⟩, sign, rfl, hsign⟩, hes⟩ |
      ⟨_, _, rfl, ⟨keyword, rfl, hkeyword⟩, name, rfl, hname⟩
    -- an assignment, and then a print statement
    · obtain ⟨e, he⟩ := (represents_expression es).1 hes
      exact ⟨_, .assign htarget hsign he⟩
    · exact ⟨_, .print hkeyword hname⟩
  · intro h
    obtain ⟨s, hs⟩ := h
    cases hs with
    | @assign target sign es e htarget hsign he =>
      exact .inl ⟨[target, sign], es, rfl,
        ⟨[target], [sign], rfl, ⟨target, rfl, htarget⟩, sign, rfl, hsign⟩,
        (represents_expression es).2 ⟨e, he⟩⟩
    | print hkeyword hname =>
      exact .inr ⟨[_], [_], rfl, ⟨_, rfl, hkeyword⟩, _, rfl, hname⟩

/-- Exactly the lexemes whose kinds form a sentence are read as programs. -/
theorem represents_program : Represents program IsProgram := by
  intro ls
  rw [program, map_kind_mem_mul]
  constructor
  · intro h
    obtain ⟨as, bs, rfl, has, hbs⟩ := h
    -- the parts are independent of each other, so each is read by itself
    obtain ⟨ds, hds⟩ := (represents_declaration.repeated as).1 has
    obtain ⟨ss, hss⟩ := (represents_statement.repeated bs).1 hbs
    exact ⟨_, .mk hds hss⟩
  · intro h
    obtain ⟨p, hp⟩ := h
    cases hp with
    | mk hds hss =>
      exact ⟨_, _, rfl, (represents_declaration.repeated _).2 ⟨_, hds⟩,
        (represents_statement.repeated _).2 ⟨_, hss⟩⟩

end DeskCalc.Grammar

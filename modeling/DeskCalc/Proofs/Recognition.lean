import DeskCalc.Proofs.Derivation
import DeskCalc.Proofs.Rounds

/-!
# The parser recognises the grammar

Lexemes that derive a program are read as this program. Each loop of the parser goes on as long as
the derivation does: what follows a part is a lexeme that closes it, which the loop hands back.

Main statement: `program_recognised`.
-/

namespace DeskCalc

open Lexeme (Kind)
open Reply (andThen_of_ok)

namespace Parse

open Grammar

variable {α : Type}

/-! ## What is derived is read -/

/-- The next lexeme is of a kind that satisfies `P`. -/
def Ahead (P : Kind → Prop) (r : Reader) : Prop :=
  ∃ l behind, r.next = .ok l behind ∧ P l.kind

/-- The kinds of lexemes that close an expression: the end, and those that start a statement. -/
def ClosesExpression (k : Kind) : Prop :=
  k = .identifier ∨ k = .printKeyword ∨ k = .endOfFile

/-- The kinds of lexemes that close a term. -/
def ClosesTerm (k : Kind) : Prop :=
  ClosesExpression k ∨ ∃ op : Operator, k = .operator op ∧ op.bindsTight = false

/-- In front of a repetition stands the first lexeme of a part or what follows the repetition. -/
private theorem ahead_of_repeated {one : List Lexeme → α → Prop} {P : Kind → Prop}
    (hone : ∀ ls x, one ls x → ∃ l more, ls = l :: more ∧ P l.kind) {ls : List Lexeme} {xs : List α}
    (h : Repeated one ls xs) {r r' : Reader} (hls : r.Reads ls r') (hr' : Ahead P r') :
    Ahead P r := by
  cases h with
  -- without a part nothing is read, so what follows lies ahead at once
  | nil =>
    obtain ⟨l, behind, hl, hP⟩ := hr'
    exact ⟨l, behind, hls.trans hl, hP⟩
  | cons hx hxs =>
    obtain ⟨l, more, rfl, hP⟩ := hone _ _ hx
    obtain ⟨behind, hl, _, _⟩ := hls
    exact ⟨l, behind, hl, hP⟩

theorem exists_next_of_reader {c : Cursor} {l : Lexeme} {behind : Reader}
    (h : c.reader.next = .ok l behind) : ∃ c', c.next = .ok l c' ∧ c'.reader = behind :=
  ⟨⟨behind, l :: c.obtained⟩, Cursor.next_eq_ok_iff.2 ⟨h, rfl⟩, rfl⟩

private theorem exists_next_of_reads {c : Cursor} {l : Lexeme} {ls : List Lexeme} {r : Reader}
    (h : c.reader.Reads (l :: ls) r) : ∃ c', c.next = .ok l c' ∧ c'.reader.Reads ls r := by
  obtain ⟨behind, hl, _, hls⟩ := h
  obtain ⟨c', hc', rfl⟩ := exists_next_of_reader hl
  exact ⟨c', hc', hls⟩

private theorem value_accepts {ls : List Lexeme} {e : Expr} (h : IsValue ls e) {c : Cursor}
    {r : Reader} (hls : c.reader.Reads ls r) (hfit : NamesFit ls) :
    ∃ c', value c = .ok e c' ∧ c'.reader.Reads [] r := by
  cases h with
  | @identifier l hk =>
    obtain ⟨c', hl, hrest⟩ := exists_next_of_reads hls
    refine ⟨c', bind_eq_ok_iff.2 ⟨l, c', hl, ?_⟩, hrest⟩
    simp only [hk]
    -- a name that fits is not refused for its length
    exact bind_eq_ok_iff.2
      ⟨l.text, c', boundedName_eq_ok_iff.2 ⟨hfit l (by simp) hk, rfl, rfl⟩, rfl⟩
  | @number l v hk =>
    obtain ⟨c', hl, hrest⟩ := exists_next_of_reads hls
    refine ⟨c', bind_eq_ok_iff.2 ⟨l, c', hl, ?_⟩, hrest⟩
    simp only [hk]
    rfl

/-- An expression is closed by the lexemes that close it, which lie ahead again. -/
private theorem close_accepts {c middle : Cursor} {l : Lexeme} (hl : c.next = .ok l middle)
    (hk : ClosesExpression l.kind) (e : Expr) :
    ∃ c', close l e middle = .ok e c' ∧ c'.reader.Reads [] c.reader := by
  unfold close
  rcases hk with hk | hk | hk
  · simp only [hk]
    exact ⟨_, rfl, Cursor.reader_next_unread hl⟩
  · simp only [hk]
    exact ⟨_, rfl, Cursor.reader_next_unread hl⟩
  · simp only [hk]
    -- the end is not handed back, but it is read again behind itself
    have hr := (Cursor.next_eq_ok_iff.1 hl).1
    exact ⟨_, rfl, (Reader.next_of_endOfFile hr hk).trans hr.symm⟩

/-! ### The equations of the loops

One for each way in which a round can go. -/

section

variable {left : Expr} {c middle : Cursor} {l : Lexeme}

private theorem termTail_of_tight {op : Operator} (hl : c.next = .ok l middle)
    (hk : l.kind = .operator op) (hop : op.bindsTight = true) {right : Expr} {after : Cursor}
    (hv : value middle = .ok right after) :
    termTail left c = termTail (.binary op left right none l.location) after := by
  rw [termTail_eq, andThen_of_ok hl]
  simp only [hk, if_pos hop, andThen_of_ok hv]

private theorem termTail_of_loose {op : Operator} (hl : c.next = .ok l middle)
    (hk : l.kind = .operator op) (hop : op.bindsTight = false) :
    termTail left c = .ok left (middle.unread l) := by
  rw [termTail_eq, andThen_of_ok hl]
  simp only [hk, hop, Bool.false_eq_true, if_false]

private theorem termTail_of_closing (hl : c.next = .ok l middle) (hk : ClosesExpression l.kind) :
    termTail left c = close l left middle := by
  rw [termTail_eq, andThen_of_ok hl]
  rcases hk with hk | hk | hk <;> simp only [hk]

private theorem expression_of_tight {op : Operator} (hl : c.next = .ok l middle)
    (hk : l.kind = .operator op) (hop : op.bindsTight = true) {first : Expr} {after : Cursor}
    (hv : value middle = .ok first after) :
    expression left c = expression (.binary op left first none l.location) after := by
  rw [expression_eq, andThen_of_ok hl]
  simp only [hk, andThen_of_ok hv, if_pos hop]

private theorem expression_of_loose {op : Operator} (hl : c.next = .ok l middle)
    (hk : l.kind = .operator op) (hop : op.bindsTight = false) {first right : Expr}
    {after beyond : Cursor} (hv : value middle = .ok first after)
    (ht : termTail first after = .ok right beyond) :
    expression left c = expression (.binary op left right none l.location) beyond := by
  rw [expression_eq, andThen_of_ok hl]
  simp only [hk, andThen_of_ok hv, hop, Bool.false_eq_true, if_false, andThen_of_ok ht]

private theorem expression_of_closing (hl : c.next = .ok l middle) (hk : ClosesExpression l.kind) :
    expression left c = close l left middle := by
  rw [expression_eq, andThen_of_ok hl]
  rcases hk with hk | hk | hk <;> simp only [hk]

private theorem declarations_of_keyword {ty : Ty} (hl : c.next = .ok l middle)
    (hk : declaredTy? l.kind = some ty) {d : Declaration} {ds : List Declaration}
    {after beyond : Cursor} (hd : declaration ty l middle = .ok d after)
    (hds : declarations after = .ok ds beyond) : declarations c = .ok (d :: ds) beyond := by
  rw [declarations_eq, andThen_of_ok hl]
  simp only [hk, andThen_of_ok hd, andThen_of_ok hds]

/-- Declarations are closed like expressions. -/
theorem declarations_of_closing (hl : c.next = .ok l middle) (hk : ClosesExpression l.kind) :
    ∃ c', declarations c = .ok [] c' ∧ c'.reader.Reads [] c.reader := by
  obtain ⟨c', hclose, hc'⟩ := close_accepts hl hk default
  refine ⟨c', ?_, hc'⟩
  rw [declarations_eq, andThen_of_ok hl]
  -- the loop over declarations hands the lexeme back in the same three cases
  unfold close at hclose
  rcases hk with hk | hk | hk <;>
  · simp only [hk, EStateM.Result.ok.injEq, true_and] at hclose
    simp only [hk, declaredTy?, hclose]

theorem statements_of_end (hl : c.next = .ok l middle) (hk : l.kind = .endOfFile) :
    statements c = .ok [] middle := by
  rw [statements_eq, andThen_of_ok hl, if_pos hk]

private theorem statements_of_statement (hl : c.next = .ok l middle) (hk : l.kind ≠ .endOfFile)
    {s : Statement} {ss : List Statement} {after beyond : Cursor}
    (hs : statement l middle = .ok s after) (hss : statements after = .ok ss beyond) :
    statements c = .ok (s :: ss) beyond := by
  rw [statements_eq, andThen_of_ok hl, if_neg hk, andThen_of_ok hs, andThen_of_ok hss]

end

/-! ### The loops take what is derived -/

/-- The loop over a term takes the steps of the term and stops before what closes it. -/
private theorem termTail_accepts {ls : List Lexeme} {steps : List Step}
    (h : Repeated (IsStep true IsValue) ls steps) {left : Expr} {c : Cursor} {r : Reader}
    (hls : c.reader.Reads ls r) (hfit : NamesFit ls) (hr : Ahead ClosesTerm r) :
    ∃ c', termTail left c = .ok (steps.foldl Step.apply left) c' ∧ c'.reader.Reads [] r := by
  induction h generalizing left c with
  | nil =>
    obtain ⟨l, behind, hnext, hk⟩ := hr
    obtain ⟨middle, hl, -⟩ := exists_next_of_reader (hls.trans hnext)
    -- the term ends with the expression or before a loose operator
    rcases hk with hk | ⟨op, hk, hop⟩
    · obtain ⟨c', hc', hback⟩ := close_accepts hl hk left
      exact ⟨c', (termTail_of_closing hl hk).trans hc', hback.trans hls⟩
    · exact ⟨_, termTail_of_loose hl hk hop, (Cursor.reader_next_unread hl).trans hls⟩
  | @cons vs more s steps hs _ ih =>
    cases hs with
    | @mk o vs op right ho htight hright =>
      obtain ⟨hfitv, hfit⟩ := namesFit_append.1 hfit
      obtain ⟨middle, hl, hrest⟩ := exists_next_of_reads hls
      obtain ⟨between, hvs, hmore⟩ := Reader.Reads.exists_of_append hrest
      obtain ⟨after, hv, hafter⟩ := value_accepts hright hvs (namesFit_cons.1 hfitv).2
      obtain ⟨c', hc', hback⟩ := ih (hafter.append hmore) hfit
      exact ⟨c', (termTail_of_tight hl ho htight hv).trans hc', hback⟩

/-- In front of the steps of an expression, and of what closes it, a term is closed. -/
private theorem closesTerm_ahead {ls : List Lexeme} {steps : List Step}
    (h : Repeated (IsStep false IsTerm) ls steps) {r r' : Reader} (hls : r.Reads ls r')
    (hr' : Ahead ClosesExpression r') : Ahead ClosesTerm r := by
  refine ahead_of_repeated ?_ h hls ?_
  · intro ls s hs
    cases hs with
    | mk ho hloose _ => exact ⟨_, _, rfl, .inr ⟨_, ho, hloose⟩⟩
  · obtain ⟨l, behind, hl, hk⟩ := hr'
    exact ⟨l, behind, hl, .inl hk⟩

/-- The loop over an expression takes the steps of the expression, once those of its first term are
taken, and stops before what closes it. -/
private theorem expression_accepts_steps {ls : List Lexeme} {steps : List Step}
    (h : Repeated (IsStep false IsTerm) ls steps) {left : Expr} {c : Cursor} {r : Reader}
    (hls : c.reader.Reads ls r) (hfit : NamesFit ls) (hr : Ahead ClosesExpression r) :
    ∃ c', expression left c = .ok (steps.foldl Step.apply left) c' ∧ c'.reader.Reads [] r := by
  induction h generalizing left c with
  | nil =>
    obtain ⟨l, behind, hnext, hk⟩ := hr
    obtain ⟨middle, hl, -⟩ := exists_next_of_reader (hls.trans hnext)
    obtain ⟨c', hc', hback⟩ := close_accepts hl hk left
    exact ⟨c', (expression_of_closing hl hk).trans hc', hback.trans hls⟩
  | @cons us more s steps hs hsteps ih =>
    cases hs with
    | @mk o us op right ho hloose hright =>
      cases hright with
      | @mk vs ts first tight hfirst htight =>
        obtain ⟨hfitu, hfit⟩ := namesFit_append.1 hfit
        obtain ⟨hfitv, hfitt⟩ := namesFit_append.1 (namesFit_cons.1 hfitu).2
        obtain ⟨middle, hl, hrest⟩ := exists_next_of_reads hls
        obtain ⟨behind, hus, hmore⟩ := Reader.Reads.exists_of_append hrest
        obtain ⟨between, hvs, hts⟩ := Reader.Reads.exists_of_append hus
        obtain ⟨after, hv, hafter⟩ := value_accepts hfirst hvs hfitv
        -- the term stops before the next loose operator or the end of the expression
        obtain ⟨beyond, ht, hbeyond⟩ := termTail_accepts htight (hafter.append hts) hfitt
          (closesTerm_ahead hsteps hmore hr)
        obtain ⟨c', hc', hback⟩ := ih (hbeyond.append hmore) hfit
        exact ⟨c', (expression_of_loose hl ho hloose hv ht).trans hc', hback⟩

/-- The loop over an expression takes the steps of its first term and then those of the
expression. -/
private theorem expression_accepts {us ls : List Lexeme} {tight loose : List Step}
    (htight : Repeated (IsStep true IsValue) us tight)
    (hloose : Repeated (IsStep false IsTerm) ls loose) {left : Expr} {c : Cursor} {r : Reader}
    (hls : c.reader.Reads (us ++ ls) r) (hfit : NamesFit (us ++ ls))
    (hr : Ahead ClosesExpression r) :
    ∃ c', expression left c = .ok (loose.foldl Step.apply (tight.foldl Step.apply left)) c' ∧
      c'.reader.Reads [] r := by
  induction htight generalizing left c with
  | nil => exact expression_accepts_steps hloose hls hfit hr
  | @cons vs more s steps hs _ ih =>
    cases hs with
    | @mk o vs op right ho htight hright =>
      -- the first step is split off in front of both lists
      rw [List.append_assoc] at hls hfit
      obtain ⟨hfitv, hfit⟩ := namesFit_append.1 hfit
      obtain ⟨middle, hl, hrest⟩ := exists_next_of_reads hls
      obtain ⟨between, hvs, hmore⟩ := Reader.Reads.exists_of_append hrest
      obtain ⟨after, hv, hafter⟩ := value_accepts hright hvs (namesFit_cons.1 hfitv).2
      obtain ⟨c', hc', hback⟩ := ih (hafter.append hmore) hfit
      exact ⟨c', (expression_of_tight hl ho htight hv).trans hc', hback⟩

private theorem statement_accepts {ls : List Lexeme} {s : Statement} (h : IsStatement ls s)
    {c : Cursor} {r : Reader} (hls : c.reader.Reads ls r) (hfit : NamesFit ls)
    (hr : Ahead ClosesExpression r) :
    ∃ l middle c', c.next = .ok l middle ∧ l.kind ≠ .endOfFile ∧ statement l middle = .ok s c' ∧
      c'.reader.Reads [] r := by
  cases h with
  | @assign target sign es e htarget hsign he =>
    cases he with
    | @mk us more left loose hterm hloose =>
      cases hterm with
      | @mk vs ts first tight hfirst htight =>
        obtain ⟨middle, hl, hrest⟩ := exists_next_of_reads hls
        obtain ⟨behind, hl', hrest⟩ := exists_next_of_reads hrest
        rw [List.append_assoc] at hrest
        obtain ⟨hfit, hfite⟩ := namesFit_cons.1 hfit
        obtain ⟨-, hfite⟩ := namesFit_cons.1 hfite
        rw [List.append_assoc] at hfite
        obtain ⟨hfitv, hfite⟩ := namesFit_append.1 hfite
        obtain ⟨between, hvs, hmore⟩ := Reader.Reads.exists_of_append hrest
        obtain ⟨after, hv, hafter⟩ := value_accepts hfirst hvs hfitv
        -- the first value is read by the statement, and the loop takes the rest
        obtain ⟨c', hc', hback⟩ := expression_accepts htight hloose (hafter.append hmore) hfite hr
        refine ⟨target, middle, c', hl, by simp [htarget], ?_, hback⟩
        simp only [statement, htarget, assignment]
        refine bind_eq_ok_iff.2
          ⟨target.text, middle, boundedName_eq_ok_iff.2 ⟨hfit htarget, rfl, rfl⟩, ?_⟩
        refine bind_eq_ok_iff.2 ⟨sign, behind, hl', ?_⟩
        rw [if_pos hsign]
        exact bind_eq_ok_iff.2 ⟨first, after, hv, bind_eq_ok_iff.2 ⟨_, c', hc', rfl⟩⟩
  | @print keyword name hkeyword hname =>
    obtain ⟨middle, hl, hrest⟩ := exists_next_of_reads hls
    obtain ⟨behind, hl', hrest⟩ := exists_next_of_reads hrest
    obtain ⟨-, hfit⟩ := namesFit_cons.1 hfit
    obtain ⟨hfit, -⟩ := namesFit_cons.1 hfit
    refine ⟨keyword, middle, behind, hl, by simp [hkeyword], ?_, hrest⟩
    simp only [statement, hkeyword, printing]
    refine bind_eq_ok_iff.2 ⟨name, behind, hl', ?_⟩
    rw [if_pos hname]
    exact bind_eq_ok_iff.2
      ⟨name.text, behind, boundedName_eq_ok_iff.2 ⟨hfit hname, rfl, rfl⟩, rfl⟩

/-- In front of statements, and of what closes an expression, an expression is closed. -/
private theorem closesExpression_ahead {ls : List Lexeme} {ss : List Statement}
    (h : Repeated IsStatement ls ss) {r r' : Reader} (hls : r.Reads ls r')
    (hr' : Ahead ClosesExpression r') : Ahead ClosesExpression r := by
  refine ahead_of_repeated ?_ h hls hr'
  intro ls s hs
  cases hs with
  | assign htarget => exact ⟨_, _, rfl, .inl htarget⟩
  | print hkeyword => exact ⟨_, _, rfl, .inr (.inl hkeyword)⟩

theorem statements_accept {ls : List Lexeme} {ss : List Statement}
    (h : Repeated IsStatement ls ss) {c : Cursor} {r final : Reader} {l : Lexeme}
    (hls : c.reader.Reads ls r) (hfit : NamesFit ls) (hl : r.next = .ok l final)
    (hk : l.kind = .endOfFile) : ∃ c', statements c = .ok ss c' := by
  induction h generalizing c with
  | nil =>
    obtain ⟨middle, hnext, -⟩ := exists_next_of_reader (hls.trans hl)
    exact ⟨middle, statements_of_end hnext hk⟩
  | @cons ls more s ss hs hss ih =>
    obtain ⟨hfits, hfit⟩ := namesFit_append.1 hfit
    obtain ⟨between, hls, hmore⟩ := Reader.Reads.exists_of_append hls
    -- the next statement or the end closes the expression of this one
    have hahead := closesExpression_ahead hss hmore ⟨l, final, hl, .inr (.inr hk)⟩
    obtain ⟨first, middle, after, hfirst, hend, hstatement, hafter⟩ :=
      statement_accepts hs hls hfits hahead
    obtain ⟨c', hc'⟩ := ih (hafter.append hmore) hfit
    exact ⟨c', statements_of_statement hfirst hend hstatement hc'⟩

private theorem declaration_accepts {ls : List Lexeme} {d : Declaration} (h : IsDeclaration ls d)
    {c : Cursor} {r : Reader} (hls : c.reader.Reads ls r) (hfit : NamesFit ls) :
    ∃ l middle ty c', c.next = .ok l middle ∧ declaredTy? l.kind = some ty ∧
      declaration ty l middle = .ok d c' ∧ c'.reader.Reads [] r := by
  -- both keywords are followed by the same reading of a name
  have hname {keyword name : Lexeme} (ty : Ty) (hls : c.reader.Reads [keyword, name] r)
      (hfit : NamesFit [keyword, name]) (hk : name.kind = .identifier) :
      ∃ middle c', c.next = .ok keyword middle ∧
        declaration ty keyword middle = .ok ⟨ty, name.text, keyword.location⟩ c' ∧
        c'.reader.Reads [] r := by
    obtain ⟨middle, hl, hrest⟩ := exists_next_of_reads hls
    obtain ⟨behind, hl', hrest⟩ := exists_next_of_reads hrest
    refine ⟨middle, behind, hl, bind_eq_ok_iff.2 ⟨name, behind, hl', ?_⟩, hrest⟩
    simp only [hk]
    exact bind_eq_ok_iff.2
      ⟨name.text, behind, boundedName_eq_ok_iff.2 ⟨hfit name (by simp) hk, rfl, rfl⟩, rfl⟩
  cases h with
  | float hkeyword hk =>
    obtain ⟨middle, c', hl, hd, hback⟩ := hname .float hls hfit hk
    exact ⟨_, middle, .float, c', hl, by simp [declaredTy?, hkeyword], hd, hback⟩
  | int hkeyword hk =>
    obtain ⟨middle, c', hl, hd, hback⟩ := hname .int hls hfit hk
    exact ⟨_, middle, .int, c', hl, by simp [declaredTy?, hkeyword], hd, hback⟩

private theorem declarations_accept {ls : List Lexeme} {ds : List Declaration}
    (h : Repeated IsDeclaration ls ds) {c : Cursor} {r : Reader} (hls : c.reader.Reads ls r)
    (hfit : NamesFit ls) (hr : Ahead ClosesExpression r) :
    ∃ c', declarations c = .ok ds c' ∧ c'.reader.Reads [] r := by
  induction h generalizing c with
  | nil =>
    -- a lexeme that starts a statement, or the end, closes the declarations
    obtain ⟨l, behind, hnext, hk⟩ := hr
    obtain ⟨middle, hl, -⟩ := exists_next_of_reader (hls.trans hnext)
    obtain ⟨c', hc', hback⟩ := declarations_of_closing hl hk
    exact ⟨c', hc', hback.trans hls⟩
  | @cons ls more d ds hd _ ih =>
    obtain ⟨hfitd, hfit⟩ := namesFit_append.1 hfit
    obtain ⟨between, hls, hmore⟩ := Reader.Reads.exists_of_append hls
    obtain ⟨l, middle, ty, after, hl, hty, hdecl, hafter⟩ := declaration_accepts hd hls hfitd
    obtain ⟨c', hc', hback⟩ := ih (hafter.append hmore) hfit
    exact ⟨c', declarations_of_keyword hl hty hdecl hc', hback⟩

/-- A program that lexemes derive is read from a source of these lexemes. -/
theorem program_accepts {source : String} {ls : List Lexeme} {l : Lexeme} {final : Reader}
    (htokens : (Reader.ofString source).tokenize = .ok (ls ++ [l]) final) (hfit : NamesFit ls)
    {p : Program} (hp : IsProgram ls p) : ∃ c, program (.ofString source) = .ok p c := by
  obtain ⟨ls', l', middle, hall, hls, hl, hk⟩ := Reader.tokenize_eq_ok_iff.1 htokens
  obtain ⟨rfl, heq⟩ := List.append_inj' hall rfl
  obtain rfl : l = l' := by simpa using heq
  cases hp with
  | @mk ls more ds ss hds hss =>
    obtain ⟨hfitd, hfits⟩ := namesFit_append.1 hfit
    obtain ⟨between, hls, hmore⟩ := Reader.Reads.exists_of_append hls
    -- behind the declarations lies a statement or the end
    have hahead := closesExpression_ahead hss hmore ⟨l, final, hl, .inr (.inr hk)⟩
    obtain ⟨after, hdecls, hafter⟩ :=
      declarations_accept hds (c := .ofString source) hls hfitd hahead
    obtain ⟨c, hstatements⟩ := statements_accept hss (hafter.append hmore) hfits hl hk
    exact ⟨c, bind_eq_ok_iff.2 ⟨ds, after, hdecls, bind_eq_ok_iff.2 ⟨ss, c, hstatements, rfl⟩⟩⟩

end Parse

/-- A source is a program exactly if it can be read to its end, the kinds of its lexemes form a
sentence and no name is too long. The program is then the only one that the lexemes derive. -/
theorem program_recognised (source : String) :
    ((∃ p c, Parse.program (.ofString source) = .ok p c) ↔
      ∃ ls final, (Reader.ofString source).tokenize = .ok ls final ∧
        ls.map Lexeme.kind ∈ Grammar.program * {[.endOfFile]} ∧ NamesFit ls) ∧
    ∀ p, (∃ c, Parse.program (.ofString source) = .ok p c) ↔
      ∃ ls l final, (Reader.ofString source).tokenize = .ok (ls ++ [l]) final ∧
        l.kind = .endOfFile ∧ NamesFit ls ∧ ∀ p', Grammar.IsProgram ls p' ↔ p' = p := by
  refine ⟨⟨?_, ?_⟩, fun p => ⟨?_, ?_⟩⟩
  · intro h
    obtain ⟨p, c, h⟩ := h
    obtain ⟨ls, l, final, htokens, hk, hp, hfit⟩ := Parse.program_derives h
    refine ⟨_, final, htokens, ?_, ?_⟩
    · rw [Grammar.map_kind_mem_mul]
      exact ⟨ls, [l], rfl, (Grammar.represents_program ls).2 ⟨p, hp⟩,
        Grammar.map_kind_mem_singleton.2 ⟨l, rfl, hk⟩⟩
    · rw [namesFit_append]
      exact ⟨hfit, by simp [NamesFit, hk]⟩
  · intro h
    obtain ⟨all, final, htokens, hkinds, hfit⟩ := h
    obtain ⟨ls, last, rfl, hls, hlast⟩ := Grammar.map_kind_mem_mul.1 hkinds
    obtain ⟨l, rfl, _⟩ := Grammar.map_kind_mem_singleton.1 hlast
    -- kinds that form a sentence are those of lexemes that derive a program
    obtain ⟨p, hp⟩ := (Grammar.represents_program ls).1 hls
    exact ⟨p, Parse.program_accepts htokens (namesFit_append.1 hfit).1 hp⟩
  · intro h
    obtain ⟨c, h⟩ := h
    obtain ⟨ls, l, final, htokens, hk, hp, hfit⟩ := Parse.program_derives h
    refine ⟨ls, l, final, htokens, hk, hfit, fun p' => ⟨?_, ?_⟩⟩
    · -- any program that is derived is read, and reading gives one program only
      intro hp'
      obtain ⟨c', h'⟩ := Parse.program_accepts htokens hfit hp'
      cases h.symm.trans h'
      rfl
    · intro hp'
      rw [hp']
      exact hp
  · intro h
    obtain ⟨ls, l, final, htokens, _, hfit, hp⟩ := h
    exact Parse.program_accepts htokens hfit ((hp p).2 rfl)

end DeskCalc

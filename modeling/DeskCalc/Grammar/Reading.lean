import DeskCalc.Grammar.Cursor

/-!
# Reading a program by recursive descent

The grammar, with `*` and `/` binding tighter than `+` and `-` and both pairs associating to the
left:

- program: declarations, then statements;
- declaration: `f` or `i`, then a name that is not a reserved letter;
- statement: a name, `=` and an expression, or `p` and a name;
- expression: terms joined by `+` and `-`;
- term: values joined by `*` and `/`;
- value: a name or a number.

No sign closes an expression or a statement. A statement ends where a lexeme starts the next one;
that lexeme is read too far and handed back.

Main statements: `nonGrowing_expression` and `nonGrowing_statement` — reading an expression or a
statement never leaves more to read than there was, although lexemes are handed back. This is what
makes the loops over operators and statements end.
-/

namespace DeskCalc.Parse

/-- Fail on a lexeme that is not what was expected. -/
def unexpected {α : Type} (expected : Expectation) (found : Lexeme) : Parse α :=
  throw (.unexpected expected found)

/-- The name that a lexeme spells, which must not be too long. -/
def boundedName (l : Lexeme) : Parse String :=
  if l.text.length > maxNameLength then unexpected .shortName l else pure l.text

/-! ## Expressions -/

/-- A value: a name or a number. -/
def value : Parse Expr := do
  let l ← Cursor.next
  match l.kind with
  | .identifier =>
    let name ← boundedName l
    return .identifier name none l.location
  | .number v => return .literal v none l.location
  | _ => unexpected .value l

/-- Close an expression at a lexeme that is no operator: the end of the source, or the start of
the next statement, which is handed back. -/
def close (l : Lexeme) (e : Expr) : Parse Expr := fun c =>
  match l.kind with
  | .identifier | .printKeyword => .ok e (c.unread l)
  | .endOfFile => .ok e c
  | _ => .error (.unexpected .continuation l) c

theorem nonGrowing_boundedName (l : Lexeme) : NonGrowing (boundedName l) := by
  unfold boundedName
  split
  · exact NonGrowing.throw _
  · exact NonGrowing.pure _

theorem nonGrowing_value : NonGrowing value := by
  refine NonGrowing.bind NonGrowing.next fun l => ?_
  split
  · exact NonGrowing.bind (nonGrowing_boundedName l) fun _ => NonGrowing.pure _
  · exact NonGrowing.pure _
  · exact NonGrowing.throw _

/-- Closing an expression hands back no more than the lexeme just obtained. -/
theorem size_close {l : Lexeme} {e e' : Expr} {c behind : Cursor}
    (h : close l e c = .ok e' behind) : behind.size ≤ c.size + l.text.length := by
  unfold close at h
  split at h <;> cases h <;> simp <;> omega

/-- The tight operations that follow the value `left`. A loose operator is handed back. -/
def termTail (left : Expr) (c : Cursor) : Reply Expr :=
  match hl : c.next with
  | .error e behind => .error e behind
  | .ok l behind =>
    match hk : l.kind with
    | .operator op =>
      if op.bindsTight then
        match hv : value behind with
        | .error e after => .error e after
        | .ok right after =>
          have := nonGrowing_value hv
          have := Cursor.size_lt_of_next hl (by simp [hk])
          termTail (.binary op left right none l.location) after
      else
        -- the operator joins this term to the next one
        .ok left (behind.unread l)
    | _ => close l left behind
termination_by c.size

theorem nonGrowing_termTail (left : Expr) : NonGrowing (termTail left) := by
  intro c e behind h
  fun_induction termTail left c with
  | case1 => cases h
  | case2 => cases h
  | case3 left c l middle hl op hk _ right after hv hle hlt ih =>
    exact Nat.le_trans (ih h) (by omega)
  | case4 left c l middle hl op hk hop =>
    cases h
    have := Cursor.next_size hl
    simp
    omega
  | case5 left c l middle hl hk =>
    have := Cursor.next_size hl
    have := size_close h
    omega

/-- The operations that follow the value `left`, up to the end of the expression. Behind `+` and
`-` a whole term is read before the operation is built. -/
def expression (left : Expr) (c : Cursor) : Reply Expr :=
  match hl : c.next with
  | .error e behind => .error e behind
  | .ok l behind =>
    match hk : l.kind with
    | .operator op =>
      have := Cursor.size_lt_of_next hl (by simp [hk])
      match hv : value behind with
      | .error e after => .error e after
      | .ok first after =>
        have := nonGrowing_value hv
        if op.bindsTight then
          expression (.binary op left first none l.location) after
        else
          match ht : termTail first after with
          | .error e beyond => .error e beyond
          | .ok right beyond =>
            have := nonGrowing_termTail first ht
            expression (.binary op left right none l.location) beyond
    | _ => close l left behind
termination_by c.size

theorem nonGrowing_expression (left : Expr) : NonGrowing (expression left) := by
  intro c e behind h
  fun_induction expression left c with
  | case1 => cases h
  | case2 => cases h
  | case3 left c l middle hl op hk hlt first after hv hle _ ih =>
    exact Nat.le_trans (ih h) (by omega)
  | case4 => cases h
  | case5 left c l middle hl op hk hlt first after hv hle _ right beyond ht hle' ih =>
    exact Nat.le_trans (ih h) (by omega)
  | case6 left c l middle hl hk =>
    have := Cursor.next_size hl
    have := size_close h
    omega

/-! ## Declarations and statements -/

/-- The declaration that the keyword `keyword` starts. -/
def declaration (ty : Ty) (keyword : Lexeme) : Parse Declaration := do
  let l ← Cursor.next
  match l.kind with
  | .identifier =>
    let name ← boundedName l
    return ⟨ty, name, keyword.location⟩
  | .floatKeyword | .intKeyword | .printKeyword => unexpected .unreservedName l
  | _ => unexpected .name l

/-- An assignment to the name `target`, which has been read. -/
def assignment (target : Lexeme) : Parse Statement := do
  let name ← boundedName target
  let l ← Cursor.next
  if l.kind = .assign then
    let first ← value
    let e ← expression first
    return .assign name e none target.location
  else unexpected .assignment l

/-- The print statement that `keyword` starts. -/
def printing (keyword : Lexeme) : Parse Statement := do
  let l ← Cursor.next
  if l.kind = .identifier then
    let name ← boundedName l
    return .print name keyword.location
  else unexpected .name l

/-- The type that a declaration keyword stands for. -/
def declaredTy? : Lexeme.Kind → Option Ty
  | .floatKeyword => some .float
  | .intKeyword => some .int
  | _ => none

theorem nonGrowing_declaration (ty : Ty) (keyword : Lexeme) :
    NonGrowing (declaration ty keyword) := by
  refine NonGrowing.bind NonGrowing.next fun l => ?_
  split
  · exact NonGrowing.bind (nonGrowing_boundedName l) fun _ => NonGrowing.pure _
  all_goals exact NonGrowing.throw _

theorem nonGrowing_assignment (target : Lexeme) : NonGrowing (assignment target) := by
  refine NonGrowing.bind (nonGrowing_boundedName target) fun _ => ?_
  refine NonGrowing.bind NonGrowing.next fun l => ?_
  split
  · exact NonGrowing.bind nonGrowing_value fun first =>
      NonGrowing.bind (nonGrowing_expression first) fun _ => NonGrowing.pure _
  · exact NonGrowing.throw _

theorem nonGrowing_printing (keyword : Lexeme) : NonGrowing (printing keyword) := by
  refine NonGrowing.bind NonGrowing.next fun l => ?_
  split
  · exact NonGrowing.bind (nonGrowing_boundedName l) fun _ => NonGrowing.pure _
  · exact NonGrowing.throw _

/-- The declarations up to the first statement, whose first lexeme is handed back. -/
def declarations (c : Cursor) : Reply (List Declaration) :=
  match hl : c.next with
  | .error e behind => .error e behind
  | .ok l behind =>
    match ht : declaredTy? l.kind with
    | some ty =>
      match hd : declaration ty l behind with
      | .error e after => .error e after
      | .ok d after =>
        have := nonGrowing_declaration ty l hd
        have := Cursor.size_lt_of_next hl (by intro hk; simp [hk, declaredTy?] at ht)
        match declarations after with
        | .error e beyond => .error e beyond
        | .ok ds beyond => .ok (d :: ds) beyond
    | none =>
      -- no declaration, so it must start a statement or end the source
      match l.kind with
      | .identifier | .printKeyword => .ok [] (behind.unread l)
      | .endOfFile => .ok [] behind
      | _ => .error (.unexpected .declaration l) behind
termination_by c.size

/-- The statement that the lexeme `l` starts. -/
def statement (l : Lexeme) : Parse Statement :=
  match l.kind with
  | .identifier => assignment l
  | .printKeyword => printing l
  | _ => unexpected .statement l

/-- Reading a statement never leaves more to read than there was. -/
theorem nonGrowing_statement (l : Lexeme) : NonGrowing (statement l) := by
  unfold statement
  split
  · exact nonGrowing_assignment l
  · exact nonGrowing_printing l
  · exact NonGrowing.throw _

/-- The statements up to the end of the source. -/
def statements (c : Cursor) : Reply (List Statement) :=
  match hl : c.next with
  | .error e behind => .error e behind
  | .ok l behind =>
    if hk : l.kind = .endOfFile then .ok [] behind
    else
      match hs : statement l behind with
      | .error e after => .error e after
      | .ok s after =>
        have := nonGrowing_statement l hs
        have := Cursor.size_lt_of_next hl hk
        match statements after with
        | .error e beyond => .error e beyond
        | .ok ss beyond => .ok (s :: ss) beyond
termination_by c.size

/-- A whole program. -/
def program : Parse Program := do
  let ds ← declarations
  let ss ← statements
  return ⟨ds, ss⟩

end DeskCalc.Parse

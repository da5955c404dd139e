import Mathlib.Logic.Function.Basic
import DeskCalc.Code
import DeskCalc.Proofs.Arithmetic

/-!
# Running code

A machine with a stack, a register for each name and a scale. Of its arithmetic only this is
promised: sums, differences and products of integers are exact; a quotient of integers is cut toward
zero while the scale is zero; a division by zero stops the run. Any other operation may give any
number or stop the run, and a number written with a fraction may be any number each time.

Main statements: `Machine.run_append` — code in a row is run in a row — and
`Machine.run_code_frame` — the code of an expression leaves the registers alone.
-/

namespace DeskCalc

/-- A number of the machine: an integer, or any other one. -/
inductive Number (α : Type) where
  | whole (n : Int)
  | other (x : α)

structure Machine (α : Type) where
  stack : List (Number α)
  registers : String → Number α
  scale : Nat

namespace Number

variable {α : Type}

/-- The integer that a number is, if it is one. -/
def whole? : Number α → Option Int
  | whole n => some n
  | other _ => none

/-- What is promised of the result of an operation, if anything: a number, or that there is none. -/
def promise? (scale : Nat) (op : Operator) : Number α → Number α → Option (Option (Number α))
  | whole a, whole b =>
    if op = .div ∧ scale ≠ 0 ∧ b ≠ 0 then none else some ((op.onIntegers? a b).map whole)
  | other _, whole b => if op = .div ∧ b = 0 then some none else none
  | _, other _ => none

/-- The operation may have this result, or stop the run. -/
def Operates (scale : Nat) (op : Operator) (x y : Number α) (result : Option (Number α)) : Prop :=
  ∀ promised, promise? scale op x y = some promised → result = promised

end Number

namespace Machine

variable {α : Type}

def push (m : Machine α) (x : Number α) : Machine α := { m with stack := x :: m.stack }

/-- The integer in a register, if it holds one. -/
def integer? (m : Machine α) (name : String) : Option Int := (m.registers name).whole?

/-- The machine with an integer in a register and at scale zero. -/
def assign (m : Machine α) (name : String) (n : Int) : Machine α :=
  { m with registers := Function.update m.registers name (.whole n), scale := 0 }

/-- What an instruction may make of a machine. It stops the run if the stack is too short. -/
def Step (i : Instruction) (m : Machine α) (outcome : Option (Machine α)) : Prop :=
  match i, m.stack with
  | .load name, _ => outcome = some (m.push (m.registers name))
  | .store name, x :: rest =>
    outcome = some { m with stack := rest, registers := Function.update m.registers name x }
  | .print, _ :: _ => outcome = some m
  | .pushInt v, _ => outcome = some (m.push (.whole v.toInt))
  | .pushFloat _, _ => ∃ x, outcome = some (m.push x)
  | .operation op, y :: x :: rest =>
    ∃ result, Number.Operates m.scale op x y result ∧
      outcome = result.map fun z => { m with stack := z :: rest }
  | .directive d, _ => outcome = some { m with scale := d.places }
  | .store _, [] | .print, [] | .operation _, [] | .operation _, [_] => outcome = none

/-- What running code may make of a machine; `none` if the run stops on the way. -/
def Run : List Instruction → Machine α → Option (Machine α) → Prop
  | [], m, outcome => outcome = some m
  | i :: code, m, outcome =>
    (Step i m none ∧ outcome = none) ∨ ∃ m', Step i m (some m') ∧ Run code m' outcome

/-- Running `code` may lead to the machine `m'`, where `rest` is still to be run. -/
def Reaches (code : List Instruction) (m : Machine α) (rest : List Instruction) (m' : Machine α) :
    Prop :=
  ∃ done, code = done ++ rest ∧ Run done m (some m')

theorem run_singleton {i : Instruction} {m : Machine α} {outcome : Option (Machine α)} :
    Run [i] m outcome ↔ Step i m outcome := by
  simp only [Run]
  constructor
  · intro h
    rcases h with ⟨hstep, rfl⟩ | ⟨m', hstep, rfl⟩
    · exact hstep
    · exact hstep
  · intro hstep
    cases outcome with
    | none => exact .inl ⟨hstep, rfl⟩
    | some m' => exact .inr ⟨m', hstep, rfl⟩

/-- Code in a row is run in a row. -/
theorem run_append {code more : List Instruction} {m : Machine α} {outcome : Option (Machine α)} :
    Run (code ++ more) m outcome ↔
      (Run code m none ∧ outcome = none) ∨ ∃ m', Run code m (some m') ∧ Run more m' outcome := by
  induction code generalizing m with
  | nil => simp [Run]
  | cons i code ih =>
    simp only [List.cons_append, Run, ih]
    constructor
    · intro h
      -- the run stops at the first instruction, in the rest of the code, or not in the code
      rcases h with ⟨hstep, hnone⟩ | ⟨m', hstep, ⟨hrun, hnone⟩ | ⟨m'', hrun, hmore⟩⟩
      · exact .inl ⟨.inl ⟨hstep, trivial⟩, hnone⟩
      · exact .inl ⟨.inr ⟨m', hstep, hrun⟩, hnone⟩
      · exact .inr ⟨m'', .inr ⟨m', hstep, hrun⟩, hmore⟩
    · intro h
      rcases h with ⟨⟨hstep, _⟩ | ⟨m', hstep, hrun⟩, hnone⟩ | ⟨m'', hcons, hmore⟩
      · exact .inl ⟨hstep, hnone⟩
      · exact .inr ⟨m', hstep, .inl ⟨hrun, hnone⟩⟩
      · -- the code has run to its end, so it has not stopped at the first instruction
        rcases hcons with ⟨_, hfalse⟩ | ⟨m', hstep, hrun⟩
        · cases hfalse
        · exact .inr ⟨m', hstep, .inr ⟨m'', hrun, hmore⟩⟩

theorem reaches_append_iff {code rest : List Instruction} {m m' : Machine α} :
    Reaches (code ++ rest) m rest m' ↔ Run code m (some m') := by
  constructor
  · intro h
    obtain ⟨done, hcode, hrun⟩ := h
    -- what is left to be run tells what has been run
    rw [List.append_cancel_right hcode]
    exact hrun
  · intro h
    exact ⟨code, rfl, h⟩

/-- Nothing is run behind code that always stops. -/
theorem run_append_of_stops {code more : List Instruction} {m : Machine α}
    {outcome : Option (Machine α)} (h : ∀ o, Run code m o ↔ o = none) :
    Run (code ++ more) m outcome ↔ outcome = none := by
  simp only [run_append, h, true_and, reduceCtorEq, false_and, exists_false, or_false]

/-- Behind code that always ends in one machine, the run goes on from there. -/
theorem run_append_of_ends {code more : List Instruction} {m m' : Machine α}
    {outcome : Option (Machine α)} (h : ∀ o, Run code m o ↔ o = some m') :
    Run (code ++ more) m outcome ↔ Run more m' outcome := by
  simp only [run_append, h, reduceCtorEq, false_and, false_or, Option.some.injEq, exists_eq_left]

/-! ## The code of expressions and statements -/

/-- The code of an expression leaves the registers alone and pushes one number. -/
theorem run_code_frame {coercionScale : Bool} {e : Expr} {m m' : Machine α}
    (h : Run (e.code coercionScale) m (some m')) :
    m'.registers = m.registers ∧ ∃ x, m'.stack = x :: m.stack := by
  induction e generalizing m m' with
  | identifier name ty l =>
    rw [Expr.code, run_singleton] at h
    cases h
    exact ⟨rfl, _, rfl⟩
  | literal v ty l =>
    rw [Expr.code, run_singleton] at h
    cases v with
    | int a =>
      cases h
      exact ⟨rfl, _, rfl⟩
    -- a number with a fraction may be any number, but one is pushed
    | float b =>
      obtain ⟨x, hx⟩ := h
      cases hx
      exact ⟨rfl, x, rfl⟩
  | binary op left right ty l ihl ihr =>
    rw [Expr.code, run_append] at h
    rcases h with ⟨_, hnone⟩ | ⟨both, hoperands, hop⟩
    · cases hnone
    rw [run_append] at hoperands
    rcases hoperands with ⟨_, hnone⟩ | ⟨first, hleft, hright⟩
    · cases hnone
    · -- the operation finds the two numbers that its operands left
      obtain ⟨hregisters, x, hx⟩ := ihl hleft
      obtain ⟨hregisters', y, hy⟩ := ihr hright
      rw [run_singleton] at hop
      simp only [Step, hy, hx] at hop
      obtain ⟨result, _, hresult⟩ := hop
      obtain ⟨z, _, rfl⟩ := Option.map_eq_some_iff.1 hresult.symm
      exact ⟨hregisters'.trans hregisters, z, rfl⟩
  | coercion inner ty l ih =>
    rw [Expr.code, run_append] at h
    rcases h with ⟨_, hnone⟩ | ⟨first, hinner, hscale⟩
    · cases hnone
    · obtain ⟨hregisters, x, hx⟩ := ih hinner
      cases coercionScale with
      | false =>
        cases hscale
        exact ⟨hregisters, x, hx⟩
      | true =>
        rw [if_pos rfl, run_singleton] at hscale
        cases hscale
        exact ⟨hregisters, x, hx⟩

/-- An assignment changes no register but that of its target, and ends at scale zero. -/
theorem run_assign_frame {coercionScale : Bool} {target : String} {value : Expr} {ty : Option Ty}
    {l : Location} {m m' : Machine α}
    (h : Run ((Statement.assign target value ty l).code coercionScale) m (some m')) :
    m'.scale = 0 ∧ ∃ x, m'.registers = Function.update m.registers target x := by
  rw [Statement.code, run_append] at h
  rcases h with ⟨_, hnone⟩ | ⟨computed, hvalue, hstore⟩
  · cases hnone
  · -- the store finds the value, and nothing comes between it and the return to scale zero
    obtain ⟨hregisters, x, hx⟩ := run_code_frame hvalue
    simp only [Run, Step, hx] at hstore
    rcases hstore with ⟨hnone, _⟩ | ⟨stored, hstored, hstore⟩
    · cases hnone
    · cases hstored
      rcases hstore with ⟨hnone, _⟩ | ⟨final, hfinal, hm'⟩
      · cases hnone
      · cases hfinal
        cases hm'
        exact ⟨rfl, x, by rw [hregisters]⟩

/-- A print statement changes neither the registers nor the scale. -/
theorem run_print_frame {coercionScale : Bool} {name : String} {l : Location} {m m' : Machine α}
    (h : Run ((Statement.print name l).code coercionScale) m (some m')) :
    m'.scale = m.scale ∧ m'.registers = m.registers := by
  simp only [Statement.code, Run, Step, push] at h
  rcases h with ⟨hnone, _⟩ | ⟨loaded, hloaded, h⟩
  · cases hnone
  · -- the name is loaded on the stack, so the print finds a number
    cases hloaded
    rcases h with ⟨hnone, _⟩ | ⟨final, hfinal, hm'⟩
    · cases hnone
    · cases hfinal
      cases hm'
      exact ⟨rfl, rfl⟩

end Machine

end DeskCalc

import FrameLang.Fault
import FrameLang.Locals
import FrameLang.Node

/-!
# Parsing as a run of a machine

A program is a sequence of statements, each an expression and a semicolon.  An expression is an
assignment, which groups to the right, of operators in four levels, which group to the left, over
operands with at most one sign; an operand is a literal, an identifier or a group in parentheses.

The machine reads one token at a time and keeps what is unfinished on a stack: operators that wait
for their second operand, assignments that wait for their value, and open groups.  So every token is
read once, and what the start of a program leaves open is a value.

* `State.step`: one token.  A token that does not fit is refused, and the cause is a `Refusal`.
* `run`: all tokens, or those before the first that is refused.

Groups and assignments that are open at the same time are levels of nesting, and a state may have at
most `room` of them.

An identifier is declared as it is read.  `resolve` says what stands for it in the tree, given the
table before that: its slot, for a program, or the name itself.
-/

namespace FrameLang

variable {ν : Type}

inductive Sign
  | plus
  | minus
  deriving DecidableEq, Repr

/-- An operand with its sign: a minus takes it from zero, a plus leaves no trace. -/
def signed : Option Sign → Node ν → Node ν
  | some .minus, e => .binary .sub (.num 0) e
  | some .plus, e | none, e => e

/-- What is unfinished around the place that the machine has reached. -/
inductive Unfinished (ν : Type)
  | binary (o : Operator) (first : Node ν)
  | assign (target : Node ν)
  | group (sign : Option Sign)
  deriving DecidableEq, Repr

def Unfinished.isLevel : Unfinished ν → Bool
  | binary _ _ => false
  | assign _ | group _ => true

def levels (stack : List (Unfinished ν)) : Nat := stack.countP Unfinished.isLevel

/-- Gives an expression to the operators that wait for it and bind at least as tightly as
`level`. -/
def reduce (level : Nat) : List (Unfinished ν) → Node ν → List (Unfinished ν) × Node ν
  | .binary o first :: stack, e =>
    if level ≤ o.level then reduce level stack (o.apply first e)
    else (.binary o first :: stack, e)
  | stack, e => (stack, e)

/-- Gives an expression to all operators and assignments up to the innermost group. -/
def collapse : List (Unfinished ν) → Node ν → List (Unfinished ν) × Node ν
  | .binary o first :: stack, e => collapse stack (o.apply first e)
  | .assign target :: stack, e => collapse stack (.assign target e)
  | stack, e => (stack, e)

/-- The stack around the innermost group, if a group is open. -/
def aroundGroup? : List (Unfinished ν) → Option (List (Unfinished ν))
  | [] => none
  | .group _ :: stack => some stack
  | .binary _ _ :: stack | .assign _ :: stack => aroundGroup? stack

/-- What can come next. -/
inductive Phase (ν : Type)
  | operand (sign : Option Sign)
  | operator (e : Node ν)
  deriving DecidableEq, Repr

/-- What has been made of the tokens so far: the finished statements, newest first, what is
unfinished, innermost first, what can come next and the names that have been read. -/
structure State (ν : Type) where
  done : List (Node ν)
  stack : List (Unfinished ν)
  phase : Phase ν
  locals : Locals
  deriving DecidableEq, Repr

inductive Refusal
  | mismatch (expected : Punct)
  | missingOperand
  | tooDeep
  deriving DecidableEq, Repr

/-- The fault that a refused token is reported with. -/
def Refusal.fault (limit : Nat) (t : Token) : Refusal → SyntaxFault
  | mismatch expected => .mismatch expected.spelling t.describe
  | missingOperand => .missingOperand t.describe
  | tooDeep => .tooDeep limit

namespace State

def initial (locals : Locals) : State ν := ⟨[], [], .operand none, locals⟩

/-- Whether the machine stands between statements, where the input may end. -/
def betweenStatements (s : State ν) : Bool :=
  match s.stack, s.phase with
  | [], .operand none => true
  | _, _ => false

def finish (s : State ν) (e : Node ν) : State ν :=
  { s with done := .stmt e :: s.done, stack := [], phase := .operand none }

/-- Why a token is refused that cannot come next at all.  Where an operand has come, the message
names what would end the innermost group or the statement. -/
def refusal (s : State ν) : Refusal :=
  match s.phase with
  | .operand _ => .missingOperand
  | .operator _ => .mismatch (if (aroundGroup? s.stack).isSome then .rightParen else .semicolon)

/-- The levels that stay open after a refusal.  When the end of a group is missing, the group and
what is inside it are given up. -/
def abandoned (s : State ν) : Refusal → Nat
  | .missingOperand | .tooDeep => levels s.stack
  | .mismatch _ => levels ((aroundGroup? s.stack).getD [])

/-- Opens a level of nesting, if there is room for one more. -/
def enter (room : Nat) (s : State ν) (item : Unfinished ν) (stack : List (Unfinished ν)) :
    Except Refusal (State ν) :=
  if levels stack < room then .ok { s with stack := item :: stack, phase := .operand none }
  else .error .tooDeep

def stepOperand (resolve : Locals → String → ν) (room : Nat) (s : State ν) (sign : Option Sign)
    (t : Token) : Except Refusal (State ν) :=
  match sign, t.cls with
  | none, .punct .plus => .ok { s with phase := .operand (some .plus) }
  | none, .punct .minus => .ok { s with phase := .operand (some .minus) }
  | _, .num value => .ok { s with phase := .operator (signed sign (.num value)) }
  | _, .ident =>
    .ok { s with
      phase := .operator (signed sign (.var (resolve s.locals t.text)))
      locals := s.locals.declare t.text }
  | _, .punct .leftParen => s.enter room (.group sign) s.stack
  | _, _ => .error s.refusal

def stepOperator (room : Nat) (s : State ν) (e : Node ν) (t : Token) :
    Except Refusal (State ν) :=
  match t.cls with
  | .punct .assign =>
    let (stack, target) := reduce 0 s.stack e
    s.enter room (.assign target) stack
  | .punct .rightParen =>
    match collapse s.stack e with
    | (.group sign :: stack, e) =>
      .ok { s with stack := stack, phase := .operator (signed sign e) }
    | _ => .error s.refusal
  | .punct .semicolon =>
    match collapse s.stack e with
    | ([], e) => .ok (s.finish e)
    | _ => .error s.refusal
  | cls =>
    match cls.operator? with
    | some o =>
      let (stack, first) := reduce o.level s.stack e
      .ok { s with stack := .binary o first :: stack, phase := .operand none }
    | none => .error s.refusal

def step (resolve : Locals → String → ν) (room : Nat) (s : State ν) (t : Token) :
    Except Refusal (State ν) :=
  match s.phase with
  | .operand sign => s.stepOperand resolve room sign t
  | .operator e => s.stepOperator room e t

end State

/-- Where a run ends: the last state, what was refused there, and the tokens from the refused one
on.  At the end of the tokens the end of the input is refused, unless a statement has just ended. -/
structure Run (ν : Type) where
  state : State ν
  refusal? : Option Refusal
  rest : List Token

/-- Reads tokens up to the first that is refused. -/
def run (resolve : Locals → String → ν) (room : Nat) : State ν → List Token → Run ν
  | s, [] => ⟨s, if s.betweenStatements then none else some s.refusal, []⟩
  | s, t :: ts =>
    match s.step resolve room t with
    | .ok s' => run resolve room s' ts
    | .error refusal => ⟨s, some refusal, t :: ts⟩

end FrameLang

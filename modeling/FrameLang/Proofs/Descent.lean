import FrameLang.Proofs.Calls
import FrameLang.Proofs.Grammar

/-!
# Parsing by descent

The grammar read as a program: a function for each nonterminal, which reads the tokens at an index
and calls the functions of the nonterminals inside it.  A `Walk` holds what these functions share.
What is unfinished is not a value here but the calls that are open, so a level of nesting is counted
when it begins and when it ends.

Nothing keeps such a program from going wrong in ways that have nothing to do with its tokens.  Each
of them is a `Breakdown`, and a descent halts there.

* `Descent.assignment`: an expression.  Each nested one takes a unit of a budget.
* `Walk.parse`: a whole call.
* `Ends`: what a piece of a descent comes to when it does not break down.  There is one rule for
  each of the pieces that touch the walk, and `Ends.bind` puts them together.
-/

namespace FrameLang

/-- A parser on its way along a fixed list of tokens. -/
@[ext]
structure Walk where
  tokens : List Token
  index : Nat
  locals : Locals
  depth : Nat
  limit : Nat
  deriving DecidableEq, Repr

/-- What can go wrong in a descent by itself: there is no token at the index, no level is open that
could be closed, a token between two operands writes no operator, or a loop goes on for longer than
it may. -/
inductive Breakdown
  | outOfRange
  | underflow
  | notOperator
  | exhausted
  deriving DecidableEq, Repr

inductive Halt
  | fault (e : SyntaxError)
  | breakdown (b : Breakdown)
  deriving DecidableEq, Repr

abbrev Descent := ExceptT Halt (StateM Walk)

namespace Walk

/-- A walk along some tokens.  There is an end of the input among them. -/
def ofTokens (tokens : List Token) (locals : Locals) : Walk :=
  ⟨endMarked tokens, 0, locals, 0, defaultMaxDepth⟩

def withMaxDepth (w : Walk) (limit : Nat) : Walk := { w with limit := limit }

def next? (w : Walk) : Option Token := w.tokens[w.index]?

def advance (w : Walk) : Walk := { w with index := w.index + 1 }

/-- The number of levels that may still be opened. -/
def room (w : Walk) : Nat := w.limit - w.depth

end Walk

def Level.operators : Level → List TokenClass
  | equality => [.punct .equal, .punct .notEqual]
  | relational => [.punct .less, .punct .lessEqual, .punct .greater, .punct .greaterEqual]
  | additive => [.punct .plus, .punct .minus]
  | term => [.punct .star, .punct .slash]

theorem Level.mem_operators_iff {l : Level} {cls : TokenClass} :
    cls ∈ l.operators ↔ ∃ o, cls.operator? = some o ∧ o.level = l.rank := by
  constructor
  · intro h
    cases l <;> simp only [operators, List.mem_cons, List.not_mem_nil, or_false] at h
    all_goals rcases h with rfl | rfl | rfl | rfl <;> exact ⟨_, rfl, rfl⟩
  · rintro ⟨o, ho, hl⟩
    cases cls with
    | punct p => cases p <;> cases ho <;> cases l <;> first | decide | cases hl
    | ident => cases ho
    | num value => cases ho
    | eof => cases ho

namespace Descent

/-! ## Tokens and levels -/

def current : Descent Token := do
  match (← get).next? with
  | some t => return t
  | none => throw (.breakdown .outOfRange)

/-- Reads a token.  The end of the input is never passed. -/
def consume : Descent Token := do
  let t ← current
  modify fun w => if t.isEof then w else w.advance
  return t

def optional (p : Punct) : Descent Bool := do
  let t ← current
  if t.cls = .punct p then
    let _ ← consume
    return true
  else
    return false

def expect (p : Punct) : Descent Unit := do
  let t ← current
  if t.cls = .punct p then
    let _ ← consume
  else
    throw (.fault ⟨t.pos, .mismatch p.spelling t.describe⟩)

def nest (t : Token) : Descent Unit := do
  let w ← get
  if w.limit ≤ w.depth then
    throw (.fault ⟨t.pos, .tooDeep w.limit⟩)
  else
    set { w with depth := w.depth + 1 }

def leave : Descent Unit := do
  let w ← get
  match w.depth with
  | 0 => throw (.breakdown .underflow)
  | depth + 1 => set { w with depth := depth }

/-- Declares a name and answers its variable. -/
def declare (name : String) : Descent (Node Nat) := do
  let w ← get
  set { w with locals := w.locals.declare name }
  return .var (w.locals.slot name)

def join (t : Token) (first second : Node Nat) : Descent (Node Nat) :=
  match t.cls.operator? with
  | some o => return o.apply first second
  | none => throw (.breakdown .notOperator)

/-! ## Nonterminals

What may stand in a group is a parameter until `assignment` closes the circle. -/

def nested (t : Token) (inner : Descent (Node Nat)) : Descent (Node Nat) := do
  nest t
  let e ← inner
  leave
  return e

def group (inner : Descent (Node Nat)) : Descent (Node Nat) := do
  let t ← current
  expect .leftParen
  let e ← nested t inner
  expect .rightParen
  return e

def primary (inner : Descent (Node Nat)) : Descent (Node Nat) := do
  let t ← current
  match t.cls with
  | .num value =>
    let _ ← consume
    return .num value
  | .ident =>
    let _ ← consume
    declare t.text
  | .punct .leftParen => group inner
  | _ => throw (.fault ⟨t.pos, .missingOperand t.describe⟩)

def unary (inner : Descent (Node Nat)) : Descent (Node Nat) := do
  if ← optional .plus then
    primary inner
  else if ← optional .minus then
    let e ← primary inner
    return .binary .sub (.num 0) e
  else
    primary inner

/-- Reads operators of a level, each with its second operand, and groups to the left. -/
def chainFrom (l : Level) (operand : Descent (Node Nat)) : Nat → Node Nat → Descent (Node Nat)
  | 0, _ => throw (.breakdown .exhausted)
  | fuel + 1, first => do
    if (← current).cls ∈ l.operators then
      let t ← consume
      let second ← operand
      chainFrom l operand fuel (← join t first second)
    else
      return first

def chain (l : Level) (operand : Descent (Node Nat)) : Descent (Node Nat) := do
  let first ← operand
  chainFrom l operand (← get).tokens.length first

def term (inner : Descent (Node Nat)) : Descent (Node Nat) := chain .term (unary inner)

def additive (inner : Descent (Node Nat)) : Descent (Node Nat) := chain .additive (term inner)

def relational (inner : Descent (Node Nat)) : Descent (Node Nat) :=
  chain .relational (additive inner)

def equality (inner : Descent (Node Nat)) : Descent (Node Nat) := chain .equality (relational inner)

/-- An expression.  The budget is for the calls of this function that are open at the same time. -/
def assignment : Nat → Descent (Node Nat)
  | 0 => throw (.breakdown .exhausted)
  | budget + 1 => do
    let target ← equality (assignment budget)
    let t ← current
    if ← optional .assign then
      let value ← nested t (assignment budget)
      return .assign target value
    else
      return target

def statement (budget : Nat) : Descent (Node Nat) := do
  let e ← assignment budget
  expect .semicolon
  return .stmt e

/-- Reads statements up to the end of the input, onto those that are `done`, newest first. -/
def statements (budget : Nat) : Nat → List (Node Nat) → Descent (List (Node Nat))
  | 0, _ => throw (.breakdown .exhausted)
  | fuel + 1, done => do
    if (← current).isEof then
      return done.reverse
    else
      let e ← statement budget
      statements budget fuel (e :: done)

def program (budget : Nat) : Descent Program := do
  let stmts ← statements budget (← get).tokens.length []
  return ⟨stmts, (← get).locals.frameSize⟩

def run {α : Type} (x : Descent α) (w : Walk) : Except Halt α × Walk := StateT.run (ExceptT.run x) w

end Descent

/-- A call with a budget for the expressions that are open at the same time. -/
def Walk.parseWithin (budget : Nat) (w : Walk) : Except Halt Program × Walk :=
  (Descent.program budget).run w

/-- A call.  Every expression but the outermost stands on a level of its own. -/
def Walk.parse (w : Walk) : Except Halt Program × Walk := w.parseWithin (w.limit + 1)

/-! ## What a descent comes to -/

/-- From `w`, the descent `x` ends with an answer as `Q` says or with an error as `E` says, and does
not break down. -/
def Ends {α : Type} (x : Descent α) (w : Walk) (Q : α → Walk → Prop)
    (E : SyntaxError → Walk → Prop) : Prop :=
  match x.run w with
  | (.ok a, w') => Q a w'
  | (.error (.fault e), w') => E e w'
  | (.error (.breakdown _), _) => False

section

variable {α β : Type} {w : Walk} {t : Token} {p : Punct} {E : SyntaxError → Walk → Prop}

theorem Ends.pure {a : α} {Q : α → Walk → Prop} (h : Q a w) : Ends (Pure.pure a) w Q E := h

theorem Ends.fault {e : SyntaxError} {Q : α → Walk → Prop} (h : E e w) :
    Ends (throw (.fault e)) w Q E := h

theorem Descent.run_bind (x : Descent α) (f : α → Descent β) (w : Walk) :
    (x >>= f).run w =
      match x.run w with
      | (.ok a, w') => (f a).run w'
      | (.error e, w') => (.error e, w') := by
  show StateT.run (ExceptT.run (x >>= f)) w = _
  rw [ExceptT.run_bind, StateT.run_bind]
  unfold run
  rcases StateT.run (ExceptT.run x) w with ⟨_ | _, w'⟩ <;> rfl

theorem Ends.bind {x : Descent α} {f : α → Descent β} {Q : β → Walk → Prop}
    (h : Ends x w (fun a w' => Ends (f a) w' Q E) E) : Ends (x >>= f) w Q E := by
  rw [Ends] at h ⊢
  rw [Descent.run_bind]
  generalize x.run w = r at h
  rcases r with ⟨(e | b) | a, w'⟩
  · exact h
  · exact h
  · exact h

theorem Ends.mono {x : Descent α} {Q R : α → Walk → Prop} (h : Ends x w Q E)
    (hQ : ∀ a w', Q a w' → R a w') : Ends x w R E := by
  rw [Ends] at h ⊢
  generalize x.run w = r at h
  rcases r with ⟨(e | b) | a, w'⟩
  · exact h
  · exact h
  · exact hQ a w' h

namespace Descent

theorem ends_get {Q : Walk → Walk → Prop} (h : Q w w) : Ends get w Q E := h

theorem ends_current {Q : Token → Walk → Prop} (ht : w.next? = some t) (h : Q t w) :
    Ends current w Q E := by
  refine Ends.bind (ends_get ?_)
  rw [ht]
  exact h

theorem ends_consume {Q : Token → Walk → Prop} (ht : w.next? = some t) (he : t.isEof = false)
    (h : Q t w.advance) : Ends consume w Q E := by
  refine Ends.bind (ends_current ht (Ends.bind ?_))
  show Q t (if t.isEof then w else w.advance)
  rw [he]
  exact h

theorem isEof_of_punct (h : t.cls = .punct p) : t.isEof = false := by
  rw [Token.isEof, h]
  rfl

theorem ends_optional {Q : Bool → Walk → Prop} (ht : w.next? = some t)
    (hyes : t.cls = .punct p → Q true w.advance) (hno : t.cls ≠ .punct p → Q false w) :
    Ends (optional p) w Q E := by
  refine Ends.bind (ends_current ht ?_)
  split
  case isTrue hp => exact Ends.bind (ends_consume ht (isEof_of_punct hp) (hyes hp))
  case isFalse hp => exact hno hp

theorem ends_expect {Q : Unit → Walk → Prop} (ht : w.next? = some t)
    (hyes : t.cls = .punct p → Q () w.advance)
    (hno : t.cls ≠ .punct p → E ⟨t.pos, .mismatch p.spelling t.describe⟩ w) :
    Ends (expect p) w Q E := by
  refine Ends.bind (ends_current ht ?_)
  split
  case isTrue hp => exact Ends.bind (ends_consume ht (isEof_of_punct hp) (hyes hp))
  case isFalse hp => exact hno hp

theorem ends_nest {Q : Unit → Walk → Prop}
    (hyes : w.depth < w.limit → Q () { w with depth := w.depth + 1 })
    (hno : w.limit ≤ w.depth → E ⟨t.pos, .tooDeep w.limit⟩ w) : Ends (nest t) w Q E := by
  refine Ends.bind (ends_get ?_)
  split
  case isTrue hd => exact hno hd
  case isFalse hd => exact hyes (Nat.not_le.1 hd)

theorem ends_leave {Q : Unit → Walk → Prop} {depth : Nat} (hd : w.depth = depth + 1)
    (h : Q () { w with depth := depth }) : Ends leave w Q E := by
  refine Ends.bind (ends_get ?_)
  rw [hd]
  exact h

theorem ends_declare {name : String} {Q : Node Nat → Walk → Prop}
    (h : Q (.var (w.locals.slot name)) { w with locals := w.locals.declare name }) :
    Ends (declare name) w Q E := h

theorem ends_join {first second : Node Nat} {o : Operator} {Q : Node Nat → Walk → Prop}
    (ho : t.cls.operator? = some o) (h : Q (o.apply first second) w) :
    Ends (join t first second) w Q E := by
  rw [join, ho]
  exact h

end Descent

end

end FrameLang

import FrameLang.Token

/-!
# Binary operators

A tree knows eight binary operators.  The source has ten: `a > b` and `a >= b` stand for `b < a` and
`b <= a`.  `Operator` is an operator as written, that is, an operator of the tree and whether its
operands change places.

* `BinaryOp.level`: how tightly an operator binds.
* `Punct.operator?`: the operator that a punctuator writes.
-/

namespace FrameLang

inductive BinaryOp
  | add
  | sub
  | mul
  | div
  | eq
  | ne
  | lt
  | le
  deriving DecidableEq, Repr

namespace BinaryOp

def symbol : BinaryOp → String
  | add => "+"
  | sub => "-"
  | mul => "*"
  | div => "/"
  | eq => "=="
  | ne => "!="
  | lt => "<"
  | le => "<="

/-- The name of an operator in the outline of a tree. -/
def name : BinaryOp → String
  | add => "Add"
  | sub => "Sub"
  | mul => "Mul"
  | div => "Div"
  | eq => "Eq"
  | ne => "Ne"
  | lt => "Lt"
  | le => "Le"

def isComparison : BinaryOp → Bool
  | eq | ne | lt | le => true
  | add | sub | mul | div => false

/-- How tightly an operator binds; a higher level binds tighter.  Operators of one level group to
the left. -/
def level : BinaryOp → Nat
  | eq | ne => 0
  | lt | le => 1
  | add | sub => 2
  | mul | div => 3

end BinaryOp

/-- A binary operator as it is written. -/
structure Operator where
  op : BinaryOp
  /-- Whether the operand written first is the right one in the tree. -/
  swapped : Bool
  deriving DecidableEq, Repr

def Operator.level (o : Operator) : Nat := o.op.level

def Punct.operator? : Punct → Option Operator
  | .plus => some ⟨.add, false⟩
  | .minus => some ⟨.sub, false⟩
  | .star => some ⟨.mul, false⟩
  | .slash => some ⟨.div, false⟩
  | .equal => some ⟨.eq, false⟩
  | .notEqual => some ⟨.ne, false⟩
  | .less => some ⟨.lt, false⟩
  | .lessEqual => some ⟨.le, false⟩
  | .greater => some ⟨.lt, true⟩
  | .greaterEqual => some ⟨.le, true⟩
  | .leftParen | .rightParen | .semicolon | .assign => none

def TokenClass.operator? : TokenClass → Option Operator
  | .punct p => p.operator?
  | _ => none

end FrameLang

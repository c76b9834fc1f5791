import FrameLang.Operator

/-!
# Trees

A program is a list of trees, one per statement.

* `Node ν`: a tree whose variables are of type `ν`, which is a name while a source is being parsed
  and the offset of a slot after that.
* `Program`: the trees of a source and the frame space that they need.
* `Node.render`, `Program.render`: the compact text of a tree and of a program.
-/

namespace FrameLang

/-- A tree over variables of type `ν`. -/
inductive Node (ν : Type)
  | stmt (e : Node ν)
  | assign (target value : Node ν)
  | binary (op : BinaryOp) (left right : Node ν)
  | num (value : Int)
  | var (v : ν)
  deriving DecidableEq, Repr

namespace Node

variable {ν μ : Type}

def map (f : ν → μ) : Node ν → Node μ
  | stmt e => stmt (e.map f)
  | assign target value => assign (target.map f) (value.map f)
  | binary op left right => binary op (left.map f) (right.map f)
  | num value => num value
  | var v => var (f v)

def isLeaf : Node ν → Bool
  | num _ | var _ => true
  | stmt _ | assign _ _ | binary _ _ _ => false

/-- The left and the right child of a node that has two. -/
def children? : Node ν → Option (Node ν × Node ν)
  | assign left right | binary _ left right => some (left, right)
  | stmt _ | num _ | var _ => none

/-- Appends the compact text of a tree: every node with children in parentheses, its head first. -/
def renderOnto (out : String) : Node Nat → String
  | stmt e => e.renderOnto (out ++ "(stmt ") ++ ")"
  | assign target value => value.renderOnto (target.renderOnto (out ++ "(= ") ++ " ") ++ ")"
  | binary op left right =>
    right.renderOnto (left.renderOnto (out ++ "(" ++ op.symbol ++ " ") ++ " ") ++ ")"
  | num value => out ++ toString value
  | var offset => out ++ "(lvar " ++ toString offset ++ ")"

def render (n : Node Nat) : String := n.renderOnto ""

theorem renderOnto_eq (out : String) (n : Node Nat) : n.renderOnto out = out ++ n.render := by
  induction n generalizing out with
  | stmt e ih => simp [render, renderOnto, ih (out ++ _), ih "(stmt ", String.append_assoc]
  | assign target value iht ihv =>
    simp only [render, renderOnto]
    rw [ihv, iht, ihv (_ ++ " "), iht ("" ++ "(= ")]
    simp [String.append_assoc]
  | binary op left right ihl ihr =>
    simp only [render, renderOnto]
    rw [ihr, ihl, ihr (_ ++ " "), ihl ("" ++ "(" ++ op.symbol ++ " ")]
    simp [String.append_assoc]
  | num value => simp [render, renderOnto]
  | var offset => simp [render, renderOnto, String.append_assoc]

theorem render_stmt (e : Node Nat) : (stmt e).render = "(stmt " ++ e.render ++ ")" := by
  simp [render, renderOnto, renderOnto_eq "(stmt "]

theorem render_assign (target value : Node Nat) :
    (assign target value).render = "(= " ++ target.render ++ " " ++ value.render ++ ")" := by
  rw [render, renderOnto, renderOnto_eq, renderOnto_eq]
  simp

theorem render_binary (op : BinaryOp) (left right : Node Nat) :
    (binary op left right).render =
      "(" ++ op.symbol ++ " " ++ left.render ++ " " ++ right.render ++ ")" := by
  rw [render, renderOnto, renderOnto_eq, renderOnto_eq]
  simp

theorem render_num (value : Int) : (num value).render = toString value := by
  simp [render, renderOnto]

theorem render_var (offset : Nat) : (var offset).render = "(lvar " ++ toString offset ++ ")" := by
  simp [render, renderOnto]

end Node

/-- The tree that an operator makes of its operands, which come as they are written. -/
def Operator.apply {ν : Type} (o : Operator) (first second : Node ν) : Node ν :=
  if o.swapped then .binary o.op second first else .binary o.op first second

structure Program where
  stmts : List (Node Nat)
  frameSize : Nat
  deriving DecidableEq, Repr

def Program.render (p : Program) : String :=
  String.join (p.stmts.map fun s => s.render ++ "\n")

end FrameLang

import FrameLang.Node

/-!
# Outlines of trees

The full structure of a program as indented text, four blanks to a level.  A record is its name and
its fields in braces, a list its items in brackets.  Every field and every item starts a line of its
own and ends with a comma, and an empty list stays on one line.

* `Node.outlineOnto`: appends the outline of a tree whose first line stands at a depth.
* `Program.outline`: the outline of a program.
-/

namespace FrameLang

namespace Outline

def indentation (depth : Nat) : String := String.ofList (List.replicate (4 * depth) ' ')

def openRecord (out name : String) : String := out ++ name ++ " \x7b\n"

def openField (out : String) (depth : Nat) (name : String) : String :=
  out ++ indentation (depth + 1) ++ name ++ ": "

def closeEntry (out : String) : String := out ++ ",\n"

def closeRecord (out : String) (depth : Nat) : String := out ++ indentation depth ++ "\x7d"

def wordField (out : String) (depth : Nat) (name word : String) : String :=
  closeEntry (openField out depth name ++ word)

end Outline

open Outline

/-- Appends the outline of a tree whose first line stands at a depth. -/
def Node.outlineOnto (out : String) (depth : Nat) : Node Nat → String
  | stmt e =>
    let out := openRecord out "ExprStmt"
    let out := closeEntry (e.outlineOnto (openField out depth "expr") (depth + 1))
    closeRecord out depth
  | assign target value =>
    let out := openRecord out "Assign"
    let out := closeEntry (target.outlineOnto (openField out depth "lhs") (depth + 1))
    let out := closeEntry (value.outlineOnto (openField out depth "rhs") (depth + 1))
    closeRecord out depth
  | binary op left right =>
    let out := wordField (openRecord out "Binary") depth "op" op.name
    let out := closeEntry (left.outlineOnto (openField out depth "lhs") (depth + 1))
    let out := closeEntry (right.outlineOnto (openField out depth "rhs") (depth + 1))
    closeRecord out depth
  | num value => closeRecord (wordField (openRecord out "Num") depth "val" (toString value)) depth
  | var offset =>
    closeRecord (wordField (openRecord out "LVar") depth "offset" (toString offset)) depth

/-- Appends the list of some statements, whose first line stands one level deep. -/
def outlineStmtsOnto (out : String) (stmts : List (Node Nat)) : String :=
  if stmts.isEmpty then out ++ "[]"
  else
    stmts.foldl (fun out s => closeEntry (s.outlineOnto (out ++ indentation 2) 2)) (out ++ "[\n")
      ++ indentation 1 ++ "]"

def Program.outline (p : Program) : String :=
  let out := openRecord "" "Program"
  let out := closeEntry (outlineStmtsOnto (openField out 0 "stmts") p.stmts)
  closeRecord (wordField out 0 "frame_size" (toString p.frameSize)) 0

end FrameLang

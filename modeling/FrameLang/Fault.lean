/-!
# Faults

What can be wrong with a source, and how it is put into words.

* `LexicalFault`, `SyntaxFault`: the causes, each with what its message names.
* `Located`: a cause and the byte offset where it was found, shown as `[Offset p] message`.
* `CompileError`: a located cause of either sort, as a whole compilation gives it.
-/

namespace FrameLang

/-- Why a source cannot be cut into tokens. -/
inductive LexicalFault
  | unknownChar (c : Char)
  | literalTooLarge (digits : String)
  deriving DecidableEq, Repr

/-- Why tokens do not make a program. -/
inductive SyntaxFault
  | mismatch (expected found : String)
  | missingOperand (found : String)
  | tooDeep (limit : Nat)
  deriving DecidableEq, Repr

def LexicalFault.message : LexicalFault → String
  | unknownChar c => "invalid token '" ++ String.singleton c ++ "'"
  | literalTooLarge digits => "integer literal '" ++ digits ++ "' is too large"

def SyntaxFault.message : SyntaxFault → String
  | mismatch expected found => "expected '" ++ expected ++ "', but found '" ++ found ++ "'"
  | missingOperand found => "expected a number, identifier or '(', but found '" ++ found ++ "'"
  | tooDeep limit => "expression nested too deeply (limit is " ++ toString limit ++ ")"

/-- A fault and the byte offset where it was found. -/
structure Located (α : Type) where
  pos : Nat
  fault : α
  deriving DecidableEq, Repr

def located (pos : Nat) (message : String) : String :=
  "[Offset " ++ toString pos ++ "] " ++ message

abbrev LexicalError := Located LexicalFault

abbrev SyntaxError := Located SyntaxFault

namespace LexicalError

def message (e : LexicalError) : String := e.fault.message

def describe (e : LexicalError) : String := located e.pos e.message

end LexicalError

namespace SyntaxError

def message (e : SyntaxError) : String := e.fault.message

def describe (e : SyntaxError) : String := located e.pos e.message

end SyntaxError

inductive CompileError
  | lexical (e : LexicalError)
  | syntactic (e : SyntaxError)
  deriving DecidableEq, Repr

namespace CompileError

def pos : CompileError → Nat
  | lexical e => e.pos
  | syntactic e => e.pos

/-- The cause alone, without where it was found. -/
def message : CompileError → String
  | lexical e => e.message
  | syntactic e => e.message

/-- The sort of error, its place and its cause. -/
def describe : CompileError → String
  | lexical e => "lexical error: " ++ e.describe
  | syntactic e => "syntax error: " ++ e.describe

end CompileError

end FrameLang

/-!
# Tokens

The vocabulary of the expression language: fourteen punctuators, identifiers, integer literals and
the mark for the end of the input.

* `Punct`: the punctuators and how they are spelled.
* `TokenClass`: what a token is.  A literal carries its value here.
* `Token`: a class, the text that was read, and the byte offset where that text starts.

Class and text are kept apart.  A scanner always makes the two agree, but a parser reads only the
class and, for an identifier, the text, so it takes tokens from anywhere.
-/

namespace FrameLang

inductive Punct
  | leftParen
  | rightParen
  | semicolon
  | assign
  | less
  | greater
  | plus
  | minus
  | star
  | slash
  | equal
  | notEqual
  | lessEqual
  | greaterEqual
  deriving DecidableEq, Repr

namespace Punct

def spelling : Punct → String
  | leftParen => "("
  | rightParen => ")"
  | semicolon => ";"
  | assign => "="
  | less => "<"
  | greater => ">"
  | plus => "+"
  | minus => "-"
  | star => "*"
  | slash => "/"
  | equal => "=="
  | notEqual => "!="
  | lessEqual => "<="
  | greaterEqual => ">="

end Punct

inductive TokenClass
  | punct (p : Punct)
  | ident
  | num (value : Int)
  | eof
  deriving DecidableEq, Repr

/-- The broad kinds of tokens that a listing tells apart. -/
inductive TokenKind
  | punct
  | ident
  | num
  | eof
  deriving DecidableEq, Repr

def TokenKind.label : TokenKind → String
  | punct => "Punct"
  | ident => "Ident"
  | num => "Num"
  | eof => "Eof"

namespace TokenClass

def kind : TokenClass → TokenKind
  | punct _ => .punct
  | ident => .ident
  | num _ => .num
  | eof => .eof

/-- The name of a class in a message: a punctuator's spelling, a literal's value in decimal, or a
word for the rest. -/
def label : TokenClass → String
  | punct p => p.spelling
  | ident => "identifier"
  | num value => toString value
  | eof => "EOF"

end TokenClass

/-- A classified piece of the source. -/
structure Token where
  cls : TokenClass
  /-- The source text, empty at the end of the input. -/
  text : String
  /-- The byte offset of the first character. -/
  pos : Nat
  deriving DecidableEq, Repr

namespace Token

def stop (t : Token) : Nat := t.pos + t.text.utf8ByteSize

def name? (t : Token) : Option String :=
  match t.cls with
  | .ident => some t.text
  | _ => none

def value? (t : Token) : Option Int :=
  match t.cls with
  | .num value => some value
  | _ => none

def isEof (t : Token) : Bool := t.cls = .eof

/-- How a message names the token: by its text, or as the end of the input. -/
def describe (t : Token) : String :=
  match t.cls with
  | .eof => TokenClass.eof.label
  | _ => t.text

def eofAt (pos : Nat) : Token := ⟨.eof, "", pos⟩

end Token

end FrameLang

import FrameLang.Parser
import FrameLang.Registration

/-!
# From a source to its program

A source is read to its end before parsing starts, so a fault in its text is found before any fault
in its structure.

* `readTokens`: the tokens, with the identifiers registered as they are read if that is asked for.
* `parseProgram`: the program of some tokens.
* `compileWith`, `compile`: both, over a given table and from an empty one.

All but `compile` take a table and answer with the table that they leave, also on an error.
-/

namespace FrameLang

structure Config where
  slotWidth : Nat := defaultSlotWidth
  maxDepth : Nat := defaultMaxDepth
  /-- Whether identifiers are registered as their tokens are read, before any parsing. -/
  eager : Bool := false
  mode : Mode := .unique
  deriving DecidableEq, Repr

def Config.locals (config : Config) : Locals :=
  { slotWidth := config.slotWidth, mode := config.mode }

/-- The tokens of a source, with the identifiers registered if the configuration says so. -/
def readTokens (config : Config) (source : String) (locals : Locals) :
    Except LexicalError (List Token) × Locals :=
  if config.eager then tokenizeWith source locals else (tokenize source, locals)

def parseProgram (config : Config) (tokens : List Token) (locals : Locals) :
    Except SyntaxError Program × Locals :=
  let (answer, p) := ((Parser.ofTokens tokens locals).withMaxDepth config.maxDepth).parse
  (answer, p.locals)

def compileWith (config : Config) (source : String) (locals : Locals) :
    Except CompileError Program × Locals :=
  match readTokens config source locals with
  | (.error e, locals) => (.error (.lexical e), locals)
  | (.ok tokens, locals) =>
    let (answer, locals) := parseProgram config tokens locals
    (answer.mapError .syntactic, locals)

/-- The program of a source and the table of its locals. -/
def compile (config : Config) (source : String) : Except CompileError (Program × Locals) :=
  let (answer, locals) := compileWith config source config.locals
  answer.map fun program => (program, locals)

end FrameLang

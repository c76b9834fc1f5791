import FrameLang.CommandLine.FileTree
import FrameLang.Diagnostic
import FrameLang.Node.Outline
import FrameLang.Token.Listing

/-!
# What the program answers

The exit code and the text on both outputs, as functions of the options and the source.

* `Options.tokens`, `Options.program`: the two stages of a compilation.  They are apart so that each
  can be timed.
* `Options.conclude`: the answer to the outcome of both.
* `Options.respond`, `respond`: the whole answer.
* `FileTree.respond`: the same in a tree of folders and files.

An error is answered with its diagnostic and exit code one.  A listing of the tokens is shown as
soon as there are tokens, so a syntax error comes after it.
-/

namespace FrameLang.CommandLine

structure Response where
  exitCode : Nat
  output : String := ""
  errors : String := ""
  deriving DecidableEq, Repr

def failureCode : Nat := 1

def misuseCode : Nat := 2

structure Timings where
  lex : String
  parse : String
  total : String
  deriving DecidableEq, Repr

def Timings.block (t : Timings) : String :=
  let rule := "=====================\n"
  rule ++ "RCC TRANSLATION TIMINGS:\n" ++ rule
    ++ "lex duration: " ++ t.lex ++ "\n"
    ++ "parse duration: " ++ t.parse ++ "\n"
    ++ "total duration: " ++ t.total ++ "\n"
    ++ rule

namespace Options

def tokens (o : Options) (source : String) : Except LexicalError (List Token) × Locals :=
  readTokens o.config source o.config.locals

def program (o : Options) (tokens : List Token) (locals : Locals) :
    Except SyntaxError Program × Locals :=
  parseProgram o.config tokens locals

def tokenListing (o : Options) (tokens : List Token) : String :=
  if o.printTokens then FrameLang.tokenListing tokens else ""

def programListing (o : Options) (program : Program) (locals : Locals) : String :=
  (if o.printAst then program.outline ++ "\n" else program.render)
    ++ (if o.printLocals then locals.dump else "")

def lexicalFailure (source : String) (e : LexicalError) : Response :=
  { exitCode := failureCode, errors := (CompileError.lexical e).report source }

/-- The answer to tokens and what parsing them came to. -/
def conclude (o : Options) (source : String) (tokens : List Token)
    (outcome : Except SyntaxError Program × Locals) (timings : Timings) : Response :=
  match outcome with
  | (.error e, _) =>
    { exitCode := failureCode
      output := o.tokenListing tokens
      errors := (CompileError.syntactic e).report source }
  | (.ok program, locals) =>
    { exitCode := 0
      output := o.tokenListing tokens ++ o.programListing program locals
      errors := if o.timings then timings.block else "" }

def respond (o : Options) (source : String) (timings : Timings) : Response :=
  match o.tokens source with
  | (.error e, _) => lexicalFailure source e
  | (.ok tokens, locals) => o.conclude source tokens (o.program tokens locals) timings

end Options

def usageLine (option text : String) : String := "  " ++ padRight 31 option ++ text ++ "\n"

def usage : String :=
  "Translates a program in the expression language into its syntax tree\n\n"
    ++ "Usage: rcc [OPTIONS] [SOURCE]\n\n"
    ++ "Arguments:\n"
    ++ "  [SOURCE]  Program text. Read from --filename or stdin when omitted\n\n"
    ++ "Options:\n"
    ++ usageLine "    --filename <FILENAME>" ""
    ++ usageLine "    --print-ast"
      "Print the full syntax tree structure instead of its compact rendering"
    ++ usageLine "    --print-tokens" ""
    ++ usageLine "    --print-locals" "Print the frame layout after parsing"
    ++ usageLine "    --slot-width <SLOT_WIDTH>"
      ("Storage size of each local variable slot [default: " ++ toString defaultSlotWidth ++ "]")
    ++ usageLine "    --max-depth <MAX_DEPTH>"
      ("Deepest nesting of parentheses or chained assignments allowed in one expression [default: "
        ++ toString defaultMaxDepth ++ "]")
    ++ usageLine "    --eager-idents" "Register identifiers while lexing instead of while parsing"
    ++ usageLine "    --shadowing"
      ("Give every registration of a name its own slot, with the newest one winning lookups. "
        ++ "Only the lexer registers names, so this needs --eager-idents")
    ++ usageLine "    --timings" ""
    ++ usageLine "-v, --verbose..."
      "Raise log verbosity (-v for debug, -vv for trace). RUST_LOG takes precedence"
    ++ usageLine "-h, --help" "Print help"
    ++ usageLine "-V, --version" "Print version"

def Interruption.response : Interruption → Response
  | version => { exitCode := 0, output := "rcc 1.0\n" }
  | help => { exitCode := 0, output := usage }
  | misuse m => { exitCode := misuseCode, errors := "error: " ++ m.message ++ "\n" }

def unreadable (e : LoadError) : Response :=
  { exitCode := failureCode, errors := "rcc: " ++ e.message ++ "\n" }

/-- The answer to a command line.  `content` says what is read from a file or the standard input. -/
def respond (args : List String) (content : Origin → Except ReadFault ByteArray)
    (timings : Timings) : Response :=
  match interpret args with
  | .error i => i.response
  | .ok o =>
    match o.origin.load (content o.origin) with
    | .error e => unreadable e
    | .ok source => o.respond source timings

def FileTree.respond (t : FileTree) (input : ByteArray) (args : List String) (timings : Timings) :
    Response :=
  CommandLine.respond args (t.content input) timings

end FrameLang.CommandLine

import FrameLang.Compilation

/-!
# The command line

What the arguments of the program ask for.

* `Switch`, `Setting`: the options without and with a value.
* `Arguments.read`: the arguments one after the other, up to the first that ends the reading.
* `interpret`: the reading, and the rules that hold between options.

An option with a value takes it from the next argument, or after `=`.  After `--` every argument is
a source, and so is `-`.  Options are known by their whole names only, and none but `--verbose` may
come twice.
-/

namespace FrameLang.CommandLine

/-- The options without a value, apart from those that may be repeated or end the reading. -/
inductive Switch
  | printAst
  | printTokens
  | printLocals
  | eagerIdents
  | shadowing
  | timings
  deriving DecidableEq, Repr

namespace Switch

def all : List Switch := [printAst, printTokens, printLocals, eagerIdents, shadowing, timings]

def name : Switch → String
  | printAst => "print-ast"
  | printTokens => "print-tokens"
  | printLocals => "print-locals"
  | eagerIdents => "eager-idents"
  | shadowing => "shadowing"
  | timings => "timings"

def ofName? (name : String) : Option Switch := all.find? (·.name = name)

end Switch

inductive Setting
  | filename
  | slotWidth
  | maxDepth
  deriving DecidableEq, Repr

namespace Setting

def all : List Setting := [filename, slotWidth, maxDepth]

def name : Setting → String
  | filename => "filename"
  | slotWidth => "slot-width"
  | maxDepth => "max-depth"

def ofName? (name : String) : Option Setting := all.find? (·.name = name)

end Setting

def maxSlotWidth : Nat := 4096

def greatestMaxDepth : Nat := 512

inductive Misuse
  | unknownOption (argument : String)
  | missingValue (option : String)
  | unexpectedValue (option : String)
  | repeated (option : String)
  | outOfRange (option value : String)
  | secondSource (argument : String)
  | conflict (option other : String)
  | missingOption (option needed : String)
  deriving DecidableEq, Repr

def Misuse.message : Misuse → String
  | unknownOption argument => "unexpected argument '" ++ argument ++ "'"
  | missingValue option => "a value is required for '--" ++ option ++ "'"
  | unexpectedValue option => "no value is allowed for '--" ++ option ++ "'"
  | repeated option => "the option '--" ++ option ++ "' cannot be used multiple times"
  | outOfRange option value => "invalid value '" ++ value ++ "' for '--" ++ option ++ "'"
  | secondSource argument => "unexpected argument '" ++ argument ++ "'"
  | conflict option other => "the option '--" ++ option ++ "' cannot be used with " ++ other
  | missingOption option needed => "the option '--" ++ option ++ "' needs '--" ++ needed ++ "'"

/-- Why the reading of the arguments ends early. -/
inductive Interruption
  | version
  | help
  | misuse (m : Misuse)
  deriving DecidableEq, Repr

/-- A number without a sign, or with a plus. -/
def readNumber? (text : String) : Option Nat :=
  let digits :=
    match text.toList with
    | '+' :: cs => cs
    | cs => cs
  if !digits.isEmpty && digits.all Char.isDigit then some (Nat.ofDigitChars 10 digits 0) else none

/-- A number from one to `greatest`. -/
def readUpTo? (greatest : Nat) (text : String) : Option Nat :=
  (readNumber? text).filter fun n => 1 ≤ n && n ≤ greatest

/-- What has been read of the arguments. -/
structure Arguments where
  source? : Option String := none
  filename? : Option String := none
  slotWidth? : Option Nat := none
  maxDepth? : Option Nat := none
  switches : List Switch := []
  deriving DecidableEq, Repr

namespace Arguments

def addSource (a : Arguments) (text : String) : Except Interruption Arguments :=
  if a.source?.isSome then .error (.misuse (.secondSource text))
  else .ok { a with source? := some text }

def addSwitch (a : Arguments) (switch : Switch) : Except Interruption Arguments :=
  if switch ∈ a.switches then .error (.misuse (.repeated switch.name))
  else .ok { a with switches := switch :: a.switches }

/-- A value that is given for the first time. -/
def once {α : Type} (setting : Setting) (old : Option α) (value : String) (new : Option α) :
    Except Interruption (Option α) :=
  match new with
  | none => .error (.misuse (.outOfRange setting.name value))
  | some a => if old.isSome then .error (.misuse (.repeated setting.name)) else .ok (some a)

def addSetting (a : Arguments) (setting : Setting) (value : String) :
    Except Interruption Arguments :=
  match setting with
  | .filename => do
    let name ← once setting a.filename? value (some value)
    return { a with filename? := name }
  | .slotWidth => do
    let width ← once setting a.slotWidth? value (readUpTo? maxSlotWidth value)
    return { a with slotWidth? := width }
  | .maxDepth => do
    let depth ← once setting a.maxDepth? value (readUpTo? greatestMaxDepth value)
    return { a with maxDepth? := depth }

def readLetters (argument : String) : List Char → Except Interruption Unit
  | [] => .ok ()
  | 'v' :: letters => readLetters argument letters
  | 'V' :: _ => .error .version
  | 'h' :: _ => .error .help
  | _ => .error (.misuse (.unknownOption argument))

/-- Whether an argument can be the value of the option before it. -/
def isValue (argument : String) : Bool := argument = "-" || argument.toList.head? ≠ some '-'

/-- What an argument is: the mark after which everything is a source, a name after two dashes with
what comes after `=`, letters after one dash, or a source. -/
inductive Form
  | separator
  | long (name : String) (value? : Option String)
  | short (letters : List Char)
  | source

def form (argument : String) : Form :=
  match argument.toList with
  | ['-', '-'] => .separator
  | '-' :: '-' :: cs =>
    .long (String.ofList (cs.takeWhile (· ≠ '=')))
      (match cs.dropWhile (· ≠ '=') with
        | _ :: value => some (String.ofList value)
        | [] => none)
  | '-' :: c :: cs => .short (c :: cs)
  | _ => .source

def readLong (a : Arguments) (argument name : String) (value? : Option String) :
    Except Interruption Arguments :=
  let known? : Option (Except Interruption Arguments) :=
    match Switch.ofName? name, name with
    | some switch, _ => some (a.addSwitch switch)
    | none, "verbose" => some (.ok a)
    | none, "version" => some (.error .version)
    | none, "help" => some (.error .help)
    | none, _ => none
  match known?, value? with
  | none, _ => .error (.misuse (.unknownOption argument))
  | some _, some _ => .error (.misuse (.unexpectedValue name))
  | some result, none => result

def read (a : Arguments) : List String → Except Interruption Arguments
  | [] => .ok a
  | argument :: rest =>
    match form argument with
    | .separator => rest.foldlM addSource a
    | .source => do (← a.addSource argument).read rest
    | .short letters => do
      readLetters argument letters
      a.read rest
    | .long name value? =>
      match Setting.ofName? name, value? with
      | some setting, some value => do (← a.addSetting setting value).read rest
      | some setting, none =>
        match rest with
        | value :: rest =>
          if isValue value then do (← a.addSetting setting value).read rest
          else .error (.misuse (.missingValue name))
        | [] => .error (.misuse (.missingValue name))
      | none, _ => do (← a.readLong argument name value?).read rest

end Arguments

inductive Origin
  | argument (source : String)
  | file (name : String)
  | standardInput
  deriving DecidableEq, Repr

/-- How a source is compiled, and what is shown of it. -/
structure Options where
  origin : Origin := .standardInput
  config : Config := {}
  /-- Whether the outline is shown in place of the compact text. -/
  printAst : Bool := false
  printTokens : Bool := false
  printLocals : Bool := false
  timings : Bool := false
  deriving DecidableEq, Repr

def Arguments.options (a : Arguments) : Except Misuse Options :=
  let origin : Except Misuse Origin :=
    match a.source?, a.filename? with
    | some _, some _ => .error (.conflict Setting.filename.name "a source")
    | some source, none => .ok (.argument source)
    | none, some name => .ok (.file name)
    | none, none => .ok .standardInput
  let has (switch : Switch) : Bool := switch ∈ a.switches
  if has .shadowing && !has .eagerIdents then
    .error (.missingOption Switch.shadowing.name Switch.eagerIdents.name)
  else do
    return {
      origin := ← origin
      config := {
        slotWidth := a.slotWidth?.getD defaultSlotWidth
        maxDepth := a.maxDepth?.getD defaultMaxDepth
        eager := has .eagerIdents
        mode := if has .shadowing then .shadowing else .unique }
      printAst := has .printAst
      printTokens := has .printTokens
      printLocals := has .printLocals
      timings := has .timings }

/-- The options that a command line asks for, or why there is nothing to compile. -/
def interpret (args : List String) : Except Interruption Options := do
  let a ← ({} : Arguments).read args
  a.options.mapError .misuse

end FrameLang.CommandLine

import FrameLang.Fault
import FrameLang.Utf8

/-!
# Diagnostics

How an error is shown to the author of a source: its line and column, the line itself, and a caret
under the place with the message.

A place is given as a byte offset.  `splitAtByte` cuts the source there, and what is shown is read
off the two parts.  Only a line feed ends a line, and carriage returns at the end of a line are not
shown.
-/

namespace FrameLang

/-- A place in a source: a line and a column in characters, both counted from one, and the offset of
a character or of the end in bytes. -/
structure Location where
  line : Nat
  column : Nat
  offset : Nat
  deriving DecidableEq, Repr

def lastLine (cs : List Char) : List Char := (cs.reverse.takeWhile (· ≠ '\n')).reverse

def firstLine (cs : List Char) : List Char := cs.takeWhile (· ≠ '\n')

/-- The line and column of a byte offset. -/
def locate (source : String) (pos : Nat) : Location :=
  let before := (splitAtByte pos source.toList).1
  { line := before.count '\n' + 1
    column := (lastLine before).length + 1
    offset := (String.ofList before).utf8ByteSize }

/-- A line without the carriage returns at its end. -/
def trimReturns (cs : List Char) : List Char := (cs.reverse.dropWhile (· = '\r')).reverse

/-- The line that holds a byte offset, without its ending. -/
def shownLine (source : String) (pos : Nat) : String :=
  let (before, after) := splitAtByte pos source.toList
  String.ofList (trimReturns (lastLine before ++ firstLine after))

/-- A diagnostic: where the fault is, the line that holds it, and the message behind a caret under
the column. -/
def report (source : String) (pos : Nat) (message : String) : String :=
  let place := locate source pos
  "rcc: error at line " ++ toString place.line ++ ", column " ++ toString place.column
    ++ " (offset " ++ toString place.offset ++ ")\n"
    ++ shownLine source pos ++ "\n"
    ++ String.ofList (List.replicate (place.column - 1) ' ') ++ "^ " ++ message ++ "\n"

def CompileError.report (source : String) (e : CompileError) : String :=
  FrameLang.report source e.pos e.message

end FrameLang

import FrameLang.CommandLine.Response

/-!
# The program

Reads the arguments, the source and the clock, and writes the answer.
-/

namespace FrameLang.CommandLine

/-- A duration in nanoseconds as text, in the largest unit that leaves a whole part. -/
def durationText (nanoseconds : Nat) : String :=
  let inUnit (digits : Nat) (unit : String) :=
    let part := toString (nanoseconds % Nat.pow 10 digits)
    let fraction := List.replicate (digits - part.length) '0' ++ part.toList
    let shown := (fraction.reverse.dropWhile (· = '0')).reverse
    toString (nanoseconds / Nat.pow 10 digits)
      ++ (if shown.isEmpty then "" else "." ++ String.ofList shown) ++ unit
  if nanoseconds < 1000 then toString nanoseconds ++ "ns"
  else if nanoseconds < 1000000 then inUnit 3 "µs"
  else if nanoseconds < 1000000000 then inUnit 6 "ms"
  else inUnit 9 "s"

/-- The fault that an error of the system stands for.  Its number may come as its complement. -/
def readFault (e : IO.Error) : ReadFault :=
  let isNumber (n : Nat) (code : UInt32) : Bool := code = n.toUInt32 || code = 0 - n.toUInt32
  match e with
  | .noFileOrDirectory _ _ _ => .missing
  | .permissionDenied _ _ _ => .denied
  | .inappropriateType _ code _ => if isNumber 20 code then .notFolder else .isFolder
  | .invalidArgument _ code _ => if isNumber 36 code then .nameTooLong else .other (toString e)
  | e => .other (toString e)

def readContent (origin : Origin) : IO (Except ReadFault ByteArray) := do
  try
    match origin with
    | .argument _ => return .ok .empty
    | .standardInput => return .ok (← (← IO.getStdin).readBinToEnd)
    | .file name => return .ok (← IO.FS.readBinFile name)
  catch e => return .error (readFault e)

def runTimed (o : Options) (source : String) : IO Response := do
  let t₀ ← IO.monoNanosNow
  match o.tokens source with
  | (.error e, _) => return Options.lexicalFailure source e
  | (.ok tokens, locals) =>
    let t₁ ← IO.monoNanosNow
    let outcome := o.program tokens locals
    let t₂ ← IO.monoNanosNow
    return o.conclude source tokens outcome
      { lex := durationText (t₁ - t₀)
        parse := durationText (t₂ - t₁)
        total := durationText (t₂ - t₀) }

def runArguments (args : List String) : IO Response := do
  match interpret args with
  | .error i => return i.response
  | .ok o =>
    match o.origin.load (← readContent o.origin) with
    | .error e => return unreadable e
    | .ok source => runTimed o source

end FrameLang.CommandLine

def main (args : List String) : IO UInt32 := do
  let response ← FrameLang.CommandLine.runArguments args
  IO.print response.output
  IO.eprint response.errors
  return response.exitCode.toUInt32

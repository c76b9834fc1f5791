import FrameLang.CommandLine.Arguments

/-!
# Loading a source

A source is an argument itself, or the bytes of a file or of the standard input, if they are a text
in UTF-8.  `ReadFault` says why there are no such bytes, in the words of the system.
-/

namespace FrameLang.CommandLine

inductive ReadFault
  | missing
  | notFolder
  | isFolder
  | nameTooLong
  | denied
  | notText
  | other (reason : String)
  deriving DecidableEq, Repr

def ReadFault.message : ReadFault → String
  | missing => "No such file or directory (os error 2)"
  | notFolder => "Not a directory (os error 20)"
  | isFolder => "Is a directory (os error 21)"
  | nameTooLong => "File name too long (os error 36)"
  | denied => "Permission denied (os error 13)"
  | notText => "stream did not contain valid UTF-8"
  | other reason => reason

def decodeText (bytes : ByteArray) : Except ReadFault String :=
  match String.fromUTF8? bytes with
  | some text => .ok text
  | none => .error .notText

inductive LoadError
  | standardInput (fault : ReadFault)
  | file (name : String) (fault : ReadFault)
  deriving DecidableEq, Repr

def LoadError.message : LoadError → String
  | standardInput fault => fault.message
  | file name fault => "could not open file '" ++ name ++ "': " ++ fault.message

/-- The source, given what reading its file or the standard input came to. -/
def Origin.load (origin : Origin) (content : Except ReadFault ByteArray) :
    Except LoadError String :=
  match origin with
  | .argument source => .ok source
  | .standardInput => (content.bind decodeText).mapError .standardInput
  | .file name => (content.bind decodeText).mapError (.file name)

end FrameLang.CommandLine

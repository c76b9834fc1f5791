import FrameLang.Token

/-!
# Listings of tokens

A line for each token: its byte offset, set to the right in five columns, its kind, set to the left
in six, and its text, with two blanks between them.
-/

namespace FrameLang

def padLeft (width : Nat) (text : String) : String :=
  String.ofList (List.replicate (width - text.length) ' ') ++ text

def padRight (width : Nat) (text : String) : String :=
  text ++ String.ofList (List.replicate (width - text.length) ' ')

def Token.listing (t : Token) : String :=
  padLeft 5 (toString t.pos) ++ "  " ++ padRight 6 t.cls.kind.label ++ "  " ++ t.describe ++ "\n"

def tokenListing (tokens : List Token) : String := String.join (tokens.map Token.listing)

end FrameLang

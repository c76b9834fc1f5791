import FrameLang.Parser.State

/-!
# Parsers

A `Parser` holds the tokens still to come, a table of locals and a limit on nesting.
`Parser.parse` reads statements up to the end of the input or the first error, and answers with the
parser that is left.

* Every identifier that is read is declared, in the order of the tokens, also when the parse fails
  later on.  A tree refers to a local by the offset of its slot.
* After an error the parser can be used again.  It goes on at the token that was refused, or after
  it if that token would have opened a level beyond the limit.  The levels that were open count
  against the limit from then on.
-/

namespace FrameLang

def defaultMaxDepth : Nat := 256

structure Parser where
  pending : List Token
  /-- The byte offset of the end of the input. -/
  stop : Nat
  locals : Locals
  /-- The number of levels that earlier calls have left open. -/
  depth : Nat
  limit : Nat
  deriving DecidableEq, Repr

namespace Parser

/-- A parser over some tokens.  Its input ends at the first end of the input among them, or after
the last token if there is none. -/
def ofTokens (tokens : List Token) (locals : Locals) : Parser where
  pending := tokens.takeWhile fun t => !t.isEof
  stop :=
    match tokens.find? Token.isEof with
    | some t => t.pos
    | none => (tokens.getLast?.map Token.stop).getD 0
  locals := locals
  depth := 0
  limit := defaultMaxDepth

def withMaxDepth (p : Parser) (limit : Nat) : Parser := { p with limit := limit }

/-- The number of levels that the next call may open. -/
def room (p : Parser) : Nat := p.limit - p.depth

def nextRun (p : Parser) : Run Nat := run Locals.slot p.room (.initial p.locals) p.pending

/-- The error of the next call for a refusal of the first token of `rest`, or of the end of the
input. -/
def errorAt (p : Parser) (refusal : Refusal) (rest : List Token) : SyntaxError :=
  let t := rest.headD (.eofAt p.stop)
  ⟨t.pos, refusal.fault p.limit t⟩

def afterRefusal (refusal : Refusal) (rest : List Token) : List Token :=
  match refusal with
  | .tooDeep => rest.tail
  | .mismatch _ | .missingOperand => rest

/-- The program up to the end of the input, or the first error, and the parser that is left. -/
def parse (p : Parser) : Except SyntaxError Program × Parser :=
  let r := p.nextRun
  let locals := r.state.locals
  match r.refusal? with
  | none =>
    (.ok ⟨r.state.done.reverse, locals.frameSize⟩, { p with pending := r.rest, locals := locals })
  | some refusal =>
    (.error (p.errorAt refusal r.rest),
      { p with
        pending := afterRefusal refusal r.rest
        locals := locals
        depth := p.depth + r.state.abandoned refusal })

end Parser

end FrameLang

import FrameLang.Cursor
import FrameLang.Locals

/-!
# Registering identifiers as they are read

A source can be read together with a table of locals: each identifier is registered in the table as
soon as its token has been read, before anything is known about the tokens after it.

* `Cursor.nextWith`, `Cursor.stepsWith`, `Cursor.scanWith`: the readings of a cursor with a table.
* `tokenizeWith`: a whole source.

The table that is left is part of every answer, so what was registered before a fault stays.
-/

namespace FrameLang

def Locals.registerToken (locals : Locals) (t : Token) : Locals :=
  match t.name? with
  | some name => locals.register name
  | none => locals

namespace Cursor

/-- The next token or fault, the place to go on from, and the table with the token registered. -/
def nextWith (c : Cursor) (locals : Locals) : Except LexicalError Token × Cursor × Locals :=
  match c.next with
  | (.ok t, c) => (.ok t, c, locals.registerToken t)
  | (.error e, c) => (.error e, c, locals)

def stepsWith : Nat → Cursor → Locals → List (Except LexicalError Token) × Locals
  | 0, _, locals => ([], locals)
  | n + 1, c, locals =>
    let (answer, c, locals) := c.nextWith locals
    let (answers, locals) := stepsWith n c locals
    (answer :: answers, locals)

def scanWith (c : Cursor) (locals : Locals) : Scan × Locals :=
  match h : c.next with
  | (.error e, _) => (⟨[], .error e⟩, locals)
  | (.ok t, c') =>
    if ht : t.isEof then (⟨[], .ok t⟩, locals)
    else
      have := Cursor.next_shorter h ht
      let (s, locals) := c'.scanWith (locals.registerToken t)
      (⟨t :: s.tokens, s.ending⟩, locals)
termination_by c.rest.length

end Cursor

/-- The tokens of a source, with every identifier registered as it is read. -/
def tokenizeWith (source : String) (locals : Locals) : Except LexicalError (List Token) × Locals :=
  let (s, locals) := (Cursor.start source).scanWith locals
  (s.result, locals)

end FrameLang

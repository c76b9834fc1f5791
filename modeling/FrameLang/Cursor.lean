import FrameLang.Fault
import FrameLang.Token

/-!
# Reading tokens off a source

A `Cursor` is a place in a source: the characters still to come and the byte offset where they
start.  `Cursor.next` skips blanks and reads the longest token that starts there.

* A punctuator of two characters wins over one of its first character; `!` alone is no token.
* A maximal run of digits is a literal, if its value is at most `maxLiteral`.
* Another maximal run of letters, digits and underscores is an identifier.

`Cursor.scan` reads up to the end of the input or the first fault, and `tokenize` keeps the result
only if there was no fault.  It ends because a token that is not the end of the input has at least
one character (`Cursor.next_shorter`).
-/

namespace FrameLang

/-- The characters between tokens: the six blanks of ASCII. -/
def isBlank (c : Char) : Bool :=
  c = ' ' || c = '\t' || c = '\n' || c = '\x0b' || c = '\x0c' || c = '\r'

/-- The characters of identifiers: the letters and digits of ASCII, and the underscore. -/
def isNameChar (c : Char) : Bool := c.isAlphanum || c = '_'

/-- The greatest value of a literal: one less than the 63rd power of two. -/
def maxLiteral : Nat := 9223372036854775807

/-- The longest punctuator at the start of a text, and the text after it. -/
def Punct.read? : List Char → Option (Punct × List Char)
  | '=' :: '=' :: r => some (.equal, r)
  | '!' :: '=' :: r => some (.notEqual, r)
  | '<' :: '=' :: r => some (.lessEqual, r)
  | '>' :: '=' :: r => some (.greaterEqual, r)
  | '=' :: r => some (.assign, r)
  | '<' :: r => some (.less, r)
  | '>' :: r => some (.greater, r)
  | '(' :: r => some (.leftParen, r)
  | ')' :: r => some (.rightParen, r)
  | ';' :: r => some (.semicolon, r)
  | '+' :: r => some (.plus, r)
  | '-' :: r => some (.minus, r)
  | '*' :: r => some (.star, r)
  | '/' :: r => some (.slash, r)
  | _ => none

theorem Punct.eq_append_of_read? {cs r : List Char} {p : Punct} (h : Punct.read? cs = some (p, r)) :
    cs = p.spelling.toList ++ r := by
  unfold Punct.read? at h
  split at h <;> simp_all [Punct.spelling] <;> (obtain ⟨rfl, rfl⟩ := h; rfl)

theorem Punct.length_spelling_pos (p : Punct) : 0 < p.spelling.toList.length := by
  cases p <;> decide

theorem length_dropWhile_lt {α : Type} {p : α → Bool} {a : α} {l : List α} (h : p a = true) :
    ((a :: l).dropWhile p).length < (a :: l).length := by
  rw [List.dropWhile_cons_of_pos h]
  exact Nat.lt_succ_of_le (List.dropWhile_suffix p).length_le

structure Cursor where
  rest : List Char
  /-- The byte offset of the first character of `rest`. -/
  offset : Nat
  deriving DecidableEq, Repr

namespace Cursor

def start (source : String) : Cursor := ⟨source.toList, 0⟩

/-- The place after the characters that satisfy `p`. -/
def skip (p : Char → Bool) (c : Cursor) : Cursor :=
  ⟨c.rest.dropWhile p, c.offset + (String.ofList (c.rest.takeWhile p)).utf8ByteSize⟩

def lead (p : Char → Bool) (c : Cursor) : List Char := c.rest.takeWhile p

/-- Reads a token where no blank comes first: a token or a fault, and the place to go on from.  A
literal that is too large is passed over, and a character that starts no token is not. -/
def lexeme (c : Cursor) : Except LexicalError Token × Cursor :=
  match Punct.read? c.rest with
  | some (p, r) => (.ok ⟨.punct p, p.spelling, c.offset⟩, ⟨r, c.offset + p.spelling.utf8ByteSize⟩)
  | none =>
    match c.rest with
    | [] => (.ok (.eofAt c.offset), c)
    | ch :: _ =>
      if ch.isDigit then
        let digits := c.lead Char.isDigit
        let value := Nat.ofDigitChars 10 digits 0
        if value ≤ maxLiteral then
          (.ok ⟨.num value, String.ofList digits, c.offset⟩, c.skip Char.isDigit)
        else
          (.error ⟨c.offset, .literalTooLarge (String.ofList digits)⟩, c.skip Char.isDigit)
      else if isNameChar ch then
        (.ok ⟨.ident, String.ofList (c.lead isNameChar), c.offset⟩, c.skip isNameChar)
      else
        (.error ⟨c.offset, .unknownChar ch⟩, c)

/-- The next token or fault, and the place to go on from.  At the end of the source the answer is
the end of the input, again and again. -/
def next (c : Cursor) : Except LexicalError Token × Cursor := (c.skip isBlank).lexeme

theorem lexeme_shorter {c : Cursor} {t : Token} (h : c.lexeme.1 = .ok t) (ht : t.isEof = false) :
    c.lexeme.2.rest.length < c.rest.length := by
  unfold lexeme at h ⊢
  split at h
  case h_1 p r hp =>
    have hl := congrArg List.length (Punct.eq_append_of_read? hp)
    have := Punct.length_spelling_pos p
    rw [List.length_append] at hl
    show r.length < c.rest.length
    omega
  case h_2 =>
    split at h
    · cases h
      simp [Token.eofAt, Token.isEof] at ht
    · rename_i ch r hr
      simp only [hr]
      split at h
      · rename_i hd
        simp only [hd, ↓reduceIte]
        split <;> simp only [skip, hr] <;> exact length_dropWhile_lt hd
      · rename_i hd
        simp only [hd]
        split at h
        · rename_i hn
          simp only [hn, ↓reduceIte, skip, hr]
          exact length_dropWhile_lt hn
        · cases h

theorem next_shorter {c c' : Cursor} {t : Token} (h : c.next = (.ok t, c'))
    (ht : ¬ t.isEof = true) : c'.rest.length < c.rest.length := by
  have h₁ : (c.skip isBlank).lexeme.1 = .ok t := congrArg Prod.fst h
  have h₂ : (c.skip isBlank).lexeme.2 = c' := congrArg Prod.snd h
  have := lexeme_shorter h₁ (by simpa using ht)
  rw [h₂] at this
  exact Nat.lt_of_lt_of_le this (List.dropWhile_suffix isBlank).length_le

/-- The answers of the first `n` readings, going on after faults and at the end. -/
def steps : Nat → Cursor → List (Except LexicalError Token)
  | 0, _ => []
  | n + 1, c =>
    let (answer, c) := c.next
    answer :: steps n c

end Cursor

/-- A whole reading: the tokens before the end of the input or the first fault, and which of the
two it was. -/
structure Scan where
  tokens : List Token
  ending : Except LexicalError Token

def Cursor.scan (c : Cursor) : Scan :=
  match h : c.next with
  | (.error e, _) => ⟨[], .error e⟩
  | (.ok t, c') =>
    if ht : t.isEof then ⟨[], .ok t⟩
    else
      have := Cursor.next_shorter h ht
      let s := c'.scan
      ⟨t :: s.tokens, s.ending⟩
termination_by c.rest.length

def scan (source : String) : Scan := (Cursor.start source).scan

namespace Scan

/-- All tokens, the end of the input last, or the fault. -/
def result (s : Scan) : Except LexicalError (List Token) :=
  s.ending.map fun t => s.tokens ++ [t]

end Scan

/-- The tokens of a source, the end of the input last, or its first fault. -/
def tokenize (source : String) : Except LexicalError (List Token) := (scan source).result

end FrameLang

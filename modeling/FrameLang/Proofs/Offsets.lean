import FrameLang.Proofs.Boundary
import FrameLang.Proofs.Bytes
import FrameLang.Proofs.Segmentation

/-!
# Reading at byte offsets

A scanner may hold a whole text and one byte offset, and take parts of the text by their offsets.
That fails if an offset is inside a character or beyond the end.  Blanks, digits and names are
passed character by character, but punctuators by a fixed number of bytes.

* `charsFrom?`, `charsBetween?`: a part of a text, if the text can be cut there.
* `nextAt?`: a reading at a byte offset, all of whose parts are taken by their offsets.
* `Cursor.On`: a cursor is a place in a text.
* `Cursor.nextAt?_eq`: at such a place no part fails to be taken, and the reading is that of the
  cursor.
-/

namespace FrameLang

/-- The characters from a byte offset on, if the text can be cut there. -/
def charsFrom? (chars : List Char) (pos : Nat) : Option (List Char) :=
  let (before, after) := splitAtByte pos chars
  if String.utf8Len before = pos then some after else none

/-- The characters between two byte offsets, if the text can be cut at both. -/
def charsBetween? (chars : List Char) (start stop : Nat) : Option (List Char) :=
  match charsFrom? chars start with
  | none => none
  | some after =>
    let (text, _) := splitAtByte (stop - start) after
    if start + String.utf8Len text = stop then some text else none

variable {chars before after text rest : List Char} {start stop pos width : Nat} {c : Char}
  {p : Punct} {q : Char → Bool}

/-! ## Parts of a text -/

/-- A text can be cut between two parts of it, and nowhere else. -/
theorem charsFrom?_eq_some_iff :
    charsFrom? chars pos = some after ↔
      ∃ before, chars = before ++ after ∧ String.utf8Len before = pos := by
  unfold charsFrom?
  dsimp only
  constructor
  · intro h
    split at h
    case isTrue hpos =>
      obtain rfl := Option.some.inj h
      exact ⟨_, (splitAtByte_append pos chars).symm, hpos⟩
    case isFalse => cases h
  · rintro ⟨before, rfl, rfl⟩
    rw [splitAtByte_utf8Len, if_pos rfl]

theorem charsFrom?_append (before after : List Char) :
    charsFrom? (before ++ after) (String.utf8Len before) = some after :=
  charsFrom?_eq_some_iff.2 ⟨before, rfl, rfl⟩

theorem charsBetween?_append (before text after : List Char) :
    charsBetween? (before ++ (text ++ after)) (String.utf8Len before)
      (String.utf8Len before + String.utf8Len text) = some text := by
  rw [charsBetween?, charsFrom?_append]
  dsimp only
  rw [Nat.add_sub_cancel_left, splitAtByte_utf8Len, if_pos rfl]

theorem lt_of_charsFrom? (h : charsFrom? chars pos = some (c :: rest)) :
    pos < String.utf8Len chars := by
  obtain ⟨before, rfl, rfl⟩ := charsFrom?_eq_some_iff.1 h
  have hc := c.utf8Size_pos
  rw [String.utf8Len_append, String.utf8Len_cons]
  omega

/-! ## Readings -/

/-- The byte offset after the characters that satisfy `q`, passed one by one. -/
def passFrom? (q : Char → Bool) (chars : List Char) (pos : Nat) : Option Nat :=
  match h : charsFrom? chars pos with
  | none => none
  | some [] => some pos
  | some (c :: _) =>
    have := lt_of_charsFrom? h
    if q c then passFrom? q chars (pos + c.utf8Size) else some pos
termination_by String.utf8Len chars - pos
decreasing_by
  have hc := c.utf8Size_pos
  omega

def Punct.ofChars? : List Char → Option Punct
  | ['('] => some .leftParen
  | [')'] => some .rightParen
  | [';'] => some .semicolon
  | ['='] => some .assign
  | ['<'] => some .less
  | ['>'] => some .greater
  | ['+'] => some .plus
  | ['-'] => some .minus
  | ['*'] => some .star
  | ['/'] => some .slash
  | ['=', '='] => some .equal
  | ['!', '='] => some .notEqual
  | ['<', '='] => some .lessEqual
  | ['>', '='] => some .greaterEqual
  | _ => none

def Punct.pair? : List Char → Option Punct
  | c :: d :: _ => ofChars? [c, d]
  | _ => none

/-- Passes a number of bytes, and takes the text between as a punctuator. -/
def punctAt? (p : Punct) (width : Nat) (chars : List Char) (pos : Nat) :
    Option (Except LexicalError Token × Nat) :=
  (charsBetween? chars pos (pos + width)).map fun text =>
    (.ok ⟨.punct p, String.ofList text, pos⟩, pos + width)

/-- Passes the characters that satisfy `q`, and answers with the text between. -/
def wordAt? (q : Char → Bool) (answer : List Char → Except LexicalError Token) (chars : List Char)
    (pos : Nat) : Option (Except LexicalError Token × Nat) := do
  let stop ← passFrom? q chars pos
  let text ← charsBetween? chars pos stop
  return (answer text, stop)

def literalAnswer (pos : Nat) (digits : List Char) : Except LexicalError Token :=
  let value := Nat.ofDigitChars 10 digits 0
  if value ≤ maxLiteral then .ok ⟨.num value, String.ofList digits, pos⟩
  else .error ⟨pos, .literalTooLarge (String.ofList digits)⟩

/-- The reading at a byte offset where no blank comes first. -/
def lexemeAt? (chars : List Char) (pos : Nat) : Option (Except LexicalError Token × Nat) := do
  match ← charsFrom? chars pos with
  | [] => return (.ok (.eofAt pos), pos)
  | c :: rest =>
    match Punct.pair? (c :: rest), Punct.ofChars? [c] with
    | some p, _ => punctAt? p 2 chars pos
    | none, some p => punctAt? p 1 chars pos
    | none, none =>
      if c.isDigit then wordAt? Char.isDigit (literalAnswer pos) chars pos
      else if isNameChar c then
        wordAt? isNameChar (fun name => .ok ⟨.ident, String.ofList name, pos⟩) chars pos
      else return (.error ⟨pos, .unknownChar c⟩, pos)

/-- The reading at a byte offset: its answer, and the offset to go on from. -/
def nextAt? (chars : List Char) (pos : Nat) : Option (Except LexicalError Token × Nat) :=
  (passFrom? isBlank chars pos).bind (lexemeAt? chars)

/-! ## Passing characters -/

theorem passFrom?_eq (q : Char → Bool) (chars : List Char) (pos : Nat) :
    passFrom? q chars pos =
      match charsFrom? chars pos with
      | none => none
      | some [] => some pos
      | some (c :: _) => if q c then passFrom? q chars (pos + c.utf8Size) else some pos := by
  rw [passFrom?]
  split
  case h_1 h => rw [h]
  case h_2 h => rw [h]
  case h_3 h => simp only [h]

theorem passFrom?_append (q : Char → Bool) (before rest : List Char) :
    passFrom? q (before ++ rest) (String.utf8Len before) =
      some (String.utf8Len before + String.utf8Len (rest.takeWhile q)) := by
  induction rest generalizing before with
  | nil =>
    rw [passFrom?_eq, charsFrom?_append]
    rfl
  | cons c rest ih =>
    rw [passFrom?_eq, charsFrom?_append]
    dsimp only
    split
    case isTrue hc =>
      have hpassed := ih (before ++ [c])
      rw [List.append_assoc, List.singleton_append, String.utf8Len_append, String.utf8Len_cons,
        String.utf8Len_nil, Nat.zero_add] at hpassed
      rw [hpassed, List.takeWhile_cons_of_pos hc, String.utf8Len_cons, Nat.add_assoc,
        Nat.add_comm c.utf8Size]
    case isFalse hc =>
      rw [List.takeWhile_cons_of_neg hc]
      rfl

theorem wordAt?_append (q : Char → Bool) (answer : List Char → Except LexicalError Token)
    (before rest : List Char) :
    wordAt? q answer (before ++ rest) (String.utf8Len before) =
      some (answer (rest.takeWhile q),
        String.utf8Len before + String.utf8Len (rest.takeWhile q)) := by
  have htext := charsBetween?_append before (rest.takeWhile q) (rest.dropWhile q)
  rw [List.takeWhile_append_dropWhile] at htext
  rw [wordAt?, passFrom?_append]
  simp only [Option.bind_eq_bind, Option.bind_some, htext]
  rfl

/-! ## Passing punctuators -/

theorem Punct.ofChars?_eq_some_iff {cs : List Char} :
    ofChars? cs = some p ↔ p.spelling.toList = cs := by
  constructor
  · intro h
    unfold ofChars? at h
    split at h <;> cases h <;> rfl
  · rintro rfl
    cases p <;> rfl

theorem Punct.length_spelling_le (p : Punct) : p.spelling.toList.length ≤ 2 := by
  cases p <;> decide

theorem Punct.utf8ByteSize_spelling (p : Punct) :
    p.spelling.utf8ByteSize = p.spelling.toList.length := by
  cases p <;> decide

theorem Punct.growsWithEquals_eq_false (h : p.spelling.toList.length = 2) :
    p.growsWithEquals = false := by
  cases hgrows : p.growsWithEquals with
  | false => rfl
  | true =>
    obtain ⟨p', hp'⟩ := exists_spelling_concat hgrows
    have hle := p'.length_spelling_le
    rw [hp', List.length_append, h] at hle
    exact absurd hle (by decide)

theorem Punct.read?_of_pair? (h : pair? (c :: rest) = some p) :
    ∃ d r, rest = d :: r ∧ p.spelling.toList = [c, d] ∧ read? (c :: rest) = some (p, r) := by
  cases rest with
  | nil => cases h
  | cons d r =>
    have hp : p.spelling.toList = [c, d] := ofChars?_eq_some_iff.1 h
    refine ⟨d, r, rfl, hp, ?_⟩
    have hgrows : p.growsWithEquals = false := growsWithEquals_eq_false (by rw [hp]; rfl)
    have hread := read?_append_of_growsWithEquals_eq_false hgrows r
    rwa [hp] at hread

theorem Punct.read?_of_ofChars? (hpair : pair? (c :: rest) = none) (h : ofChars? [c] = some p) :
    p.spelling.toList = [c] ∧ read? (c :: rest) = some (p, rest) := by
  have hp : p.spelling.toList = [c] := ofChars?_eq_some_iff.1 h
  have hread : read? (p.spelling.toList ++ rest) = some (p, rest) := by
    cases hgrows : p.growsWithEquals with
    | false => exact read?_append_of_growsWithEquals_eq_false hgrows rest
    | true =>
      refine p.read?_append ?_
      rintro r rfl
      obtain ⟨p', hp'⟩ := exists_spelling_concat hgrows
      rw [hp] at hp'
      have hpair' : pair? (c :: '=' :: r) = some p' := ofChars?_eq_some_iff.2 hp'
      cases hpair.symm.trans hpair'
  rw [hp] at hread
  exact ⟨hp, hread⟩

theorem Punct.read?_eq_none (hpair : pair? (c :: rest) = none) (h : ofChars? [c] = none) :
    read? (c :: rest) = none := by
  cases hread : read? (c :: rest) with
  | none => rfl
  | some a =>
    obtain ⟨p, r⟩ := a
    have hcs := eq_append_of_read? hread
    have hle := p.length_spelling_le
    obtain ⟨d, ds, hp⟩ := List.exists_cons_of_length_pos p.length_spelling_pos
    rw [hp] at hcs hle
    obtain ⟨rfl, hrest⟩ := List.cons.inj hcs
    cases ds with
    | nil =>
      rw [ofChars?_eq_some_iff.2 hp] at h
      cases h
    | cons d ds =>
      obtain rfl : ds = [] := List.eq_nil_of_length_eq_zero (by simpa using hle)
      rw [hrest] at hpair
      have hpair' : pair? (c :: d :: r) = some p := ofChars?_eq_some_iff.2 hp
      cases hpair.symm.trans hpair'

theorem punctAt?_append (before rest : List Char) (hp : p.spelling.utf8ByteSize = width) :
    punctAt? p width (before ++ (p.spelling.toList ++ rest)) (String.utf8Len before) =
      some (.ok ⟨.punct p, p.spelling, String.utf8Len before⟩, String.utf8Len before + width) := by
  rw [punctAt?, ← hp, ← String.utf8Len_toList, charsBetween?_append, Option.map_some,
    String.ofList_toList]

/-! ## Readings of a cursor -/

namespace Cursor

/-- The cursor is a place in a text. -/
def On (chars : List Char) (c : Cursor) : Prop := charsFrom? chars c.offset = some c.rest

theorem On.exists_before {c : Cursor} (h : c.On chars) :
    ∃ before, chars = before ++ c.rest ∧ String.utf8Len before = c.offset :=
  charsFrom?_eq_some_iff.1 h

theorem On.skip {c : Cursor} (h : c.On chars) (q : Char → Bool) : (c.skip q).On chars := by
  obtain ⟨before, rfl, hpos⟩ := h.exists_before
  refine charsFrom?_eq_some_iff.2 ⟨before ++ c.rest.takeWhile q, ?_, ?_⟩
  · rw [List.append_assoc, Cursor.skip_eq, List.takeWhile_append_dropWhile]
  · rw [String.utf8Len_append, hpos, Cursor.skip_eq]

theorem lexemeAt?_eq {c : Cursor} (h : c.On chars) :
    lexemeAt? chars c.offset = some (c.lexeme.1, c.lexeme.2.offset) := by
  obtain ⟨rest, offset⟩ := c
  obtain ⟨before, rfl, rfl⟩ := h.exists_before
  cases rest with
  | nil =>
    rw [lexemeAt?, charsFrom?_append]
    rfl
  | cons c rest =>
    rw [lexemeAt?, charsFrom?_append, lexeme]
    simp only [Option.bind_eq_bind, Option.bind_some]
    cases hpair : Punct.pair? (c :: rest) with
    | some p =>
      obtain ⟨d, r, rfl, hp, hread⟩ := Punct.read?_of_pair? hpair
      have hwidth : p.spelling.utf8ByteSize = 2 := by rw [p.utf8ByteSize_spelling, hp]; rfl
      have hpunct := punctAt?_append before r hwidth
      rw [hp] at hpunct
      simp only [hread, hwidth]
      exact hpunct
    | none =>
      cases hone : Punct.ofChars? [c] with
      | some p =>
        obtain ⟨hp, hread⟩ := Punct.read?_of_ofChars? hpair hone
        have hwidth : p.spelling.utf8ByteSize = 1 := by rw [p.utf8ByteSize_spelling, hp]; rfl
        have hpunct := punctAt?_append before rest hwidth
        rw [hp] at hpunct
        simp only [hread, hwidth]
        exact hpunct
      | none =>
        simp only [Punct.read?_eq_none hpair hone, wordAt?_append, literalAnswer, lead,
          Cursor.skip_eq]
        cases hdigit : c.isDigit with
        | true =>
          by_cases hle : Nat.ofDigitChars 10 ((c :: rest).takeWhile Char.isDigit) 0 ≤ maxLiteral
          · simp only [hle, ↓reduceIte]
          · simp only [hle, ↓reduceIte]
        | false =>
          cases hname : isNameChar c with
          | true => rfl
          | false => rfl

/-- **A reading at a byte offset is the reading of the cursor there.**  No part of the text fails to
be taken. -/
theorem nextAt?_eq {c : Cursor} (h : c.On chars) :
    nextAt? chars c.offset = some (c.next.1, c.next.2.offset) := by
  obtain ⟨before, hchars, hpos⟩ := h.exists_before
  have hpass := passFrom?_append isBlank before c.rest
  rw [← hchars, hpos] at hpass
  rw [nextAt?, hpass]
  have hlexeme := lexemeAt?_eq (h.skip isBlank)
  rw [skip_eq] at hlexeme
  rw [next, skip_eq]
  exact hlexeme

end Cursor

end FrameLang

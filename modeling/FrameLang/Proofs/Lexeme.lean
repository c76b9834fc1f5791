import FrameLang.Cursor
import Mathlib.Data.String.Basic

/-!
# The longest lexeme

What a token may be is a matter of its text alone: one of the punctuators, some digits, or a name.
`Cursor.lexeme` tells these apart by their first characters and takes as much as it can.

* `Lexeme`: the texts of the three sorts, with their classes.  A text has one class only.
* `Longest`: a lexeme that a text starts with, where no longer one starts there.
* `Munch`, `Cursor.munch_lexeme`, `Munch.unique`: what a reading does, told by the longest lexeme
  and not by characters.
-/

namespace FrameLang

/-- The text of a token, and the class that it has. -/
inductive Lexeme : TokenClass → List Char → Prop
  | punct (p : Punct) : Lexeme (.punct p) p.spelling.toList
  | literal {digits : List Char} (hne : digits ≠ []) (hd : ∀ c ∈ digits, c.isDigit = true) :
      Lexeme (.num (Nat.ofDigitChars 10 digits 0)) digits
  | name {c : Char} {cs : List Char} (hc : c.isAlpha = true ∨ c = '_')
      (hcs : ∀ d ∈ cs, d.isAlphanum = true ∨ d = '_') : Lexeme .ident (c :: cs)

/-- Among the lexemes that `text ++ rest` starts with, `text` is the longest. -/
structure Longest (cls : TokenClass) (text rest : List Char) : Prop where
  lexeme : Lexeme cls text
  longest : ∀ cls' text', Lexeme cls' text' → text' <+: text ++ rest → text'.length ≤ text.length

/-! ## Characters -/

variable {c : Char} {cs text text' rest rest' : List Char} {cls cls' : TokenClass} {p : Punct}

theorem isNameChar_iff : isNameChar c = true ↔ c.isAlphanum = true ∨ c = '_' := by
  rw [isNameChar, Bool.or_eq_true, decide_eq_true_iff]

theorem isNameChar_of_isDigit (h : c.isDigit = true) : isNameChar c = true :=
  isNameChar_iff.2 (.inl (by rw [Char.isAlphanum, h, Bool.or_true]))

theorem isDigit_eq_false_of_isAlpha (h : c.isAlpha = true) : c.isDigit = false := by
  unfold Char.isAlpha Char.isUpper Char.isLower at h
  unfold Char.isDigit
  grind

theorem isAlpha_or_iff :
    c.isAlpha = true ∨ c = '_' ↔ isNameChar c = true ∧ c.isDigit = false := by
  rw [isNameChar_iff, Char.isAlphanum, Bool.or_eq_true]
  constructor
  · rintro (h | rfl)
    · exact ⟨.inl (.inl h), isDigit_eq_false_of_isAlpha h⟩
    · exact ⟨.inr rfl, by decide⟩
  · rintro ⟨(h | h) | h, hd⟩
    · exact .inl h
    · rw [h] at hd
      cases hd
    · exact .inr h

theorem isBlank_eq_false_of_isNameChar (h : isNameChar c = true) : isBlank c = false := by
  cases hb : isBlank c with
  | false => rfl
  | true =>
    simp only [isBlank, Bool.or_eq_true, decide_eq_true_eq] at hb
    rcases hb with ((((rfl | rfl) | rfl) | rfl) | rfl) | rfl <;> exact absurd h (by decide)

theorem isNameChar_eq_false_of_isBlank (h : isBlank c = true) : isNameChar c = false := by
  cases hn : isNameChar c with
  | false => rfl
  | true =>
    rw [isBlank_eq_false_of_isNameChar hn] at h
    cases h

theorem isDigit_eq_false_of_isNameChar (h : isNameChar c = false) : c.isDigit = false := by
  cases hd : c.isDigit with
  | false => rfl
  | true =>
    rw [isNameChar_of_isDigit hd] at h
    cases h

theorem Punct.isNameChar_eq_false (p : Punct) :
    ∀ c ∈ p.spelling.toList, isNameChar c = false := by
  have h : (p.spelling.toList.all fun c => !isNameChar c) = true := by cases p <;> rfl
  simpa using h

theorem Punct.isBlank_eq_false (p : Punct) : ∀ c ∈ p.spelling.toList, isBlank c = false := by
  have h : (p.spelling.toList.all fun c => !isBlank c) = true := by cases p <;> rfl
  simpa using h

/-! ## Punctuators -/

theorem Punct.read?_append (p : Punct) (h : ∀ r, rest ≠ '=' :: r) :
    Punct.read? (p.spelling.toList ++ rest) = some (p, rest) := by
  cases p
  case assign | less | greater => simp [spelling, read?]
  all_goals rfl

theorem Punct.exists_read? (h : p.spelling.toList <+: cs) :
    ∃ p' r, Punct.read? cs = some (p', r) ∧
      p.spelling.toList.length ≤ p'.spelling.toList.length := by
  obtain ⟨rest, rfl⟩ := h
  by_cases hr : ∃ r, rest = '=' :: r
  · obtain ⟨r, rfl⟩ := hr
    cases p <;> exact ⟨_, _, rfl, by decide⟩
  · exact ⟨p, rest, p.read?_append fun r h => hr ⟨r, h⟩, Nat.le_refl _⟩

theorem Punct.eq_of_spelling {p p' : Punct} (h : p.spelling.toList = p'.spelling.toList) :
    p = p' := by
  have hnil : ∀ r : List Char, [] ≠ '=' :: r := nofun
  have hp := p.read?_append hnil
  rw [h, p'.read?_append hnil] at hp
  exact (Prod.mk.inj (Option.some.inj hp)).1.symm

/-! ## Lexemes -/

theorem Lexeme.exists_cons (h : Lexeme cls text) :
    ∃ c cs, text = c :: cs ∧
      ((∃ p, cls = .punct p ∧ text = p.spelling.toList ∧ isNameChar c = false) ∨
        (c.isDigit = true ∧ cls = .num (Nat.ofDigitChars 10 text 0) ∧
          ∀ d ∈ text, d.isDigit = true) ∨
        (isNameChar c = true ∧ c.isDigit = false ∧ cls = .ident ∧
          ∀ d ∈ text, isNameChar d = true)) := by
  cases h with
  | punct p =>
    obtain ⟨c, cs, hp⟩ := List.exists_cons_of_length_pos p.length_spelling_pos
    exact ⟨c, cs, hp, .inl ⟨p, rfl, rfl, p.isNameChar_eq_false c (by rw [hp]; simp)⟩⟩
  | literal hne hd =>
    obtain ⟨c, cs, rfl⟩ := List.exists_cons_of_ne_nil hne
    exact ⟨c, cs, rfl, .inr (.inl ⟨hd c (by simp), rfl, hd⟩)⟩
  | @name c cs hc hcs =>
    obtain ⟨hname, hdigit⟩ := isAlpha_or_iff.1 hc
    refine ⟨c, cs, rfl, .inr (.inr ⟨hname, hdigit, rfl, ?_⟩)⟩
    intro d hd
    rcases List.mem_cons.1 hd with rfl | hd
    · exact hname
    · exact isNameChar_iff.2 (hcs d hd)

theorem Lexeme.unique (h : Lexeme cls text) (h' : Lexeme cls' text) : cls = cls' := by
  obtain ⟨c, cs, rfl, hc⟩ := h.exists_cons
  obtain ⟨c', cs', heq, hc'⟩ := h'.exists_cons
  obtain ⟨rfl, rfl⟩ := List.cons.inj heq
  rcases hc with ⟨p, rfl, hp, hn⟩ | ⟨hd, rfl, -⟩ | ⟨hn, hd, rfl, -⟩
  · rcases hc' with ⟨p', rfl, hp', -⟩ | ⟨hd, -⟩ | ⟨hn', -⟩
    · rw [Punct.eq_of_spelling (hp.symm.trans hp')]
    · rw [isNameChar_of_isDigit hd] at hn
      cases hn
    · rw [hn] at hn'
      cases hn'
  · rcases hc' with ⟨p', -, -, hn⟩ | ⟨-, rfl, -⟩ | ⟨-, hd', -⟩
    · rw [isNameChar_of_isDigit hd] at hn
      cases hn
    · rfl
    · rw [hd] at hd'
      cases hd'
  · rcases hc' with ⟨p', -, -, hn'⟩ | ⟨hd', -⟩ | ⟨-, -, rfl, -⟩
    · rw [hn] at hn'
      cases hn'
    · rw [hd] at hd'
      cases hd'
    · rfl

theorem Lexeme.isBlank_eq_false (h : Lexeme cls (c :: cs)) : isBlank c = false := by
  obtain ⟨c', cs', heq, hc⟩ := h.exists_cons
  obtain ⟨rfl, rfl⟩ := List.cons.inj heq
  rcases hc with ⟨p, -, hp, -⟩ | ⟨hd, -⟩ | ⟨hn, -⟩
  · exact p.isBlank_eq_false c (by rw [← hp]; simp)
  · exact isBlank_eq_false_of_isNameChar (isNameChar_of_isDigit hd)
  · exact isBlank_eq_false_of_isNameChar hn

theorem Lexeme.not_isBlank_append (h : Lexeme cls text) (rest : List Char) :
    ∀ c r, text ++ rest = c :: r → isBlank c = false := by
  intro c r hr
  obtain ⟨d, ds, rfl, -⟩ := h.exists_cons
  obtain ⟨rfl, -⟩ := List.cons.inj hr
  exact h.isBlank_eq_false

theorem Longest.not_isBlank (h : Longest cls text rest) :
    ∀ c r, text ++ rest = c :: r → isBlank c = false := h.lexeme.not_isBlank_append rest

/-- A text starts with one longest lexeme at most. -/
theorem Longest.unique (h : Longest cls text rest) (h' : Longest cls' text' rest')
    (heq : text ++ rest = text' ++ rest') : cls = cls' ∧ text = text' ∧ rest = rest' := by
  have hle : text'.length ≤ text.length :=
    h.longest cls' text' h'.lexeme (heq ▸ List.prefix_append ..)
  have hge : text.length ≤ text'.length :=
    h'.longest cls text h.lexeme (heq ▸ List.prefix_append ..)
  obtain ⟨rfl, rfl⟩ := List.append_inj heq (Nat.le_antisymm hge hle)
  exact ⟨h.lexeme.unique h'.lexeme, rfl, rfl⟩

/-! ## Reading a lexeme -/

theorem length_le_takeWhile {q : Char → Bool} (h : text <+: cs) (hq : ∀ c ∈ text, q c = true) :
    text.length ≤ (cs.takeWhile q).length := by
  obtain ⟨r, rfl⟩ := h
  rw [List.takeWhile_append_of_pos hq, List.length_append]
  exact Nat.le_add_right ..

theorem Longest.of_read? (h : Punct.read? cs = some (p, rest)) :
    Longest (.punct p) p.spelling.toList rest := by
  refine ⟨.punct p, fun cls text hl ht => ?_⟩
  have hcs := Punct.eq_append_of_read? h
  rw [← hcs] at ht
  obtain ⟨c, cs', rfl, hc⟩ := hl.exists_cons
  rcases hc with ⟨p', -, hp', -⟩ | hname
  · rw [hp'] at ht ⊢
    obtain ⟨p₂, r, h₂, hle⟩ := Punct.exists_read? ht
    rw [h] at h₂
    cases h₂
    exact hle
  · -- the first character would be one of names and one of the punctuator
    have hn : isNameChar c = true := hname.elim (isNameChar_of_isDigit ·.1) (·.1)
    obtain ⟨d, ds, hp⟩ := List.exists_cons_of_length_pos p.length_spelling_pos
    rw [hcs, hp, List.cons_append, List.cons_prefix_cons] at ht
    have hd := p.isNameChar_eq_false d (by rw [hp]; simp)
    rw [← ht.1, hn] at hd
    cases hd

theorem not_prefix_of_read?_eq_none (h : Punct.read? cs = none) (p : Punct) :
    ¬ p.spelling.toList <+: cs := by
  intro hp
  obtain ⟨p', r, hr, -⟩ := Punct.exists_read? hp
  rw [h] at hr
  cases hr

theorem Longest.of_isDigit (h : Punct.read? (c :: cs) = none) (hc : c.isDigit = true) :
    Longest (.num (Nat.ofDigitChars 10 ((c :: cs).takeWhile Char.isDigit) 0))
      ((c :: cs).takeWhile Char.isDigit) ((c :: cs).dropWhile Char.isDigit) := by
  refine ⟨.literal ?_ (List.all_eq_true.1 List.all_takeWhile), fun cls text hl ht => ?_⟩
  · rw [List.takeWhile_cons_of_pos hc]
    nofun
  · rw [List.takeWhile_append_dropWhile] at ht
    obtain ⟨c', cs', rfl, hc'⟩ := hl.exists_cons
    obtain ⟨rfl, -⟩ := List.cons_prefix_cons.1 ht
    rcases hc' with ⟨p, -, hp, -⟩ | ⟨-, -, hd⟩ | ⟨-, hd, -⟩
    · exact absurd (hp ▸ ht) (not_prefix_of_read?_eq_none h p)
    · exact length_le_takeWhile ht hd
    · rw [hc] at hd
      cases hd

theorem Longest.of_isNameChar (h : Punct.read? (c :: cs) = none) (hc : isNameChar c = true)
    (hd : c.isDigit = false) :
    Longest .ident ((c :: cs).takeWhile isNameChar) ((c :: cs).dropWhile isNameChar) := by
  constructor
  · rw [List.takeWhile_cons_of_pos hc]
    exact .name (isAlpha_or_iff.2 ⟨hc, hd⟩) fun d hd =>
      isNameChar_iff.1 (List.all_eq_true.1 List.all_takeWhile d hd)
  · intro cls text hl ht
    rw [List.takeWhile_append_dropWhile] at ht
    obtain ⟨c', cs', rfl, hc'⟩ := hl.exists_cons
    obtain ⟨rfl, -⟩ := List.cons_prefix_cons.1 ht
    rcases hc' with ⟨p, -, hp, -⟩ | ⟨hd', -⟩ | ⟨-, -, -, hn⟩
    · exact absurd (hp ▸ ht) (not_prefix_of_read?_eq_none h p)
    · rw [hd] at hd'
      cases hd'
    · exact length_le_takeWhile ht hn

theorem not_prefix_of_not_isNameChar (h : Punct.read? (c :: cs) = none)
    (hc : isNameChar c = false) (hl : Lexeme cls text) : ¬ text <+: c :: cs := by
  intro ht
  obtain ⟨c', cs', rfl, hc'⟩ := hl.exists_cons
  obtain ⟨rfl, -⟩ := List.cons_prefix_cons.1 ht
  rcases hc' with ⟨p, -, hp, -⟩ | ⟨hd, -⟩ | ⟨hn, -⟩
  · exact not_prefix_of_read?_eq_none h p (hp ▸ ht)
  · rw [isNameChar_of_isDigit hd] at hc
    cases hc
  · rw [hc] at hn
    cases hn

/-- What may be read at a cursor, and where it leads. -/
inductive Munch : Cursor → Except LexicalError Token × Cursor → Prop
  | ending {offset : Nat} : Munch ⟨[], offset⟩ (.ok (.eofAt offset), ⟨[], offset⟩)
  | token {cls : TokenClass} {text rest : List Char} {offset : Nat} (h : Longest cls text rest)
      (hfits : ∀ v, cls = .num v → v ≤ maxLiteral) :
      Munch ⟨text ++ rest, offset⟩
        (.ok ⟨cls, String.ofList text, offset⟩, ⟨rest, offset + String.utf8Len text⟩)
  | tooLarge {value : Int} {text rest : List Char} {offset : Nat}
      (h : Longest (.num value) text rest) (hlarge : maxLiteral < value) :
      Munch ⟨text ++ rest, offset⟩
        (.error ⟨offset, .literalTooLarge (String.ofList text)⟩,
          ⟨rest, offset + String.utf8Len text⟩)
  | unknown {c : Char} {cs : List Char} {offset : Nat}
      (h : ∀ cls text, Lexeme cls text → ¬ text <+: c :: cs) :
      Munch ⟨c :: cs, offset⟩ (.error ⟨offset, .unknownChar c⟩, ⟨c :: cs, offset⟩)

/-- **A reading takes the longest lexeme**, or reports that it is too large or that there is
none. -/
theorem Cursor.munch_lexeme (c : Cursor) : Munch c c.lexeme := by
  obtain ⟨cs, offset⟩ := c
  unfold lexeme
  dsimp only
  split
  case h_1 p r hp =>
    have h : Munch ⟨_, offset⟩ _ := .token (.of_read? hp) nofun
    rwa [← Punct.eq_append_of_read? hp, String.ofList_toList, String.utf8Len_toList] at h
  case h_2 hp =>
    split
    case h_1 => exact .ending
    case h_2 c r =>
      split
      case isTrue hd =>
        have h := Longest.of_isDigit hp hd
        split
        case isTrue hle =>
          have hm : Munch ⟨_, offset⟩ _ := .token h fun v hv => by
            cases hv
            exact Int.ofNat_le.2 hle
          rwa [List.takeWhile_append_dropWhile, ← String.utf8ByteSize_ofList] at hm
        case isFalse hle =>
          have hm : Munch ⟨_, offset⟩ _ := .tooLarge h (Int.ofNat_lt.2 (Nat.not_le.1 hle))
          rwa [List.takeWhile_append_dropWhile, ← String.utf8ByteSize_ofList] at hm
      case isFalse hd =>
        split
        case isTrue hn =>
          have hm : Munch ⟨_, offset⟩ _ :=
            .token (.of_isNameChar hp hn (by simpa using hd)) nofun
          rwa [List.takeWhile_append_dropWhile, ← String.utf8ByteSize_ofList] at hm
        case isFalse hn =>
          exact .unknown fun cls text => not_prefix_of_not_isNameChar hp (by simpa using hn)

theorem Longest.append_ne_nil (h : Longest cls text rest) : text ++ rest ≠ [] := by
  obtain ⟨c, cs, rfl, -⟩ := h.lexeme.exists_cons
  exact List.cons_ne_nil c _

theorem Munch.unique {c : Cursor} {a b : Except LexicalError Token × Cursor} (h : Munch c a)
    (h' : Munch c b) : a = b := by
  obtain ⟨cs, offset⟩ := c
  cases h with
  | ending =>
    generalize hcs : ([] : List Char) = cs at h'
    cases h' with
    | ending => rfl
    | token h' => exact absurd hcs.symm h'.append_ne_nil
    | tooLarge h' => exact absurd hcs.symm h'.append_ne_nil
    | unknown => cases hcs
  | @token cls text rest _ h hfits =>
    generalize hcs : text ++ rest = cs at h'
    cases h' with
    | ending => exact absurd hcs h.append_ne_nil
    | token h' =>
      obtain ⟨rfl, rfl, rfl⟩ := h.unique h' hcs
      rfl
    | tooLarge h' hlarge =>
      obtain ⟨rfl, rfl, rfl⟩ := h.unique h' hcs
      exact absurd (hfits _ rfl) (Int.not_le.2 hlarge)
    | unknown h' => exact absurd (hcs ▸ List.prefix_append ..) (h' cls text h.lexeme)
  | @tooLarge value text rest _ h hlarge =>
    generalize hcs : text ++ rest = cs at h'
    cases h' with
    | ending => exact absurd hcs h.append_ne_nil
    | token h' hfits =>
      obtain ⟨rfl, rfl, rfl⟩ := h.unique h' hcs
      exact absurd (hfits _ rfl) (Int.not_le.2 hlarge)
    | tooLarge h' =>
      obtain ⟨-, rfl, rfl⟩ := h.unique h' hcs
      rfl
    | unknown h' => exact absurd (hcs ▸ List.prefix_append ..) (h' _ text h.lexeme)
  | @unknown c cs _ h =>
    generalize hcs : c :: cs = chars at h'
    cases h' with
    | ending => cases hcs
    | token h' => exact absurd (hcs ▸ List.prefix_append ..) (h _ _ h'.lexeme)
    | tooLarge h' => exact absurd (hcs ▸ List.prefix_append ..) (h _ _ h'.lexeme)
    | unknown =>
      cases hcs
      rfl

end FrameLang

import FrameLang.Proofs.Lexeme

/-!
# Where a lexeme ends

Whether a lexeme is the longest one does not depend on its text, but on its class and on the one
character that comes right after it.

* `TokenClass.growsWith`: whether a character right after a lexeme of some class makes it longer.
* `longest_iff`: a lexeme is the longest one if what comes after it does not make it longer.
* `growsWith_eq_false`, `growsWith_eq_false_of_isBlank`, `growsWith_semicolon`,
  `growsWith_eq_of_isNameChar`: which characters are no different in this respect.
-/

namespace FrameLang

/-- Whether another punctuator is spelled as this one with an equals sign after it. -/
def Punct.growsWithEquals : Punct → Bool
  | assign | less | greater => true
  | _ => false

/-- Whether a character right after a lexeme of some class makes a longer lexeme. -/
def TokenClass.growsWith : TokenClass → Char → Bool
  | punct p, c => p.growsWithEquals && c = '='
  | num _, c => c.isDigit
  | ident, c => isNameChar c
  | eof, _ => false

variable {c d : Char} {text rest u : List Char} {cls cls' : TokenClass} {p : Punct}

/-! ## Punctuators -/

theorem Punct.read?_append_of_growsWithEquals_eq_false (h : p.growsWithEquals = false)
    (rest : List Char) : Punct.read? (p.spelling.toList ++ rest) = some (p, rest) := by
  cases p
  case assign | less | greater => cases h
  all_goals rfl

theorem Punct.exists_spelling_concat (h : p.growsWithEquals = true) :
    ∃ p' : Punct, p'.spelling.toList = p.spelling.toList ++ ['='] := by
  cases p
  case assign => exact ⟨.equal, by decide⟩
  case less => exact ⟨.lessEqual, by decide⟩
  case greater => exact ⟨.greaterEqual, by decide⟩
  all_goals cases h

theorem Punct.growsWith_of_spelling {p' : Punct}
    (h : p'.spelling.toList = p.spelling.toList ++ c :: u) :
    TokenClass.growsWith (.punct p) c = true := by
  have hread : Punct.read? (p.spelling.toList ++ c :: u) = some (p', []) := by
    have hlonger : Punct.read? (p'.spelling.toList ++ []) = some (p', []) := p'.read?_append nofun
    rwa [List.append_nil, h] at hlonger
  by_cases hc : c = '='
  · cases hp : p.growsWithEquals with
    | true => simp [TokenClass.growsWith, hp, hc]
    | false =>
      rw [read?_append_of_growsWithEquals_eq_false hp] at hread
      cases hread
  · rw [p.read?_append fun r hr => hc (List.cons.inj hr).1] at hread
    cases hread

/-! ## Longest lexemes -/

theorem Lexeme.exists_concat (h : Lexeme cls text) (hc : cls.growsWith c = true) :
    ∃ cls', Lexeme cls' (text ++ [c]) := by
  cases h with
  | punct p =>
    rw [TokenClass.growsWith, Bool.and_eq_true, decide_eq_true_iff] at hc
    obtain ⟨p', hp'⟩ := Punct.exists_spelling_concat hc.1
    exact ⟨_, by rw [hc.2, ← hp']; exact .punct p'⟩
  | literal hne hdigits =>
    have hdigit : c.isDigit = true := hc
    refine ⟨_, .literal (by simp) ?_⟩
    exact List.forall_mem_append.2 ⟨hdigits, List.forall_mem_singleton.2 hdigit⟩
  | name hfirst hrest =>
    have hname := isNameChar_iff.1 hc
    refine ⟨_, .name hfirst ?_⟩
    exact List.forall_mem_append.2 ⟨hrest, List.forall_mem_singleton.2 hname⟩

theorem Lexeme.growsWith_of_append (h : Lexeme cls text) (h' : Lexeme cls' (text ++ c :: u)) :
    cls.growsWith c = true := by
  obtain ⟨d, ds, rfl, hd⟩ := h.exists_cons
  obtain ⟨d', ds', heq, hd'⟩ := h'.exists_cons
  obtain ⟨rfl, -⟩ := List.cons.inj heq
  rcases hd with ⟨p, rfl, hp, hn⟩ | ⟨hdigit, rfl, -⟩ | ⟨hn, hdigit, rfl, -⟩
  · rcases hd' with ⟨p', -, hp', -⟩ | ⟨hdigit, -⟩ | ⟨hn', -⟩
    · rw [hp] at hp'
      exact Punct.growsWith_of_spelling hp'.symm
    · rw [isNameChar_of_isDigit hdigit] at hn
      cases hn
    · rw [hn] at hn'
      cases hn'
  · rcases hd' with ⟨p', -, -, hn⟩ | ⟨-, -, hdigits⟩ | ⟨-, hdigit', -⟩
    · rw [isNameChar_of_isDigit hdigit] at hn
      cases hn
    · exact hdigits c (by simp)
    · rw [hdigit] at hdigit'
      cases hdigit'
  · rcases hd' with ⟨p', -, -, hn'⟩ | ⟨hdigit', -⟩ | ⟨-, -, -, hnames⟩
    · rw [hn] at hn'
      cases hn'
    · rw [hdigit] at hdigit'
      cases hdigit'
    · exact hnames c (by simp)

/-- **A lexeme is the longest one if the next character does not make it longer.** -/
theorem longest_iff :
    Longest cls text rest ↔
      Lexeme cls text ∧ ∀ c r, rest = c :: r → cls.growsWith c = false := by
  constructor
  · intro h
    refine ⟨h.lexeme, ?_⟩
    rintro c r rfl
    cases hc : cls.growsWith c with
    | false => rfl
    | true =>
      obtain ⟨cls', hlonger⟩ := h.lexeme.exists_concat hc
      have hle := h.longest cls' _ hlonger ⟨r, by simp⟩
      rw [List.length_append, List.length_singleton] at hle
      omega
  · rintro ⟨hl, hnext⟩
    refine ⟨hl, fun cls' text' hl' hprefix => Nat.le_of_not_lt fun hlt => ?_⟩
    obtain ⟨u, rfl⟩ : text <+: text' :=
      List.prefix_of_prefix_length_le (List.prefix_append ..) hprefix (Nat.le_of_lt hlt)
    cases u with
    | nil => simp at hlt
    | cons c u =>
      obtain ⟨r, hr⟩ : c :: u <+: rest := (List.prefix_append_right_inj text).1 hprefix
      have hgrows := hl.growsWith_of_append hl'
      rw [hnext c _ hr.symm] at hgrows
      cases hgrows

/-! ## Characters that do not differ -/

theorem growsWith_eq_false (hname : isNameChar c = false) (hne : c ≠ '=') (cls : TokenClass) :
    cls.growsWith c = false := by
  cases cls with
  | punct p => simp [TokenClass.growsWith, hne]
  | num value => exact isDigit_eq_false_of_isNameChar hname
  | ident => exact hname
  | eof => rfl

theorem growsWith_eq_false_of_isBlank (h : isBlank c = true) (cls : TokenClass) :
    cls.growsWith c = false := by
  have hne : c ≠ '=' := by
    rintro rfl
    cases h
  exact growsWith_eq_false (isNameChar_eq_false_of_isBlank h) hne cls

theorem growsWith_semicolon (c : Char) : TokenClass.growsWith (.punct .semicolon) c = false := rfl

theorem ne_equals_of_isNameChar (h : isNameChar c = true) : c ≠ '=' := by
  rintro rfl
  cases h

theorem growsWith_eq_of_isNameChar (hc : isNameChar c = true) (hcd : c.isDigit = false)
    (hd : isNameChar d = true) (hdd : d.isDigit = false) (cls : TokenClass) :
    cls.growsWith c = cls.growsWith d := by
  cases cls with
  | punct p =>
    simp [TokenClass.growsWith, ne_equals_of_isNameChar hc, ne_equals_of_isNameChar hd]
  | num value => exact hcd.trans hdd.symm
  | ident => exact hc.trans hd.symm
  | eof => rfl

end FrameLang

import FrameLang.Proofs.Concatenation

/-!
# The first fault of a source

A source that cannot be cut into tokens has a first fault.  What stands in front of it can be cut
into tokens alone, and they are the ones that are read before the fault.  Which fault it is depends
on what comes next at its place, and on one character in front of it.

* `LexicalFault.Arises`: the faults, told by the characters around their places.
* `Cursor.exists_arises`: the first fault of what is left to read.
* `Segmentation.scan_arises`: what can be cut into tokens, and then a fault.
* `tokenize_first_fault`: both for a whole source.
* `tokenizeWith_registers`: the names that are registered, also in front of a fault.
-/

namespace FrameLang

/-- A character that is no part of a number and of no name: no digit, no letter and no
underscore. -/
def OutsideWords (c : Char) : Prop := c.isDigit = false ∧ c.isAlpha = false ∧ c ≠ '_'

/-- **Which fault arises** between the characters before some place and those from there on: an
exclamation mark by itself, a character that is not blank and that no token starts with, or a run of
digits that goes on in neither direction and is worth the 63rd power of two or more. -/
inductive LexicalFault.Arises : LexicalFault → List Char → List Char → Prop
  | bang {before rest : List Char} (hrest : ∀ r, rest ≠ '=' :: r) :
      Arises (.unknownChar '!') before ('!' :: rest)
  | stray {before rest : List Char} {c : Char} (hblank : c ∉ blanks) (hword : OutsideWords c)
      (hpunct : ∀ p : Punct, p.spelling.toList.head? ≠ some c) :
      Arises (.unknownChar c) before (c :: rest)
  | tooLarge {before digits rest : List Char} (hdigits : ∀ c ∈ digits, c.isDigit = true)
      (hrest : ∀ c r, rest = c :: r → c.isDigit = false)
      (hbefore : ∀ c, before.getLast? = some c → OutsideWords c)
      (hlarge : 9223372036854775808 ≤ Nat.ofDigitChars 10 digits 0) :
      Arises (.literalTooLarge (String.ofList digits)) before (digits ++ rest)

variable {before after gap text rest : List Char} {cls : TokenClass} {offset : Nat} {c d : Char}
  {ts : List Token} {e : LexicalError} {fault : LexicalFault}

/-! ## Characters -/

theorem outsideWords_iff : OutsideWords c ↔ isNameChar c = false := by
  rw [OutsideWords, ← Bool.not_eq_true (isNameChar c), isNameChar_iff, Char.isAlphanum,
    Bool.or_eq_true, ← Bool.not_eq_true, ← Bool.not_eq_true]
  tauto

theorem outsideWords_of_mem_blanks (h : c ∈ blanks) : OutsideWords c :=
  outsideWords_iff.2 (isNameChar_eq_false_of_isBlank (isBlank_iff.2 h))

theorem Lexeme.growsWith_eq (h : Lexeme cls text) (hc : text.getLast? = some c)
    (hd : d.isDigit = true) : cls.growsWith d = isNameChar c := by
  have hmem : c ∈ text := List.mem_of_getLast? hc
  cases h with
  | punct p =>
    have hne : d ≠ '=' := ne_equals_of_isNameChar (isNameChar_of_isDigit hd)
    rw [p.isNameChar_eq_false c hmem]
    simp [TokenClass.growsWith, hne]
  | literal _ hdigits =>
    rw [isNameChar_of_isDigit (hdigits c hmem)]
    exact hd
  | @name a cs ha hcs =>
    have hname : isNameChar c = true := by
      rcases List.mem_cons.1 hmem with rfl | hcs'
      · exact (isAlpha_or_iff.1 ha).1
      · exact isNameChar_iff.2 (hcs c hcs')
    rw [hname]
    exact isNameChar_of_isDigit hd

/-! ## Characters that no token starts with -/

theorem Punct.eq_notEqual_or (p : Punct) :
    p = .notEqual ∨ ∃ p' : Punct, p'.spelling.toList = p.spelling.toList.take 1 := by
  by_cases hlength : p.spelling.toList.length ≤ 1
  · exact .inr ⟨p, (List.take_of_length_le hlength).symm⟩
  · cases p
    case notEqual => exact .inl rfl
    case equal => exact .inr ⟨.assign, rfl⟩
    case lessEqual => exact .inr ⟨.less, rfl⟩
    case greaterEqual => exact .inr ⟨.greater, rfl⟩
    all_goals exact absurd (Nat.le_refl 1) hlength

theorem Punct.read?_bang (hrest : ∀ r, rest ≠ '=' :: r) : Punct.read? ('!' :: rest) = none := by
  cases rest with
  | nil => rfl
  | cons d r =>
    have hd : d ≠ '=' := fun hd => hrest r (by rw [hd])
    simp [read?, hd]

theorem Punct.read?_of_head? (hpunct : ∀ p : Punct, p.spelling.toList.head? ≠ some c) :
    Punct.read? (c :: rest) = none := by
  cases hread : Punct.read? (c :: rest) with
  | none => rfl
  | some a =>
    obtain ⟨d, ds, hp⟩ := List.exists_cons_of_length_pos a.1.length_spelling_pos
    have heq := Punct.eq_append_of_read? (p := a.1) (r := a.2) hread
    rw [hp] at heq
    exact absurd (by rw [hp, (List.cons.inj heq).1]; rfl) (hpunct a.1)

theorem Punct.eq_bang_of_read? {p : Punct} (h : Punct.read? (c :: rest) = none)
    (hp : p.spelling.toList.head? = some c) : c = '!' ∧ ∀ r, rest ≠ '=' :: r := by
  have hnot : ∀ p' : Punct, ¬ p'.spelling.toList <+: c :: rest := not_prefix_of_read?_eq_none h
  rcases p.eq_notEqual_or with rfl | ⟨p', hp'⟩
  · obtain rfl : '!' = c := Option.some.inj hp
    refine ⟨rfl, ?_⟩
    rintro r rfl
    exact hnot .notEqual (List.prefix_append ..)
  · obtain ⟨cs, hcs⟩ := List.head?_eq_some_iff.1 hp
    rw [hcs] at hp'
    exact absurd (by rw [hp']; exact List.prefix_append [c] rest) (hnot p')

/-- Where no token can be read, one of two sorts of character comes next. -/
theorem LexicalFault.arises_of_not_prefix
    (h : ∀ cls text, Lexeme cls text → ¬ text <+: c :: rest) (hblank : isBlank c = false) :
    Arises (.unknownChar c) before (c :: rest) := by
  have hread : Punct.read? (c :: rest) = none := by
    cases hread : Punct.read? (c :: rest) with
    | none => rfl
    | some a =>
      have hlongest := Longest.of_read? hread
      refine absurd ?_ (h _ _ hlongest.lexeme)
      rw [Punct.eq_append_of_read? hread]
      exact List.prefix_append ..
  have hfirst : ∀ cls, ¬ Lexeme cls [c] := fun cls hl =>
    h cls [c] hl (List.cons_prefix_cons.2 ⟨rfl, List.nil_prefix⟩)
  have hname : isNameChar c = false := by
    cases hn : isNameChar c with
    | false => rfl
    | true =>
      cases hd : c.isDigit with
      | false => exact absurd (.name (isAlpha_or_iff.2 ⟨hn, hd⟩) nofun) (hfirst .ident)
      | true =>
        exact absurd (.literal (List.cons_ne_nil c []) (List.forall_mem_singleton.2 hd)) (hfirst _)
  by_cases hbang : c = '!' ∧ ∀ r, rest ≠ '=' :: r
  · obtain ⟨rfl, hrest⟩ := hbang
    exact .bang hrest
  · refine .stray ?_ (outsideWords_iff.2 hname) fun p hp =>
      hbang (Punct.eq_bang_of_read? hread hp)
    rw [← isBlank_iff, hblank]
    nofun

/-! ## Reading a fault -/

theorem Longest.digits {v : Int} (h : Longest (.num v) text rest) :
    v = Nat.ofDigitChars 10 text 0 ∧ (∀ c ∈ text, c.isDigit = true) ∧
      ∀ c r, rest = c :: r → c.isDigit = false := by
  obtain ⟨hlexeme, hrest⟩ := longest_iff.1 h
  generalize hcls : TokenClass.num v = cls at hlexeme
  cases hlexeme with
  | punct p => cases hcls
  | name => cases hcls
  | literal _ hdigits =>
    cases hcls
    exact ⟨rfl, hdigits, hrest⟩

/-- A reading that fails reports what arises, if no word is in front of it. -/
theorem Munch.arises {c : Cursor} (h : Munch ⟨after, offset⟩ (.error e, c))
    (hblank : ∀ c r, after = c :: r → isBlank c = false)
    (hbefore : ∀ c, before.getLast? = some c → OutsideWords c) :
    e.pos = offset ∧ e.fault.Arises before after := by
  generalize hanswer : (Except.error e, c) = answer at h
  cases h with
  | ending => cases hanswer
  | token => cases hanswer
  | tooLarge h hlarge =>
    cases hanswer
    obtain ⟨rfl, hdigits, hrest⟩ := h.digits
    exact ⟨rfl, .tooLarge hdigits hrest hbefore (Nat.succ_le_of_lt (Int.ofNat_lt.1 hlarge))⟩
  | unknown h =>
    cases hanswer
    exact ⟨rfl, LexicalFault.arises_of_not_prefix h (hblank _ _ rfl)⟩

namespace LexicalFault.Arises

theorem exists_munch (h : fault.Arises before after) (offset : Nat) :
    ∃ c, Munch ⟨after, offset⟩ (.error ⟨offset, fault⟩, c) := by
  cases h with
  | bang hrest =>
    exact ⟨_, .unknown fun _ _ => not_prefix_of_not_isNameChar (Punct.read?_bang hrest) (by decide)⟩
  | stray _ hword hpunct =>
    exact ⟨_, .unknown fun _ _ =>
      not_prefix_of_not_isNameChar (Punct.read?_of_head? hpunct) (outsideWords_iff.1 hword)⟩
  | @tooLarge _ digits rest hdigits hrest _ hlarge =>
    have hne : digits ≠ [] := by
      rintro rfl
      exact absurd hlarge (by decide)
    exact ⟨_, .tooLarge (longest_iff.2 ⟨.literal hne hdigits, hrest⟩)
      (Int.ofNat_lt.2 (Nat.lt_of_succ_le hlarge))⟩

theorem exists_digit {digits : List Char} (hdigits : ∀ c ∈ digits, c.isDigit = true)
    (hlarge : 9223372036854775808 ≤ Nat.ofDigitChars 10 digits 0) :
    ∃ d r, digits = d :: r ∧ d.isDigit = true := by
  cases digits with
  | nil => exact absurd hlarge (by decide)
  | cons d r => exact ⟨d, r, rfl, hdigits d List.mem_cons_self⟩

theorem not_isBlank (h : fault.Arises before after) :
    ∀ c r, after = c :: r → isBlank c = false := by
  rintro d r hd
  cases h with
  | bang =>
    obtain ⟨rfl, -⟩ := List.cons.inj hd
    decide
  | stray hblank =>
    obtain ⟨rfl, -⟩ := List.cons.inj hd
    rwa [← isBlank_iff, Bool.not_eq_true] at hblank
  | tooLarge hdigits _ _ hlarge =>
    obtain ⟨d, r, rfl, hdigit⟩ := exists_digit hdigits hlarge
    obtain ⟨rfl, -⟩ := List.cons.inj hd
    exact isBlank_eq_false_of_isNameChar (isNameChar_of_isDigit hdigit)

theorem exists_next (h : fault.Arises before after) (offset : Nat) :
    ∃ c, Cursor.next ⟨after, offset⟩ = (.error ⟨offset, fault⟩, c) := by
  obtain ⟨c, hm⟩ := h.exists_munch offset
  refine ⟨c, ?_⟩
  rw [Cursor.next, Cursor.skip_isBlank_eq_self h.not_isBlank]
  exact (Cursor.munch_lexeme _).unique hm

/-- Where a fault arises, nothing makes the lexeme in front of it longer. -/
theorem growsWith_eq_false (h : fault.Arises before after) (hlexeme : Lexeme cls text)
    (hsuffix : text <:+ before) : ∀ c r, after = c :: r → cls.growsWith c = false := by
  rintro d r hd
  cases h with
  | bang =>
    obtain ⟨rfl, -⟩ := List.cons.inj hd
    exact FrameLang.growsWith_eq_false (by decide) (by decide) cls
  | stray _ hword hpunct =>
    obtain ⟨rfl, -⟩ := List.cons.inj hd
    refine FrameLang.growsWith_eq_false (outsideWords_iff.1 hword) ?_ cls
    rintro rfl
    exact hpunct .assign (by decide)
  | tooLarge hdigits _ hbefore hlarge =>
    obtain ⟨d, r, rfl, hdigit⟩ := exists_digit hdigits hlarge
    obtain ⟨rfl, -⟩ := List.cons.inj hd
    have hlast := List.getLast?_eq_some_getLast hlexeme.ne_nil
    obtain ⟨front, rfl⟩ := hsuffix
    rw [hlexeme.growsWith_eq hlast hdigit, ← outsideWords_iff]
    exact hbefore _ (by rw [List.getLast?_append, hlast]; rfl)

/-- A fault stays what it is behind blanks and a longest lexeme. -/
theorem behind (h : fault.Arises before after) (htext : Longest cls text (before ++ after)) :
    fault.Arises (gap ++ (text ++ before)) after := by
  cases h with
  | bang hrest => exact .bang hrest
  | stray hblank hword hpunct => exact .stray hblank hword hpunct
  | tooLarge hdigits hrest hbefore hlarge =>
    refine .tooLarge hdigits hrest (fun c hc => ?_) hlarge
    cases hb : before.getLast? with
    | some b =>
      rw [← List.append_assoc, List.getLast?_append, hb] at hc
      cases hc
      exact hbefore _ hb
    | none =>
      -- the lexeme is right in front of the digits
      obtain rfl := List.getLast?_eq_none_iff.1 hb
      obtain ⟨d, r, rfl, hdigit⟩ := exists_digit hdigits hlarge
      have hlast := List.getLast?_eq_some_getLast htext.lexeme.ne_nil
      rw [List.append_nil, List.getLast?_append, hlast, Option.some_or, ← hlast] at hc
      rw [outsideWords_iff, ← htext.lexeme.growsWith_eq hc hdigit]
      exact (longest_iff.1 htext).2 d _ rfl

end LexicalFault.Arises

/-! ## Reading up to a fault -/

theorem Longest.of_append (h : Longest cls text (before ++ after)) : Longest cls text before := by
  refine longest_iff.2 ⟨h.lexeme, fun c r hc => ?_⟩
  exact (longest_iff.1 h).2 c (r ++ after) (by rw [hc]; rfl)

theorem Cursor.not_isBlank_skip (c : Cursor) :
    ∀ ch r, (c.skip isBlank).rest = ch :: r → isBlank ch = false := by
  intro ch r hr
  have hhead := List.head?_dropWhile_not isBlank c.rest
  rw [show c.rest.dropWhile isBlank = ch :: r from hr] at hhead
  simpa using hhead

/-- **The first fault of a source.**  What is in front of it is a segmentation, with the tokens that
were read, and the fault arises at its place. -/
theorem Cursor.exists_arises (c : Cursor) (h : c.scan.ending = .error e) :
    ∃ before after, c.rest = before ++ after ∧ e.pos = c.offset + String.utf8Len before ∧
      Segmentation c.offset before c.scan.tokens ∧ (∀ t ∈ c.scan.tokens, t.Fits) ∧
      e.fault.Arises before after := by
  fun_induction Cursor.scan c with
  | case1 c e' c' hnext =>
    obtain rfl : e' = e := Except.error.inj h
    have hm : Munch (c.skip isBlank) c.next := munch_lexeme _
    rw [hnext] at hm
    have hgap : ∀ ch ∈ c.rest.takeWhile isBlank, ch ∈ blanks := fun ch hch =>
      isBlank_iff.1 (List.all_eq_true.1 List.all_takeWhile ch hch)
    obtain ⟨hpos, hfault⟩ := hm.arises c.not_isBlank_skip fun ch hch =>
      outsideWords_of_mem_blanks (hgap ch (List.mem_of_getLast? hch))
    rw [String.utf8ByteSize_ofList] at hpos
    exact ⟨_, _, List.takeWhile_append_dropWhile.symm, hpos, .nil hgap, List.forall_mem_nil _,
      hfault⟩
  | case2 => cases h
  | case3 c t c' hnext ht _ _ ih =>
    obtain ⟨gap, rest, hgap, hc, hm⟩ := c.exists_munch
    rw [hnext] at hm
    cases hm with
    | ending => exact absurd rfl ht
    | @token _ text _ _ htext hfits =>
      obtain ⟨before, after, rfl, hpos, hseg, hts, hfault⟩ := ih h
      refine ⟨gap ++ (text ++ before), after, ?_, ?_, .cons hgap htext.of_append hseg,
        List.forall_mem_cons.2 ⟨hfits, hts⟩, hfault.behind htext⟩
      · rw [hc, List.append_assoc, List.append_assoc]
      · rw [hpos, String.utf8Len_append, String.utf8Len_append, Nat.add_assoc, Nat.add_assoc]

theorem Segmentation.scan_arises (h : Segmentation offset before ts) (hfits : ∀ t ∈ ts, t.Fits)
    (hfault : fault.Arises before after) :
    Cursor.scan ⟨before ++ after, offset⟩ =
      ⟨ts, .error ⟨offset + String.utf8Len before, fault⟩⟩ := by
  have hlast : ∀ t, ts.getLast? = some t → t.text.toList <:+ before →
      ∀ c r, after = c :: r → t.cls.growsWith c = false := by
    intro t ht hsuffix
    obtain ⟨_, _, -, -, hlongest⟩ := h.exists_of_mem (List.mem_of_getLast? ht)
    exact hfault.growsWith_eq_false hlongest.lexeme hsuffix
  obtain ⟨c, hnext⟩ := hfault.exists_next (offset + String.utf8Len before)
  rw [h.scan_append hfits hlast, Cursor.scan_eq, hnext]
  dsimp only
  rw [List.append_nil]

theorem Cursor.steps_scan (c : Cursor) :
    c.steps (c.scan.tokens.length + 1) = c.scan.tokens.map .ok ++ [c.scan.ending] := by
  fun_induction Cursor.scan c with
  | case1 c e c' h => rw [steps, h]; rfl
  | case2 c t c' h ht => rw [steps, h]; rfl
  | case3 c t c' h ht _ s ih =>
    rw [List.length_cons, steps, h]
    exact congrArg (_ :: ·) ih

/-! ## Whole sources -/

theorem exists_arises_of_tokenize {source : String} (h : tokenize source = .error e) :
    ∃ before after : String, source = before ++ after ∧ before.utf8ByteSize = e.pos ∧
      (scan source).ending = .error e ∧
      Segmentation 0 before.toList (scan source).tokens ∧ (∀ t ∈ (scan source).tokens, t.Fits) ∧
      e.fault.Arises before.toList after.toList := by
  rcases tokenize_cases source with ⟨e', hending, he⟩ | ⟨-, -, htokens⟩
  · obtain rfl := Except.error.inj (he.symm.trans h)
    obtain ⟨before, after, hsource, hpos, hseg, hfits, hfault⟩ :=
      (Cursor.start source).exists_arises hending
    refine ⟨.ofList before, .ofList after, ?_, ?_, hending, ?_, hfits, ?_⟩
    · rw [← String.ofList_append, ← hsource]
      exact String.ofList_toList.symm
    · rw [String.utf8ByteSize_ofList, hpos]
      exact (Nat.zero_add _).symm
    · rwa [String.toList_ofList]
    · rwa [String.toList_ofList, String.toList_ofList]
  · rw [htokens] at h
    cases h

/-- **The first fault of a source, and what stands in front of it.**  The source up to the fault is
cut into the tokens that are read before it, and the fault arises at its place.  Wherever a fault
arises after a text that can be cut into tokens, it is the first one. -/
theorem tokenize_first_fault (source : String) :
    (∀ e, tokenize source = .error e →
      ∃ before after : String, source = before ++ after ∧ before.utf8ByteSize = e.pos ∧
        e.fault.Arises before.toList after.toList ∧
        ∃ tokens, tokenize before = .ok (tokens ++ [.eofAt e.pos]) ∧
          (∀ t ∈ tokens, t.isEof = false) ∧
          (Cursor.start source).steps (tokens.length + 1) = tokens.map .ok ++ [.error e]) ∧
    ∀ before after : String, source = before ++ after → ∀ fault : LexicalFault,
      fault.Arises before.toList after.toList → (∃ tokens, tokenize before = .ok tokens) →
      tokenize source = .error ⟨before.utf8ByteSize, fault⟩ := by
  constructor
  · intro e h
    obtain ⟨before, after, hsource, hpos, hending, hseg, hfits, hfault⟩ :=
      exists_arises_of_tokenize h
    refine ⟨before, after, hsource, hpos, hfault, (scan source).tokens, ?_,
      hseg.isEof_eq_false, ?_⟩
    · rw [hseg.tokenize_eq hfits, hpos]
    · rw [← hending]
      exact (Cursor.start source).steps_scan
  · rintro before after rfl fault hfault ⟨tokens, htokens⟩
    rcases tokenize_cases before with ⟨e, -, he⟩ | ⟨hseg, hfits, -⟩
    · rw [he] at htokens
      cases htokens
    · have hscan : Cursor.scan ⟨before.toList ++ after.toList, 0⟩ = ⟨_, _⟩ :=
        hseg.scan_arises hfits hfault
      rw [← String.toList_append, String.utf8Len_toList, Nat.zero_add] at hscan
      rw [tokenize, scan, Cursor.start, hscan]
      rfl

/-- A literal that is too large by one, between a punctuator and a character of two bytes. -/
theorem tokenize_first_fault_of_literal :
    let source := "a<9223372036854775808é"
    let e : LexicalError := ⟨2, .literalTooLarge "9223372036854775808"⟩
    tokenize source = .error e ∧
      ∃ before after : String, source = before ++ after ∧ before.utf8ByteSize = 2 ∧
        e.fault.Arises before.toList after.toList ∧
        ∃ tokens, tokenize before = .ok (tokens ++ [.eofAt 2]) ∧
          (∀ t ∈ tokens, t.isEof = false) ∧
          (Cursor.start source).steps (tokens.length + 1) = tokens.map .ok ++ [.error e] := by
  intro source e
  have hfault : e.fault.Arises "a<".toList ("9223372036854775808".toList ++ ['é']) := by
    have hbefore : "a<".toList.getLast? = some '<' := by decide
    refine .tooLarge (List.all_eq_true.1 (by decide)) ?_ ?_ (by decide)
    · rintro c r hc
      obtain ⟨rfl, -⟩ := List.cons.inj hc
      decide
    · intro c hc
      obtain rfl := Option.some.inj (hbefore.symm.trans hc)
      exact ⟨by decide, by decide, by decide⟩
  have hcut : tokenize "a<" = .ok [⟨.ident, "a", 0⟩, ⟨.punct .less, "<", 1⟩, .eofAt 2] := by
    with_unfolding_all rfl
  have h : tokenize source = .error e :=
    (tokenize_first_fault source).2 "a<" "9223372036854775808é" rfl _ hfault ⟨_, hcut⟩
  exact ⟨h, (tokenize_first_fault source).1 e h⟩

/-! ## Registering names -/

theorem Locals.registerTokens_eq_foldl (locals : Locals) (ts : List Token) :
    locals.registerTokens ts = (namesOf ts).foldl register locals := by
  induction ts generalizing locals with
  | nil => rfl
  | cons t ts ih =>
    rw [registerTokens_cons, ih]
    by_cases ht : t.cls = .ident
    · rw [namesOf_cons_of_ident ht, registerToken_of_ident ht, List.foldl_cons]
    · rw [namesOf_cons_of_ne_ident ht, registerToken_of_ne_ident ht]

theorem namesOf_concat_eof (ts : List Token) (pos : Nat) :
    namesOf (ts ++ [.eofAt pos]) = namesOf ts := by
  rw [namesOf_append]
  exact List.append_nil _

/-- **What reading a source registers.**  The tokens or the fault are the same as without a table.
The names of the tokens are registered in order, or, up to a fault, those of the tokens in front of
it, and no more. -/
theorem tokenizeWith_registers (source : String) (locals : Locals) :
    (tokenizeWith source locals).1 = tokenize source ∧
    (∀ tokens, tokenize source = .ok tokens →
      (tokenizeWith source locals).2 = (namesOf tokens).foldl Locals.register locals) ∧
    ∀ e, tokenize source = .error e →
      ∃ before after : String, source = before ++ after ∧ before.utf8ByteSize = e.pos ∧
        ∃ tokens, tokenize before = .ok tokens ∧
          (tokenizeWith source locals).2 = (namesOf tokens).foldl Locals.register locals ∧
          tokenizeWith before locals = (.ok tokens, (tokenizeWith source locals).2) := by
  rw [tokenizeWith_eq]
  refine ⟨rfl, fun tokens h => ?_, fun e h => ?_⟩
  · rcases tokenize_cases source with ⟨e, -, he⟩ | ⟨-, -, htokens⟩
    · rw [he] at h
      cases h
    · obtain rfl := Except.ok.inj (htokens.symm.trans h)
      rw [namesOf_concat_eof, ← Locals.registerTokens_eq_foldl]
  · obtain ⟨before, after, hsource, hpos, -, hseg, hfits, -⟩ := exists_arises_of_tokenize h
    have hbefore := hseg.tokenize_eq hfits
    have hscan : scan before = ⟨(scan source).tokens, _⟩ := hseg.scan_eq hfits
    refine ⟨before, after, hsource, hpos, _, hbefore, ?_, ?_⟩
    · rw [namesOf_concat_eof, ← Locals.registerTokens_eq_foldl]
    · rw [tokenizeWith_eq, hbefore, hscan]

/-- A name that is registered twice, and one after the fault that is not registered. -/
theorem tokenizeWith_registers_of_bang :
    let source := "a b a!c"
    let locals : Locals := { mode := .shadowing, entries := [⟨"b", 8⟩] }
    tokenize source = .error ⟨5, .unknownChar '!'⟩ ∧
      ∃ before after : String, source = before ++ after ∧ before.utf8ByteSize = 5 ∧
        ∃ tokens, tokenize before = .ok tokens ∧
          (tokenizeWith source locals).2 = (namesOf tokens).foldl Locals.register locals ∧
          tokenizeWith before locals = (.ok tokens, (tokenizeWith source locals).2) := by
  intro source locals
  have h : tokenize source = .error ⟨5, .unknownChar '!'⟩ := by
    show tokenize "a b a!c" = .error ⟨5, .unknownChar '!'⟩
    with_unfolding_all rfl
  exact ⟨h, (tokenizeWith_registers source locals).2.2 _ h⟩

end FrameLang

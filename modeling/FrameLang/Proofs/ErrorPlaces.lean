import FrameLang.Proofs.Faults
import FrameLang.Proofs.Report

/-!
# The places of errors

An error is reported with a byte offset.  There the source has what the error talks about: the
character that starts no token, the digits of the literal, the token that was refused, or its end.

* `CompileError.PointsAt`: this, for each sort of error.
* `Cursor.exists_fault`: where the first fault of a source is.
* `exists_pointsAt`: where the error of a compilation is.
* `compile_error_points_at_text`: what its report shows.
-/

namespace FrameLang

/-- What a lexical fault says about the characters before it and those from it on.  A literal that
is too large is a whole run of digits, so it goes on in neither direction. -/
def LexicalFault.PointsAt (before after : List Char) : LexicalFault → Prop
  | unknownChar c => after.head? = some c
  | literalTooLarge digits =>
    digits ≠ "" ∧ digits.toList = after.takeWhile Char.isDigit ∧
      ∀ c, before.getLast? = some c → c.isDigit = false

/-- What a syntactic fault says about the tokens, one of which may be at its offset, and about the
characters from there on.  What was found is the text of that token, or the end of the source. -/
def SyntaxFault.PointsAt (tokens : List Token) (pos : Nat) (after : List Char) :
    SyntaxFault → Prop
  | mismatch _ found | missingOperand found =>
    (∃ cls, ⟨cls, found, pos⟩ ∈ tokens) ∧ found ≠ "" ∧ found.toList <+: after ∨
      after = [] ∧ found = "EOF"
  | tooDeep _ =>
    ⟨.punct .leftParen, "(", pos⟩ ∈ tokens ∧ "(".toList <+: after ∨
      ⟨.punct .assign, "=", pos⟩ ∈ tokens ∧ "=".toList <+: after

/-- What an error says about its source, cut at its place. -/
def CompileError.PointsAt (source : String) (before after : List Char) : CompileError → Prop
  | lexical e => e.fault.PointsAt before after
  | syntactic e =>
    ∃ tokens, tokenize source = .ok tokens ∧ e.fault.PointsAt tokens e.pos after

variable {before after text rest : List Char} {cls : TokenClass} {t : Token} {ts : List Token}
  {e : LexicalError} {fault : LexicalFault}

/-! ## Lexical faults -/

theorem LexicalFault.Arises.pointsAt (h : fault.Arises before after) :
    fault.PointsAt before after := by
  cases h with
  | bang => rfl
  | stray => rfl
  | @tooLarge _ digits rest hdigits hrest hbefore hlarge =>
    refine ⟨?_, ?_, fun c hc => (hbefore c hc).1⟩
    · obtain ⟨d, r, rfl, -⟩ := exists_digit hdigits hlarge
      exact fun hempty => List.cons_ne_nil d r (String.ofList_eq_empty_iff.1 hempty)
    · rw [String.toList_ofList, List.takeWhile_append_of_pos hdigits]
      cases rest with
      | nil => exact (List.append_nil _).symm
      | cons c r =>
        have hc : ¬ c.isDigit = true := by simp [hrest c r rfl]
        rw [List.takeWhile_cons_of_neg hc, List.append_nil]

/-- **The first fault of a source stands where something that is not blank comes.** -/
theorem Cursor.exists_fault (c : Cursor) (h : c.scan.ending = .error e) :
    ∃ before after, c.rest = before ++ after ∧ e.pos = c.offset + String.utf8Len before ∧
      (∀ ch r, after = ch :: r → isBlank ch = false) ∧ e.fault.PointsAt before after := by
  obtain ⟨before, after, hc, hpos, -, -, hfault⟩ := c.exists_arises h
  exact ⟨before, after, hc, hpos, hfault.not_isBlank, hfault.pointsAt⟩

/-! ## Tokens -/

theorem Lexeme.eq_spelling {p : Punct} (h : Lexeme (.punct p) text) : text = p.spelling.toList := by
  generalize hcls : TokenClass.punct p = cls at h
  cases h with
  | punct p' =>
    cases hcls
    rfl
  | literal => cases hcls
  | name => cases hcls

/-! ## Messages -/

theorem LexicalFault.PointsAt.lineFeed_not_mem_message (h : fault.PointsAt before after)
    (hblank : ∀ c r, after = c :: r → isBlank c = false) : '\n' ∉ fault.message.toList := by
  unfold message
  cases fault with
  | unknownChar c =>
    obtain ⟨r, rfl⟩ := List.head?_eq_some_iff.1 h
    have hc : '\n' ∉ (String.singleton c).toList := by
      rw [String.toList_singleton, List.mem_singleton]
      rintro rfl
      cases hblank _ r rfl
    simp only [lineFeed_not_mem_append, hc]
    decide
  | literalTooLarge digits =>
    have hdigits : '\n' ∉ digits.toList := by
      rw [h.2.1]
      intro hmem
      cases List.all_eq_true.1 List.all_takeWhile _ hmem
    simp only [lineFeed_not_mem_append, hdigits]
    decide

theorem Refusal.lineFeed_not_mem_message (r : Refusal) (limit : Nat)
    (ht : '\n' ∉ t.describe.toList) : '\n' ∉ (r.fault limit t).message.toList := by
  unfold fault SyntaxFault.message
  cases r with
  | mismatch expected =>
    have hexpected := (Lexeme.punct expected).lineFeed_not_mem
    simp only [lineFeed_not_mem_append, ht, hexpected]
    decide
  | missingOperand =>
    simp only [lineFeed_not_mem_append, ht]
    decide
  | tooDeep =>
    simp only [lineFeed_not_mem_append, lineFeed_not_mem_toString]
    decide

/-! ## Refusals -/

theorem Refusal.pointsAt (r : Refusal) (limit : Nat) (ht : t ∈ ts)
    (hlongest : Longest t.cls t.text.toList rest) (hopens : r = .tooDeep → t.opens) :
    (r.fault limit t).PointsAt ts t.pos (t.text.toList ++ rest) := by
  have hfound : (∃ cls, ⟨cls, t.describe, t.pos⟩ ∈ ts) ∧ t.describe ≠ "" ∧
      t.describe.toList <+: t.text.toList ++ rest := by
    rw [Token.describe_of_ne_eof hlongest.lexeme.ne_eof]
    exact ⟨⟨t.cls, ht⟩, fun h => hlongest.lexeme.ne_nil (congrArg String.toList h),
      List.prefix_append _ _⟩
  have hpunct : ∀ p, t.cls = .punct p →
      ⟨.punct p, p.spelling, t.pos⟩ ∈ ts ∧ p.spelling.toList <+: t.text.toList ++ rest := by
    intro p hp
    have hlexeme := hlongest.lexeme
    rw [hp] at hlexeme
    have htext : t.text = p.spelling := String.toList_inj.1 hlexeme.eq_spelling
    rw [← htext, ← hp]
    exact ⟨ht, List.prefix_append _ _⟩
  cases r with
  | mismatch expected => exact .inl hfound
  | missingOperand => exact .inl hfound
  | tooDeep => exact (hopens rfl).imp (hpunct .leftParen) (hpunct .assign)

theorem Refusal.pointsAt_eof (r : Refusal) (limit pos : Nat) (hr : r ≠ .tooDeep) :
    (r.fault limit (.eofAt pos)).PointsAt ts pos [] := by
  cases r with
  | mismatch expected => exact .inr ⟨rfl, rfl⟩
  | missingOperand => exact .inr ⟨rfl, rfl⟩
  | tooDeep => exact absurd rfl hr

/-! ## Whole compilations -/

/-- **Where the error of a compilation is.**  The source can be cut there, what comes next is not
blank, and it is what the error talks about. -/
theorem exists_pointsAt {config : Config} {source : String} {e : CompileError}
    (h : compile config source = .error e) :
    ∃ before after, source.toList = before ++ after ∧ e.pos = String.utf8Len before ∧
      (∀ c r, after = c :: r → isBlank c = false) ∧ e.PointsAt source before after ∧
      '\n' ∉ e.message.toList := by
  rcases compile_cases source config.maxDepth with
    ⟨e', hending, he⟩ | ⟨body, hseg, htokens, ⟨t, ht, r, hopens, he⟩ | ⟨es, -, he⟩⟩
  · obtain rfl := Except.error.inj (h.symm.trans (he config rfl))
    obtain ⟨before, after, hsource, hpos, hblank, hfault⟩ :=
      (Cursor.start source).exists_fault hending
    exact ⟨before, after, hsource, hpos.trans (Nat.zero_add _), hblank, hfault,
      hfault.lineFeed_not_mem_message hblank⟩
  · obtain rfl := Except.error.inj (h.symm.trans (he config rfl))
    rcases List.mem_append.1 ht with hbody | heof
    · obtain ⟨before, rest, hsource, hpos, hlongest⟩ := hseg.exists_of_mem hbody
      refine ⟨before, _, hsource, hpos.trans (Nat.zero_add _), hlongest.not_isBlank,
        ⟨_, htokens, r.pointsAt _ ht hlongest hopens⟩, r.lineFeed_not_mem_message _ ?_⟩
      rw [Token.describe_of_ne_eof hlongest.lexeme.ne_eof]
      exact hlongest.lexeme.lineFeed_not_mem
    · obtain rfl := List.mem_singleton.1 heof
      have hr : r ≠ .tooDeep := by
        intro hdeep
        rcases hopens hdeep with h | h
        · cases h
        · cases h
      refine ⟨source.toList, [], (List.append_nil _).symm, (String.utf8Len_toList source).symm,
        nofun, ⟨_, htokens, r.pointsAt_eof _ _ hr⟩, r.lineFeed_not_mem_message _ ?_⟩
      show '\n' ∉ "EOF".toList
      decide
  · rw [he config rfl] at h
    cases h

/-- **An error points at the text that it talks about.**  Its offset is one of the source, at the
start of a character or at the end, and the source has there what the error says.  Its report has
three lines.  Before the end of the source, the character at the offset stands in the second line
right above the caret in the third. -/
theorem compile_error_points_at_text (config : Config) (source : String) (e : CompileError)
    (h : compile config source = .error e) :
    ∃ before after, source.toList = before ++ after ∧ String.utf8Len before = e.pos ∧
      e.pos ≤ source.utf8ByteSize ∧ (locate source e.pos).offset = e.pos ∧
      e.PointsAt source before after ∧
      ∃ first second third, (e.report source).toList = unlines [first, second, third] ∧
        '\n' ∉ first ∧ '\n' ∉ second ∧ '\n' ∉ third ∧
        let column := (locate source e.pos).column
        third = List.replicate (column - 1) ' ' ++ '^' :: ' ' :: e.message.toList ∧
        (e.pos < source.utf8ByteSize →
          ∃ c, after.head? = some c ∧ second[column - 1]? = some c) := by
  obtain ⟨before, after, hsource, hpos, hblank, hpoints, hmessage⟩ := exists_pointsAt h
  have hsize : source.utf8ByteSize = String.utf8Len before + String.utf8Len after := by
    rw [← String.utf8Len_toList, hsource, String.utf8Len_append]
  refine ⟨before, after, hsource, hpos.symm, by omega, ?_, hpoints, _, _, _,
    report_eq_unlines source e.pos e.message, lineFeed_not_mem_headline _,
    lineFeed_not_mem_shownLine _ _, lineFeed_not_mem_caretLine hmessage _, rfl, fun hlt => ?_⟩
  · rw [hpos, locate_utf8Len hsource]
  · cases after with
    | nil =>
      rw [String.utf8Len_nil] at hsize
      omega
    | cons c r =>
      have hc : isBlank c = false := hblank c r rfl
      have hfeed : c ≠ '\n' := by
        rintro rfl
        cases hc
      have hreturn : c ≠ '\r' := by
        rintro rfl
        cases hc
      refine ⟨c, rfl, ?_⟩
      rw [hpos]
      exact getElem?_shownLine hsource hfeed hreturn

/-- A character of two bytes, in the second line of a source whose lines end with a return and a
line feed. -/
theorem compile_error_points_at_second_line :
    let source := "a = 1;\r\nb + é;\r\n"
    let e : CompileError := .lexical ⟨12, .unknownChar 'é'⟩
    compile {} source = .error e ∧
      ∃ before after first second, source.toList = before ++ after ∧ String.utf8Len before = 12 ∧
        after.head? = some 'é' ∧ second[4]? = some 'é' ∧
        (e.report source).toList =
          unlines [first, second, [' ', ' ', ' ', ' ', '^', ' '] ++ e.message.toList] := by
  intro source e
  have h : compile {} source = .error e := by
    show compile {} "a = 1;\r\nb + é;\r\n" = .error (.lexical ⟨12, .unknownChar 'é'⟩)
    with_unfolding_all rfl
  have hcolumn : (locate source e.pos).column = 5 := by
    show (locate "a = 1;\r\nb + é;\r\n" 12).column = 5
    decide
  obtain ⟨before, after, hsource, hpos, -, -, hpoints, first, second, third, hreport, -, -, -,
    hthird, habove⟩ := compile_error_points_at_text {} source e h
  obtain ⟨c, hc, hsecond⟩ := habove (by decide)
  have hhead : after.head? = some 'é' := hpoints
  obtain rfl : 'é' = c := Option.some.inj (hhead.symm.trans hc)
  rw [hcolumn] at hthird hsecond
  rw [hthird] at hreport
  exact ⟨h, before, after, first, second, hsource, hpos, hhead, hsecond, hreport⟩

end FrameLang

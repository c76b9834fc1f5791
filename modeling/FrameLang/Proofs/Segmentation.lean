import FrameLang.Proofs.Lexeme

/-!
# The segmentation of a source

Reading a source again and again cuts it into blanks and longest lexemes, and there is one way only
to do that.

* `Segmentation`: the tokens of a source with the blanks between them, from an offset on.
* `Segmentation.exists_of_mem`: where a token of a segmentation is.
* `Segmentation.unique`: a source has one segmentation at most.
* `Segmentation.scan_eq`: the tokens of a segmentation are what is read.
* `segmentation_of_scan`: what is read without a fault is a segmentation.
* `tokenize_eq_segmentation`: both for a whole source.
-/

namespace FrameLang

/-- The characters that may stand between tokens: space, tab, line feed, vertical tab, form feed and
carriage return. -/
def blanks : List Char := [' ', '\t', '\n', '\x0b', '\x0c', '\r']

/-- The characters are blanks and longest lexemes in turn, and these are the tokens that they make.
The first of the characters is at the given offset. -/
inductive Segmentation : Nat → List Char → List Token → Prop
  | nil {offset : Nat} {gap : List Char} (hgap : ∀ c ∈ gap, c ∈ blanks) :
      Segmentation offset gap []
  | cons {offset : Nat} {gap text rest : List Char} {cls : TokenClass} {ts : List Token}
      (hgap : ∀ c ∈ gap, c ∈ blanks) (htext : Longest cls text rest)
      (hrest : Segmentation (offset + String.utf8Len gap + String.utf8Len text) rest ts) :
      Segmentation offset (gap ++ (text ++ rest))
        (⟨cls, String.ofList text, offset + String.utf8Len gap⟩ :: ts)

/-- A literal, if it is one, that is not too large. -/
def Token.Fits (t : Token) : Prop := ∀ v, t.cls = .num v → v ≤ 9223372036854775807

/-! ## Blanks -/

theorem isBlank_iff {c : Char} : isBlank c = true ↔ c ∈ blanks := by
  simp [isBlank, blanks, or_assoc]

namespace Cursor

variable {gap text rest : List Char} {offset : Nat} {cls : TokenClass} {c : Cursor}

theorem skip_eq (q : Char → Bool) (c : Cursor) :
    c.skip q = ⟨c.rest.dropWhile q, c.offset + String.utf8Len (c.rest.takeWhile q)⟩ := by
  rw [skip, String.utf8ByteSize_ofList]

theorem skip_gap (hgap : ∀ c ∈ gap, c ∈ blanks) (hrest : ∀ c r, rest = c :: r → isBlank c = false) :
    skip isBlank ⟨gap ++ rest, offset⟩ = ⟨rest, offset + String.utf8Len gap⟩ := by
  have hall : ∀ c ∈ gap, isBlank c = true := fun c hc => isBlank_iff.2 (hgap c hc)
  have htake : rest.takeWhile isBlank = [] ∧ rest.dropWhile isBlank = rest := by
    cases rest with
    | nil => exact ⟨rfl, rfl⟩
    | cons c r =>
      have hc : ¬ isBlank c = true := by simp [hrest c r rfl]
      exact ⟨List.takeWhile_cons_of_neg hc, List.dropWhile_cons_of_neg hc⟩
  rw [skip_eq, List.takeWhile_append_of_pos hall, List.dropWhile_append_of_pos hall, htake.1,
    htake.2, List.append_nil]

theorem skip_isBlank_eq_self (hrest : ∀ c r, rest = c :: r → isBlank c = false) :
    skip isBlank ⟨rest, offset⟩ = ⟨rest, offset⟩ := by
  have hskip : skip isBlank ⟨[] ++ rest, offset⟩ = _ := skip_gap nofun hrest
  exact hskip

theorem exists_munch (c : Cursor) :
    ∃ gap rest, (∀ ch ∈ gap, ch ∈ blanks) ∧ c.rest = gap ++ rest ∧
      Munch ⟨rest, c.offset + String.utf8Len gap⟩ c.next := by
  refine ⟨c.rest.takeWhile isBlank, c.rest.dropWhile isBlank,
    fun ch hch => isBlank_iff.1 (List.all_eq_true.1 List.all_takeWhile ch hch),
    List.takeWhile_append_dropWhile.symm, ?_⟩
  rw [← skip_eq]
  exact munch_lexeme _

theorem lexeme_of_longest (h : Longest cls text rest)
    (hfits : Token.Fits ⟨cls, String.ofList text, offset⟩) :
    lexeme ⟨text ++ rest, offset⟩ =
      (.ok ⟨cls, String.ofList text, offset⟩, ⟨rest, offset + String.utf8Len text⟩) :=
  (munch_lexeme _).unique (.token h hfits)

theorem next_of_longest (hgap : ∀ c ∈ gap, c ∈ blanks) (h : Longest cls text rest)
    (hfits : Token.Fits ⟨cls, String.ofList text, offset + String.utf8Len gap⟩) :
    next ⟨gap ++ (text ++ rest), offset⟩ =
      (.ok ⟨cls, String.ofList text, offset + String.utf8Len gap⟩,
        ⟨rest, offset + String.utf8Len gap + String.utf8Len text⟩) := by
  rw [next, skip_gap hgap h.not_isBlank, lexeme_of_longest h hfits]

theorem next_of_blanks (hgap : ∀ c ∈ gap, c ∈ blanks) :
    next ⟨gap, offset⟩ =
      (.ok (.eofAt (offset + String.utf8Len gap)), ⟨[], offset + String.utf8Len gap⟩) := by
  have hskip : skip isBlank ⟨gap ++ [], offset⟩ = _ := skip_gap hgap nofun
  rw [List.append_nil] at hskip
  rw [next, hskip]
  rfl

/-! ## Scanning -/

theorem scan_eq (c : Cursor) :
    c.scan =
      match c.next with
      | (.error e, _) => ⟨[], .error e⟩
      | (.ok t, c') => if t.isEof then ⟨[], .ok t⟩ else ⟨t :: c'.scan.tokens, c'.scan.ending⟩ := by
  rw [scan]
  split
  case h_1 h => rw [h]
  case h_2 t c' h =>
    simp only [h]
    split
    case isTrue => rfl
    case isFalse => rfl

end Cursor

theorem Lexeme.ne_eof {cls : TokenClass} {text : List Char} (h : Lexeme cls text) : cls ≠ .eof := by
  cases h <;> nofun

theorem Lexeme.ne_nil {cls : TokenClass} {text : List Char} (h : Lexeme cls text) : text ≠ [] := by
  obtain ⟨c, cs, rfl, -⟩ := h.exists_cons
  exact List.cons_ne_nil c cs

theorem Lexeme.not_blank {cls : TokenClass} {text : List Char} (h : Lexeme cls text) :
    ∀ c ∈ text, c ∉ blanks := by
  have hname : ∀ {c}, isNameChar c = true → c ∉ blanks := fun hn hb => by
    rw [← isBlank_iff, isBlank_eq_false_of_isNameChar hn] at hb
    cases hb
  obtain ⟨c, cs, -, ⟨p, -, rfl, -⟩ | ⟨-, -, hd⟩ | ⟨-, -, -, hn⟩⟩ := h.exists_cons
  · intro c hc hb
    rw [← isBlank_iff, p.isBlank_eq_false c hc] at hb
    cases hb
  · exact fun c hc => hname (isNameChar_of_isDigit (hd c hc))
  · exact fun c hc => hname (hn c hc)

theorem Lexeme.lineFeed_not_mem {cls : TokenClass} {text : List Char} (h : Lexeme cls text) :
    '\n' ∉ text := fun hmem => h.not_blank _ hmem (by decide)

variable {offset : Nat} {chars : List Char} {t : Token} {ts : List Token}

theorem Token.describe_of_ne_eof (h : t.cls ≠ .eof) : t.describe = t.text := by
  unfold describe
  split
  case h_1 heof => exact absurd heof h
  case h_2 => rfl

/-- **Where a token of a source is.**  Its text comes next there, and nothing longer would do. -/
theorem Segmentation.exists_of_mem (h : Segmentation offset chars ts) (ht : t ∈ ts) :
    ∃ before rest, chars = before ++ (t.text.toList ++ rest) ∧
      t.pos = offset + String.utf8Len before ∧ Longest t.cls t.text.toList rest := by
  induction h with
  | nil => cases ht
  | @cons offset gap text rest cls ts _ htext _ ih =>
    rcases List.mem_cons.1 ht with rfl | ht
    · rw [String.toList_ofList]
      exact ⟨gap, rest, rfl, rfl, htext⟩
    · obtain ⟨before, rest', rfl, hpos, hlongest⟩ := ih ht
      refine ⟨gap ++ (text ++ before), rest', ?_, ?_, hlongest⟩
      · rw [List.append_assoc, List.append_assoc]
      · rw [hpos, String.utf8Len_append, String.utf8Len_append, Nat.add_assoc, Nat.add_assoc]

theorem Segmentation.isEof_eq_false (h : Segmentation offset chars ts) :
    ∀ t ∈ ts, t.isEof = false := by
  induction h with
  | nil => nofun
  | cons _ htext _ ih =>
    intro t ht
    rcases List.mem_cons.1 ht with rfl | ht
    · exact decide_eq_false htext.lexeme.ne_eof
    · exact ih t ht

theorem gap_unique {gap gap' rest rest' : List Char} (hgap : ∀ c ∈ gap, c ∈ blanks)
    (hgap' : ∀ c ∈ gap', c ∈ blanks) (hrest : ∀ c r, rest = c :: r → isBlank c = false)
    (hrest' : ∀ c r, rest' = c :: r → isBlank c = false) (h : gap ++ rest = gap' ++ rest') :
    gap = gap' ∧ rest = rest' := by
  have hskip := congrArg (fun cs => (Cursor.skip isBlank ⟨cs, 0⟩).rest) h
  simp only [Cursor.skip_gap hgap hrest, Cursor.skip_gap hgap' hrest'] at hskip
  rw [hskip] at h
  exact ⟨List.append_cancel_right h, hskip⟩

theorem Segmentation.of_cons {gap rest : List Char}
    (h : Segmentation offset (gap ++ (t.text.toList ++ rest)) (t :: ts))
    (hgap : ∀ c ∈ gap, c ∈ blanks) :
    t.pos = offset + String.utf8Len gap ∧ Longest t.cls t.text.toList rest ∧
      Segmentation (offset + String.utf8Len gap + String.utf8Len t.text.toList) rest ts := by
  generalize hchars : gap ++ (t.text.toList ++ rest) = chars at h
  cases h with
  | @cons _ gap₁ text rest₁ cls _ hgap₁ htext hrest =>
    rw [String.toList_ofList] at hchars ⊢
    obtain ⟨rfl, heq⟩ := gap_unique hgap hgap₁ (htext.lexeme.not_isBlank_append rest)
      htext.not_isBlank hchars
    rw [List.append_cancel_left heq]
    exact ⟨rfl, htext, hrest⟩

/-- **There is one segmentation at most**, also with literals that are too large. -/
theorem Segmentation.unique {ts' : List Token} (h : Segmentation offset chars ts)
    (h' : Segmentation offset chars ts') : ts = ts' := by
  induction h generalizing ts' with
  | @nil offset gap hgap =>
    generalize hchars : gap = chars at h'
    cases h' with
    | nil => rfl
    | @cons _ gap' text rest _ _ hgap' htext' =>
      rw [← List.append_nil gap] at hchars
      obtain ⟨-, hnil⟩ :=
        gap_unique hgap hgap' (fun _ _ h => by cases h) htext'.not_isBlank hchars
      obtain ⟨c, cs, rfl, -⟩ := htext'.lexeme.exists_cons
      cases hnil
  | @cons offset gap text rest _ _ hgap htext _ ih =>
    generalize hchars : gap ++ (text ++ rest) = chars at h'
    cases h' with
    | nil hgap' =>
      rw [← List.append_nil chars] at hchars
      obtain ⟨-, hnil⟩ :=
        gap_unique hgap hgap' htext.not_isBlank (fun _ _ h => by cases h) hchars
      obtain ⟨c, cs, rfl, -⟩ := htext.lexeme.exists_cons
      cases hnil
    | cons hgap' htext' hrest' =>
      obtain ⟨rfl, heq⟩ := gap_unique hgap hgap' htext.not_isBlank htext'.not_isBlank hchars
      obtain ⟨rfl, rfl, rfl⟩ := htext.unique htext' heq
      rw [ih hrest']

/-- **The tokens of a segmentation are read**, and then the end of the input. -/
theorem Segmentation.scan_eq (h : Segmentation offset chars ts) (hfits : ∀ t ∈ ts, t.Fits) :
    Cursor.scan ⟨chars, offset⟩ = ⟨ts, .ok (.eofAt (offset + String.utf8Len chars))⟩ := by
  have hts := h.isEof_eq_false
  induction h with
  | nil hgap =>
    rw [Cursor.scan_eq, Cursor.next_of_blanks hgap]
    rfl
  | cons hgap htext _ ih =>
    have hrest := ih (fun t ht => hfits t (List.mem_cons_of_mem _ ht))
      fun t ht => hts t (List.mem_cons_of_mem _ ht)
    have hnext := Cursor.next_of_longest hgap htext (hfits _ List.mem_cons_self)
    rw [Cursor.scan_eq, hnext]
    dsimp only
    rw [if_neg (by simp [hts]), hrest, String.utf8Len_append, String.utf8Len_append, Nat.add_assoc,
      Nat.add_assoc]

/-- **What is read without a fault is a segmentation**, with the end of the input after it. -/
theorem segmentation_of_scan (c : Cursor) {e : Token} (h : c.scan.ending = .ok e) :
    Segmentation c.offset c.rest c.scan.tokens ∧ (∀ t ∈ c.scan.tokens, t.Fits) ∧
      e = .eofAt (c.offset + String.utf8Len c.rest) := by
  fun_induction Cursor.scan c with
  | case1 => cases h
  | case2 c t c' hnext ht =>
    obtain ⟨gap, rest, hgap, hrest, hm⟩ := c.exists_munch
    rw [hnext] at hm
    obtain rfl : t = e := Except.ok.inj h
    cases hm with
    | ending =>
      rw [List.append_nil] at hrest
      rw [hrest]
      exact ⟨.nil hgap, nofun, rfl⟩
    | token htext =>
      -- a lexeme is no end of the input
      exact absurd (of_decide_eq_true ht) htext.lexeme.ne_eof
  | case3 c t c' hnext ht _ _ ih =>
    obtain ⟨gap, rest, hgap, hrest, hm⟩ := c.exists_munch
    rw [hnext] at hm
    cases hm with
    | ending => exact absurd rfl ht
    | @token cls text rest _ htext hfits =>
      obtain ⟨hseg, hts, rfl⟩ := ih h
      rw [hrest]
      refine ⟨.cons hgap htext hseg, ?_, ?_⟩
      · intro t ht
        rcases List.mem_cons.1 ht with rfl | ht
        · exact hfits
        · exact hts t ht
      · rw [String.utf8Len_append, String.utf8Len_append, Nat.add_assoc, Nat.add_assoc]

/-! ## Whole sources -/

theorem Segmentation.tokenize_eq {source : String} (h : Segmentation 0 source.toList ts)
    (hfits : ∀ t ∈ ts, t.Fits) : tokenize source = .ok (ts ++ [.eofAt source.utf8ByteSize]) := by
  have hscan : FrameLang.scan source = _ := h.scan_eq hfits
  rw [String.utf8Len_toList, Nat.zero_add] at hscan
  rw [tokenize, hscan]
  rfl

theorem tokenize_cases (source : String) :
    (∃ e, (scan source).ending = .error e ∧ tokenize source = .error e) ∨
      Segmentation 0 source.toList (scan source).tokens ∧ (∀ t ∈ (scan source).tokens, t.Fits) ∧
        tokenize source = .ok ((scan source).tokens ++ [.eofAt source.utf8ByteSize]) := by
  cases hend : (scan source).ending with
  | error e => exact .inl ⟨e, rfl, by rw [tokenize, Scan.result, hend]; rfl⟩
  | ok t =>
    obtain ⟨hseg, hfits, -⟩ := segmentation_of_scan (Cursor.start source) hend
    exact .inr ⟨hseg, hfits, hseg.tokenize_eq hfits⟩

theorem lexeme_or_eq_eof_of_tokenize {source : String} {tokens : List Token}
    (h : tokenize source = .ok tokens) (ht : t ∈ tokens) :
    Lexeme t.cls t.text.toList ∨ t = .eofAt source.utf8ByteSize := by
  rcases tokenize_cases source with ⟨e, -, he⟩ | ⟨hseg, -, htokens⟩
  · rw [he] at h
    cases h
  · obtain rfl := Except.ok.inj (htokens.symm.trans h)
    rcases List.mem_append.1 ht with hbody | heof
    · obtain ⟨_, _, -, -, hlongest⟩ := hseg.exists_of_mem hbody
      exact .inl hlongest.lexeme
    · exact .inr (List.mem_singleton.1 heof)

/-- **Reading a source finds its segmentation.**  If it succeeds, the tokens are a segmentation and
the end of the input, which has no text and stands after the last byte.  If there is a segmentation
whose literals are not too large, it succeeds with that one; and there is never another. -/
theorem tokenize_eq_segmentation (source : String) :
    (∀ ts, tokenize source = .ok ts →
      ∃ body, ts = body ++ [⟨.eof, "", source.utf8ByteSize⟩] ∧
        Segmentation 0 source.toList body ∧ ∀ t ∈ body, t.isEof = false ∧ t.Fits) ∧
    (∀ body, Segmentation 0 source.toList body → (∀ t ∈ body, t.Fits) →
      tokenize source = .ok (body ++ [⟨.eof, "", source.utf8ByteSize⟩])) ∧
    ∀ body body', Segmentation 0 source.toList body → Segmentation 0 source.toList body' →
      body = body' := by
  refine ⟨?_, ?_, fun body body' h h' => h.unique h'⟩
  · intro ts h
    unfold tokenize scan Scan.result at h
    cases hend : (Cursor.start source).scan.ending with
    | error e => rw [hend] at h; cases h
    | ok e =>
      obtain ⟨hseg, hfits, rfl⟩ := segmentation_of_scan (Cursor.start source) hend
      rw [hend] at h
      refine ⟨_, (Except.ok.inj h).symm.trans ?_, hseg, fun t ht =>
        ⟨hseg.isEof_eq_false t ht, hfits t ht⟩⟩
      simp only [Cursor.start, String.utf8Len_toList, Nat.zero_add, Token.eofAt]
  · intro body hseg hfits
    have hscan : (Cursor.start source).scan = _ := hseg.scan_eq hfits
    rw [String.utf8Len_toList, Nat.zero_add] at hscan
    unfold tokenize scan Scan.result
    rw [hscan]
    rfl

example : tokenize "a <=1" =
    .ok [⟨.ident, "a", 0⟩, ⟨.punct .lessEqual, "<=", 2⟩, ⟨.num 1, "1", 4⟩, ⟨.eof, "", 5⟩] := by
  cbv

end FrameLang

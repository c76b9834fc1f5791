import FrameLang.Proofs.Boundary
import FrameLang.Proofs.Bytes
import FrameLang.Proofs.Renaming

/-!
# Other names and other blanks

A source can be written again with other names and with other blanks between its tokens.

* `Rewritten f ts`: two texts with the same tokens `ts`, but for the names, which `f` replaces in
  the second one, and the blanks.  Blanks between two tokens are not taken away.
* `Segmentation.exists_rewritten`: a text that is written again is cut where it was before.
* `compile_other_blanks`: with other blanks a source has the same program and table, or the same
  error at the same token.
* `renameSource`: a source with its names replaced and everything else as it was.
* `compile_other_names`: with other names a source has the same program, and its table has the other
  names; or it has the same error at the same token, which is named as it is spelled now.
-/

namespace FrameLang

def StartsBlank (chars : List Char) : Prop := ∃ c r, chars = c :: r ∧ c ∈ blanks

/-- The first text consists of the tokens with blanks in front of each and after the last one, and
the second one of the same tokens with their names replaced.  The blanks may differ, and there may
be none, but between two tokens the second text has some if the first one has. -/
inductive Rewritten (f : String → String) : List Token → List Char → List Char → Prop
  | nil {gap gap' : List Char} (hgap : ∀ c ∈ gap, c ∈ blanks) (hgap' : ∀ c ∈ gap', c ∈ blanks) :
      Rewritten f [] gap gap'
  | cons {t : Token} {ts : List Token} {gap gap' rest rest' : List Char}
      (hgap : ∀ c ∈ gap, c ∈ blanks) (hgap' : ∀ c ∈ gap', c ∈ blanks)
      (hapart : ts ≠ [] → StartsBlank rest → StartsBlank rest') (h : Rewritten f ts rest rest') :
      Rewritten f (t :: ts) (gap ++ (t.text.toList ++ rest))
        (gap' ++ ((t.respelled f).toList ++ rest'))

/-- A letter or an underscore, and after it letters, digits and underscores. -/
def IsName (x : String) : Prop := Lexeme .ident x.toList

variable {f : String → String} {t t' : Token} {ts tokens : List Token} {cls : TokenClass}
  {text rest rest' chars chars' gap : List Char} {offset : Nat}

/-! ## Cutting a text -/

theorem IsName.exists_cons {x : String} (h : IsName x) :
    ∃ c cs, x.toList = c :: cs ∧ isNameChar c = true ∧ c.isDigit = false := by
  obtain ⟨c, cs, htext, ⟨p, hp, -⟩ | ⟨-, hp, -⟩ | ⟨hn, hd, -⟩⟩ := Lexeme.exists_cons h
  · cases hp
  · cases hp
  · exact ⟨c, cs, htext, hn, hd⟩

theorem IsName.isNameChar {x : String} (h : IsName x) : ∀ c ∈ x.toList, isNameChar c = true := by
  obtain ⟨c, cs, -, ⟨p, hp, -⟩ | ⟨-, hp, -⟩ | ⟨-, -, -, hn⟩⟩ := Lexeme.exists_cons h
  · cases hp
  · cases hp
  · exact hn

/-! ## Cutting a text that is written again -/

/-- What a text that is written again starts with, if it is no blank, makes the same lexemes longer
as what the text starts with. -/
theorem Rewritten.exists_growsWith_eq (h : Rewritten f ts rest rest')
    (hapart : ts ≠ [] → StartsBlank rest → StartsBlank rest')
    (hseg : Segmentation offset rest ts)
    (hname : ∀ t ∈ ts, t.cls = .ident → IsName (f t.text))
    {c' : Char} {r' : List Char} (hc' : rest' = c' :: r') (hblank : c' ∉ blanks) :
    ∃ c r, rest = c :: r ∧ ∀ cls : TokenClass, cls.growsWith c' = cls.growsWith c := by
  cases h with
  | nil hgap hgap' => exact absurd (hgap' c' (by simp [hc'])) hblank
  | @cons t ts gap gap' rest rest' hgap hgap' _ h =>
    have hgap'_nil : gap' = [] := by
      cases gap' with
      | nil => rfl
      | cons b gap' =>
        obtain ⟨rfl, -⟩ := List.cons.inj hc'
        exact absurd (hgap' b (by simp)) hblank
    have hgap_nil : gap = [] := by
      cases gap with
      | nil => rfl
      | cons b gap =>
        obtain ⟨d, r, hd, hmem⟩ := hapart (by simp) ⟨b, _, rfl, hgap b (by simp)⟩
        obtain ⟨rfl, -⟩ := List.cons.inj (hd.symm.trans hc')
        exact absurd hmem hblank
    subst hgap'_nil hgap_nil
    obtain ⟨-, hlongest, -⟩ := hseg.of_cons hgap
    have hl := hlongest.lexeme
    by_cases hi : t.cls = .ident
    · have hn := hname t (by simp) hi
      rw [Token.respelled_of_ident hi] at hc'
      have htext : IsName t.text := by rwa [hi] at hl
      obtain ⟨d, ds, hd, hdn, hdd⟩ := htext.exists_cons
      obtain ⟨d', ds', hd', hdn', hdd'⟩ := hn.exists_cons
      rw [hd'] at hc'
      obtain ⟨rfl, -⟩ := List.cons.inj hc'
      rw [hd]
      exact ⟨d, _, rfl, growsWith_eq_of_isNameChar hdn' hdd' hdn hdd⟩
    · rw [Token.respelled_of_ne_ident hi] at hc'
      obtain ⟨d, ds, hd, -⟩ := hl.exists_cons
      rw [hd] at hc' ⊢
      obtain ⟨rfl, -⟩ := List.cons.inj hc'
      exact ⟨d, _, rfl, fun _ => rfl⟩

/-- **A text that is written again is cut where it was before.** -/
theorem Segmentation.exists_rewritten (h : Segmentation offset chars ts)
    (hr : Rewritten f ts chars chars')
    (hname : ∀ t ∈ ts, t.cls = .ident → IsName (f t.text)) (offset' : Nat) :
    ∃ ts', Segmentation offset' chars' ts' ∧ List.Forall₂ (Token.Renamed f) ts ts' := by
  induction hr generalizing offset offset' with
  | nil _ hgap' => exact ⟨[], .nil hgap', .nil⟩
  | @cons t ts gap gap' rest rest' hgap hgap' hapart hr ih =>
    obtain ⟨-, hlongest, hrest⟩ := h.of_cons hgap
    obtain ⟨hlexeme, hends⟩ := longest_iff.1 hlongest
    have hnames := (List.forall_mem_cons.1 hname).2
    obtain ⟨ts', hseg, hts⟩ := ih hrest hnames
      (offset' + String.utf8Len gap' + String.utf8Len (t.respelled f).toList)
    have hlexeme' : Lexeme t.cls (t.respelled f).toList := by
      by_cases hi : t.cls = .ident
      · rw [Token.respelled_of_ident hi, hi]
        exact hname t (by simp) hi
      · rwa [Token.respelled_of_ne_ident hi]
    have hlongest' : Longest t.cls (t.respelled f).toList rest' := by
      refine longest_iff.2 ⟨hlexeme', fun c' r' hc' => ?_⟩
      -- a new blank ends the lexeme, and otherwise what comes next is as it was
      by_cases hblank : c' ∈ blanks
      · exact growsWith_eq_false_of_isBlank (isBlank_iff.2 hblank) t.cls
      · obtain ⟨c, r, hc, hgrows⟩ :=
          hr.exists_growsWith_eq hapart hrest hnames hc' hblank
        rw [hgrows, hends c r hc]
    exact ⟨_, .cons hgap' hlongest' hseg, .cons ⟨rfl, String.ofList_toList⟩ hts⟩

theorem fits_of_renamed {ts' : List Token} (h : List.Forall₂ (Token.Renamed f) ts ts')
    (hts : ∀ t ∈ ts, t.Fits) : ∀ t ∈ ts', t.Fits := by
  induction h with
  | nil => exact hts
  | cons ht _ ih =>
    rw [List.forall_mem_cons] at hts ⊢
    exact ⟨fun v hv => hts.1 v (ht.cls.symm.trans hv), ih hts.2⟩

theorem tokenize_of_rewritten {source source' : String} (h : tokenize source = .ok tokens)
    (hr : Rewritten f tokens.dropLast source.toList source'.toList)
    (hname : ∀ t ∈ tokens, t.cls = .ident → IsName (f t.text)) :
    ∃ tokens', tokenize source' = .ok tokens' ∧ List.Forall₂ (Token.Renamed f) tokens tokens' := by
  obtain ⟨body, rfl, hseg, hfits, -⟩ := compile_of_tokenize h
  rw [List.dropLast_concat] at hr
  obtain ⟨body', hseg', hbody⟩ := hseg.exists_rewritten hr
    (fun t ht => hname t (List.mem_append_left _ ht)) 0
  have heof : (Token.eofAt source.utf8ByteSize).Renamed f (.eofAt source'.utf8ByteSize) :=
    ⟨rfl, rfl⟩
  exact ⟨_, hseg'.tokenize_eq (fits_of_renamed hbody hfits),
    List.rel_append hbody (.cons heof .nil)⟩

theorem isName_of_tokenize {source : String} (h : tokenize source = .ok tokens) :
    ∀ t ∈ tokens, t.cls = .ident → IsName t.text := by
  intro t ht hi
  rcases lexeme_or_eq_eof_of_tokenize h ht with hlexeme | rfl
  · rwa [hi] at hlexeme
  · cases hi

/-! ## Other blanks -/

/-- **With other blanks** a source has tokens of the same classes and texts.  Under every
configuration it has the same program and the same table, or the same fault at the token with the
same index. -/
theorem compile_other_blanks {source source' : String} (h : tokenize source = .ok tokens)
    (hr : Rewritten id tokens.dropLast source.toList source'.toList) :
    ∃ tokens', tokenize source' = .ok tokens' ∧
      tokens'.map (fun t => (t.cls, t.text)) = tokens.map (fun t => (t.cls, t.text)) ∧
      ∀ config : Config,
        (∃ program locals, compile config source = .ok (program, locals) ∧
          compile config source' = .ok (program, locals)) ∨
        ∃ (i : Nat) (t t' : Token) (fault : SyntaxFault),
          tokens[i]? = some t ∧ tokens'[i]? = some t' ∧
          compile config source = .error (.syntactic ⟨t.pos, fault⟩) ∧
          compile config source' = .error (.syntactic ⟨t'.pos, fault⟩) := by
  obtain ⟨tokens', h', hts⟩ := tokenize_of_rewritten h hr (isName_of_tokenize h)
  refine ⟨tokens', h', ?_, fun config => ?_⟩
  · simpa only [Token.respelled_id] using map_cls_text_of_renamed hts
  · have hid : ∀ x y : String, True → True → id x = id y → x = y := fun _ _ _ _ hxy => hxy
    rcases compile_of_renamed config hid h h' hts (fun _ _ _ => trivial) with
      ⟨program, locals, hp, hp'⟩ | ⟨i, t, t', fault, ht, ht', hp, hp'⟩
    · rw [Locals.rename_id] at hp'
      exact .inl ⟨program, locals, hp, hp'⟩
    · rw [fault.mapFound_id, ite_self] at hp'
      exact .inr ⟨i, t, t', fault, ht, ht', hp, hp'⟩

/-- A statement on a line of its own, with other blanks inside and at the end. -/
theorem compile_other_blanks_of_statement :
    let tokens : List Token := [⟨.ident, "x", 0⟩, ⟨.punct .semicolon, ";", 2⟩, .eofAt 3]
    tokenize "x ;" = .ok tokens ∧
      Rewritten id tokens.dropLast "x ;".toList "\nx\t\t; ".toList ∧
      ∃ tokens', tokenize "\nx\t\t; " = .ok tokens' ∧
        tokens'.map (fun t => (t.cls, t.text)) =
          [(.ident, "x"), (.punct .semicolon, ";"), (.eof, "")] ∧
        compile {} "\nx\t\t; " = .ok (⟨[.stmt (.var 8)], 8⟩, { entries := [⟨"x", 8⟩] }) := by
  intro tokens
  have h : tokenize "x ;" = .ok tokens := by with_unfolding_all rfl
  have hr : Rewritten id tokens.dropLast "x ;".toList "\nx\t\t; ".toList := by
    show Rewritten id _ ([] ++ ("x".toList ++ ([' '] ++ (";".toList ++ []))))
      (['\n'] ++ ("x".toList ++ (['\t', '\t'] ++ (";".toList ++ [' ']))))
    exact .cons nofun (by simp [blanks]) (fun _ _ => ⟨'\t', _, rfl, by decide⟩)
      (.cons (by simp [blanks]) (by simp [blanks]) nofun (.nil nofun (by simp [blanks])))
  have hcompile : compile {} "x ;" = .ok (⟨[.stmt (.var 8)], 8⟩, { entries := [⟨"x", 8⟩] }) := by
    with_unfolding_all rfl
  obtain ⟨tokens', h', htexts, hsame⟩ := compile_other_blanks h hr
  refine ⟨h, hr, tokens', h', htexts, ?_⟩
  rcases hsame {} with ⟨program, locals, hp, hp'⟩ | ⟨i, t, t', fault, -, -, he, -⟩
  · exact hp'.trans (hp.symm.trans hcompile)
  · cases hcompile.symm.trans he

/-! ## Other names -/

/-- Some characters with the names of their tokens replaced.  The first character is at the given
offset. -/
def replaceNames (f : String → String) : Nat → List Char → List Token → List Char
  | _, chars, [] => chars
  | offset, chars, t :: ts =>
    let (gap, after) := splitAtByte (t.pos - offset) chars
    let (_, rest) := splitAtByte t.text.utf8ByteSize after
    gap ++ (t.respelled f).toList ++ replaceNames f t.stop rest ts

def renameSource (f : String → String) (source : String) (tokens : List Token) : String :=
  String.ofList (replaceNames f 0 source.toList tokens)

theorem replaceNames_cons (f : String → String) (offset : Nat) (gap text rest : List Char)
    (cls : TokenClass) (ts : List Token) :
    replaceNames f offset (gap ++ (text ++ rest))
        (⟨cls, String.ofList text, offset + String.utf8Len gap⟩ :: ts) =
      gap ++ ((Token.respelled f ⟨cls, String.ofList text, offset + String.utf8Len gap⟩).toList ++
        replaceNames f (offset + String.utf8Len gap + String.utf8Len text) rest ts) := by
  simp only [replaceNames, Nat.add_sub_cancel_left, splitAtByte_utf8Len, String.utf8ByteSize_ofList,
    Token.stop, List.append_assoc]

theorem replaceNames_eof (f : String → String) (offset : Nat) (gap : List Char) :
    replaceNames f offset gap [.eofAt (offset + String.utf8Len gap)] = gap := by
  have h : replaceNames f offset (gap ++ ([] ++ [])) [.eofAt (offset + String.utf8Len gap)] =
      gap ++ [] := replaceNames_cons f offset gap [] [] .eof []
  rwa [List.append_nil, List.append_nil] at h

theorem Segmentation.startsBlank_replaceNames (h : Segmentation offset chars ts)
    (f : String → String) (hchars : StartsBlank chars) :
    StartsBlank (replaceNames f offset chars (ts ++ [.eofAt (offset + String.utf8Len chars)])) := by
  cases h with
  | nil => rwa [List.nil_append, replaceNames_eof]
  | @cons _ gap text rest cls ts hgap htext hrest =>
    rw [List.cons_append, replaceNames_cons]
    obtain ⟨c, r, hc, hblank⟩ := hchars
    cases gap with
    | nil =>
      have hnot := htext.not_isBlank c r hc
      rw [isBlank_iff.2 hblank] at hnot
      cases hnot
    | cons b gap => exact ⟨b, _, rfl, hgap b List.mem_cons_self⟩

/-- A text with its names replaced is written again with the same blanks. -/
theorem Segmentation.rewritten_replaceNames (h : Segmentation offset chars ts)
    (f : String → String) :
    Rewritten f ts chars
      (replaceNames f offset chars (ts ++ [.eofAt (offset + String.utf8Len chars)])) := by
  induction h with
  | nil hgap =>
    rw [List.nil_append, replaceNames_eof]
    exact .nil hgap hgap
  | @cons offset gap text rest cls ts hgap htext hrest ih =>
    have hend : offset + String.utf8Len (gap ++ (text ++ rest)) =
        offset + String.utf8Len gap + String.utf8Len text + String.utf8Len rest := by
      rw [String.utf8Len_append, String.utf8Len_append, Nat.add_assoc, Nat.add_assoc]
    rw [List.cons_append, replaceNames_cons, hend]
    have hcons :=
      Rewritten.cons (t := ⟨cls, String.ofList text, offset + String.utf8Len gap⟩) hgap hgap
        (fun _ => hrest.startsBlank_replaceNames f) ih
    rwa [String.toList_ofList] at hcons

/-- **With other names**, different ones for different names, a source has tokens of the same
classes, with the other names in their texts.  Under every configuration it has the same program,
and its table is the same with the other names in it; or it has the same fault at the token with the
same index, where the fault says the other name if it says one. -/
theorem compile_other_names {source : String} (hname : ∀ x, IsName x → IsName (f x))
    (hf : ∀ x y, IsName x → IsName y → f x = f y → x = y) (h : tokenize source = .ok tokens) :
    let source' := renameSource f source tokens
    ∃ tokens', tokenize source' = .ok tokens' ∧
      tokens'.map (fun t => (t.cls, t.text)) = tokens.map (fun t => (t.cls, t.respelled f)) ∧
      ∀ config : Config,
        (∃ program locals, compile config source = .ok (program, locals) ∧
          compile config source' = .ok (program, locals.rename f)) ∨
        ∃ (i : Nat) (t t' : Token) (fault : SyntaxFault),
          tokens[i]? = some t ∧ tokens'[i]? = some t' ∧
          compile config source = .error (.syntactic ⟨t.pos, fault⟩) ∧
          compile config source' = .error
            (.syntactic ⟨t'.pos, if t.cls = .ident then fault.mapFound f else fault⟩) := by
  intro source'
  have hnames := isName_of_tokenize h
  have hr : Rewritten f tokens.dropLast source.toList source'.toList := by
    obtain ⟨body, rfl, hseg, -, -⟩ := compile_of_tokenize h
    have hbody := hseg.rewritten_replaceNames f
    rw [String.utf8Len_toList, Nat.zero_add] at hbody
    rwa [List.dropLast_concat, show source'.toList = _ from String.toList_ofList]
  obtain ⟨tokens', h', hts⟩ := tokenize_of_rewritten h hr fun t ht hi => hname _ (hnames t ht hi)
  exact ⟨tokens', h', map_cls_text_of_renamed hts,
    fun config => compile_of_renamed config hf h h' hts hnames⟩

/-- A name of two slots, with an underscore put in front of all names. -/
theorem compile_other_names_of_shadowing :
    let f := fun x => "_" ++ x
    let tokens : List Token :=
      [⟨.ident, "a", 0⟩, ⟨.punct .assign, "=", 1⟩, ⟨.ident, "b", 2⟩, ⟨.punct .semicolon, ";", 3⟩,
        ⟨.ident, "a", 5⟩, ⟨.punct .semicolon, ";", 6⟩, .eofAt 7]
    (∀ x, IsName x → IsName (f x)) ∧ (∀ x y, IsName x → IsName y → f x = f y → x = y) ∧
      tokenize "a=b; a;" = .ok tokens ∧
      renameSource f "a=b; a;" tokens = "_a=_b; _a;" ∧
      compile { eager := true, mode := .shadowing } "_a=_b; _a;" =
        .ok (⟨[.stmt (.assign (.var 24) (.var 16)), .stmt (.var 24)], 24⟩,
          { mode := .shadowing, entries := [⟨"_a", 24⟩, ⟨"_b", 16⟩, ⟨"_a", 8⟩] }) := by
  intro f tokens
  have hname : ∀ x, IsName x → IsName (f x) := by
    intro x hx
    rw [IsName, String.toList_append]
    exact .name (.inr rfl) fun d hd => isNameChar_iff.1 (hx.isNameChar d hd)
  have hf : ∀ x y, IsName x → IsName y → f x = f y → x = y := fun _ _ _ _ h =>
    (String.append_right_inj "_").1 h
  have h : tokenize "a=b; a;" = .ok tokens := by with_unfolding_all rfl
  have hsource : renameSource f "a=b; a;" tokens = "_a=_b; _a;" := by decide
  have hcompile : compile { eager := true, mode := .shadowing } "a=b; a;" =
      .ok (⟨[.stmt (.assign (.var 24) (.var 16)), .stmt (.var 24)], 24⟩,
        { mode := .shadowing, entries := [⟨"a", 24⟩, ⟨"b", 16⟩, ⟨"a", 8⟩] }) := by
    with_unfolding_all rfl
  obtain ⟨tokens', -, -, hsame⟩ := compile_other_names hname hf h
  rw [hsource] at hsame
  refine ⟨hname, hf, h, hsource, ?_⟩
  rcases hsame { eager := true, mode := .shadowing } with
    ⟨program, locals, hp, hp'⟩ | ⟨i, t, t', fault, -, -, he, -⟩
  · obtain ⟨rfl, rfl⟩ := Prod.mk.inj (Except.ok.inj (hcompile.symm.trans hp))
    exact hp'
  · cases hcompile.symm.trans he

end FrameLang

import FrameLang.Proofs.Boundary
import FrameLang.Proofs.Segmentation
import Mathlib.Data.List.Chain

/-!
# Lexemes side by side

Lexemes can be written one after the other with blanks between them, or with none where it does no
harm.

* `Glues`: the classes of two lexemes that must not stand side by side.  They are those where the
  second lexeme starts with what makes the first one longer (`growsWith_iff_glues`).
* `Piece`, `concat`: a lexeme with the blanks in front of it, and the text of some of them.
* `exists_segmentation_concat_iff`: a text is cut into the lexemes that it was put together from if
  none of them glue.
* `tokenize_concat_iff`: the same for reading a source.
-/

namespace FrameLang

/-- Two lexemes of these classes are not read as what they are if nothing stands between them. -/
inductive Glues : TokenClass → TokenClass → Prop
  | literals {v w : Int} : Glues (.num v) (.num w)
  | names : Glues .ident .ident
  | nameLiteral {w : Int} : Glues .ident (.num w)
  | equals {p q : Punct} (hp : p = .assign ∨ p = .less ∨ p = .greater)
      (hq : q = .assign ∨ q = .equal) : Glues (.punct p) (.punct q)

variable {cls cls' : TokenClass} {c : Char} {cs : List Char}

/-! ## How a lexeme starts -/

theorem Lexeme.isDigit_head_iff (h : Lexeme cls (c :: cs)) :
    c.isDigit = true ↔ ∃ v, cls = .num v := by
  obtain ⟨d, ds, heq, hd⟩ := h.exists_cons
  obtain ⟨rfl, rfl⟩ := List.cons.inj heq
  rcases hd with ⟨p, rfl, -, hname⟩ | ⟨hdigit, rfl, -⟩ | ⟨-, hdigit, rfl, -⟩
  · refine ⟨fun hdigit => ?_, nofun⟩
    rw [isNameChar_of_isDigit hdigit] at hname
    cases hname
  · exact ⟨fun _ => ⟨_, rfl⟩, fun _ => hdigit⟩
  · refine ⟨fun hdigit' => ?_, nofun⟩
    rw [hdigit] at hdigit'
    cases hdigit'

theorem Lexeme.isNameChar_head_iff (h : Lexeme cls (c :: cs)) :
    isNameChar c = true ↔ cls = .ident ∨ ∃ v, cls = .num v := by
  obtain ⟨d, ds, heq, hd⟩ := h.exists_cons
  obtain ⟨rfl, rfl⟩ := List.cons.inj heq
  rcases hd with ⟨p, rfl, -, hname⟩ | ⟨hdigit, rfl, -⟩ | ⟨hname, -, rfl, -⟩
  · refine ⟨fun hname' => ?_, by rintro (h | ⟨v, h⟩) <;> cases h⟩
    rw [hname] at hname'
    cases hname'
  · exact ⟨fun _ => .inr ⟨_, rfl⟩, fun _ => isNameChar_of_isDigit hdigit⟩
  · exact ⟨fun _ => .inl rfl, fun _ => hname⟩

theorem Punct.head?_spelling_iff (p : Punct) :
    p.spelling.toList.head? = some '=' ↔ p = .assign ∨ p = .equal := by
  cases p <;> decide

theorem Lexeme.head_eq_equals_iff (h : Lexeme cls (c :: cs)) :
    c = '=' ↔ cls = .punct .assign ∨ cls = .punct .equal := by
  cases hname : isNameChar c with
  | true =>
    have hne := ne_equals_of_isNameChar hname
    rcases h.isNameChar_head_iff.1 hname with rfl | ⟨v, rfl⟩ <;> simp [hne]
  | false =>
    obtain ⟨d, ds, heq, hd⟩ := h.exists_cons
    obtain ⟨rfl, rfl⟩ := List.cons.inj heq
    rcases hd with ⟨p, rfl, hp, -⟩ | ⟨hdigit, -⟩ | ⟨hname', -⟩
    · have hhead := p.head?_spelling_iff
      rw [← hp, List.head?_cons, Option.some.injEq] at hhead
      rw [hhead, TokenClass.punct.injEq, TokenClass.punct.injEq]
    · rw [isNameChar_of_isDigit hdigit] at hname
      cases hname
    · rw [hname] at hname'
      cases hname'

theorem Punct.growsWithEquals_iff {p : Punct} :
    p.growsWithEquals = true ↔ p = .assign ∨ p = .less ∨ p = .greater := by
  cases p <;> simp [growsWithEquals]

/-- **Lexemes glue if the second one starts with what makes the first one longer.** -/
theorem growsWith_iff_glues (h : Lexeme cls' (c :: cs)) :
    cls.growsWith c = true ↔ Glues cls cls' := by
  cases cls with
  | punct p =>
    rw [TokenClass.growsWith, Bool.and_eq_true, decide_eq_true_iff, Punct.growsWithEquals_iff,
      h.head_eq_equals_iff]
    constructor
    · rintro ⟨hp, rfl | rfl⟩
      · exact .equals hp (.inl rfl)
      · exact .equals hp (.inr rfl)
    · rintro (_ | _ | _ | ⟨hp, rfl | rfl⟩)
      · exact ⟨hp, .inl rfl⟩
      · exact ⟨hp, .inr rfl⟩
  | num v =>
    refine h.isDigit_head_iff.trans ⟨?_, ?_⟩
    · rintro ⟨w, rfl⟩
      exact .literals
    · rintro ⟨⟩
      exact ⟨_, rfl⟩
  | ident =>
    refine h.isNameChar_head_iff.trans ⟨?_, ?_⟩
    · rintro (rfl | ⟨w, rfl⟩)
      · exact .names
      · exact .nameLiteral
    · rintro ⟨⟩
      · exact .inl rfl
      · exact .inr ⟨_, rfl⟩
  | eof =>
    constructor
    · intro h
      cases h
    · intro h
      cases h

/-! ## Putting lexemes together -/

/-- A lexeme as it is written, with the blanks in front of it. -/
structure Piece where
  gap : List Char
  cls : TokenClass
  text : String

structure Piece.WellFormed (p : Piece) : Prop where
  gap : ∀ c ∈ p.gap, c ∈ blanks
  lexeme : Lexeme p.cls p.text.toList
  fits : ∀ v, p.cls = .num v → v ≤ 9223372036854775807

/-- The text of some pieces one after the other, with some characters after the last one. -/
def concat : List Piece → List Char → List Char
  | [], last => last
  | p :: ps, last => p.gap ++ (p.text.toList ++ concat ps last)

/-- No two neighbours without a blank between them glue. -/
def Apart (ps : List Piece) : Prop := ps.IsChain fun p q => q.gap = [] → ¬ Glues p.cls q.cls

variable {p : Piece} {ps : List Piece} {last : List Char}

theorem longest_concat_iff (hp : Lexeme p.cls p.text.toList) (hps : ∀ q ∈ ps, q.WellFormed)
    (hlast : ∀ c ∈ last, c ∈ blanks) :
    Longest p.cls p.text.toList (concat ps last) ↔
      ∀ q ∈ ps.head?, q.gap = [] → ¬ Glues p.cls q.cls := by
  have hblank : ∀ c, c ∈ blanks → p.cls.growsWith c = false := fun c hc =>
    growsWith_eq_false_of_isBlank (isBlank_iff.2 hc) p.cls
  rw [longest_iff, and_iff_right hp]
  cases ps with
  | nil =>
    refine ⟨fun _ => nofun, fun _ c r hc => hblank c (hlast c ?_)⟩
    rw [show last = c :: r from hc]
    exact List.mem_cons_self
  | cons q qs =>
    have hq := hps q List.mem_cons_self
    obtain ⟨d, ds, htext, -⟩ := hq.lexeme.exists_cons
    have hglues : p.cls.growsWith d = true ↔ Glues p.cls q.cls :=
      growsWith_iff_glues (htext ▸ hq.lexeme)
    cases hgap : q.gap with
    | nil =>
      have hconcat : concat (q :: qs) last = d :: (ds ++ concat qs last) := by
        rw [concat, hgap, htext]
        rfl
      rw [hconcat]
      constructor
      · intro h q' hq' _ hg
        obtain rfl := Option.some.inj hq'
        rw [h d _ rfl] at hglues
        exact Bool.false_ne_true (hglues.2 hg)
      · intro h c r hc
        obtain ⟨rfl, -⟩ := List.cons.inj hc
        exact Bool.eq_false_iff.2 fun hgrows => h q rfl hgap (hglues.1 hgrows)
    | cons b gap =>
      have hb : b ∈ blanks := hq.gap b (by rw [hgap]; exact List.mem_cons_self)
      have hconcat : concat (q :: qs) last = b :: (gap ++ (q.text.toList ++ concat qs last)) := by
        rw [concat, hgap]
        rfl
      rw [hconcat]
      constructor
      · intro _ q' hq' hnil
        obtain rfl := Option.some.inj hq'
        rw [hgap] at hnil
        cases hnil
      · intro _ c r hc
        obtain ⟨rfl, -⟩ := List.cons.inj hc
        exact hblank b hb

/-- **A text is cut into the lexemes that it was put together from if none of them glue.** -/
theorem exists_segmentation_concat_iff (offset : Nat) (hps : ∀ p ∈ ps, p.WellFormed)
    (hlast : ∀ c ∈ last, c ∈ blanks) :
    (∃ ts, Segmentation offset (concat ps last) ts ∧
        ts.map (fun t => (t.cls, t.text)) = ps.map fun p => (p.cls, p.text)) ↔ Apart ps := by
  induction ps generalizing offset with
  | nil => exact ⟨fun _ => .nil, fun _ => ⟨[], .nil hlast, rfl⟩⟩
  | cons p ps ih =>
    rw [List.forall_mem_cons] at hps
    have hlongest := longest_concat_iff hps.1.lexeme hps.2 hlast
    rw [Apart, List.isChain_cons]
    constructor
    · rintro ⟨ts, hseg, hts⟩
      obtain ⟨t, ts, rfl, ht, hrest⟩ := List.map_eq_cons_iff.1 hts
      obtain ⟨hcls, htext⟩ := Prod.mk.inj ht
      rw [concat, ← htext] at hseg
      obtain ⟨-, hl, hseg⟩ := hseg.of_cons hps.1.gap
      rw [hcls, htext] at hl
      exact ⟨fun q hq => hlongest.1 hl q hq, (ih _ hps.2).1 ⟨ts, hseg, hrest⟩⟩
    · rintro ⟨hp, happart⟩
      obtain ⟨ts, hseg, hts⟩ := (ih _ hps.2).2 happart
      refine ⟨_, .cons hps.1.gap (hlongest.2 fun q hq => hp q hq) hseg, ?_⟩
      rw [List.map_cons, hts, String.ofList_toList]
      rfl

/-! ## Reading what was put together -/

/-- **Lexemes are read back from a text that was put together from them if none of them glue.**  Two
lexemes glue if no blank stands between them and they are two literals, two names, a name and a
literal after it, or one of `=`, `<` and `>` and then `=` or `==`. -/
theorem tokenize_concat_iff (ps : List Piece) (last : List Char) (hps : ∀ p ∈ ps, p.WellFormed)
    (hlast : ∀ c ∈ last, c ∈ blanks) :
    (∃ tokens, tokenize (String.ofList (concat ps last)) = .ok tokens ∧
        tokens.map (fun t => (t.cls, t.text)) =
          ps.map (fun p => (p.cls, p.text)) ++ [(.eof, "")]) ↔
      Apart ps := by
  have hsource := tokenize_eq_segmentation (String.ofList (concat ps last))
  rw [String.toList_ofList] at hsource
  refine Iff.trans ⟨?_, ?_⟩ (exists_segmentation_concat_iff 0 hps hlast)
  · rintro ⟨tokens, htokens, hclasses⟩
    obtain ⟨body, rfl, hseg, -⟩ := hsource.1 tokens htokens
    rw [List.map_append] at hclasses
    exact ⟨body, hseg, List.append_inj_left' hclasses rfl⟩
  · rintro ⟨ts, hseg, hts⟩
    have hfits : ∀ t ∈ ts, t.Fits := by
      intro t ht v hv
      have hmem : (t.cls, t.text) ∈ ps.map fun p => (p.cls, p.text) :=
        hts ▸ List.mem_map_of_mem ht
      obtain ⟨p, hp, heq⟩ := List.mem_map.1 hmem
      exact (hps p hp).fits v ((Prod.mk.inj heq).1.trans hv)
    exact ⟨_, hsource.2.1 ts hseg hfits, by rw [List.map_append, hts]; rfl⟩

/-- A literal with a name right after it is read back, and `<` with `==` right after it is not. -/
theorem tokenize_concat_literal_name :
    let digits : Piece := ⟨[], .num 12, "12"⟩
    let name : Piece := ⟨[], .ident, "ab"⟩
    let less : Piece := ⟨[' '], .punct .less, "<"⟩
    let equal : Piece := ⟨[], .punct .equal, "=="⟩
    (∀ p ∈ [digits, name, less, equal], p.WellFormed) ∧
      (∃ tokens, tokenize "12ab < " = .ok tokens ∧
        tokens.map (fun t => (t.cls, t.text)) =
          [(.num 12, "12"), (.ident, "ab"), (.punct .less, "<"), (.eof, "")]) ∧
      ¬ ∃ tokens, tokenize " <==" = .ok tokens ∧
        tokens.map (fun t => (t.cls, t.text)) =
          [(.punct .less, "<"), (.punct .equal, "=="), (.eof, "")] := by
  intro digits name less equal
  have hdigits : digits.WellFormed := by
    have htext : digits.text.toList = ['1', '2'] := by decide
    have hlexeme : Lexeme (.num (Nat.ofDigitChars 10 ['1', '2'] 0)) ['1', '2'] :=
      .literal (List.cons_ne_nil _ _)
        (List.forall_mem_cons.2 ⟨by decide, List.forall_mem_singleton.2 (by decide)⟩)
    exact ⟨nofun, by rw [htext]; exact hlexeme, fun v hv => by cases hv; decide⟩
  have hname : name.WellFormed := by
    have htext : name.text.toList = ['a', 'b'] := by decide
    exact ⟨nofun, htext ▸ .name (.inl (by decide)) (List.forall_mem_singleton.2 (by decide)), nofun⟩
  have hless : less.WellFormed := ⟨List.forall_mem_singleton.2 (by decide), .punct .less, nofun⟩
  have hequal : equal.WellFormed := ⟨nofun, .punct .equal, nofun⟩
  refine ⟨by simp [hdigits, hname, hless, hequal], ?_, ?_⟩
  · have hiff := tokenize_concat_iff [digits, name, less] [' '] (by simp [hdigits, hname, hless])
      (List.forall_mem_singleton.2 (by decide))
    rw [show String.ofList (concat [digits, name, less] [' ']) = "12ab < " by decide] at hiff
    refine hiff.2 ?_
    rw [Apart, List.isChain_cons_cons, List.isChain_cons_cons]
    exact ⟨fun _ => nofun, nofun, List.isChain_singleton less⟩
  · have hiff := tokenize_concat_iff [less, equal] [] (by simp [hless, hequal]) nofun
    rw [show String.ofList (concat [less, equal] []) = " <==" by decide] at hiff
    intro h
    have happart := hiff.1 h
    rw [Apart, List.isChain_cons_cons] at happart
    exact happart.1 rfl (.equals (.inr (.inl rfl)) (.inr rfl))

end FrameLang

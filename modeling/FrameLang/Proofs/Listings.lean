import FrameLang.Proofs.Answers
import FrameLang.Proofs.Layout
import FrameLang.Proofs.Outlines

/-!
# What is shown can be read back

The output of a compilation is up to three listings, with nothing between them.  The line of a token
starts with a blank or a digit, which no program does, and the layout of the frame starts with a
letter, which no tree does.  So every listing ends where the next one has to start.

* `eq_of_tokensText_append`: the listing of some tokens, told by the `Row` of each.
* `eq_of_programText_append`: a program, as its outline or as its compact text.
* `localsText_eq_iff`: the layout of the frame.
* `Compiled`: a source that compiles, with what comes of it.
* `outline_eq_iff`: two programs have the same outline only if they are the same.
* `output_eq_iff`: two compilations show the same text only if they show the same things.
-/

namespace FrameLang

variable {u v : List Char}

/-! ## Tokens -/

/-- What the listing shows of a token. -/
structure Row where
  pos : Nat
  kind : TokenKind
  text : String
  deriving DecidableEq, Repr

def Token.row (t : Token) : Row := ⟨t.pos, t.cls.kind, t.describe⟩

def Row.listing (r : Row) : List Char :=
  (padLeft 5 (toString r.pos)).toList ++ ' ' :: ' ' ::
    ((padRight 6 r.kind.label).toList ++ ' ' :: ' ' :: (r.text.toList ++ ['\n']))

theorem Token.toList_listing_eq_row (t : Token) : t.listing.toList = t.row.listing := by
  simp [listing, row, Row.listing]

theorem toList_tokenListing (tokens : List Token) :
    (tokenListing tokens).toList = (tokens.map Token.row).flatMap Row.listing := by
  simp only [tokenListing, String.toList_join, List.flatMap_map, Token.toList_listing_eq_row]

theorem legible_padLeft (width : Nat) :
    Legible (fun _ => True) (Stops isNumeral) fun n : Nat =>
      (padLeft width (toString n)).toList := by
  have hdrop : ∀ (n : Nat) (r : List Char),
      ((padLeft width (toString n)).toList ++ r).dropWhile (· = ' ') =
        (toString n).toList ++ r := by
    intro n r
    obtain ⟨c, cs, hcs⟩ := List.exists_cons_of_ne_nil (toString_nat_ne_nil n)
    have hc : c ≠ ' ' := by
      rintro rfl
      have hblank := isDigit_of_mem_toString (n := n) (hcs ▸ List.mem_cons_self)
      exact absurd hblank (by decide)
    rw [padLeft, String.toList_append, String.toList_ofList, List.append_assoc,
      List.dropWhile_append_of_pos (by simp), hcs, List.cons_append, List.dropWhile_cons_of_neg]
    simpa using hc
  intro n m u v _ _ hu hv h
  have hnumbers := congrArg (List.dropWhile (· = ' ')) h
  rw [hdrop, hdrop] at hnumbers
  exact legible_nat trivial trivial hu hv hnumbers

theorem legible_kind :
    Legible (fun _ => True) (fun _ => True) fun k : TokenKind => (padRight 6 k.label).toList := by
  have hwidth : ∀ k : TokenKind, (padRight 6 k.label).toList.length = 6 := by
    intro k
    cases k <;> decide
  intro k k' u v _ _ _ _ h
  obtain ⟨hk, huv⟩ := List.append_inj h ((hwidth k).trans (hwidth k').symm)
  refine ⟨?_, huv⟩
  revert hk
  cases k <;> cases k' <;> decide

theorem legible_row :
    Legible (fun r : Row => '\n' ∉ r.text.toList) (fun _ => True) Row.listing := by
  have hblank : ∀ r, Stops isNumeral (' ' :: r) := fun r => stops_cons (by decide)
  rintro ⟨pos, kind, text⟩ ⟨pos', kind', text'⟩ u v ha hb - - h
  simp only [Row.listing, List.append_assoc, List.cons_append] at h
  obtain ⟨rfl, hkind⟩ := legible_padLeft 5 trivial trivial (hblank _) (hblank _) h
  simp only [List.cons.injEq, true_and] at hkind
  obtain ⟨rfl, htext⟩ := legible_kind trivial trivial trivial trivial hkind
  simp only [List.cons.injEq, true_and] at htext
  obtain ⟨htext, hrest⟩ := eq_of_append_cons ha hb htext
  obtain rfl := String.toList_inj.1 htext
  exact ⟨rfl, hrest⟩

def startsLine (c : Char) : Bool := c = ' ' || isNumeral c

theorem Row.exists_startsLine (r : Row) :
    ∃ c cs, r.listing = c :: cs ∧ startsLine c = true := by
  have hpad : ∀ c ∈ (padLeft 5 (toString r.pos)).toList, startsLine c = true := by
    intro c hc
    rw [padLeft, String.toList_append, String.toList_ofList, List.mem_append] at hc
    rcases hc with hc | hc
    · rw [List.eq_of_mem_replicate hc]
      rfl
    · rw [startsLine, isNumeral_of_mem_toString_nat hc, Bool.or_true]
  have hne : (padLeft 5 (toString r.pos)).toList ≠ [] := by
    rw [padLeft, String.toList_append]
    exact List.append_ne_nil_of_right_ne_nil _ (toString_nat_ne_nil r.pos)
  obtain ⟨c, cs, hcs⟩ := List.exists_cons_of_ne_nil hne
  exact ⟨c, _, by rw [listing, hcs]; rfl, hpad c (hcs ▸ List.mem_cons_self)⟩

theorem legible_rows :
    Legible (fun rows => ∀ r ∈ rows, '\n' ∉ r.text.toList) (Stops startsLine)
      (List.flatMap Row.listing) := by
  refine legible_row.flatMap fun r rest _ hstops => ?_
  obtain ⟨c, cs, hcs, hc⟩ := r.exists_startsLine
  rw [hstops c _ (by rw [hcs]; rfl)] at hc
  cases hc

def tokensText (shown : Bool) (tokens : List Token) : List Char :=
  (if shown then tokenListing tokens else "").toList

/-- **The listing of some tokens can be read back** where no line of a token starts. -/
theorem eq_of_tokensText_append {shown : Bool} {ts ts' : List Token}
    (hts : ∀ r ∈ ts.map Token.row, '\n' ∉ r.text.toList)
    (hts' : ∀ r ∈ ts'.map Token.row, '\n' ∉ r.text.toList) (hu : Stops startsLine u)
    (hv : Stops startsLine v) (h : tokensText shown ts ++ u = tokensText shown ts' ++ v) :
    (shown = true → ts.map Token.row = ts'.map Token.row) ∧ u = v := by
  cases shown with
  | true =>
    simp only [tokensText, if_true, toList_tokenListing] at h
    obtain ⟨hrows, huv⟩ := legible_rows hts hts' hu hv h
    exact ⟨fun _ => hrows, huv⟩
  | false => exact ⟨nofun, h⟩

theorem tokensText_congr {shown : Bool} {ts ts' : List Token}
    (h : shown = true → ts.map Token.row = ts'.map Token.row) :
    tokensText shown ts = tokensText shown ts' := by
  cases shown with
  | true => simp only [tokensText, if_true, toList_tokenListing, h rfl]
  | false => rfl

/-! ## Programs -/

def programText (outline : Bool) (p : Program) : List Char :=
  (if outline then p.outline ++ "\n" else p.render).toList

/-- **A program can be read back** where no tree starts.  The compact text does not show the frame
size. -/
theorem eq_of_programText_append {outline : Bool} {p q : Program} (hu : Stops Node.startsText u)
    (hv : Stops Node.startsText v) (h : programText outline p ++ u = programText outline q ++ v) :
    p.stmts = q.stmts ∧ (outline = true → p.frameSize = q.frameSize) ∧ u = v := by
  cases outline with
  | true =>
    simp only [programText, if_true, String.toList_append, List.append_assoc] at h
    obtain ⟨rfl, hrest⟩ := Program.legible_outline trivial trivial trivial trivial h
    exact ⟨rfl, fun _ => rfl, List.append_cancel_left hrest⟩
  | false =>
    simp only [programText, Bool.false_eq_true, if_false, Program.toList_render] at h
    obtain ⟨hstmts, huv⟩ := legible_renderLines trivial trivial hu hv h
    exact ⟨hstmts, nofun, huv⟩

theorem programText_congr {outline : Bool} {p q : Program} (hstmts : p.stmts = q.stmts)
    (hframe : outline = true → p.frameSize = q.frameSize) :
    programText outline p = programText outline q := by
  cases outline with
  | true =>
    obtain ⟨stmts, frameSize⟩ := p
    obtain rfl : frameSize = q.frameSize := hframe rfl
    obtain rfl : stmts = q.stmts := hstmts
    rfl
  | false => simp only [programText, Bool.false_eq_true, if_false, Program.toList_render, hstmts]

theorem stops_programText (outline : Bool) {p : Program} (hp : ∀ n ∈ p.stmts, ∃ e, n = .stmt e)
    (hu : Stops startsLine u) : Stops startsLine (programText outline p ++ u) := by
  cases outline with
  | true =>
    have hname : "Program \x7b\n".toList = 'P' :: "rogram \x7b\n".toList := by decide
    rw [programText, if_pos rfl, String.toList_append, Program.toList_outline, hname]
    exact stops_cons (by decide)
  | false =>
    rw [programText, if_neg Bool.false_ne_true, Program.toList_render]
    cases hs : p.stmts with
    | nil => exact hu
    | cons n ns =>
      obtain ⟨e, rfl⟩ := hp n (by rw [hs]; exact List.mem_cons_self)
      rw [List.flatMap_cons, Node.renderLine, Node.toList_render_of_word? rfl]
      exact stops_cons (by decide)

/-! ## The layout of the frame -/

theorem Local.toList_listing (e : Local) :
    e.listing.toList = '\t' :: ' ' :: (e.name.toList ++ '\t' ::
      (" ; offset ".toList ++ ((toString e.offset).toList ++ ['\n']))) := by
  simp [listing]

theorem Local.legible_listing :
    Legible (fun e : Local => '\t' ∉ e.name.toList) (fun _ => True) fun e => e.listing.toList := by
  rintro ⟨name, offset⟩ ⟨name', offset'⟩ u v ha hb - - h
  simp only [toList_listing, List.append_assoc, List.cons_append, List.cons.injEq, true_and] at h
  obtain ⟨hname, hoffset⟩ := eq_of_append_cons ha hb h
  obtain rfl := String.toList_inj.1 hname
  simp only [List.append_cancel_left_eq] at hoffset
  obtain ⟨rfl, hrest⟩ := legible_nat trivial trivial (stops_cons (by decide))
    (stops_cons (by decide)) hoffset
  exact ⟨rfl, (List.cons.inj hrest).2⟩

namespace Locals

variable {t t' : Locals}

def headline (t : Locals) : String :=
  "locals: " ++ toString t.size ++ " (frame size " ++ toString t.frameSize ++ ")"

theorem toList_dump (t : Locals) :
    t.dump.toList = t.headline.toList ++ '\n' :: t.entries.flatMap fun e => e.listing.toList := by
  simp [dump, headline, List.flatMap_map]

theorem lineFeed_not_mem_headline (t : Locals) : '\n' ∉ t.headline.toList := by
  unfold headline
  simp only [lineFeed_not_mem_append, lineFeed_not_mem_toString]
  decide

/-- **The layout of a frame can be read back**, if no name has a tab in it. -/
theorem dump_injective (ht : ∀ e ∈ t.entries, '\t' ∉ e.name.toList)
    (ht' : ∀ e ∈ t'.entries, '\t' ∉ e.name.toList) (h : t.dump.toList = t'.dump.toList) :
    t.entries = t'.entries := by
  have hends : ∀ (e : Local) (u : List Char), '\t' ∉ e.name.toList →
      ¬ [] = e.listing.toList ++ u := by
    intro e u _ hnil
    rw [Local.toList_listing] at hnil
    cases hnil
  rw [toList_dump, toList_dump] at h
  obtain ⟨-, hlines⟩ := eq_of_append_cons t.lineFeed_not_mem_headline t'.lineFeed_not_mem_headline h
  exact (Local.legible_listing.flatMap hends).injective rfl ht ht' hlines

theorem exists_dump_eq_cons (t : Locals) : ∃ cs, t.dump.toList = 'l' :: cs := by
  have hname : "locals: ".toList = 'l' :: "ocals: ".toList := by decide
  rw [toList_dump, headline]
  simp only [String.toList_append, hname, List.cons_append]
  exact ⟨_, rfl⟩

end Locals

def localsText (shown : Bool) (t : Locals) : List Char :=
  (if shown then t.dump else "").toList

theorem localsText_eq_iff {shown : Bool} {t t' : Locals}
    (ht : ∀ e ∈ t.entries, '\t' ∉ e.name.toList) (ht' : ∀ e ∈ t'.entries, '\t' ∉ e.name.toList) :
    localsText shown t = localsText shown t' ↔ (shown = true → t.entries = t'.entries) := by
  cases shown with
  | true =>
    refine ⟨fun h _ => Locals.dump_injective ht ht' h, fun h => ?_⟩
    simp only [localsText, if_true, Locals.dump, Locals.size, Locals.frameSize, h rfl]
  | false => exact ⟨fun _ hshown => absurd hshown Bool.false_ne_true, fun _ => rfl⟩

theorem stops_localsText {q : Char → Bool} (hq : q 'l' = false) (shown : Bool) (t : Locals) :
    Stops q (localsText shown t) := by
  cases shown with
  | true =>
    obtain ⟨cs, hcs⟩ := t.exists_dump_eq_cons
    rw [localsText, if_pos rfl, hcs]
    exact stops_cons hq
  | false => exact stops_nil

/-! ## Sources that compile -/

/-- A source that compiles, with what comes of it. -/
structure Compiled (config : Config) (source : String) where
  tokens : List Token
  program : Program
  locals : Locals
  tokenize_eq : tokenize source = .ok tokens
  compile_eq : compile config source = .ok (program, locals)

theorem DerivesProgram.eq_stmt {ts : List Token} {es : List (Node String)}
    (h : DerivesProgram ts es) : ∀ n ∈ es, ∃ e, n = .stmt e := by
  induction h with
  | nil => nofun
  | cons _ _ _ ih =>
    rw [List.forall_mem_cons]
    exact ⟨⟨_, rfl⟩, ih⟩

namespace Compiled

variable {config : Config} {source : String}

theorem exists_derivesProgram (c : Compiled config source) :
    ∃ body es, DerivesProgram body es ∧ (∀ t ∈ body, t ∈ c.tokens) ∧
      c.locals = config.tableOf body ∧ c.program.stmts = es.map (Node.map c.locals.slot) := by
  have hcompile := c.compile_eq
  rcases compile_cases source config.maxDepth with
    ⟨e, -, he⟩ | ⟨body, -, htokens, ⟨t, -, r, -, he⟩ | ⟨es, hes, hall⟩⟩
  · rw [he config rfl] at hcompile
    cases hcompile
  · rw [he config rfl] at hcompile
    cases hcompile
  · obtain ⟨hprogram, hlocals⟩ :=
      Prod.mk.inj (Except.ok.inj (hcompile.symm.trans (hall config rfl)))
    have htokens' := Except.ok.inj (c.tokenize_eq.symm.trans htokens)
    refine ⟨body, es, hes, fun t ht => ?_, hlocals, by rw [hprogram, hlocals]⟩
    rw [htokens']
    exact List.mem_append_left _ ht

theorem eq_stmt (c : Compiled config source) : ∀ n ∈ c.program.stmts, ∃ e, n = .stmt e := by
  obtain ⟨body, es, hes, -, -, hstmts⟩ := c.exists_derivesProgram
  rw [hstmts, List.forall_mem_map]
  intro n hn
  obtain ⟨e, rfl⟩ := hes.eq_stmt n hn
  exact ⟨_, rfl⟩

theorem lineFeed_not_mem_row (c : Compiled config source) :
    ∀ r ∈ c.tokens.map Token.row, '\n' ∉ r.text.toList := by
  rw [List.forall_mem_map]
  intro t ht
  exact (lineFeed_not_mem_append.1 (lineFeed_not_mem_line c.tokenize_eq ht)).2

theorem tab_not_mem_name (c : Compiled config source) :
    ∀ e ∈ c.locals.entries, '\t' ∉ e.name.toList := by
  obtain ⟨body, es, -, hbody, hlocals, -⟩ := c.exists_derivesProgram
  have hholds := tableOf_holds config body
  rw [← hlocals] at hholds
  intro e he
  rw [hholds.entries_eq, List.mem_reverse] at he
  obtain ⟨i, hi, rfl⟩ := List.mem_mapIdx.1 he
  obtain ⟨t, ht, hident, hname⟩ :=
    mem_namesOf.1 (mem_heldNames.1 (List.getElem_mem hi))
  rcases lexeme_or_eq_eof_of_tokenize c.tokenize_eq (hbody t ht) with hlexeme | rfl
  · rw [← hname]
    exact fun htab => hlexeme.not_blank _ htab (by decide)
  · cases hident

end Compiled

end FrameLang

namespace FrameLang.CommandLine

variable {args args' : List String} {content content' : Origin → Except ReadFault ByteArray}
  {timings timings' : Timings} {o o' : Options}

/-- An answer with exit code zero is the answer to a source that compiles. -/
theorem exists_compiled (ho : interpret args = .ok o)
    (hcode : (respond args content timings).exitCode = 0) :
    ∃ source, o.origin.load (content o.origin) = .ok source ∧
      ∃ c : Compiled o.config source, (respond args content timings).output =
        o.tokenListing c.tokens ++ o.programListing c.program c.locals := by
  rw [respond, ho] at hcode ⊢
  cases hload : o.origin.load (content o.origin) with
  | error e =>
    simp only [hload] at hcode
    cases hcode
  | ok source =>
    simp only [hload] at hcode ⊢
    refine ⟨source, rfl, ?_⟩
    rcases hcompile : compile o.config source with e | ⟨program, locals⟩
    · obtain ⟨shown, hrespond, -⟩ := Options.respond_of_compile_error hcompile timings
      rw [hrespond] at hcode
      cases hcode
    · obtain ⟨tokens, htokens, hrespond⟩ := Options.respond_of_compile hcompile timings
      exact ⟨⟨tokens, program, locals, htokens, hcompile⟩, by rw [hrespond]⟩

theorem Options.toList_listings (o : Options) (tokens : List Token) (p : Program) (t : Locals) :
    (o.tokenListing tokens ++ o.programListing p t).toList =
      tokensText o.printTokens tokens ++
        (programText o.printAst p ++ localsText o.printLocals t) := by
  rw [Options.programListing, String.toList_append, String.toList_append]
  rfl

/-- **An outline identifies its program**, the frame size included, and it does so in front of the
layout of the frame too. -/
theorem outline_eq_iff :
    (∀ p q : Program, p.outline = q.outline ↔ p = q) ∧
      ∀ (o : Options) (p q : Program) (t t' : Locals),
        { o with printAst := true : Options }.programListing p t =
            { o with printAst := true : Options }.programListing q t' ↔
          p = q ∧ (o.printLocals = true → t.dump = t'.dump) := by
  have hinjective : ∀ {p q : Program} {u v : List Char},
      p.outline.toList ++ u = q.outline.toList ++ v → p = q ∧ u = v := fun h =>
    Program.legible_outline trivial trivial trivial trivial h
  refine ⟨fun p q => ⟨fun h => ?_, congrArg _⟩, fun o p q t t' => ⟨fun h => ?_, ?_⟩⟩
  · exact (hinjective (congrArg (fun s => s.toList ++ []) h)).1
  · have htext := congrArg String.toList h
    simp only [Options.programListing, if_true, String.toList_append, List.append_assoc] at htext
    obtain ⟨rfl, hrest⟩ := hinjective htext
    refine ⟨rfl, fun hshown => ?_⟩
    rw [if_pos hshown, if_pos hshown] at hrest
    exact String.toList_inj.1 (List.append_cancel_left hrest)
  · rintro ⟨rfl, hlayout⟩
    cases hshown : o.printLocals with
    | true => simp only [Options.programListing, hlayout hshown]
    | false => simp only [Options.programListing, Bool.false_eq_true, if_false]

/-- The list of no statements stays on one line. -/
example : Program.outline ⟨[], 8⟩ =
    "Program \x7b\n    stmts: [],\n    frame_size: 8,\n\x7d" := by
  decide

/-- **What is shown of two compilations is the same only if it shows the same things.**  Runs that
succeed with the same listings asked for have the same output just if they have the same rows of
tokens, the same statements, the same frame size and the same locals in the same order, each of them
as far as it is shown. -/
theorem output_eq_iff (ho : interpret args = .ok o) (ho' : interpret args' = .ok o')
    (hcode : (respond args content timings).exitCode = 0)
    (hcode' : (respond args' content' timings').exitCode = 0)
    (htokens : o.printTokens = o'.printTokens) (hast : o.printAst = o'.printAst)
    (hlocals : o.printLocals = o'.printLocals) :
    ∃ source source', o.origin.load (content o.origin) = .ok source ∧
      o'.origin.load (content' o'.origin) = .ok source' ∧
      ∃ (c : Compiled o.config source) (c' : Compiled o'.config source'),
        (respond args content timings).output = (respond args' content' timings').output ↔
          (o.printTokens = true → c.tokens.map Token.row = c'.tokens.map Token.row) ∧
          c.program.stmts = c'.program.stmts ∧
          (o.printAst = true → c.program.frameSize = c'.program.frameSize) ∧
          (o.printLocals = true → c.locals.entries = c'.locals.entries) := by
  obtain ⟨source, hload, c, hc⟩ := exists_compiled ho hcode
  obtain ⟨source', hload', c', hc'⟩ := exists_compiled ho' hcode'
  refine ⟨source, source', hload, hload', c, c', ?_⟩
  rw [hc, hc', ← String.toList_inj, Options.toList_listings, Options.toList_listings, ← htokens,
    ← hast, ← hlocals]
  constructor
  · intro h
    have hstops : ∀ (shown : Bool) (t : Locals), Stops startsLine (localsText shown t) :=
      stops_localsText rfl
    obtain ⟨hrows, hrest⟩ := eq_of_tokensText_append c.lineFeed_not_mem_row
      c'.lineFeed_not_mem_row (stops_programText _ c.eq_stmt (hstops _ _))
      (stops_programText _ c'.eq_stmt (hstops _ _)) h
    obtain ⟨hstmts, hframe, hlayout⟩ := eq_of_programText_append (stops_localsText rfl _ _)
      (stops_localsText rfl _ _) hrest
    exact ⟨hrows, hstmts, hframe,
      (localsText_eq_iff c.tab_not_mem_name c'.tab_not_mem_name).1 hlayout⟩
  · rintro ⟨hrows, hstmts, hframe, hentries⟩
    rw [tokensText_congr hrows, programText_congr hstmts hframe,
      (localsText_eq_iff c.tab_not_mem_name c'.tab_not_mem_name).2 hentries]

/-- Two sources with the same tree, whose variables have different names. -/
theorem output_eq_iff_of_names :
    let args := fun name => ["--print-locals", name ++ ";"]
    let o : String → Options := fun name =>
      { origin := .argument (name ++ ";"), printLocals := true }
    let content : Origin → Except ReadFault ByteArray := fun _ => .ok .empty
    let answer := fun name => respond (args name) content ⟨"", "", ""⟩
    interpret (args "a") = .ok (o "a") ∧ interpret (args "b") = .ok (o "b") ∧
      (answer "a").exitCode = 0 ∧ (answer "b").exitCode = 0 ∧
      (answer "a").output ≠ (answer "b").output := by
  intro args o content answer
  have hargs : interpret (args "a") = .ok (o "a") := by with_unfolding_all rfl
  have hargs' : interpret (args "b") = .ok (o "b") := by with_unfolding_all rfl
  have hcode : (answer "a").exitCode = 0 := by with_unfolding_all rfl
  have hcode' : (answer "b").exitCode = 0 := by with_unfolding_all rfl
  refine ⟨hargs, hargs', hcode, hcode', fun heq => ?_⟩
  obtain ⟨source, source', hload, hload', c, c', hiff⟩ :=
    output_eq_iff hargs hargs' hcode hcode' rfl rfl rfl
  obtain rfl := Except.ok.inj hload
  obtain rfl := Except.ok.inj hload'
  have hcompile : ∀ name, (name = "a" ∨ name = "b") → compile (o name).config (name ++ ";") =
      .ok (⟨[.stmt (.var 8)], 8⟩, { entries := [⟨name, 8⟩] }) := by
    rintro name (rfl | rfl)
    · with_unfolding_all rfl
    · with_unfolding_all rfl
  have hlocals := Except.ok.inj (c.compile_eq.symm.trans (hcompile "a" (.inl rfl)))
  have hlocals' := Except.ok.inj (c'.compile_eq.symm.trans (hcompile "b" (.inr rfl)))
  have hentries := (hiff.1 heq).2.2.2 rfl
  rw [(Prod.mk.inj hlocals).2, (Prod.mk.inj hlocals').2] at hentries
  exact absurd hentries (by decide)

end FrameLang.CommandLine

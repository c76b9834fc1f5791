import FrameLang.Main
import FrameLang.Proofs.Registering
import FrameLang.Proofs.Report

/-!
# What the program answers to a source

The program runs the two stages of a compilation apart, with the clock between them, and shows the
tokens before it parses them.  Its answer is told by the whole compilation all the same.

* `tokenListing_eq_unlines`: a listing has one line for each token.
* `runTimed_eq`: with its clock, the program answers what `Options.respond` says.
* `Options.respond_of_compile`, `Options.respond_of_compile_error`: the answer to a source.
* `respond_eq_of_compile`: the answer to a command line.
-/

namespace FrameLang

/-! ## Listings -/

/-- The line of a token in a listing, without the line feed. -/
def Token.line (t : Token) : List Char :=
  (padLeft 5 (toString t.pos) ++ "  " ++ padRight 6 t.cls.kind.label ++ "  " ++ t.describe).toList

theorem Token.toList_listing (t : Token) : t.listing.toList = t.line ++ ['\n'] :=
  String.toList_append

theorem tokenListing_eq_unlines (tokens : List Token) :
    (tokenListing tokens).toList = unlines (tokens.map Token.line) := by
  simp only [tokenListing, String.toList_join, unlines, List.flatMap_map, Token.toList_listing]

theorem lineFeed_not_mem_padLeft {text : String} (h : '\n' ∉ text.toList) (width : Nat) :
    '\n' ∉ (padLeft width text).toList := by
  simp [padLeft, h]

theorem lineFeed_not_mem_padRight {text : String} (h : '\n' ∉ text.toList) (width : Nat) :
    '\n' ∉ (padRight width text).toList := by
  simp [padRight, h]

theorem lineFeed_not_mem_line {source : String} {tokens : List Token} {t : Token}
    (h : tokenize source = .ok tokens) (ht : t ∈ tokens) : '\n' ∉ t.line := by
  have hdescribe : '\n' ∉ t.describe.toList := by
    rcases lexeme_or_eq_eof_of_tokenize h ht with hlexeme | rfl
    · rw [Token.describe_of_ne_eof hlexeme.ne_eof]
      exact hlexeme.lineFeed_not_mem
    · show '\n' ∉ "EOF".toList
      decide
  have hlabel : ∀ kind : TokenKind, '\n' ∉ kind.label.toList := by
    intro kind
    cases kind <;> decide
  have hblanks : '\n' ∉ "  ".toList := by decide
  unfold Token.line
  simp only [lineFeed_not_mem_append]
  exact ⟨⟨⟨⟨lineFeed_not_mem_padLeft (lineFeed_not_mem_toString _) _, hblanks⟩,
    lineFeed_not_mem_padRight (hlabel _) _⟩, hblanks⟩, hdescribe⟩

end FrameLang

namespace FrameLang.CommandLine

/-! ## Answers -/

/-- **With its clock, the program answers what `Options.respond` says.** -/
theorem runTimed_eq (o : Options) (source : String) :
    runTimed o source = do
      let t₀ ← IO.monoNanosNow
      match o.tokens source with
      | (.error _, _) => return o.respond source ⟨"", "", ""⟩
      | (.ok _, _) =>
        let t₁ ← IO.monoNanosNow
        let t₂ ← IO.monoNanosNow
        return o.respond source
          { lex := durationText (t₁ - t₀)
            parse := durationText (t₂ - t₁)
            total := durationText (t₂ - t₀) } := by
  unfold runTimed Options.respond
  rcases o.tokens source with ⟨e | tokens, locals⟩
  · rfl
  · rfl

namespace Options

variable {o : Options} {source : String}

theorem respond_eq (o : Options) (source : String) (timings : Timings) :
    o.respond source timings =
      match tokenize source with
      | .error e => lexicalFailure source e
      | .ok tokens =>
        let start := o.config.startTable o.config.locals (scan source).tokens
        o.conclude source tokens (parseProgram o.config tokens start) timings := by
  rw [respond, Options.tokens, readTokens_eq]
  cases tokenize source with
  | error e => rfl
  | ok tokens => rfl

theorem respond_of_compile {program : Program} {locals : Locals}
    (h : compile o.config source = .ok (program, locals)) (timings : Timings) :
    ∃ tokens, tokenize source = .ok tokens ∧
      o.respond source timings =
        { exitCode := 0
          output := o.tokenListing tokens ++ o.programListing program locals
          errors := if o.timings then timings.block else "" } := by
  rw [respond_eq]
  rw [compile_eq] at h
  cases htokens : tokenize source with
  | error e =>
    rw [htokens] at h
    cases h
  | ok tokens =>
    refine ⟨tokens, rfl, ?_⟩
    simp only [htokens] at h
    rcases hanswer : parseProgram o.config tokens
      (o.config.startTable o.config.locals (scan source).tokens) with ⟨e | program', final⟩
    · rw [hanswer] at h
      cases h
    · rw [hanswer] at h
      obtain ⟨rfl, rfl⟩ := Prod.mk.inj (Except.ok.inj h)
      simp only [hanswer, conclude]

theorem respond_of_compile_error {e : CompileError} (h : compile o.config source = .error e)
    (timings : Timings) :
    ∃ shown, o.respond source timings =
        { exitCode := failureCode, output := shown, errors := e.report source } ∧
      ((∃ fault, e = .lexical fault) ∧ shown = "" ∨
        ∃ fault tokens, e = .syntactic fault ∧ tokenize source = .ok tokens ∧
          shown = o.tokenListing tokens) := by
  rw [respond_eq]
  rw [compile_eq] at h
  cases htokens : tokenize source with
  | error fault =>
    rw [htokens] at h
    obtain rfl := Except.error.inj h
    exact ⟨"", rfl, .inl ⟨⟨fault, rfl⟩, rfl⟩⟩
  | ok tokens =>
    simp only [htokens] at h
    rcases hanswer : parseProgram o.config tokens
      (o.config.startTable o.config.locals (scan source).tokens) with ⟨fault | program, final⟩
    · rw [hanswer] at h
      obtain rfl := Except.error.inj h
      simp only [hanswer, conclude]
      exact ⟨_, rfl, .inr ⟨fault, tokens, rfl, rfl, rfl⟩⟩
    · rw [hanswer] at h
      cases h

end Options

variable {args : List String} {content : Origin → Except ReadFault ByteArray} {o : Options}
  {source : String}

/-- **The answer to a command line is told by the compilation of its source.**  If there is a
program, the exit code is zero, and the output has a line for each token, the program and the
locals, as far as they are asked for.  If there is an error, the exit code is one, the report is
all that is shown of it, and there is no output but the tokens before a syntax error. -/
theorem respond_eq_of_compile (timings : Timings) (ho : interpret args = .ok o)
    (hsource : o.origin.load (content o.origin) = .ok source) :
    (∀ program locals, compile o.config source = .ok (program, locals) →
      ∃ tokens, tokenize source = .ok tokens ∧
        respond args content timings =
          { exitCode := 0
            output := (if o.printTokens then tokenListing tokens else "") ++
              ((if o.printAst then program.outline ++ "\n" else program.render) ++
                (if o.printLocals then locals.dump else ""))
            errors := if o.timings then timings.block else "" }) ∧
    (∀ e, compile o.config source = .error e →
      ∃ shown, respond args content timings =
          { exitCode := 1, output := shown, errors := report source e.pos e.message } ∧
        ((∃ fault, e = .lexical fault) ∧ shown = "" ∨
          ∃ fault tokens, e = .syntactic fault ∧ tokenize source = .ok tokens ∧
            shown = if o.printTokens then tokenListing tokens else "")) ∧
    ∀ tokens, tokenize source = .ok tokens →
      ∃ lines : List (List Char), lines.length = tokens.length ∧ (∀ line ∈ lines, '\n' ∉ line) ∧
        (tokenListing tokens).toList = unlines lines := by
  have hrespond : respond args content timings = o.respond source timings := by
    rw [respond, ho]
    simp only [hsource]
  rw [hrespond]
  refine ⟨fun program locals h => Options.respond_of_compile h timings,
    fun e h => Options.respond_of_compile_error h timings, fun tokens h => ?_⟩
  refine ⟨tokens.map Token.line, List.length_map _, ?_, tokenListing_eq_unlines tokens⟩
  intro line hline
  obtain ⟨t, ht, rfl⟩ := List.mem_map.1 hline
  exact lineFeed_not_mem_line h ht

/-- A program whose tokens and locals are asked for. -/
theorem respond_eq_of_compile_of_listings :
    let args := ["--print-tokens", "--print-locals", "a;"]
    let o : Options := { origin := .argument "a;", printTokens := true, printLocals := true }
    let program : Program := ⟨[.stmt (.var 8)], 8⟩
    let locals : Locals := { entries := [⟨"a", 8⟩] }
    let content : Origin → Except ReadFault ByteArray := fun _ => .ok .empty
    interpret args = .ok o ∧ o.origin.load (content o.origin) = .ok "a;" ∧
      compile o.config "a;" = .ok (program, locals) ∧
      ∃ tokens, tokenize "a;" = .ok tokens ∧
        respond args content ⟨"", "", ""⟩ =
          { exitCode := 0, output := tokenListing tokens ++ (program.render ++ locals.dump) } := by
  intro args o program locals content
  have ho : interpret args = .ok o := by with_unfolding_all rfl
  have hsource : o.origin.load (content o.origin) = .ok "a;" := rfl
  have h : compile o.config "a;" = .ok (program, locals) := by with_unfolding_all rfl
  obtain ⟨hprogram, -, -⟩ := respond_eq_of_compile ⟨"", "", ""⟩ ho hsource
  exact ⟨ho, hsource, h, hprogram program locals h⟩

end FrameLang.CommandLine

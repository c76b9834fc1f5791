import FrameLang.Proofs.Segmentation
import FrameLang.Proofs.Tables

/-!
# Registering names early or late

A name can enter the table as its token is read, before any parsing, or when the parser comes to it.

* `Locals.registerTokens`: a table after the names of some tokens have been registered in order.
* `tokenizeWith_eq`: reading a source with a table reads the same tokens, and registers the names of
  those that are read before the end or the first fault.
* `Config.startTable`: the table that the parser starts with.
* `Config.tableOf`: the table that a compilation ends with, from the tokens alone.
* `compile_cases`: a source fails with one error under all configurations of one limit, or it has
  one list of trees by names, and each configuration puts the offsets of its own table into them.
* `Config.outcome`: what a compilation gives but for the mode of its table.
* `compile_registration_irrelevant`: where a name has one slot, it does not matter when the names
  are registered, and where they are not registered early, it does not matter how.
-/

namespace FrameLang

variable {t : Token} {u ts : List Token} {locals : Locals} {mode : Mode}

namespace Locals

def registerTokens (locals : Locals) (ts : List Token) : Locals := ts.foldl registerToken locals

@[simp] theorem registerTokens_nil (locals : Locals) : locals.registerTokens [] = locals := rfl

@[simp] theorem registerTokens_cons (locals : Locals) (t : Token) (ts : List Token) :
    locals.registerTokens (t :: ts) = (locals.registerToken t).registerTokens ts := rfl

theorem registerToken_of_ident (h : t.cls = .ident) :
    locals.registerToken t = locals.register t.text := by
  rw [registerToken, Token.name?_of_ident h]

theorem registerToken_of_ne_ident (h : t.cls ≠ .ident) : locals.registerToken t = locals := by
  rw [registerToken, Token.name?_of_ne_ident h]

def withMode (locals : Locals) (mode : Mode) : Locals := { locals with mode := mode }

@[simp] theorem lookup?_withMode (locals : Locals) (mode : Mode) (x : String) :
    (locals.withMode mode).lookup? x = locals.lookup? x := rfl

theorem declare_withMode (locals : Locals) (mode : Mode) (x : String) :
    (locals.withMode mode).declare x = (locals.declare x).withMode mode := by
  by_cases h : (locals.lookup? x).isSome
  · rw [declare, lookup?_withMode, if_pos h, declare, if_pos h]
  · rw [declare, lookup?_withMode, if_neg h, declare, if_neg h]
    rfl

theorem declareToken_withMode (locals : Locals) (mode : Mode) (t : Token) :
    (locals.withMode mode).declareToken t = (locals.declareToken t).withMode mode := by
  by_cases ht : t.cls = .ident
  · rw [declareToken_of_ident ht, declareToken_of_ident ht, declare_withMode]
  · rw [declareToken_of_ne_ident ht, declareToken_of_ne_ident ht]

theorem declareTokens_withMode (locals : Locals) (mode : Mode) (ts : List Token) :
    (locals.withMode mode).declareTokens ts = (locals.declareTokens ts).withMode mode := by
  induction ts generalizing locals with
  | nil => rfl
  | cons t ts ih => rw [declareTokens_cons, declareToken_withMode, ih, declareTokens_cons]

theorem mode_declare (locals : Locals) (x : String) : (locals.declare x).mode = locals.mode := by
  unfold declare
  split <;> rfl

theorem mode_declareTokens (locals : Locals) (ts : List Token) :
    (locals.declareTokens ts).mode = locals.mode := by
  induction ts generalizing locals with
  | nil => rfl
  | cons t ts ih =>
    rw [declareTokens_cons, ih]
    by_cases ht : t.cls = .ident
    · rw [declareToken_of_ident ht, mode_declare]
    · rw [declareToken_of_ne_ident ht]

/-- With one slot for each name, registering is declaring. -/
theorem registerTokens_of_unique (h : locals.mode = .unique) :
    locals.registerTokens ts = locals.declareTokens ts := by
  induction ts generalizing locals with
  | nil => rfl
  | cons t ts ih =>
    rw [registerTokens_cons, declareTokens_cons]
    by_cases ht : t.cls = .ident
    · have hregister : locals.register t.text = locals.declare t.text := by rw [register, h]
      rw [registerToken_of_ident ht, declareToken_of_ident ht, hregister]
      exact ih ((mode_declare locals t.text).trans h)
    · rw [registerToken_of_ne_ident ht, declareToken_of_ne_ident ht]
      exact ih h

end Locals

/-! ## Reading with a table -/

theorem Cursor.scanWith_eq (c : Cursor) (locals : Locals) :
    c.scanWith locals = (c.scan, locals.registerTokens c.scan.tokens) := by
  fun_induction Cursor.scanWith c locals with
  | case1 c locals e c' h => rw [scan_eq, h]; rfl
  | case2 c locals t c' h ht => rw [scan_eq, h]; simp [ht]
  | case3 c locals t c' h ht _ s locals' hs ih =>
    rw [ih] at hs
    obtain ⟨rfl, rfl⟩ := Prod.mk.inj hs
    rw [scan_eq c, h]
    simp [ht]

/-- **Reading with a table reads the same tokens**, and registers those that are read. -/
theorem tokenizeWith_eq (source : String) (locals : Locals) :
    tokenizeWith source locals =
      (tokenize source, locals.registerTokens (scan source).tokens) := by
  rw [tokenizeWith, Cursor.scanWith_eq]
  rfl

/-! ## Whole compilations -/

/-- The table after some tokens have been read and parsed. -/
def Config.tableOf (config : Config) (ts : List Token) : Locals :=
  (if config.eager then config.locals.registerTokens ts else config.locals).declareTokens ts

/-- The table that the parser starts with, after some tokens have been read with a table. -/
def Config.startTable (config : Config) (locals : Locals) (ts : List Token) : Locals :=
  if config.eager then locals.registerTokens ts else locals

theorem Config.startTable_eq {config : Config}
    (hunique : config.eager = true → locals.mode = .unique) (ts : List Token) :
    config.startTable locals ts = if config.eager then locals.declareTokens ts else locals := by
  unfold startTable
  split
  case isTrue heager => exact Locals.registerTokens_of_unique (hunique heager)
  case isFalse => rfl

theorem Config.declareTokens_startTable {config : Config}
    (hunique : config.eager = true → locals.mode = .unique) (ts : List Token) :
    (config.startTable locals ts).declareTokens ts = locals.declareTokens ts := by
  rw [startTable_eq hunique]
  split
  case isTrue => exact Locals.declareTokens_declareTokens locals ts
  case isFalse => rfl

theorem readTokens_eq (config : Config) (source : String) (locals : Locals) :
    readTokens config source locals =
      (tokenize source, config.startTable locals (scan source).tokens) := by
  rw [readTokens, Config.startTable, tokenizeWith_eq]
  split <;> rfl

theorem compileWith_eq (config : Config) (source : String) (locals : Locals) :
    compileWith config source locals =
      let start := config.startTable locals (scan source).tokens
      match tokenize source with
      | .error e => (.error (.lexical e), start)
      | .ok tokens =>
        let answer := parseProgram config tokens start
        (answer.1.mapError .syntactic, answer.2) := by
  rw [compileWith, readTokens_eq]
  cases tokenize source with
  | error e => rfl
  | ok tokens => rfl

theorem compile_eq (config : Config) (source : String) :
    compile config source =
      match tokenize source with
      | .error e => .error (.lexical e)
      | .ok tokens =>
        let answer :=
          parseProgram config tokens (config.startTable config.locals (scan source).tokens)
        (answer.1.mapError .syntactic).map fun program => (program, answer.2) := by
  rw [compile, compileWith_eq]
  cases tokenize source with
  | error e => rfl
  | ok tokens => rfl

theorem compile_of_tokenize {source : String} {tokens : List Token}
    (h : tokenize source = .ok tokens) :
    ∃ body, tokens = body ++ [.eofAt source.utf8ByteSize] ∧ Segmentation 0 source.toList body ∧
      (∀ t ∈ body, t.Fits) ∧ ∀ config : Config,
        let answer := parseProgram config tokens (config.startTable config.locals body)
        compile config source =
          (answer.1.mapError .syntactic).map fun program => (program, answer.2) := by
  rcases tokenize_cases source with ⟨e, -, he⟩ | ⟨hseg, hfits, htokens⟩
  · rw [he] at h
    cases h
  · obtain rfl := Except.ok.inj (htokens.symm.trans h)
    exact ⟨_, rfl, hseg, hfits, fun config => by rw [compile_eq, htokens]⟩

/-- **What a compilation does depends on its configuration through the limit and the table only.**
Under all configurations with the same limit a source fails with one error, which is its first fault
or the refusal of one of its tokens, or it succeeds with trees by names that the grammar derives. -/
theorem compile_cases (source : String) (limit : Nat) :
    (∃ e, (scan source).ending = .error e ∧ ∀ config : Config, config.maxDepth = limit →
      compile config source = .error (.lexical e)) ∨
    ∃ body, Segmentation 0 source.toList body ∧
      tokenize source = .ok (body ++ [.eofAt source.utf8ByteSize]) ∧
      ((∃ t ∈ body ++ [.eofAt source.utf8ByteSize], ∃ r : Refusal, (r = .tooDeep → t.opens) ∧
        ∀ config : Config, config.maxDepth = limit →
          compile config source = .error (.syntactic ⟨t.pos, r.fault limit t⟩)) ∨
      ∃ es, DerivesProgram body es ∧ ∀ config : Config, config.maxDepth = limit →
        let final := config.tableOf body
        compile config source =
          .ok (⟨es.map (Node.map final.slot), final.frameSize⟩, final)) := by
  rcases tokenize_cases source with ⟨e, hending, he⟩ | ⟨hseg, -, htokens⟩
  · exact .inl ⟨e, hending, fun config _ => by rw [compile_eq, he]⟩
  · have hbody : ((scan source).tokens ++ [Token.eofAt source.utf8ByteSize]).takeWhile
        (fun t => !t.isEof) = (scan source).tokens :=
      takeWhile_not_isEof_cons hseg.isEof_eq_false rfl
    refine .inr ⟨(scan source).tokens, hseg, htokens, ?_⟩
    rcases parse_cases limit ((scan source).tokens ++ [Token.eofAt source.utf8ByteSize]) with
      ⟨t, ht, r, hopens, u, h⟩ | ⟨es, hes, h⟩
    · rw [endMarked_concat rfl] at ht
      refine .inl ⟨t, ht, r, hopens, fun config hlimit => ?_⟩
      rw [compile_eq, htokens]
      simp only [parseProgram, hlimit, (h _).1]
      rfl
    · rw [hbody] at hes h
      refine .inr ⟨es, hes, fun config hlimit => ?_⟩
      rw [compile_eq, htokens]
      simp only [parseProgram, hlimit, (h _).1, (h _).2]
      rfl

theorem tableOf_of_unique (config : Config) (ts : List Token) (h : config.mode = .unique) :
    config.tableOf ts = config.locals.declareTokens ts :=
  Config.declareTokens_startTable (fun _ => h) ts

theorem tableOf_of_lazy (config : Config) (ts : List Token) (h : config.eager = false) :
    config.tableOf ts = config.locals.declareTokens ts :=
  Config.declareTokens_startTable (fun heager => nomatch h.symm.trans heager) ts

/-- What a compilation gives but for the mode of its table: the program and the entries, or the
error. -/
def Config.outcome (config : Config) (source : String) :
    Except CompileError (Program × List Local) :=
  (compile config source).map fun (program, locals) => (program, locals.entries)

theorem outcome_of_tableOf {config : Config} {source : String} {body : List Token}
    {es : List (Node String)} {plain : Locals}
    (h : compile config source = .ok (⟨es.map (Node.map (config.tableOf body).slot),
      (config.tableOf body).frameSize⟩, config.tableOf body))
    (htable : config.tableOf body = plain.withMode config.mode) :
    config.outcome source =
      .ok (⟨es.map (Node.map plain.slot), plain.frameSize⟩, plain.entries) := by
  rw [Config.outcome, h, htable]
  rfl

/-- **When names are registered does not matter if each has one slot, and how they are registered
does not matter if it is done late.**  The program and the entries of the table are the same, or the
error is. -/
theorem compile_registration_irrelevant (config : Config) (source : String) :
    Config.outcome { config with eager := true, mode := .unique } source =
        Config.outcome { config with eager := false, mode := .unique } source ∧
      Config.outcome { config with eager := false, mode := .shadowing } source =
        Config.outcome { config with eager := false, mode := .unique } source := by
  have hfailed : ∀ e, (∀ c : Config, c.maxDepth = config.maxDepth → compile c source = .error e) →
      ∀ eager mode, Config.outcome { config with eager, mode } source = .error e := by
    intro e h eager mode
    rw [Config.outcome, h { config with eager, mode } rfl]
    rfl
  rcases compile_cases source config.maxDepth with
    ⟨e, -, h⟩ | ⟨body, -, -, ⟨t, -, r, -, h⟩ | ⟨es, -, h⟩⟩
  · rw [hfailed _ h, hfailed _ h, hfailed _ h]
    exact ⟨rfl, rfl⟩
  · rw [hfailed _ h, hfailed _ h, hfailed _ h]
    exact ⟨rfl, rfl⟩
  · let plain : Locals := config.locals.declareTokens body
    have hdeclared : ∀ mode, (config.locals.withMode mode).declareTokens body =
        plain.withMode mode := fun mode => Locals.declareTokens_withMode config.locals mode body
    have heager : Config.outcome { config with eager := true, mode := .unique } source = _ :=
      outcome_of_tableOf (h _ rfl) ((tableOf_of_unique _ _ rfl).trans (hdeclared .unique))
    have hlazy : ∀ mode, Config.outcome { config with eager := false, mode } source = _ :=
      fun mode => outcome_of_tableOf (h _ rfl) ((tableOf_of_lazy _ _ rfl).trans (hdeclared mode))
    rw [heager, hlazy, hlazy]
    exact ⟨rfl, rfl⟩

end FrameLang

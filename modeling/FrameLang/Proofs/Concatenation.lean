import FrameLang.Proofs.Boundary
import FrameLang.Proofs.Renaming
import FrameLang.Proofs.Shift

/-!
# Sources one after the other

A program ends with a semicolon.  Nothing makes that longer, and the parser is then back where it
started, so a source after a program is compiled as it is alone, over the table of the program.

* `Segmentation.scan_append`: the tokens of two texts, where nothing makes the last token of the
  first one longer.
* `parseProgram_append`: the parse of some tokens after those of a program.
* `Config.startTable_append`: the table that a parse starts with, if names are not registered early
  with a slot for each time that they are read.
* `compile_append`: the compilation of two sources.
-/

namespace FrameLang

variable {offset k : Nat} {chars : List Char} {ts u v tokens tokens' : List Token}
  {s : State String} {locals start : Locals}

/-! ## Reading -/

theorem Segmentation.eq_nil (h : Segmentation offset [] ts) : ts = [] := h.unique (.nil nofun)

theorem Cursor.next_gap_append {gap : List Char} (hgap : ∀ c ∈ gap, c ∈ blanks) (rest : List Char) :
    Cursor.next ⟨gap ++ rest, offset⟩ = Cursor.next ⟨rest, offset + String.utf8Len gap⟩ := by
  have hall : ∀ c ∈ gap, isBlank c = true := fun c hc => isBlank_iff.2 (hgap c hc)
  rw [next, next, skip_eq, skip_eq, List.takeWhile_append_of_pos hall,
    List.dropWhile_append_of_pos hall, String.utf8Len_append, Nat.add_assoc]

/-- **The tokens of two texts** are those of the first and those of the second, if nothing that
comes right after the last token of the first one makes it longer. -/
theorem Segmentation.scan_append {more : List Char} (h : Segmentation offset chars ts)
    (hfits : ∀ t ∈ ts, t.Fits)
    (hlast : ∀ t, ts.getLast? = some t → t.text.toList <:+ chars →
      ∀ c r, more = c :: r → t.cls.growsWith c = false) :
    Cursor.scan ⟨chars ++ more, offset⟩ =
      let second := Cursor.scan ⟨more, offset + String.utf8Len chars⟩
      ⟨ts ++ second.tokens, second.ending⟩ := by
  induction h with
  | nil hgap =>
    rw [Cursor.scan_eq, Cursor.next_gap_append hgap, ← Cursor.scan_eq]
    rfl
  | @cons offset gap text rest cls ts hgap htext hrest ih =>
    rw [List.forall_mem_cons] at hfits
    have hlongest : Longest cls text (rest ++ more) := by
      refine longest_iff.2 ⟨htext.lexeme, fun c r hc => ?_⟩
      cases rest with
      | nil =>
        -- the lexeme is the last one, and the second text comes right after it
        obtain rfl := hrest.eq_nil
        have hsuffix : (String.ofList text).toList <:+ gap ++ (text ++ []) := by
          rw [String.toList_ofList, List.append_nil]
          exact List.suffix_append gap text
        exact hlast _ rfl hsuffix c r hc
      | cons d rest =>
        obtain ⟨rfl, -⟩ := List.cons.inj hc
        exact (longest_iff.1 htext).2 d rest rfl
    have hmore := ih hfits.2 fun t ht hsuffix =>
      hlast t (by rw [List.getLast?_cons, ht]; rfl)
        (hsuffix.trans ((List.suffix_append text rest).trans (List.suffix_append gap _)))
    have heof : Token.isEof ⟨cls, String.ofList text, offset + String.utf8Len gap⟩ = false :=
      decide_eq_false htext.lexeme.ne_eof
    rw [List.append_assoc, List.append_assoc, Cursor.scan_eq,
      Cursor.next_of_longest hgap hlongest hfits.1]
    dsimp only
    rw [if_neg (by simp [heof]), hmore]
    simp only [String.utf8Len_append, Nat.add_assoc]
    rfl

theorem scan_append {a : String} (h : Segmentation 0 a.toList ts) (hfits : ∀ t ∈ ts, t.Fits)
    (hlast : ∀ t, ts.getLast? = some t → ∀ c, t.cls.growsWith c = false) (b : String) :
    scan (a ++ b) = ⟨ts ++ (scan b).tokens.map (Token.shift a.utf8ByteSize),
      Cursor.shiftAnswer a.utf8ByteSize (scan b).ending⟩ := by
  have happend : Cursor.scan ⟨a.toList ++ b.toList, 0⟩ = _ :=
    h.scan_append hfits fun t ht _ c _ _ => hlast t ht c
  have hshift : Cursor.scan ⟨b.toList, 0 + a.utf8ByteSize⟩ = _ :=
    Cursor.scan_shift a.utf8ByteSize (Cursor.start b)
  rw [← String.toList_append, String.utf8Len_toList, hshift] at happend
  exact happend

theorem DerivesProgram.cls_getLast? {es : List (Node String)} (h : DerivesProgram u es) :
    ∀ t, u.getLast? = some t → t.cls = .punct .semicolon := by
  induction h with
  | nil => nofun
  | @cons u v t e es _ ht _ ih =>
    intro t' ht'
    rw [List.getLast?_append, List.getLast?_cons, Option.some_or] at ht'
    cases hv : v.getLast? with
    | none =>
      rw [hv] at ht'
      exact Option.some.inj ht' ▸ ht
    | some b =>
      rw [hv] at ht'
      exact Option.some.inj ht' ▸ ih b hv

/-! ## Parsing -/

theorem renamed_shift (k : Nat) (ts : List Token) :
    List.Forall₂ (Token.Renamed id) ts (ts.map (Token.shift k)) :=
  List.forall₂_map_right_iff.2 (List.forall₂_same.2 fun _ _ => renamed_id_iff.2 ⟨rfl, rfl⟩)

theorem Locals.declareTokens_map_shift (k : Nat) (locals : Locals) (ts : List Token) :
    locals.declareTokens (ts.map (Token.shift k)) = locals.declareTokens ts := List.foldl_map

theorem Locals.registerTokens_map_shift (k : Nat) (locals : Locals) (ts : List Token) :
    locals.registerTokens (ts.map (Token.shift k)) = locals.registerTokens ts := List.foldl_map

theorem Node.map_map_id {ν : Type} (g : String → ν) (es : List (Node String)) :
    (es.map (Node.map id)).map (Node.map g) = es.map (Node.map g) := by
  rw [List.map_map]
  exact List.map_congr_left fun e _ => Node.map_map g id e

theorem endMarked_append_shift {t : Token} (ht : t.isEof = true) (u v : List Token) (k : Nat) :
    endMarked (u ++ v.map (Token.shift k) ++ [t.shift k]) =
      u ++ (endMarked (v ++ [t])).map (Token.shift k) := by
  have ht' : (t.shift k).isEof = true := ht
  rw [endMarked_concat ht, endMarked_concat ht', List.map_append, List.append_assoc]
  rfl

theorem State.eq_initial_renamed (h : s.betweenStatements = true) (locals : Locals) :
    s.withLocals locals = (State.initial locals).renamed id s.done locals := by
  obtain ⟨hstack, hphase⟩ := betweenStatements_iff.1 h
  rw [withLocals, renamed, hstack, hphase]
  rfl

theorem Reads.map_slot_of_extends {room : Nat} {final : Locals}
    (hr : Reads byName room (.initial start) u s) (hb : s.betweenStatements = true)
    (hextends : final.Extends s.locals) :
    s.done.reverse.map (Node.map final.slot) = s.done.reverse.map (Node.map s.locals.slot) := by
  have hlocals : s.locals = start.declareTokens u := hr.locals_eq
  have hderives : DerivesProgram u s.done.reverse :=
    (hr.made (made_initial start)).derivesProgram hb
  refine hderives.map_congr fun x hx => ?_
  obtain ⟨t, ht, hi, rfl⟩ := mem_namesOf.1 hx
  obtain ⟨offset, hoffset⟩ : ∃ offset, s.locals.lookup? t.text = some offset := by
    rw [hlocals]
    exact Locals.exists_lookup?_declareTokens ht hi
  rw [Locals.slot, hextends _ _ hoffset, Locals.slot, hoffset]
  rfl

/-- **The parse of tokens after a program** is the parse of these tokens alone, with the statements
of the program in front of its own. -/
theorem parseProgram_append (config : Config) {start' : Locals}
    (hr : Reads byName config.maxDepth (.initial start) u s) (hb : s.betweenStatements = true)
    (htokens : endMarked tokens' = u ++ (endMarked tokens).map (Token.shift k))
    (hstart : start'.declareTokens u = locals) (hextends : locals.Extends s.locals) :
    parseProgram config tokens' start' =
      match parseProgram config tokens locals with
      | (.ok p, final) =>
        (.ok ⟨s.done.reverse.map (Node.map s.locals.slot) ++ p.stmts, p.frameSize⟩, final)
      | (.error e, final) => (.error (e.shift k), final) := by
  obtain ⟨v, t, w, s', hv, hr', hstop⟩ := exists_stop tokens locals config.maxDepth
  rw [hv, List.map_append, List.map_cons, ← List.append_assoc] at htokens
  have hfirst : Reads byName config.maxDepth (.initial start') u
      ((State.initial locals).renamed id s.done locals) := by
    rw [← State.eq_initial_renamed hb, ← hstart]
    exact hr.withLocals start'
  have hsecond : Reads byName config.maxDepth ((State.initial locals).renamed id s.done locals)
      (v.map (Token.shift k))
      (s'.renamed id s.done (locals.declareTokens (v.map (Token.shift k)))) :=
    hr'.renamed (renamed_shift k v) s.done locals
  -- the statements of the first part are below those of the second in `done` from here on
  have hwhole := hfirst.append hsecond
  have hlocals : locals.declareTokens (v.map (Token.shift k)) = s'.locals :=
    (Locals.declareTokens_map_shift k locals v).trans hr'.locals_eq.symm
  rcases hstop with ⟨ht, hb'⟩ | ⟨r, ht, hb'⟩
  · have hgrown : s'.locals.Extends s.locals := by
      rw [← hlocals]
      exact (Locals.extends_declareTokens locals _).trans hextends
    rw [parseProgram_of_reads hv hr' hb' ht, parseProgram_of_reads htokens hwhole
      (by rwa [State.betweenStatements_renamed]) ht, ← hr.map_slot_of_extends hb hgrown]
    simp only [State.renamed, List.reverse_append, List.map_append, hlocals, ← List.map_reverse,
      Node.map_map_id]
  · rw [parseProgram_of_refused hv hr' ht hb', parseProgram_of_refused htokens hwhole
      (State.step_renamed_of_error ht (renamed_id_iff.2 ⟨rfl, rfl⟩))
      (by rwa [State.betweenStatements_renamed])]
    simp only [State.renamed, hlocals]
    rfl

/-! ## Tables -/

theorem Config.extends_startTable {config : Config}
    (hunique : config.eager = true → locals.mode = .unique) (ts : List Token) :
    (config.startTable locals ts).Extends locals := by
  rw [startTable_eq hunique]
  split
  case isTrue => exact Locals.extends_declareTokens locals ts
  case isFalse => exact .refl locals

theorem Config.startTable_append {config : Config}
    (hunique : config.eager = true → locals.mode = .unique) (u v : List Token) :
    (config.startTable locals (u ++ v)).declareTokens u =
      config.startTable (locals.declareTokens u) v := by
  rw [startTable_eq hunique, startTable_eq (by rwa [Locals.mode_declareTokens])]
  split
  case isTrue =>
    have hknown : (locals.declareTokens (u ++ v)).declareTokens u = locals.declareTokens (u ++ v) :=
      Locals.declareTokens_of_known fun t ht hi =>
        Locals.exists_lookup?_declareTokens (List.mem_append_left v ht) hi
    rw [hknown, Locals.declareTokens_append]
  case isFalse => rfl

/-! ## Whole compilations -/

theorem exists_reads_of_compile {config : Config} {source : String} {program : Program}
    {final : Locals} (h : compile config source = .ok (program, final)) :
    ∃ body s, Segmentation 0 source.toList body ∧ (∀ t ∈ body, t.Fits) ∧
      Reads byName config.maxDepth (.initial (config.startTable config.locals body)) body s ∧
      s.betweenStatements = true ∧ s.locals = final ∧
      program = ⟨s.done.reverse.map (Node.map final.slot), final.frameSize⟩ := by
  cases htokens : tokenize source with
  | error e =>
    rw [compile_eq, htokens] at h
    cases h
  | ok tokens =>
    obtain ⟨body, rfl, hseg, hfits, hcompile⟩ := compile_of_tokenize htokens
    rw [hcompile] at h
    obtain ⟨u, t, w, s, hu, hr, ⟨ht, hb⟩ | ⟨r, ht, hb⟩⟩ := exists_stop
      (body ++ [.eofAt source.utf8ByteSize]) (config.startTable config.locals body) config.maxDepth
    · rw [parseProgram_of_reads hu hr hb ht] at h
      obtain ⟨rfl, rfl⟩ := Prod.mk.inj (Except.ok.inj h)
      rw [endMarked_concat rfl] at hu
      obtain rfl : body = u := by
        have htake := congrArg (List.takeWhile fun t => !t.isEof) hu
        rwa [takeWhile_not_isEof_cons hseg.isEof_eq_false rfl,
          takeWhile_not_isEof_cons hr.isEof_eq_false ht] at htake
      exact ⟨body, s, hseg, hfits, hr, hb, rfl, rfl⟩
    · rw [parseProgram_of_refused hu hr ht hb] at h
      cases h

theorem startTable_map_shift (config : Config) (k : Nat) (locals : Locals) (ts : List Token) :
    config.startTable locals (ts.map (Token.shift k)) = config.startTable locals ts := by
  rw [Config.startTable, Locals.registerTokens_map_shift, Config.startTable]

/-- **The compilation of two sources.**  If the first one is a program, the second one is compiled
as it would be alone over the table of the first.  Its statements come after those of the first, and
its error is where it would be, but for the bytes of the first. -/
theorem compile_append (config : Config) (a b : String)
    (hconfig : ¬ (config.eager = true ∧ config.mode = .shadowing)) {program : Program}
    (h : compile config a = .ok (program, locals)) :
    compile config (a ++ b) =
      match compileWith config b locals with
      | (.ok second, final) => .ok (⟨program.stmts ++ second.stmts, second.frameSize⟩, final)
      | (.error e, _) => .error (e.shift a.utf8ByteSize) := by
  have hunique : config.eager = true → config.locals.mode = .unique := by
    intro heager
    cases hmode : config.mode with
    | unique => exact hmode
    | shadowing => exact absurd ⟨heager, hmode⟩ hconfig
  obtain ⟨body, s, hseg, hfits, hr, hb, rfl, rfl⟩ := exists_reads_of_compile h
  have hderives : DerivesProgram body s.done.reverse :=
    (hr.made (made_initial _)).derivesProgram hb
  have hlast : ∀ t, body.getLast? = some t → ∀ c, t.cls.growsWith c = false := by
    intro t ht c
    rw [hderives.cls_getLast? t ht, growsWith_semicolon]
  have hscan := scan_append hseg hfits hlast b
  have hlocals : s.locals = config.locals.declareTokens body :=
    hr.locals_eq.trans (Config.declareTokens_startTable hunique body)
  rw [compile_eq, compileWith_eq]
  cases hending : (scan b).ending with
  | error e =>
    rw [hending] at hscan
    rw [tokenize, Scan.result, hscan, tokenize, Scan.result, hending]
    rfl
  | ok eof =>
    have heof : eof.isEof = true := by
      obtain ⟨-, -, rfl⟩ := segmentation_of_scan (Cursor.start b) hending
      rfl
    rw [hending] at hscan
    rw [tokenize, Scan.result, hscan, tokenize, Scan.result, hending]
    generalize (scan b).tokens = second at hscan ⊢
    have hstart : (config.startTable config.locals
        (body ++ second.map (Token.shift a.utf8ByteSize))).declareTokens body =
          config.startTable s.locals second := by
      rw [Config.startTable_append hunique, startTable_map_shift, hlocals]
    have hextends : (config.startTable s.locals second).Extends s.locals := by
      refine Config.extends_startTable ?_ second
      rwa [hlocals, Locals.mode_declareTokens]
    have hparse := parseProgram_append config hr hb
      (endMarked_append_shift heof body second a.utf8ByteSize) hstart hextends
    simp only [Except.map, Cursor.shiftAnswer, hparse]
    rcases parseProgram config (second ++ [eof]) (config.startTable s.locals second) with
      ⟨e | p, final⟩
    · rfl
    · rfl

/-- A second statement that uses a name of the first and a new one, right after its semicolon. -/
theorem compile_append_of_assignments :
    let config : Config := { eager := true }
    let program : Program := ⟨[.stmt (.assign (.var 8) (.num 1))], 8⟩
    let locals : Locals := { entries := [⟨"x", 8⟩] }
    let final : Locals := { entries := [⟨"y", 16⟩, ⟨"x", 8⟩] }
    ¬ (config.eager = true ∧ config.mode = .shadowing) ∧
      compile config "x=1;" = .ok (program, locals) ∧
      compileWith config "y=x;" locals = (.ok ⟨[.stmt (.assign (.var 16) (.var 8))], 16⟩, final) ∧
      compile config ("x=1;" ++ "y=x;") =
        .ok (⟨program.stmts ++ [.stmt (.assign (.var 16) (.var 8))], 16⟩, final) := by
  intro config program locals final
  have hconfig : ¬ (config.eager = true ∧ config.mode = .shadowing) := by decide
  have h : compile config "x=1;" = .ok (program, locals) := by with_unfolding_all rfl
  have hsecond : compileWith config "y=x;" locals =
      (.ok ⟨[.stmt (.assign (.var 16) (.var 8))], 16⟩, final) := by with_unfolding_all rfl
  have happend := compile_append config "x=1;" "y=x;" hconfig h
  rw [hsecond] at happend
  exact ⟨hconfig, h, hsecond, happend⟩

end FrameLang

import FrameLang.Proofs.Sessions

/-!
# What a failed call leaves behind

A failed call leaves levels open that no later call closes.  How many can be counted along the
tokens of the statement that failed: all of them, unless the end of a group or of the statement is
missing.  Then what is inside was finished before, and its levels are closed.

* `Reads.exists_started`: the tokens that were read are those of whole statements, and those of a
  statement that was started.
* `Leaves`: the tokens that are passed from the offending one on, and the levels that stay open, for
  each fault.
* `Parser.parse_leaves_of_error`, `parse_error_leaves`: what a failed call leaves of a parser, and
  of a walk.
-/

namespace FrameLang

section

variable {ν : Type} {resolve : Locals → String → ν} {room : Nat} {s s' : State ν} {t : Token}
  {u : List Token}

/-! ## The statement that was started -/

theorem Takes.betweenStatements_of_semicolon (h : Takes resolve s t s')
    (ht : t.cls = .punct .semicolon) : s'.betweenStatements = true := by
  cases h with
  | plus _ hc | minus _ hc | literal _ hc | name _ hc | openGroup _ hc | assign _ hc
  | closeGroup _ hc =>
    rw [ht] at hc
    cases hc
  | operator _ hc =>
    rw [ht] at hc
    cases hc
  | finish => rfl

/-- **What was read is whole statements, and the start of one more.**  The last semicolon parts
them. -/
theorem Reads.exists_started (h : Reads resolve room s u s') :
    (∀ t ∈ u, t.cls ≠ .punct .semicolon) ∨
      ∃ finished started s₁, u = finished ++ started ∧ Reads resolve room s finished s₁ ∧
        s₁.betweenStatements = true ∧ ∀ t ∈ started, t.cls ≠ .punct .semicolon := by
  -- the last semicolon is in the rest, or it is the first token, or there is none
  induction h with
  | nil => exact .inl nofun
  | @cons s s₁ s' t ts ht hroom hts ih =>
    rcases ih with hnone | ⟨finished, started, s₂, rfl, hfinished, hs₂, hstarted⟩
    · by_cases hc : t.cls = .punct .semicolon
      · have hs₁ := ht.betweenStatements_of_semicolon hc
        exact .inr ⟨[t], ts, s₁, rfl, .cons ht hroom (.nil s₁), hs₁, hnone⟩
      · exact .inl (List.forall_mem_cons.2 ⟨hc, hnone⟩)
    · exact .inr ⟨t :: finished, started, s₂, rfl, .cons ht hroom hfinished, hs₂, hstarted⟩

theorem Reads.nesting_eq (h : Reads resolve room s u s') :
    s'.nesting = u.foldl Nesting.next s.nesting := by
  induction h with
  | nil => rfl
  | cons ht _ _ ih => rw [ih, ht.nesting_eq, List.foldl_cons]

theorem State.nesting_of_betweenStatements (h : s.betweenStatements = true) : s.nesting = {} := by
  rw [State.nesting, (betweenStatements_iff.1 h).1]
  rfl

/-! ## The levels that stay open -/

/-- What stays of a failed statement, where `scan` is the count along its tokens before the
offending one: a fault at the token `t`, the number of tokens that are passed from `t` on, and the
number of levels that stay open.  These are all of them but for a group whose end is missing. -/
inductive Leaves (scan : Nesting) (limit : Nat) (t : Token) : SyntaxFault → Nat → Nat → Prop
  | operand : Leaves scan limit t (.missingOperand t.describe) 0 scan.level
  | level (ht : t.opens) : Leaves scan limit t (.tooDeep limit) 1 scan.level
  | group {outside : Nat} {saved : List Nat} (h : scan.saved = outside :: saved) :
      Leaves scan limit t (.mismatch ")" t.describe) 0 outside
  | statement (h : scan.saved = []) : Leaves scan limit t (.mismatch ";" t.describe) 0 0

theorem levelsBelow_of_aroundGroup? (stack : List (Unfinished ν)) :
    levelsBelow stack =
      match aroundGroup? stack with
      | some rest => levels rest :: levelsBelow rest
      | none => [] := by
  fun_induction aroundGroup? stack with
  | case1 => rfl
  | case2 sign stack => rfl
  | case3 stack o first ih => rw [levelsBelow, ih]
  | case4 stack target ih => rw [levelsBelow, ih]

/-- The tokens that a call passes from a refused one on. -/
def Refusal.passed : Refusal → Nat
  | .tooDeep => 1
  | .mismatch _ | .missingOperand => 0

/-- **What a refusal leaves is told by the nesting of the state.** -/
theorem State.leaves_of_step {r : Refusal} (limit : Nat) (h : s.step resolve room t = .error r) :
    Leaves s.nesting limit t (r.fault limit t) r.passed (s.abandoned r) := by
  rcases State.step_eq_error_iff.1 h with ⟨-, hopens, -, rfl⟩ | ⟨-, rfl⟩
  · exact .level hopens
  · rw [State.refusal]
    cases hphase : s.phase with
    | operand sign => exact .operand
    | operator e =>
      have hsaved : s.nesting.saved = _ := levelsBelow_of_aroundGroup? s.stack
      cases haround : aroundGroup? s.stack with
      | none =>
        simp only [haround] at hsaved
        simp only [Option.isSome_none, Bool.false_eq_true, if_false, State.abandoned, haround,
          Option.getD_none, levels_nil]
        exact .statement hsaved
      | some rest =>
        simp only [haround] at hsaved
        simp only [Option.isSome_some, if_true, State.abandoned, haround, Option.getD_some]
        exact .group hsaved

end

/-! ## Whole calls -/

variable {e : SyntaxError}

theorem Reads.exists_statements {room : Nat} {locals : Locals} {u : List Token} {s : State String}
    (h : Reads byName room (.initial locals) u s) :
    ∃ finished started es, u = finished ++ started ∧ DerivesProgram finished es ∧
      (∀ t ∈ started, t.cls ≠ .punct .semicolon) ∧ s.nesting = started.foldl Nesting.next {} := by
  rcases h.exists_started with hnone | ⟨finished, started, s₁, rfl, hfinished, hs₁, hnone⟩
  · exact ⟨[], u, [], rfl, .nil, hnone, h.nesting_eq⟩
  · have hempty : finished.foldl Nesting.next {} = {} :=
      hfinished.nesting_eq.symm.trans (State.nesting_of_betweenStatements hs₁)
    refine ⟨finished, started, _, rfl, (hfinished.made (made_initial _)).derivesProgram hs₁,
      hnone, ?_⟩
    rw [h.nesting_eq, List.foldl_append]
    exact congrArg (started.foldl Nesting.next) hempty

theorem Parser.afterRefusal_eq_drop {ν : Type} {resolve : Locals → String → ν} {room pos : Nat}
    {s : State ν} {rest : List Token} {r : Refusal}
    (h : s.step resolve room (rest.headD (.eofAt pos)) = .error r) :
    r.passed ≤ rest.length ∧ afterRefusal r rest = rest.drop r.passed := by
  cases r with
  | mismatch expected => exact ⟨Nat.zero_le _, rfl⟩
  | missingOperand => exact ⟨Nat.zero_le _, rfl⟩
  | tooDeep =>
    cases rest with
    | cons t rest => exact ⟨Nat.succ_le_succ (Nat.zero_le _), rfl⟩
    | nil =>
      -- the end of the input opens no level
      rw [List.headD_nil, State.step_eof rfl] at h
      exact absurd (Except.error.inj h) s.refusal_ne_tooDeep

/-- The token that is `k` places on, or the end of the input. -/
def Parser.tokenAt (p : Parser) (k : Nat) : Token := (p.pending.drop k).headD (.eofAt p.stop)

/-- **What a failed call leaves of a parser.**  Whole statements were read, and then the start of
one. -/
theorem Parser.parse_leaves_of_error {p : Parser} (h : p.parse.1 = .error e) :
    ∃ finished started es passed grown,
      p.pending.take p.stopIndex = finished ++ started ∧ DerivesProgram finished es ∧
      (∀ t ∈ started, t.cls ≠ .punct .semicolon) ∧ e.pos = (p.tokenAt p.stopIndex).pos ∧
      Leaves (started.foldl Nesting.next {}) p.limit (p.tokenAt p.stopIndex) e.fault passed grown ∧
      p.stopIndex + passed ≤ p.pending.length ∧
      p.parse.2.pending = p.pending.drop (p.stopIndex + passed) ∧
      p.parse.2.depth = p.depth + grown := by
  obtain ⟨u, rest, s, hp, hr, ⟨rfl, hs⟩ | ⟨r, ht, hb⟩⟩ := p.exists_reads
  · rw [List.append_nil] at hp
    rw [(parse_of_reads (hp ▸ hr) hs).1] at h
    cases h
  obtain ⟨hparse, hstop⟩ := parse_of_refused hp hr ht hb
  rw [hparse] at h ⊢
  obtain rfl := Except.error.inj h
  obtain ⟨finished, started, es, hu, hes, hnone, hscan⟩ := hr.exists_statements
  obtain ⟨hpassed, hafter⟩ := afterRefusal_eq_drop ht
  have hleaves := s.leaves_of_step p.limit ht
  rw [hscan] at hleaves
  rw [tokenAt, hstop, hp, List.drop_left, List.take_left, List.length_append]
  refine ⟨finished, started, es, r.passed, s.abandoned r, hu, hes, hnone, rfl, hleaves, ?_, ?_,
    rfl⟩
  · exact Nat.add_le_add_left hpassed _
  · rw [← List.drop_drop, List.drop_left]
    exact hafter

namespace Walk

variable {w : Walk} {k : Nat}

theorem Ready.parser_parse_eq_error (hw : w.Ready) (h : w.parse.1 = .error (.fault e)) :
    w.parser.parse.1 = .error e := by
  rw [hw.parse_eq] at h
  cases hanswer : w.parser.parse.1 with
  | ok program =>
    rw [hanswer] at h
    cases h
  | error e' =>
    rw [hanswer] at h
    cases h
    rfl

theorem Ready.take_ahead (hw : w.Ready) (hk : k ≤ w.parser.pending.length) :
    w.ahead.take k = w.parser.pending.take k := by
  obtain ⟨u, eof, rest, hahead, hu, heof⟩ := exists_eq_append_eof hw
  rw [parser_of_ahead_eq hahead hu heof] at hk ⊢
  rw [hahead, List.take_append_of_le_length hk]

/-- The text of the end of the input may be another for a walk than for its parser. -/
theorem Ready.exists_tokenAt (hw : w.Ready) (hk : k ≤ w.parser.pending.length) :
    ∃ t, w.tokens[w.index + k]? = some t ∧ (w.parser.tokenAt k).cls = t.cls ∧
      (w.parser.tokenAt k).pos = t.pos ∧ (w.parser.tokenAt k).describe = t.describe := by
  obtain ⟨u, eof, rest, hahead, hu, heof⟩ := exists_eq_append_eof hw
  rw [parser_of_ahead_eq hahead hu heof] at hk ⊢
  have hget : w.tokens[w.index + k]? = (u ++ eof :: rest)[k]? := by
    rw [← hahead, ahead, List.getElem?_drop]
  rw [hget, Parser.tokenAt]
  rcases Nat.lt_or_eq_of_le hk with hlt | rfl
  · refine ⟨u[k], by rw [List.getElem?_append_left hlt, List.getElem?_eq_getElem hlt], ?_⟩
    simp only [List.drop_eq_getElem_cons hlt, List.headD_cons, and_self]
  · have hcls : eof.cls = .eof := of_decide_eq_true heof
    refine ⟨eof, by simp, ?_⟩
    simp [Token.eofAt, Token.describe, hcls]

end Walk

theorem Leaves.congr {scan : Nesting} {limit passed grown : Nat} {t t' : Token} {f : SyntaxFault}
    (h : Leaves scan limit t f passed grown) (hcls : t.cls = t'.cls)
    (hdescribe : t.describe = t'.describe) : Leaves scan limit t' f passed grown := by
  cases h with
  | operand => exact hdescribe ▸ .operand
  | level ht => exact .level (by rwa [Token.opens, ← hcls])
  | group h => exact hdescribe ▸ .group h
  | statement h => exact hdescribe ▸ .statement h

/-- **What a failed call leaves behind.**  The call stops at one token.  Before it there are whole
statements and the start of one more, whose tokens are counted.  The index stays at that token, or
goes behind it if it would open a level beyond the limit, and the depth grows by the count, as the
fault says.  All walks along the tokens of a parser are ready, by `Walk.after_ofTokens`. -/
theorem parse_error_leaves {w : Walk} (hw : w.Ready) (h : w.parse.1 = .error (.fault e)) :
    let j := w.index + w.parser.stopIndex
    ∃ finished started es t passed grown,
      w.tokens.drop w.index = finished ++ started ++ w.tokens.drop j ∧ DerivesProgram finished es ∧
      (∀ t ∈ started, t.cls ≠ .punct .semicolon) ∧
      w.tokens[j]? = some t ∧ e.pos = t.pos ∧
      Leaves (started.foldl Nesting.next {}) w.limit t e.fault passed grown ∧
      w.parse.2.index = j + passed ∧ w.parse.2.depth = w.depth + grown ∧
      w.parser.parse.1 = .error e ∧ w.parse.2.parser = w.parser.parse.2 := by
  intro j
  have hparser := hw.parser_parse_eq_error h
  obtain ⟨finished, started, es, passed, grown, htake, hes, hnone, hpos, hleaves, hle, hpending,
    hdepth⟩ := Parser.parse_leaves_of_error hparser
  have hstop : w.parser.stopIndex ≤ w.parser.pending.length := by omega
  obtain ⟨t, ht, hcls, hpos', hdescribe⟩ := hw.exists_tokenAt hstop
  refine ⟨finished, started, es, t, passed, grown, ?_, hes, hnone, ht, hpos.trans hpos',
    hleaves.congr hcls hdescribe, ?_, ?_, hparser, hw.parse_leaves.2.1⟩
  · rw [← htake, ← hw.take_ahead hstop, ← List.drop_drop]
    exact (List.take_append_drop _ w.ahead).symm
  · rw [hw.parse_eq, hpending, List.length_drop]
    show w.index + (w.parser.pending.length - (w.parser.pending.length - _)) = _
    omega
  · rw [hw.parse_eq]
    exact hdepth

/-- The source `x; a = (b = c;`, where the end of the group is missing.  The assignment inside of it
is finished, and the one outside stays open. -/
theorem parse_error_leaves_outer_assignment :
    let tokens : List Token := [⟨.ident, "x", 0⟩, ⟨.punct .semicolon, ";", 1⟩, ⟨.ident, "a", 3⟩,
      ⟨.punct .assign, "=", 5⟩, ⟨.punct .leftParen, "(", 7⟩, ⟨.ident, "b", 8⟩,
      ⟨.punct .assign, "=", 10⟩, ⟨.ident, "c", 12⟩, ⟨.punct .semicolon, ";", 13⟩]
    let w := Walk.ofTokens tokens {}
    w.Ready ∧ w.parse.1 = .error (.fault ⟨13, .mismatch ")" ";"⟩) ∧ w.parse.2.index = 8 ∧
      ∃ finished started, w.tokens = finished ++ started ++ w.tokens.drop 8 ∧
        (∀ t ∈ started, t.cls ≠ .punct .semicolon) ∧
        ∃ saved, (started.foldl Nesting.next {}).saved = w.parse.2.depth :: saved := by
  intro tokens w
  have hw : w.Ready := (Walk.ofTokens_stands tokens _).1
  have h : w.parse.1 = .error (.fault ⟨13, .mismatch ")" ";"⟩) := by
    rw [hw.parse_eq]
    rfl
  have hstop : w.parser.stopIndex = 8 := by decide
  obtain ⟨finished, started, es, t, passed, grown, htokens, -, hnone, -, -, hleaves, hindex, hdepth,
    -⟩ := parse_error_leaves hw h
  rw [hstop] at htokens hindex
  have hdepth : w.parse.2.depth = grown := hdepth.trans (Nat.zero_add _)
  obtain ⟨hpassed, saved, hsaved⟩ :
      passed = 0 ∧ ∃ saved, (started.foldl Nesting.next {}).saved = grown :: saved := by
    generalize hfault : SyntaxFault.mismatch ")" ";" = fault at hleaves
    cases hleaves with
    | operand | level => cases hfault
    | statement => exact absurd (SyntaxFault.mismatch.inj hfault).1 (by decide)
    | group hsaved => exact ⟨rfl, _, hsaved⟩
  refine ⟨hw, h, ?_, finished, started, htokens, hnone, saved, by rw [hdepth, hsaved]⟩
  rw [hindex, hpassed]
  rfl

end FrameLang

import FrameLang.Proofs.Descent.Agreement

/-!
# One parser, many calls

A parser can be called again after an error, and its limit can be changed between two calls.  A
`Call` is one such use, and `after` is what a run of uses leaves.

* `Parser.parse_leaves`: what one call does to a parser.
* `Walk.Ready.after`: a walk goes on as its parser does, so its index is told by what the parser
  still has to read.
* `session_invariant`: what holds at every moment of a run, over any tokens.
-/

namespace FrameLang

inductive Call
  | parse
  | limit (n : Nat)
  deriving DecidableEq, Repr

namespace Parser

def next (p : Parser) : Call → Parser
  | .parse => p.parse.2
  | .limit n => p.withMaxDepth n

def after (p : Parser) (calls : List Call) : Parser := calls.foldl next p

variable {p : Parser}

/-- **What a call leaves of a parser.** -/
theorem parse_leaves (p : Parser) :
    p.parse.2.stop = p.stop ∧ p.parse.2.limit = p.limit ∧ p.parse.2.pending <:+ p.pending ∧
      p.depth ≤ p.parse.2.depth ∧ p.parse.2.depth ≤ p.depth + p.room ∧
      ∀ program, p.parse.1 = .ok program →
        p.parse.2.pending = [] ∧ p.parse.2.depth = p.depth ∧
          program.frameSize = p.parse.2.locals.frameSize := by
  obtain ⟨u, rest, s, hp, hu, ⟨rfl, hs⟩ | ⟨r, ht, hb⟩⟩ := p.exists_reads
  · rw [List.append_nil] at hp
    rw [(parse_of_reads (hp ▸ hu) hs).1]
    refine ⟨rfl, rfl, List.nil_suffix, Nat.le_refl _, Nat.le_add_right _ _, ?_⟩
    intro program hok
    cases hok
    exact ⟨rfl, rfl, rfl⟩
  · rw [(parse_of_refused hp hu ht hb).1]
    have hrest : afterRefusal r rest <:+ rest := by
      cases r with
      | tooDeep => exact List.tail_suffix rest
      | mismatch expected => exact List.suffix_refl rest
      | missingOperand => exact List.suffix_refl rest
    have hlevels : s.abandoned r ≤ p.room :=
      Nat.le_trans (s.abandoned_le r) (hu.levels_le_room (Nat.zero_le _))
    exact ⟨rfl, rfl, hrest.trans ⟨u, hp.symm⟩, Nat.le_add_right _ _,
      Nat.add_le_add_left hlevels _, nofun⟩

theorem parse_of_pending_eq_nil (h : p.pending = []) :
    p.parse = (.ok ⟨[], p.locals.frameSize⟩, p) := by
  have hu : Reads byName p.room (.initial p.locals) p.pending (.initial p.locals) := by
    rw [h]
    exact .nil _
  rw [(parse_of_reads hu rfl).1]
  exact Prod.ext rfl (by rw [← h]; rfl)

theorem after_of_pending_eq_nil (h : p.pending = []) (calls : List Call) :
    (p.after calls).pending = [] ∧ (p.after calls).locals = p.locals := by
  induction calls generalizing p with
  | nil => exact ⟨h, rfl⟩
  | cons call calls ih =>
    cases call with
    | parse =>
      have hnext : p.next .parse = p := by rw [next, parse_of_pending_eq_nil h]
      rw [after, List.foldl_cons, hnext]
      exact ih h
    | limit n => exact ih (p := p.withMaxDepth n) h

end Parser

namespace Walk

def next (w : Walk) : Call → Walk
  | .parse => w.parse.2
  | .limit n => w.withMaxDepth n

def after (w : Walk) (calls : List Call) : Walk := calls.foldl next w

/-- The place of the first end of the input that is still to come. -/
def eofIndex (w : Walk) : Nat := w.index + w.parser.pending.length

variable {w : Walk}

theorem Ready.parse_eq (hw : w.Ready) :
    w.parse =
      (w.parser.parse.1.mapError .fault,
        { w with
          index := w.index + (w.parser.pending.length - w.parser.parse.2.pending.length)
          locals := w.parser.parse.2.locals
          depth := w.parser.parse.2.depth }) :=
  parseWithin_eq hw (Nat.lt_succ_of_le (Nat.sub_le _ _))

/-- A call of a walk leaves a walk along the same tokens, for the parser that the call of its parser
leaves. -/
theorem Ready.parse_leaves (hw : w.Ready) :
    w.parse.2.Ready ∧ w.parse.2.parser = w.parser.parse.2 ∧ w.parse.2.tokens = w.tokens ∧
      w.parse.2.eofIndex = w.eofIndex := by
  obtain ⟨u, t, rest, hahead, hu, ht⟩ := exists_eq_append_eof hw
  have hparser := parser_of_ahead_eq hahead hu ht
  obtain ⟨hstop, hlimit, ⟨v, hv⟩, -⟩ := w.parser.parse_leaves
  have hlength := congrArg List.length hv
  rw [List.length_append] at hlength
  have hindex : w.parse.2.index = w.index + v.length := by
    rw [hw.parse_eq]
    show w.index + (w.parser.pending.length - _) = _
    omega
  have htokens : w.parse.2.tokens = w.tokens := by rw [hw.parse_eq]
  have hpending : v ++ w.parser.parse.2.pending = u := hv.trans (by rw [hparser])
  have hahead' : w.parse.2.ahead = w.parser.parse.2.pending ++ t :: rest := by
    rw [ahead, hindex, htokens, ← List.drop_drop]
    show w.ahead.drop v.length = _
    rw [hahead, ← hpending, List.append_assoc, List.drop_left]
  have hnot : ∀ t ∈ w.parser.parse.2.pending, t.isEof = false := fun t ht =>
    hu t (hpending ▸ List.mem_append_right v ht)
  have hparser' : w.parse.2.parser = w.parser.parse.2 := by
    rw [parser_of_ahead_eq hahead' hnot ht]
    show _ = Parser.mk _ _ _ _ _
    rw [Parser.mk.injEq, hstop, hlimit, hparser, hw.parse_eq, hparser]
    exact ⟨rfl, rfl, rfl, rfl, rfl⟩
  refine ⟨⟨t, by rw [hahead']; simp, ht⟩, hparser', htokens, ?_⟩
  rw [eofIndex, eofIndex, hparser', hindex]
  omega

/-- **A walk goes on as its parser does**, along the same tokens. -/
theorem Ready.after (hw : w.Ready) (calls : List Call) :
    (w.after calls).Ready ∧ (w.after calls).parser = w.parser.after calls ∧
      (w.after calls).tokens = w.tokens ∧ (w.after calls).eofIndex = w.eofIndex := by
  induction calls generalizing w with
  | nil => exact ⟨hw, rfl, rfl, rfl⟩
  | cons call calls ih =>
    have hnext : (w.next call).Ready ∧ (w.next call).parser = w.parser.next call ∧
        (w.next call).tokens = w.tokens ∧ (w.next call).eofIndex = w.eofIndex := by
      cases call with
      | parse => exact hw.parse_leaves
      | limit n => exact ⟨hw, rfl, rfl, rfl⟩
    obtain ⟨hready, hparser, htokens, heof⟩ := hnext
    obtain ⟨hready', hparser', htokens', heof'⟩ := ih hready
    refine ⟨hready', hparser'.trans ?_, htokens'.trans htokens, heof'.trans heof⟩
    rw [hparser]
    rfl

theorem ofTokens_stands (tokens : List Token) (locals : Locals) :
    (ofTokens tokens locals).Ready ∧
      (ofTokens tokens locals).parser = Parser.ofTokens tokens locals ∧
      (ofTokens tokens locals).eofIndex = (endMarked tokens).findIdx Token.isEof ∧
      (endMarked tokens).findIdx Token.isEof < (endMarked tokens).length := by
  obtain ⟨u, t, rest, hts, hu, ht, hp⟩ := exists_endMarked_eq tokens
  have hahead : (ofTokens tokens locals).ahead = u ++ t :: rest := hts
  have hparser := parser_of_ahead_eq hahead hu ht
  have hfind : (endMarked tokens).findIdx Token.isEof = u.length := by
    rw [hts, List.findIdx_append, List.findIdx_eq_length_of_false hu, if_neg (Nat.lt_irrefl _),
      List.findIdx_cons, ht]
    exact Nat.zero_add _
  refine ⟨⟨t, by rw [hahead]; simp, ht⟩, by rw [hparser, hp]; rfl, ?_, ?_⟩
  · rw [eofIndex, hparser, hfind]
    exact Nat.zero_add _
  · rw [hfind, hts, List.length_append, List.length_cons]
    omega

end Walk

/-- Parsers over tokens that agree up to an end of the input are the same. -/
theorem Parser.ofTokens_eq_of_endMarked {tokens tokens' shared rest rest' : List Token}
    (h : endMarked tokens = shared ++ rest) (h' : endMarked tokens' = shared ++ rest')
    (heof : ∃ t ∈ shared, t.isEof = true) (locals : Locals) :
    Parser.ofTokens tokens' locals = Parser.ofTokens tokens locals := by
  obtain ⟨u, t, w, rfl, hu, ht⟩ := exists_eq_append_eof heof
  rw [← ofTokens_endMarked tokens, ← ofTokens_endMarked tokens', h, h', List.append_assoc,
    List.append_assoc, List.cons_append, List.cons_append, ofTokens_append_eof hu ht,
    ofTokens_append_eof hu ht]

namespace Walk

variable {w : Walk}

theorem Ready.parse_ne_breakdown (hw : w.Ready) (b : Breakdown) :
    w.parse.1 ≠ .error (.breakdown b) := by
  rw [hw.parse_eq]
  cases w.parser.parse.1 with
  | ok program => nofun
  | error e => nofun

theorem Ready.index_le (hw : w.Ready) :
    w.index ≤ w.parse.2.index ∧ w.parse.2.index ≤ w.eofIndex := by
  constructor
  · rw [hw.parse_eq]
    exact Nat.le_add_right _ _
  · rw [← hw.parse_leaves.2.2.2]
    exact Nat.le_add_right _ _

theorem Ready.depth_le (hw : w.Ready) :
    w.depth ≤ w.parse.2.depth ∧ w.parse.2.depth ≤ max w.depth w.limit := by
  obtain ⟨-, -, -, hle, hmax, -⟩ := w.parser.parse_leaves
  have hroom : w.depth + (w.limit - w.depth) = max w.depth w.limit := by omega
  rw [hw.parse_eq, ← hroom]
  exact ⟨hle, hmax⟩

/-- A success ends at the first end of the input, and every later call is a success there. -/
theorem Ready.of_parse_eq_ok {program : Program} (hw : w.Ready) (h : w.parse.1 = .ok program) :
    w.parse.2.index = w.eofIndex ∧ w.parse.2.depth = w.depth ∧
      ∀ more, (w.parse.2.after more).parse.1 = .ok ⟨[], program.frameSize⟩ := by
  obtain ⟨hready, hparser, -, heof⟩ := hw.parse_leaves
  have hok : w.parser.parse.1 = .ok program := by
    rw [hw.parse_eq] at h
    cases hp : w.parser.parse.1 with
    | ok program' =>
      rw [hp] at h
      exact congrArg Except.ok (Except.ok.inj h)
    | error e =>
      rw [hp] at h
      cases h
  obtain ⟨hpending, hdepth, hframe⟩ := w.parser.parse_leaves.2.2.2.2.2 program hok
  rw [← hparser] at hpending hdepth hframe
  refine ⟨?_, hdepth, fun more => ?_⟩
  · rw [← heof, eofIndex, hpending]
    rfl
  · obtain ⟨hready', hparser', -⟩ := hready.after more
    obtain ⟨hpending', hlocals⟩ := Parser.after_of_pending_eq_nil hpending more
    rw [hready'.parse_eq, hparser', Parser.parse_of_pending_eq_nil hpending', hlocals, hframe]
    rfl

theorem after_ofTokens (tokens : List Token) (locals : Locals) (calls : List Call) :
    ((ofTokens tokens locals).after calls).Ready ∧
      ((ofTokens tokens locals).after calls).parser =
        (Parser.ofTokens tokens locals).after calls ∧
      ((ofTokens tokens locals).after calls).tokens = endMarked tokens ∧
      ((ofTokens tokens locals).after calls).eofIndex =
        (endMarked tokens).findIdx Token.isEof := by
  obtain ⟨hready, hparser, heof, -⟩ := ofTokens_stands tokens locals
  obtain ⟨hready', hparser', htokens, heof'⟩ := hready.after calls
  exact ⟨hready', hparser'.trans (by rw [hparser]), htokens, heof'.trans heof⟩

end Walk

/-- **What holds at every moment of a run.**  A call never breaks down and has the answer of the
parser.  The index goes forward, and never past the first end of the input.  Levels that are left
open stay open, and there are never more of them than there were or than the limit allows.  A
success ends at the first end of the input, with no level left open by it, and from then on every
call answers with no statements and the same frame.  What comes after the first end of the input
does not matter. -/
theorem session_invariant (tokens : List Token) (locals : Locals) (calls : List Call) :
    let w := (Walk.ofTokens tokens locals).after calls
    let p := (Parser.ofTokens tokens locals).after calls
    let eof := (endMarked tokens).findIdx Token.isEof
    (w.parser = p ∧ w.parse.1 = p.parse.1.mapError .fault ∧
      ∀ b, w.parse.1 ≠ .error (.breakdown b)) ∧
    (w.index ≤ w.parse.2.index ∧ w.parse.2.index ≤ eof ∧ w.tokens = endMarked tokens ∧
      eof < w.tokens.length) ∧
    (w.depth ≤ w.parse.2.depth ∧ w.parse.2.depth ≤ max w.depth w.limit) ∧
    (∀ program, w.parse.1 = .ok program →
      w.parse.2.index = eof ∧ w.parse.2.depth = w.depth ∧
        ∀ more, (w.parse.2.after more).parse.1 = .ok ⟨[], program.frameSize⟩) ∧
    ∀ tokens' shared rest rest', endMarked tokens = shared ++ rest →
      endMarked tokens' = shared ++ rest' → (∃ t ∈ shared, t.isEof = true) →
        ((Walk.ofTokens tokens' locals).after calls).parse.1 = w.parse.1 ∧
          ((Parser.ofTokens tokens' locals).after calls).parse.1 = p.parse.1 := by
  intro w p eof
  obtain ⟨hready, hparser, htokens, heof⟩ := Walk.after_ofTokens tokens locals calls
  have hanswer : w.parse.1 = p.parse.1.mapError .fault := by
    rw [hready.parse_eq]
    exact congrArg (fun p : Parser => p.parse.1.mapError Halt.fault) hparser
  refine ⟨⟨hparser, hanswer, hready.parse_ne_breakdown⟩, ⟨hready.index_le.1, ?_, htokens, ?_⟩,
    hready.depth_le, ?_, ?_⟩
  · exact Nat.le_trans hready.index_le.2 (Nat.le_of_eq heof)
  · rw [htokens]
    exact (Walk.ofTokens_stands tokens locals).2.2.2
  · intro program hok
    obtain ⟨hindex, hdepth, hmore⟩ := hready.of_parse_eq_ok hok
    exact ⟨hindex.trans heof, hdepth, hmore⟩
  · intro tokens' shared rest rest' h h' hshared
    obtain ⟨hready', hparser', -⟩ := Walk.after_ofTokens tokens' locals calls
    have hsame := Parser.ofTokens_eq_of_endMarked h h' hshared locals
    exact ⟨by rw [hanswer, hready'.parse_eq, hparser', hsame], by rw [hsame]⟩

/-- Two errors leave a level open, and then the rest is read up to the end of the input, which is
not the last token.  From then on there are no statements, also with no room at all. -/
theorem session_invariant_after_errors :
    let tokens : List Token := [⟨.ident, "a", 0⟩, ⟨.punct .assign, "=", 1⟩,
      ⟨.punct .leftParen, "(", 2⟩, ⟨.punct .leftParen, "(", 3⟩, ⟨.num 7, "7", 4⟩,
      ⟨.punct .semicolon, ";", 5⟩, .eofAt 6, ⟨.punct .rightParen, ")", 6⟩]
    let w := (Walk.ofTokens tokens {}).after [.limit 1, .parse, .parse]
    w.index = 4 ∧ w.depth = 1 ∧ w.parse.1 = .ok ⟨[.stmt (.num 7)], 8⟩ ∧ w.parse.2.index = 6 ∧
      w.parse.2.depth = 1 ∧ (w.parse.2.after [.limit 0, .parse]).parse.1 = .ok ⟨[], 8⟩ := by
  intro tokens w
  have hplace : w.index = 4 ∧ w.depth = 1 ∧ w.parse.1 = .ok ⟨[.stmt (.num 7)], 8⟩ := by
    dsimp only [w, tokens]
    exact ⟨by decide, by decide, by with_unfolding_all rfl⟩
  have heof : (endMarked tokens).findIdx Token.isEof = 6 := by decide
  obtain ⟨-, -, -, hsuccess, -⟩ := session_invariant tokens {} [.limit 1, .parse, .parse]
  generalize hw : (Walk.ofTokens tokens {}).after [.limit 1, .parse, .parse] = v at hsuccess
  rw [show w = v from hw] at hplace ⊢
  obtain ⟨hindex, hdepth, hok⟩ := hplace
  obtain ⟨hindex', hdepth', hmore⟩ := hsuccess _ hok
  exact ⟨hindex, hdepth, hok, hindex'.trans heof, hdepth'.trans hdepth, hmore _⟩

end FrameLang

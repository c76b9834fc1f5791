import FrameLang.Proofs.Sessions

/-!
# Going on after an error

An error leaves levels open that nothing will ever close.  What that does to the next call is told
by one number: how many levels are left below the limit.  The tokens that were read before, the
depth and the limit themselves do not matter, except that an error may name the limit.

* `ParseAlike`: the calls of two walks come to the same.
* `Parser.parse_of_room_eq`: parsers with the same tokens, the same table and as many levels left go
  the same way.
* `parse_depends_on_room`: walks go the same way too, however they came to where they are.  In
  particular a walk goes on as a new one over the tokens that are left.
-/

namespace FrameLang

def SyntaxFault.withLimit (limit : Nat) : SyntaxFault → SyntaxFault
  | .tooDeep _ => .tooDeep limit
  | fault => fault

def SyntaxError.withLimit (limit : Nat) (e : SyntaxError) : SyntaxError :=
  ⟨e.pos, e.fault.withLimit limit⟩

theorem Refusal.fault_eq_withLimit (r : Refusal) (limit limit' : Nat) (t : Token) :
    r.fault limit t = (r.fault limit' t).withLimit limit := by
  cases r <;> rfl

namespace Parser

variable {p q : Parser}

theorem errorAt_eq_withLimit (hstop : p.stop = q.stop) (r : Refusal) (rest : List Token) :
    p.errorAt r rest = (q.errorAt r rest).withLimit p.limit := by
  rw [errorAt, errorAt, hstop, SyntaxError.withLimit, ← r.fault_eq_withLimit]

/-- **How a call goes depends on the levels that are left**, and not on the depth and the limit by
themselves. -/
theorem parse_of_room_eq (hpending : p.pending = q.pending) (hstop : p.stop = q.stop)
    (hlocals : p.locals = q.locals) (hroom : p.room = q.room) :
    p.parse.1 = q.parse.1.mapError (SyntaxError.withLimit p.limit) ∧
      p.parse.2.pending = q.parse.2.pending ∧ p.parse.2.locals = q.parse.2.locals ∧
      ∃ d, p.parse.2.depth = p.depth + d ∧ q.parse.2.depth = q.depth + d := by
  have hrun : p.nextRun = q.nextRun := by rw [nextRun, nextRun, hpending, hlocals, hroom]
  simp only [parse, hrun]
  cases q.nextRun.refusal? with
  | none => exact ⟨rfl, rfl, rfl, 0, rfl, rfl⟩
  | some r => exact ⟨congrArg Except.error (errorAt_eq_withLimit hstop ..), rfl, rfl, _, rfl, rfl⟩

end Parser

/-- Calls of two walks come to the same: to the same answer, but for the limit in an error, and to
the same steps forward, levels left open and table. -/
structure ParseAlike (w₁ w₂ : Walk) : Prop where
  answer : w₁.parser.parse.1 = w₂.parser.parse.1.mapError (SyntaxError.withLimit w₁.limit) ∧
    w₂.parser.parse.1 = w₁.parser.parse.1.mapError (SyntaxError.withLimit w₂.limit)
  walked : w₁.parse.1 = w₁.parser.parse.1.mapError .fault ∧
    w₂.parse.1 = w₂.parser.parse.1.mapError .fault
  index : ∃ n, w₁.parse.2.index = w₁.index + n ∧ w₂.parse.2.index = w₂.index + n
  depth : ∃ d, w₁.parse.2.depth = w₁.depth + d ∧ w₂.parse.2.depth = w₂.depth + d
  locals : w₁.parse.2.locals = w₂.parse.2.locals

namespace Walk

/-- The tokens that are left, up to the end of the input. -/
def remaining (w : Walk) : List Token :=
  (w.ahead.takeWhile fun t => !t.isEof) ++ (w.ahead.find? Token.isEof).toList

/-- The walk can be come to by uses of a new one. -/
def Reached (w : Walk) : Prop :=
  ∃ tokens locals calls, w = (ofTokens tokens locals).after calls

variable {w w₁ w₂ : Walk}

theorem Reached.ready (h : w.Reached) : w.Ready := by
  obtain ⟨tokens, locals, calls, rfl⟩ := h
  exact (after_ofTokens tokens locals calls).1

theorem remaining_of_ahead_eq {u rest : List Token} {t : Token} (h : w.ahead = u ++ t :: rest)
    (hu : ∀ t ∈ u, t.isEof = false) (ht : t.isEof = true) : w.remaining = u ++ [t] := by
  rw [remaining, h, takeWhile_not_isEof_cons hu ht, find?_isEof_append hu,
    List.find?_cons_of_pos ht]
  rfl

theorem Ready.parseAlike (h₁ : w₁.Ready) (h₂ : w₂.Ready) (hremaining : w₁.remaining = w₂.remaining)
    (hlocals : w₁.locals = w₂.locals) (hroom : w₁.limit - w₁.depth = w₂.limit - w₂.depth) :
    ParseAlike w₁ w₂ := by
  obtain ⟨u₁, t₁, rest₁, hahead₁, hu₁, ht₁⟩ := exists_eq_append_eof h₁
  obtain ⟨u₂, t₂, rest₂, hahead₂, hu₂, ht₂⟩ := exists_eq_append_eof h₂
  rw [remaining_of_ahead_eq hahead₁ hu₁ ht₁, remaining_of_ahead_eq hahead₂ hu₂ ht₂] at hremaining
  obtain ⟨hu, ht⟩ := List.append_inj' hremaining rfl
  obtain rfl : t₁ = t₂ := List.head_eq_of_cons_eq ht
  have hparser₁ := parser_of_ahead_eq hahead₁ hu₁ ht₁
  have hparser₂ := parser_of_ahead_eq hahead₂ hu₂ ht₂
  have hpending : w₁.parser.pending = w₂.parser.pending := by rw [hparser₁, hparser₂, hu]
  have hstop : w₁.parser.stop = w₂.parser.stop := by rw [hparser₁, hparser₂]
  obtain ⟨hanswer, hleft, htable, hdepth⟩ := Parser.parse_of_room_eq hpending hstop hlocals hroom
  have hanswer' := (Parser.parse_of_room_eq hpending.symm hstop.symm hlocals.symm hroom.symm).1
  refine ⟨⟨hanswer, hanswer'⟩, ⟨by rw [h₁.parse_eq], by rw [h₂.parse_eq]⟩, ?_, ?_, ?_⟩
  · rw [h₁.parse_eq, h₂.parse_eq, hpending, hleft]
    exact ⟨_, rfl, rfl⟩
  · rw [h₁.parse_eq, h₂.parse_eq]
    exact hdepth
  · rw [h₁.parse_eq, h₂.parse_eq]
    exact htable

theorem remaining_ofTokens_ahead (hw : w.Ready) (locals : Locals) :
    (ofTokens w.ahead locals).remaining = w.remaining := by
  obtain ⟨u, t, rest, hahead, hu, ht⟩ := exists_eq_append_eof hw
  obtain ⟨rest', hmarked⟩ : ∃ rest', endMarked w.ahead = u ++ t :: rest' := by
    rcases endMarked_eq_or w.ahead with h | ⟨pos, h⟩
    · exact ⟨rest, h.trans hahead⟩
    · exact ⟨rest ++ [.eofAt pos], by rw [h, hahead, List.append_assoc, List.cons_append]⟩
  rw [remaining_of_ahead_eq hahead hu ht]
  exact remaining_of_ahead_eq (w := ofTokens w.ahead locals) hmarked hu ht

end Walk

/-- **A call depends on the tokens, the table and the levels that are left**, however the walk came
to be where it is.  So after an error a walk goes on as a new one over the tokens that are left,
with the levels that the error has left as its limit. -/
theorem parse_depends_on_room :
    (∀ w₁ w₂ : Walk, w₁.Reached → w₂.Reached → w₁.remaining = w₂.remaining →
      w₁.locals = w₂.locals → w₁.limit - w₁.depth = w₂.limit - w₂.depth → ParseAlike w₁ w₂) ∧
    ∀ w : Walk, w.Reached →
      ParseAlike w ((Walk.ofTokens w.ahead w.locals).withMaxDepth (w.limit - w.depth)) := by
  refine ⟨fun w₁ w₂ h₁ h₂ => h₁.ready.parseAlike h₂.ready, fun w hw => ?_⟩
  have hready : ((Walk.ofTokens w.ahead w.locals).withMaxDepth (w.limit - w.depth)).Ready :=
    (Walk.ofTokens_stands w.ahead w.locals).1
  exact hw.ready.parseAlike hready (Walk.remaining_ofTokens_ahead hw.ready w.locals).symm rfl rfl

/-- One level is left open of `a = (`, and the limit is raised to three.  Then `(b = (1` goes too
deep as it does for a new walk with the limit two. -/
theorem parse_depends_on_room_after_error :
    let tokens : List Token := [⟨.ident, "a", 0⟩, ⟨.punct .assign, "=", 1⟩,
      ⟨.punct .leftParen, "(", 2⟩, ⟨.punct .leftParen, "(", 3⟩, ⟨.ident, "b", 4⟩,
      ⟨.punct .assign, "=", 5⟩, ⟨.punct .leftParen, "(", 6⟩, ⟨.num 1, "1", 7⟩]
    let w := (Walk.ofTokens tokens {}).after [.limit 1, .parse, .limit 3]
    let fresh := (Walk.ofTokens (tokens.drop 3) w.locals).withMaxDepth 2
    w.index = 3 ∧ w.depth = 1 ∧ w.parser.parse.1 = .error ⟨6, .tooDeep 3⟩ ∧
      fresh.parser.parse.1 = .error ⟨6, .tooDeep 2⟩ ∧ ParseAlike w fresh := by
  intro tokens w fresh
  have hw : w.Reached := ⟨tokens, {}, _, rfl⟩
  have hfresh : fresh.Reached := ⟨tokens.drop 3, w.locals, [.limit 2], rfl⟩
  have hleft : w.remaining = fresh.remaining ∧ w.limit - w.depth = fresh.limit - fresh.depth := by
    dsimp only [fresh, w, tokens]
    exact ⟨by decide, by decide⟩
  have halike := parse_depends_on_room.1 w fresh hw hfresh hleft.1 rfl hleft.2
  refine ⟨?_, ?_, ?_, ?_, halike⟩
  · dsimp only [w, tokens]
    decide
  · dsimp only [w, tokens]
    decide
  · dsimp only [w, tokens]
    with_unfolding_all rfl
  · dsimp only [fresh, w, tokens]
    with_unfolding_all rfl

end FrameLang

import FrameLang.Proofs.Names

/-!
# What a call of a parser does

A call reads some of the tokens, and then it stops: at the end of the input, between two statements,
or at a token that is refused.  The end of the input is refused like any other token, except between
statements, so it needs no case of its own.

* `Parser.exists_reads`: every call does one of the two.
* `Parser.parse_of_reads`, `Parser.parse_of_refused`: the answer of a call, and what it leaves.
* `endMarked`: the tokens of a new parser with the end of its input among them.
  `parse_ofTokens_of_refused` and `parse_ofTokens_of_reads` are the two cases for a new parser, with
  any tokens after the place where it stops.
-/

namespace FrameLang

section

variable {ν : Type} {resolve : Locals → String → ν} {room : Nat} {s s' : State ν} {t : Token}
  {u ts : List Token}

theorem Takes.isEof_eq_false (h : Takes resolve s t s') : t.isEof = false := by
  rw [Token.isEof, decide_eq_false_iff_not]
  intro he
  cases h with
  | plus _ ht | minus _ ht | literal _ ht | name _ ht | openGroup _ ht | assign _ ht | operator _ ht
  | closeGroup _ ht | finish _ ht =>
    rw [he] at ht
    cases ht

theorem Reads.isEof_eq_false (h : Reads resolve room s u s') : ∀ t ∈ u, t.isEof = false := by
  induction h with
  | nil => exact fun _ ht => by cases ht
  | cons ht _ _ ih =>
    intro t' ht'
    rcases List.mem_cons.1 ht' with rfl | ht'
    · exact ht.isEof_eq_false
    · exact ih t' ht'

theorem State.step_eof (h : t.isEof = true) : s.step resolve room t = .error s.refusal :=
  step_of_not_takes fun _ ht => by rw [ht.isEof_eq_false] at h; cases h

theorem Reads.run_eq (h : Reads resolve room s u s') :
    run resolve room s u =
      ⟨s', if s'.betweenStatements then none else some s'.refusal, []⟩ := by
  have hrun := h.run_append []
  rwa [List.append_nil, run] at hrun

theorem Reads.run_of_refused {rest : List Token} {pos : Nat} {r : Refusal}
    (h : Reads resolve room s u s') (ht : s'.step resolve room (rest.headD (.eofAt pos)) = .error r)
    (hb : rest = [] → s'.betweenStatements = false) :
    run resolve room s (u ++ rest) = ⟨s', some r, rest⟩ := by
  rw [h.run_append]
  cases rest with
  | nil =>
    rw [State.step_eof rfl] at ht
    rw [run, hb rfl, Except.error.inj ht]
    rfl
  | cons t rest => rw [run, show s'.step resolve room t = _ from ht]

end

namespace Parser

variable {p : Parser} {u rest : List Token} {s : State String} {r : Refusal}

/-- The number of tokens that the next call reads before the one that stops it. -/
def stopIndex (p : Parser) : Nat := p.pending.length - p.nextRun.rest.length

/-- A call reads tokens up to the end of the input, between two statements, or up to one that is
refused. -/
theorem exists_reads (p : Parser) :
    ∃ u rest s, p.pending = u ++ rest ∧ Reads byName p.room (.initial p.locals) u s ∧
      (rest = [] ∧ s.betweenStatements = true ∨
        ∃ r, s.step byName p.room (rest.headD (.eofAt p.stop)) = .error r ∧
          (rest = [] → s.betweenStatements = false)) := by
  obtain ⟨u, s, hr, ⟨hu, -⟩ | ⟨t, rest, r, hu, ht, -⟩⟩ :=
    exists_reads_of_run byName p.room (.initial p.locals) p.pending
  · refine ⟨u, [], s, by rw [hu, List.append_nil], hr, ?_⟩
    cases hb : s.betweenStatements with
    | true => exact .inl ⟨rfl, rfl⟩
    | false => exact .inr ⟨s.refusal, State.step_eof rfl, fun _ => rfl⟩
  · exact ⟨u, t :: rest, s, hu, hr, .inr ⟨r, ht, nofun⟩⟩

theorem parse_of_reads (hr : Reads byName p.room (.initial p.locals) p.pending s)
    (hb : s.betweenStatements = true) :
    p.parse =
        (.ok ⟨s.done.reverse.map (Node.map s.locals.slot), s.locals.frameSize⟩,
          { p with pending := [], locals := s.locals }) ∧
      p.stopIndex = p.pending.length := by
  have hrun : p.namedRun = ⟨s, none, []⟩ := by
    rw [namedRun, hr.run_eq, hb]
    rfl
  constructor
  · rw [parse_eq, hrun]
  · rw [stopIndex, nextRun_eq, hrun]
    rfl

theorem parse_of_refused (hp : p.pending = u ++ rest)
    (hr : Reads byName p.room (.initial p.locals) u s)
    (ht : s.step byName p.room (rest.headD (.eofAt p.stop)) = .error r)
    (hb : rest = [] → s.betweenStatements = false) :
    p.parse =
        (.error (p.errorAt r rest),
          { p with
            pending := afterRefusal r rest
            locals := s.locals
            depth := p.depth + s.abandoned r }) ∧
      p.stopIndex = u.length := by
  have hrun : p.namedRun = ⟨s, some r, rest⟩ := by rw [namedRun, hp, hr.run_of_refused ht hb]
  constructor
  · rw [parse_eq, hrun]
  · rw [stopIndex, nextRun_eq, hrun, hp, Run.map, List.length_append, Nat.add_sub_cancel]

end Parser

/-! ## New parsers -/

/-- The tokens of a new parser: those that are given, and the end of the input after them if it is
not the last of them. -/
def endMarked (tokens : List Token) : List Token :=
  match tokens.getLast? with
  | some t => if t.isEof then tokens else tokens ++ [.eofAt t.stop]
  | none => [.eofAt 0]

theorem endMarked_eq_or (tokens : List Token) :
    endMarked tokens = tokens ∨ ∃ pos, endMarked tokens = tokens ++ [.eofAt pos] := by
  unfold endMarked
  cases hl : tokens.getLast? with
  | none => exact .inr ⟨0, by rw [List.getLast?_eq_none_iff.1 hl]; rfl⟩
  | some last =>
    cases he : last.isEof with
    | true => exact .inl (if_pos he)
    | false => exact .inr ⟨last.stop, if_neg (by rw [he]; nofun)⟩

variable {tokens u w : List Token} {t : Token} {locals : Locals}

theorem takeWhile_not_isEof (h : ∀ t ∈ u, t.isEof = false) :
    (u ++ w).takeWhile (fun t => !t.isEof) = u ++ w.takeWhile fun t => !t.isEof := by
  rw [List.takeWhile_append_of_pos fun t ht => by rw [h t ht]; rfl]

theorem takeWhile_not_isEof_self (h : ∀ t ∈ u, t.isEof = false) :
    u.takeWhile (fun t => !t.isEof) = u := by
  have htake := takeWhile_not_isEof (w := []) h
  rwa [List.append_nil, List.takeWhile_nil, List.append_nil] at htake

theorem takeWhile_not_isEof_cons (h : ∀ t ∈ u, t.isEof = false) (ht : t.isEof = true) :
    (u ++ t :: w).takeWhile (fun t => !t.isEof) = u := by
  rw [takeWhile_not_isEof h, List.takeWhile_cons_of_neg (by simp [ht]), List.append_nil]

theorem find?_isEof_append (h : ∀ t ∈ u, t.isEof = false) :
    (u ++ w).find? Token.isEof = w.find? Token.isEof := by
  rw [List.find?_append, List.find?_eq_none.2 fun t ht => by rw [h t ht]; nofun, Option.none_or]

theorem ofTokens_append_eof (h : ∀ t ∈ u, t.isEof = false) (ht : t.isEof = true) :
    Parser.ofTokens (u ++ t :: w) locals = ⟨u, t.pos, locals, 0, defaultMaxDepth⟩ := by
  rw [Parser.ofTokens, takeWhile_not_isEof_cons h ht, find?_isEof_append h,
    List.find?_cons_of_pos ht]

theorem exists_eq_append_eof (h : ∃ t ∈ w, t.isEof = true) :
    ∃ u t rest, w = u ++ t :: rest ∧ (∀ t ∈ u, t.isEof = false) ∧ t.isEof = true := by
  obtain ⟨t, ht⟩ := Option.isSome_iff_exists.1 (List.find?_isSome.2 h)
  obtain ⟨heof, u, rest, hw, hu⟩ := List.find?_eq_some_iff_append.1 ht
  exact ⟨u, t, rest, hw, fun t ht => by simpa using hu t ht, heof⟩

/-- The end of the input that a new parser adds changes nothing. -/
theorem exists_endMarked_eq (tokens : List Token) :
    ∃ u t w, endMarked tokens = u ++ t :: w ∧ (∀ t ∈ u, t.isEof = false) ∧ t.isEof = true ∧
      ∀ locals, Parser.ofTokens tokens locals = ⟨u, t.pos, locals, 0, defaultMaxDepth⟩ := by
  cases h : tokens.find? Token.isEof with
  | some t =>
    obtain ⟨ht, u, w, rfl, hu⟩ := List.find?_eq_some_iff_append.1 h
    have hu : ∀ t ∈ u, t.isEof = false := fun t ht => by simpa using hu t ht
    obtain ⟨w', hw'⟩ : ∃ w', endMarked (u ++ t :: w) = u ++ t :: (w ++ w') := by
      rcases endMarked_eq_or (u ++ t :: w) with h | ⟨pos, h⟩
      · exact ⟨[], by rw [h, List.append_nil]⟩
      · exact ⟨[.eofAt pos], by rw [h, List.append_assoc, List.cons_append]⟩
    exact ⟨u, t, w ++ w', hw', hu, ht, fun locals => ofTokens_append_eof hu ht⟩
  | none =>
    have hu : ∀ t ∈ tokens, t.isEof = false := fun t ht => by
      simpa using List.find?_eq_none.1 h t ht
    refine ⟨tokens, .eofAt ((tokens.getLast?.map Token.stop).getD 0), [], ?_, hu, rfl, ?_⟩
    · unfold endMarked
      cases hl : tokens.getLast? with
      | none => rw [List.getLast?_eq_none_iff.1 hl]; rfl
      | some t =>
        have := hu t (List.mem_of_getLast? hl)
        simp [this]
    · intro locals
      rw [Parser.ofTokens, takeWhile_not_isEof_self hu, h]
      rfl

theorem ofTokens_endMarked (tokens : List Token) (locals : Locals) :
    Parser.ofTokens (endMarked tokens) locals = Parser.ofTokens tokens locals := by
  obtain ⟨u, t, w, hts, hu, ht, h⟩ := exists_endMarked_eq tokens
  rw [h, hts, ofTokens_append_eof hu ht]

theorem endMarked_concat (h : t.isEof = true) (tokens : List Token) :
    endMarked (tokens ++ [t]) = tokens ++ [t] := by
  rw [endMarked, List.getLast?_concat]
  exact if_pos h

variable {limit : Nat} {s : State String} {r : Refusal}

theorem Refusal.fault_of_isEof (r : Refusal) (limit : Nat) (ht : t.isEof = true) (pos : Nat) :
    r.fault limit t = r.fault limit (.eofAt pos) := by
  have hcls : t.cls = .eof := of_decide_eq_true ht
  have hd : t.describe = (Token.eofAt pos).describe := by rw [Token.describe, hcls]; rfl
  cases r with
  | mismatch expected => rw [fault, hd, fault]
  | missingOperand => rw [fault, hd, fault]
  | tooDeep => rfl

/-- **A new parser fails at the first token that is refused**, whatever comes after it. -/
theorem parse_ofTokens_of_refused (hr : Reads byName limit (.initial locals) u s)
    (ht : s.step byName limit t = .error r) (hb : t.isEof = true → s.betweenStatements = false)
    (w : List Token) :
    let p := (Parser.ofTokens (u ++ t :: w) locals).withMaxDepth limit
    p.parse.1 = .error ⟨t.pos, r.fault limit t⟩ ∧ p.parse.2.locals = s.locals ∧
      p.stopIndex = u.length := by
  intro p
  have hu := hr.isEof_eq_false
  cases he : t.isEof with
  | true =>
    have hp : p = ⟨u, t.pos, locals, 0, limit⟩ :=
      congrArg (Parser.withMaxDepth · limit) (ofTokens_append_eof hu he)
    rw [State.step_eof he] at ht
    have hpending : p.pending = u ++ [] := by rw [hp, List.append_nil]
    have hparse := Parser.parse_of_refused hpending (by rw [hp]; exact hr) (State.step_eof rfl)
      (fun _ => hb he)
    rw [hparse.1, hparse.2, ← Except.error.inj ht, s.refusal.fault_of_isEof limit he t.pos, hp]
    exact ⟨rfl, rfl, rfl⟩
  | false =>
    have hp : p.pending = u ++ t :: w.takeWhile (fun t => !t.isEof) := by
      show (u ++ t :: w).takeWhile _ = _
      rw [takeWhile_not_isEof hu, List.takeWhile_cons_of_pos (by rw [he]; rfl)]
    have hparse := Parser.parse_of_refused (p := p) hp hr ht nofun
    rw [hparse.1, hparse.2]
    exact ⟨rfl, rfl, rfl⟩

/-- **A new parser succeeds where the input ends between two statements.** -/
theorem parse_ofTokens_of_reads (hr : Reads byName limit (.initial locals) u s)
    (hb : s.betweenStatements = true) (ht : t.isEof = true) (w : List Token) :
    let p := (Parser.ofTokens (u ++ t :: w) locals).withMaxDepth limit
    p.parse.1 = .ok ⟨s.done.reverse.map (Node.map s.locals.slot), s.locals.frameSize⟩ ∧
      p.parse.2.locals = s.locals ∧ p.stopIndex = u.length := by
  intro p
  have hp : p = ⟨u, t.pos, locals, 0, limit⟩ :=
    congrArg (Parser.withMaxDepth · limit) (ofTokens_append_eof hr.isEof_eq_false ht)
  have hparse := Parser.parse_of_reads (p := p) (by rw [hp]; exact hr) hb
  rw [hparse.1, hparse.2, hp]
  exact ⟨rfl, rfl, rfl⟩

/-- Every call of a new parser stops at one of its tokens: at the end of the input between two
statements, or at a token that is refused. -/
theorem exists_stop (tokens : List Token) (locals : Locals) (limit : Nat) :
    ∃ u t w s, endMarked tokens = u ++ t :: w ∧ Reads byName limit (.initial locals) u s ∧
      (t.isEof = true ∧ s.betweenStatements = true ∨
        ∃ r, s.step byName limit t = .error r ∧
          (t.isEof = true → s.betweenStatements = false)) := by
  obtain ⟨v, e, w, hts, hv, he, hp⟩ := exists_endMarked_eq tokens
  obtain ⟨u, rest, s, hu, hr, hstop⟩ :=
    Parser.exists_reads ((Parser.ofTokens tokens locals).withMaxDepth limit)
  rw [hp] at hu hr hstop
  replace hu : v = u ++ rest := hu
  cases rest with
  | nil =>
    rw [List.append_nil] at hu
    refine ⟨u, e, w, s, hu ▸ hts, hr, ?_⟩
    rcases hstop with ⟨-, hb⟩ | ⟨r, -, hb⟩
    · exact .inl ⟨he, hb⟩
    · exact .inr ⟨s.refusal, State.step_eof he, fun _ => hb rfl⟩
  | cons t rest =>
    refine ⟨u, t, rest ++ e :: w, s, by rw [hts, hu, List.append_assoc, List.cons_append], hr, ?_⟩
    rcases hstop with ⟨h, -⟩ | ⟨r, ht, -⟩
    · cases h
    · refine .inr ⟨r, ht, fun h => ?_⟩
      rw [hv t (by rw [hu]; simp)] at h
      cases h

end FrameLang

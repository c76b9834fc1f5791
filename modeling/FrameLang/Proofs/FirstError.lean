import FrameLang.Proofs.Calls

/-!
# Errors at the first hopeless token

A parser reports the first token after which no program can come any more.

* `Reads.exists_completion`: from every state some tokens lead to the end of a statement, and no
  level is opened on the way: an operand if one is missing, the ends of the open groups, and a
  semicolon.
* `parse_error_at_first_hopeless_token`: what was read before an error can be completed to a
  program, and with the token of the error it cannot: everything that starts so has the same error.
-/

namespace FrameLang

variable {ν : Type} {resolve : Locals → String → ν} {room : Nat}

theorem length_collapse_le (stack : List (Unfinished ν)) (e : Node ν) :
    (collapse stack e).1.length ≤ stack.length := by
  fun_induction collapse stack e with
  | case1 e o first stack ih => exact Nat.le_succ_of_le ih
  | case2 e target stack ih => exact Nat.le_succ_of_le ih
  | case3 => exact Nat.le_refl _

/-- The end of a group, the end of a statement and an operand, as a completion has them. -/
def closingToken : Token := ⟨.punct .rightParen, ")", 0⟩

def endingToken : Token := ⟨.punct .semicolon, ";", 0⟩

def fillingToken : Token := ⟨.num 0, "0", 0⟩

theorem Reads.exists_completion_of_operator (s : State ν) (e : Node ν)
    (hs : s.phase = .operator e) :
    ∃ v s', Reads resolve room s v s' ∧ s'.betweenStatements = true := by
  induction hn : s.stack.length using Nat.strongRecOn generalizing s e with
  | ind n ih =>
    have hlength := length_collapse_le s.stack e
    rcases collapse_eq_nil_or_group s.stack e with hc | ⟨sign, rest, hc⟩
    · have hc' : collapse s.stack e = ([], (collapse s.stack e).2) := by rw [← hc]
      exact ⟨[endingToken], _, .single (.finish hs rfl hc') (by decide), rfl⟩
    · have hc' : collapse s.stack e = (.group sign :: rest, (collapse s.stack e).2) := by rw [← hc]
      rw [hc, List.length_cons] at hlength
      obtain ⟨v, s', hr, hb⟩ :=
        ih rest.length (by omega) { s with stack := rest, phase := _ } _ rfl rfl
      exact ⟨closingToken :: v, s',
        .cons_of_not_opens (.closeGroup hs rfl hc') (by decide) hr, hb⟩

/-- **Every state can be completed**, without any room. -/
theorem Reads.exists_completion (s : State ν) :
    ∃ v s', Reads resolve room s v s' ∧ s'.betweenStatements = true := by
  cases hs : s.phase with
  | operator e => exact exists_completion_of_operator s e hs
  | operand sign =>
    obtain ⟨v, s', hr, hb⟩ := exists_completion_of_operator
      { s with phase := .operator (signed sign (.num 0)) } _ rfl
    exact ⟨fillingToken :: v, s', .cons_of_not_opens (.literal hs rfl) (by decide) hr, hb⟩

/-- What a fault says about the token where it was found. -/
def SyntaxFault.Concerns (limit : Nat) (t : Token) : SyntaxFault → Prop
  | mismatch _ found => found = t.describe
  | missingOperand found => found = t.describe
  | tooDeep n => n = limit ∧ t.opens

theorem concerns_of_step {s : State ν} {t : Token} {r : Refusal}
    (h : s.step resolve room t = .error r) : (r.fault room t).Concerns room t := by
  rcases State.step_eq_error_iff.1 h with ⟨-, ho, -, rfl⟩ | ⟨-, rfl⟩
  · exact ⟨rfl, ho⟩
  · unfold State.refusal
    split
    · exact rfl
    · exact rfl

theorem exists_parse_ok {locals : Locals} {limit : Nat} {u : List Token} {s : State String}
    (hr : Reads byName limit (.initial locals) u s) :
    ∃ v program, ((Parser.ofTokens (u ++ v) locals).withMaxDepth limit).parse.1 = .ok program := by
  obtain ⟨v, s', hv, hb⟩ := Reads.exists_completion s
  have hread := hr.append hv
  let p := (Parser.ofTokens (u ++ v) locals).withMaxDepth limit
  have hpending : p.pending = u ++ v := takeWhile_not_isEof_self hread.isEof_eq_false
  have hp : Reads byName p.room (.initial p.locals) p.pending s' := by
    rw [hpending]
    exact hread
  exact ⟨v, _, congrArg Prod.fst (Parser.parse_of_reads hp hb).1⟩

/-- **An error is at the first token after which no program can come.**  It concerns that token; the
tokens before it can be completed to a program under the same limit, and so can every shorter piece;
everything that starts with the tokens up to it has the same error. -/
theorem parse_error_at_first_hopeless_token (tokens : List Token) (locals : Locals) (limit : Nat)
    (e : SyntaxError)
    (h : ((Parser.ofTokens tokens locals).withMaxDepth limit).parse.1 = .error e) :
    let ts := endMarked tokens
    let j := ((Parser.ofTokens tokens locals).withMaxDepth limit).stopIndex
    let answer := fun ts => ((Parser.ofTokens ts locals).withMaxDepth limit).parse.1
    (∃ t, ts[j]? = some t ∧ e.pos = t.pos ∧ e.fault.Concerns limit t) ∧
      (∃ v program, answer (ts.take j ++ v) = .ok program) ∧
      (∀ w, answer (ts.take (j + 1) ++ w) = .error e) ∧
      ∀ i < j, ∃ v program, answer (ts.take (i + 1) ++ v) = .ok program := by
  intro ts j answer
  obtain ⟨u, t, w, s, hts, hr, hstop⟩ := exists_stop tokens locals limit
  have hanswer : answer (u ++ t :: w) = .error e := by
    rw [← hts]
    show ((Parser.ofTokens (endMarked tokens) locals).withMaxDepth limit).parse.1 = _
    rw [ofTokens_endMarked, h]
  rcases hstop with ⟨ht, hb⟩ | ⟨r, ht, hb⟩
  · -- between two statements the input may end, so this is no error
    have hok : answer (u ++ t :: w) = .ok _ := (parse_ofTokens_of_reads hr hb ht w).1
    rw [hanswer] at hok
    cases hok
  · have hrefused : ∀ w, answer (u ++ t :: w) = .error ⟨t.pos, r.fault limit t⟩ :=
      fun w => (parse_ofTokens_of_refused hr ht hb w).1
    have he : e = ⟨t.pos, r.fault limit t⟩ := by
      rw [hrefused w] at hanswer
      exact (Except.error.inj hanswer).symm
    have hj : j = u.length := by
      have hstop := (parse_ofTokens_of_refused hr ht hb w).2.2
      rwa [← hts, ofTokens_endMarked] at hstop
    replace hts : ts = u ++ t :: w := hts
    have htake : ts.take j = u := by rw [hj, hts, List.take_left]
    have htake' : ts.take (j + 1) = u ++ [t] := by rw [hj, hts, List.take_length_add_append]; rfl
    refine ⟨⟨t, ?_, ?_, ?_⟩, ?_, ?_, ?_⟩
    · rw [hj, hts, List.getElem?_append_right (Nat.le_refl _), Nat.sub_self]
      rfl
    · rw [he]
    · rw [he]
      exact concerns_of_step ht
    · rw [htake]
      exact exists_parse_ok hr
    · intro w'
      rw [htake', List.append_assoc, he]
      exact hrefused w'
    · intro i hi
      -- a shorter piece is read too, since it starts what was read
      have hpiece : ts.take (i + 1) = u.take (i + 1) := by
        rw [← htake, List.take_take, Nat.min_eq_left hi]
      rw [← List.take_append_drop (i + 1) u] at hr
      obtain ⟨s₁, hr₁, -⟩ := hr.of_append
      rw [hpiece]
      exact exists_parse_ok hr₁

/-- The source `1 + ;`, where an operand is missing, whatever would come after the semicolon. -/
theorem parse_error_at_semicolon :
    let tokens : List Token :=
      [⟨.num 1, "1", 0⟩, ⟨.punct .plus, "+", 2⟩, ⟨.punct .semicolon, ";", 4⟩]
    let answer := fun ts => ((Parser.ofTokens ts {}).withMaxDepth 3).parse.1
    answer tokens = .error ⟨4, .missingOperand ";"⟩ ∧
      ∀ w, answer (tokens ++ w) = .error ⟨4, .missingOperand ";"⟩ := by
  intro tokens answer
  have h : answer tokens = .error ⟨4, .missingOperand ";"⟩ := rfl
  exact ⟨h, (parse_error_at_first_hopeless_token tokens {} 3 _ h).2.2.1⟩

end FrameLang

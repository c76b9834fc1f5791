import FrameLang.Proofs.Grammar.Soundness
import FrameLang.Proofs.Nesting
import FrameLang.Proofs.Tables

/-!
# How deep derivations are nested

The tokens of a derivation close every group that they open.  So they leave no level open but those
of the assignments that they end with, and whether a limit admits them can be told piece by piece.

* `Derives.closed`: the tokens of a derivation have all groups closed.
* `Derives.foldl_next`: but for assignments, they leave the count of levels as it was.
* `parse_ok_iff_overflow?`: a program of the grammar is accepted under a limit if no token goes over
  it.
-/

namespace FrameLang

variable {t : Token} {u v : List Token} {e : Node String} {k : Nonterminal} {o : Operator}

/-! ## Groups -/

theorem Token.not_group_of_operator? (h : t.cls.operator? = some o) :
    t.cls ≠ .punct .leftParen ∧ t.cls ≠ .punct .rightParen ∧ t.cls ≠ .punct .semicolon := by
  refine ⟨?_, ?_, ?_⟩ <;> · intro hcls; rw [hcls] at h; cases h

/-- **The tokens of a derivation have all groups closed, and end no statement.** -/
theorem Derives.closed (h : Derives k u e) : Closed u := by
  induction h with
  | value _ ih | first _ ih | plain _ ih => exact ih
  | assign _ ht _ ih ih' =>
    exact ih.append (.cons (by rw [ht]; nofun) (by rw [ht]; nofun) (by rw [ht]; nofun) ih')
  | @more _ _ _ t _ _ _ _ _ ht hj _ ih ih' =>
    obtain ⟨o, ho, -, -⟩ := Level.join?_eq_some_iff.1 hj
    have ho : t.cls.operator? = some o := by rw [ht]; exact ho
    obtain ⟨hl, hr, hs⟩ := Token.not_group_of_operator? ho
    exact ih.append (.cons hl hr hs ih')
  | plus ht _ ih | minus ht _ ih =>
    exact .cons (by rw [ht]; nofun) (by rw [ht]; nofun) (by rw [ht]; nofun) ih
  | literal ht | name ht =>
    exact .cons (by rw [ht]; nofun) (by rw [ht]; nofun) (by rw [ht]; nofun) .nil
  | group ht _ ht' ih => exact .group ht ht' ih .nil

/-! ## Levels -/

theorem Nesting.next_of_operator? (h : t.cls.operator? = some o) (n : Nesting) :
    n.next t = n := by
  obtain ⟨cls, text, pos⟩ := t
  cases cls with
  | punct p => cases p <;> first | rfl | cases h
  | ident => rfl
  | num value => rfl
  | eof => rfl

/-- **An expression that is no assignment closes all levels that it opens.** -/
theorem Derives.foldl_next (h : Derives k u e) (hk : k ≠ .assignment) (n : Nesting) :
    u.foldl Nesting.next n = n := by
  induction h with
  | value | assign => exact absurd rfl hk
  | @first l _ _ _ ih => exact ih (by cases l <;> decide)
  | @more l _ _ t _ _ _ _ _ ht hj _ ih ih' =>
    obtain ⟨o, ho, -, -⟩ := Level.join?_eq_some_iff.1 hj
    have ho : t.cls.operator? = some o := by rw [ht]; exact ho
    rw [List.foldl_append, List.foldl_cons, ih hk, Nesting.next_of_operator? ho,
      ih' (by cases l <;> decide)]
  | plain _ ih => exact ih (by decide)
  | @plus _ t _ ht _ ih =>
    have ho : t.cls.operator? = some ⟨.add, false⟩ := by rw [ht]; rfl
    rw [List.foldl_cons, Nesting.next_of_operator? ho, ih (by decide)]
  | @minus _ t _ ht _ ih =>
    have ho : t.cls.operator? = some ⟨.sub, false⟩ := by rw [ht]; rfl
    rw [List.foldl_cons, Nesting.next_of_operator? ho, ih (by decide)]
  | literal ht | name ht => simp [Nesting.next, ht]
  | group ht h ht' =>
    rw [List.foldl_cons, List.foldl_append]
    exact Nesting.foldl_group ht ht' h.closed.saved_foldl n

theorem Derives.overflow?_append_cons {limit : Nat} {n : Nesting}
    (h : Derives k u e) (hk : k ≠ .assignment) (ht : t.cls.operator? = some o) (v : List Token) :
    n.overflow? limit (u ++ t :: v) = none ↔
      n.overflow? limit u = none ∧ n.overflow? limit v = none := by
  rw [Nesting.overflow?_append, h.foldl_next hk, Nesting.overflow?,
    if_neg fun hover => not_opens_of_operator? ht hover.1, Nesting.next_of_operator? ht,
    Option.or_eq_none_iff]

/-! ## Accepting under a limit -/

/-- **A program of the grammar is accepted if no token goes over the limit.** -/
theorem parse_ok_iff_overflow? {tokens : List Token} {es : List (Node String)} {locals : Locals}
    {limit : Nat} (h : DerivesProgram (tokens.takeWhile fun t => !t.isEof) es) :
    (∃ program, ((Parser.ofTokens tokens locals).withMaxDepth limit).parse.1 = .ok program) ↔
      Nesting.overflow? limit {} (tokens.takeWhile fun t => !t.isEof) = none := by
  obtain ⟨u, t, w, hts, hu, ht, -⟩ := exists_endMarked_eq tokens
  have hpending : (tokens.takeWhile fun t => !t.isEof) = u := by
    rw [← pending_ofTokens_endMarked, hts, takeWhile_not_isEof_cons hu ht]
  rw [hpending] at h ⊢
  obtain ⟨s, hr, -, hstack, hphase⟩ := h.reads (.initial locals) rfl rfl (Nat.le_refl _)
  constructor
  · rintro ⟨program, hok⟩
    cases hover : Nesting.overflow? limit {} u with
    | none => rfl
    | some t' =>
      rw [parse_of_overflow? hts hr hover] at hok
      cases hok
  · intro hover
    have hparse := parse_ofTokens_of_reads (hr.of_overflow?_eq_none hover)
      (betweenStatements_iff.2 ⟨hstack, hphase⟩) ht w
    rw [← hts, ofTokens_endMarked] at hparse
    exact ⟨_, hparse.1⟩

end FrameLang

import FrameLang.Proofs.Descent.Declarations

/-!
# How many expressions are open at the same time

An expression is begun inside of another one only on a level of its own, and a level is opened only
if the limit allows one more.  So the calls that are open at the same time are one more than the
levels at most, however long and however deeply nested the tokens are.

* `Descent.assignmentOr beyond n`: an expression with at most `n` open at the same time.  Where one
  more would begin inside of them, `beyond` is run in its place, and `beyond` may be anything.
* `Agrees n x y`: two descents come to the same from every walk with fewer than `n` levels left.
  There is one rule for each piece, and only `Agrees.nested` changes `n`.
* `agrees_assignmentOr`: what stands in the place of the expressions beyond `n` does not matter.
* `Fails e x w`: the descent `x` from `w` halts with `e`.  Open groups bring an expression to the
  place where `beyond` is run, so it does matter if there are levels left for all of them.
* `parse_within_limit`: whole calls, from any walk.
-/

namespace FrameLang

namespace Descent

/-! ## Expressions beyond some number -/

/-- An expression in which `inner` reads every expression that stands on a level of its own. -/
def expression (inner : Descent (Node Nat)) : Descent (Node Nat) := do
  let target ← equality inner
  let t ← current
  if ← optional .assign then
    let value ← nested t inner
    return .assign target value
  else
    return target

/-- An expression with at most `n` open at the same time.  Where one more would begin inside of
them, `beyond` is run. -/
def assignmentOr (beyond : Descent (Node Nat)) : Nat → Descent (Node Nat)
  | 0 => beyond
  | n + 1 => expression (assignmentOr beyond n)

theorem assignment_eq (budget : Nat) :
    assignment budget = assignmentOr (throw (.breakdown .exhausted)) budget := by
  induction budget with
  | zero => rfl
  | succ budget ih => rw [assignmentOr, ← ih, assignment, expression]

theorem assignmentOr_add (beyond : Descent (Node Nat)) (n k : Nat) :
    assignmentOr beyond (n + k) = assignmentOr (assignmentOr beyond k) n := by
  induction n with
  | zero => rw [Nat.zero_add, assignmentOr]
  | succ n ih => rw [Nat.succ_add, assignmentOr, ih, assignmentOr]

/-! ## Levels and punctuators -/

section

variable {w : Walk} {t : Token} {p : Punct}

theorem run_current_of_next? (ht : w.next? = some t) : current.run w = (.ok t, w) := by
  rw [run_current, ht]

theorem run_nest (t : Token) (w : Walk) :
    (nest t).run w =
      if w.limit ≤ w.depth then (.error (.fault ⟨t.pos, .tooDeep w.limit⟩), w)
      else (.ok (), { w with depth := w.depth + 1 }) := by
  rw [nest, run_bind]
  show (if w.limit ≤ w.depth then _ else _ : Descent Unit).run w = _
  split
  · rfl
  · rfl

theorem run_leave {depth : Nat} (h : w.depth = depth + 1) :
    leave.run w = (.ok (), { w with depth := depth }) := by
  rw [leave, run_bind]
  show (match w.depth with | 0 => _ | depth + 1 => _ : Descent Unit).run w = _
  rw [h]
  rfl

theorem run_optional_of_ne (ht : w.next? = some t) (hp : t.cls ≠ .punct p) :
    (optional p).run w = (.ok false, w) := by
  rw [optional, run_bind, run_current_of_next? ht]
  show (if t.cls = .punct p then _ else _ : Descent Bool).run w = _
  rw [if_neg hp]
  rfl

theorem run_expect (ht : w.next? = some t) (hp : t.cls = .punct p) :
    (expect p).run w = (.ok (), w.advance) := by
  rw [expect, run_bind, run_current_of_next? ht]
  show (if t.cls = .punct p then _ else _ : Descent Unit).run w = _
  rw [if_pos hp, run_bind, run_consume ht (isEof_of_punct hp)]
  rfl

end

/-! ## Programs over any expression -/

def statementOf (e : Descent (Node Nat)) : Descent (Node Nat) := do
  let tree ← e
  expect .semicolon
  return .stmt tree

def statementsOf (e : Descent (Node Nat)) : Nat → List (Node Nat) → Descent (List (Node Nat))
  | 0, _ => throw (.breakdown .exhausted)
  | fuel + 1, done => do
    if (← current).isEof then
      return done.reverse
    else
      let tree ← statementOf e
      statementsOf e fuel (tree :: done)

def programOf (e : Descent (Node Nat)) : Descent Program := do
  let stmts ← statementsOf e (← get).tokens.length []
  return ⟨stmts, (← get).locals.frameSize⟩

theorem statements_eq (budget fuel : Nat) (done : List (Node Nat)) :
    statements budget fuel done = statementsOf (assignment budget) fuel done := by
  induction fuel generalizing done with
  | zero => rfl
  | succ fuel ih => simp only [statements, statementsOf, statement, statementOf, ih]

theorem program_eq (budget : Nat) : program budget = programOf (assignment budget) := by
  simp only [program, programOf, statements_eq]

end Descent

/-! ## Descents that agree -/

/-- From every walk with fewer than `n` levels left, the two descents come to the same, and an
answer leaves as many levels as there were. -/
structure Agrees {α : Type} (n : Nat) (x y : Descent α) : Prop where
  run_eq : ∀ w : Walk, w.room < n → x.run w = y.run w
  levels : ∀ (w : Walk) (a : α) (w' : Walk), w.room < n → x.run w = (.ok a, w') →
    w'.depth = w.depth ∧ w'.limit = w.limit

namespace Agrees

variable {α β : Type} {n : Nat}

theorem refl {x : Descent α}
    (h : ∀ w, (x.run w).2.depth = w.depth ∧ (x.run w).2.limit = w.limit) : Agrees n x x := by
  refine ⟨fun _ _ => rfl, fun w a w' _ hx => ?_⟩
  have hw := h w
  rwa [hx] at hw

theorem pure (a : α) : Agrees n (Pure.pure a : Descent α) (Pure.pure a) := refl fun _ => ⟨rfl, rfl⟩

theorem throw (e : Halt) :
    Agrees n (MonadExcept.throw e : Descent α) (MonadExcept.throw e) := refl fun _ => ⟨rfl, rfl⟩

theorem get : Agrees n (MonadState.get : Descent Walk) MonadState.get := refl fun _ => ⟨rfl, rfl⟩

theorem bind {x y : Descent α} {f g : α → Descent β} (h : Agrees n x y)
    (hf : ∀ a, Agrees n (f a) (g a)) : Agrees n (x >>= f) (y >>= g) := by
  have hroom : ∀ {w a w'}, w.room < n → x.run w = (.ok a, w') → w'.room < n := by
    intro w a w' hw hx
    obtain ⟨hdepth, hlimit⟩ := h.levels w a w' hw hx
    rwa [Walk.room, hdepth, hlimit]
  constructor
  · intro w hw
    rw [Descent.run_bind, Descent.run_bind, ← h.run_eq w hw]
    rcases hx : x.run w with ⟨e | a, w'⟩
    · rfl
    · exact (hf a).run_eq w' (hroom hw hx)
  · intro w b w'' hw hb
    rw [Descent.run_bind] at hb
    rcases hx : x.run w with ⟨e | a, w'⟩
    · rw [hx] at hb
      cases hb
    · rw [hx] at hb
      obtain ⟨hdepth, hlimit⟩ := h.levels w a w' hw hx
      obtain ⟨hdepth', hlimit'⟩ := (hf a).levels w' b w'' (hroom hw hx) hb
      exact ⟨hdepth'.trans hdepth, hlimit'.trans hlimit⟩

/-! ## Pieces that leave the levels alone -/

theorem current : Agrees n Descent.current Descent.current := by
  refine bind get fun w => ?_
  split
  · exact pure _
  · exact throw _

theorem consume : Agrees n Descent.consume Descent.consume := by
  refine bind current fun t => bind (refl fun w => ?_) fun _ => pure t
  show (if t.isEof then w else w.advance).depth = _ ∧ (if t.isEof then w else w.advance).limit = _
  split
  · exact ⟨rfl, rfl⟩
  · exact ⟨rfl, rfl⟩

theorem optional (p : Punct) : Agrees n (Descent.optional p) (Descent.optional p) := by
  refine bind current fun t => ?_
  split
  · exact bind consume fun _ => pure _
  · exact pure _

theorem expect (p : Punct) : Agrees n (Descent.expect p) (Descent.expect p) := by
  refine bind current fun t => ?_
  split
  · exact bind consume fun _ => pure _
  · exact throw _

theorem declare (name : String) : Agrees n (Descent.declare name) (Descent.declare name) :=
  refl fun _ => ⟨rfl, rfl⟩

theorem join (t : Token) (first second : Node Nat) :
    Agrees n (Descent.join t first second) (Descent.join t first second) := by
  rw [Descent.join]
  split
  · exact pure _
  · exact throw _

/-! ## Nonterminals -/

section

variable {inner inner' : Descent (Node Nat)} (h : Agrees n inner inner')

include h

/-- **Inside of a level, one level less is left.**  Where none is left, nothing is read there. -/
theorem nested (t : Token) :
    Agrees (n + 1) (Descent.nested t inner) (Descent.nested t inner') := by
  have hinside : ∀ w : Walk, w.room < n + 1 → ¬ w.limit ≤ w.depth →
      ({ w with depth := w.depth + 1 } : Walk).room < n := by
    intro w hw hfree
    rw [Walk.room] at hw ⊢
    dsimp only
    omega
  constructor
  · intro w hw
    rw [Descent.nested, Descent.nested, Descent.run_bind, Descent.run_bind, Descent.run_nest]
    by_cases hfull : w.limit ≤ w.depth
    · rw [if_pos hfull]
    · rw [if_neg hfull]
      dsimp only
      rw [Descent.run_bind, Descent.run_bind, h.run_eq _ (hinside w hw hfull)]
  · intro w e w₂ hw he
    rw [Descent.nested, Descent.run_bind, Descent.run_nest] at he
    by_cases hfull : w.limit ≤ w.depth
    · rw [if_pos hfull] at he
      cases he
    · rw [if_neg hfull] at he
      dsimp only at he
      rw [Descent.run_bind] at he
      rcases hx : inner.run { w with depth := w.depth + 1 } with ⟨e₁ | e₁, w₁⟩
      · rw [hx] at he
        cases he
      · -- what is read inside leaves the level open, and then it is closed
        obtain ⟨hdepth, hlimit⟩ := h.levels _ e₁ w₁ (hinside w hw hfull) hx
        rw [hx] at he
        dsimp only at he
        rw [Descent.run_bind, Descent.run_leave hdepth] at he
        obtain ⟨-, rfl⟩ := Prod.mk.inj he
        exact ⟨rfl, hlimit⟩

theorem group : Agrees (n + 1) (Descent.group inner) (Descent.group inner') :=
  bind current fun t => bind (expect _) fun _ => bind (nested h t) fun _ => bind (expect _) fun _ =>
    pure _

theorem primary : Agrees (n + 1) (Descent.primary inner) (Descent.primary inner') := by
  refine bind current fun t => ?_
  split
  case h_1 => exact bind consume fun _ => pure _
  case h_2 => exact bind consume fun _ => declare _
  case h_3 => exact group h
  case h_4 => exact throw _

theorem unary : Agrees (n + 1) (Descent.unary inner) (Descent.unary inner') := by
  refine bind (optional _) fun plus => ?_
  cases plus with
  | true => exact primary h
  | false =>
    refine bind (optional _) fun minus => ?_
    cases minus with
    | true => exact bind (primary h) fun _ => pure _
    | false => exact primary h

end

section

variable {operand operand' : Descent (Node Nat)} (h : Agrees n operand operand')

include h

theorem chainFrom (l : Level) (fuel : Nat) (first : Node Nat) :
    Agrees n (Descent.chainFrom l operand fuel first)
      (Descent.chainFrom l operand' fuel first) := by
  induction fuel generalizing first with
  | zero => exact throw _
  | succ fuel ih =>
    refine bind current fun t => ?_
    split
    case isTrue =>
      exact bind consume fun t' => bind h fun second => bind (join t' first second) fun first' =>
        ih first'
    case isFalse => exact pure _

theorem chain (l : Level) : Agrees n (Descent.chain l operand) (Descent.chain l operand') :=
  bind h fun first => bind get fun w => chainFrom h l w.tokens.length first

end

section

variable {inner inner' : Descent (Node Nat)} (h : Agrees n inner inner')

include h

theorem expression : Agrees (n + 1) (Descent.expression inner) (Descent.expression inner') := by
  have hequality : Agrees (n + 1) (Descent.equality inner) (Descent.equality inner') :=
    chain (chain (chain (chain (unary h) .term) .additive) .relational) .equality
  refine bind hequality fun target => bind current fun t => bind (optional _) fun found => ?_
  cases found with
  | true => exact bind (nested h t) fun _ => pure _
  | false => exact pure _

theorem statementOf : Agrees n (Descent.statementOf inner) (Descent.statementOf inner') :=
  bind h fun _ => bind (expect _) fun _ => pure _

theorem statementsOf (fuel : Nat) (done : List (Node Nat)) :
    Agrees n (Descent.statementsOf inner fuel done) (Descent.statementsOf inner' fuel done) := by
  induction fuel generalizing done with
  | zero => exact throw _
  | succ fuel ih =>
    refine bind current fun t => ?_
    split
    · exact pure _
    · exact bind (statementOf h) fun tree => ih (tree :: done)

theorem programOf : Agrees n (Descent.programOf inner) (Descent.programOf inner') :=
  bind get fun _ => bind (statementsOf h _ []) fun _ => bind get fun _ => pure _

end

end Agrees

/-- **What stands in the place of the expressions beyond `n` does not matter** where fewer than `n`
levels are left. -/
theorem agrees_assignmentOr (beyond beyond' : Descent (Node Nat)) (n : Nat) :
    Agrees n (Descent.assignmentOr beyond n) (Descent.assignmentOr beyond' n) := by
  induction n with
  | zero =>
    have hnone : ∀ w : Walk, ¬ w.room < 0 := fun w => Nat.not_lt_zero _
    exact ⟨fun w hw => absurd hw (hnone w), fun w _ _ hw => absurd hw (hnone w)⟩
  | succ n ih => exact ih.expression

/-! ## A budget that is too small -/

def Fails {α : Type} (e : Halt) (x : Descent α) (w : Walk) : Prop := (x.run w).1 = .error e

namespace Fails

variable {α β : Type} {e : Halt} {w w' : Walk} {t : Token} {n : Nat}

theorem bind {x : Descent α} {f : α → Descent β} (h : Fails e x w) : Fails e (x >>= f) w := by
  rw [Fails] at h ⊢
  rw [Descent.run_bind]
  rcases hx : x.run w with ⟨e' | a, w'⟩
  · rw [hx] at h
    cases h
    rfl
  · rw [hx] at h
    cases h

theorem bind_of_ok {x : Descent α} {f : α → Descent β} {a : α} (hx : x.run w = (.ok a, w'))
    (h : Fails e (f a) w') : Fails e (x >>= f) w := by
  rw [Fails, Descent.run_bind, hx]
  exact h

theorem expression {inner : Descent (Node Nat)} (ht : w.next? = some t)
    (hp : t.cls = .punct .leftParen) (hroom : w.depth < w.limit)
    (h : Fails e inner { w.advance with depth := w.depth + 1 }) :
    Fails e (Descent.expression inner) w := by
  have hcurrent := Descent.run_current_of_next? ht
  have hnest : (Descent.nest t).run w.advance =
      (.ok (), { w.advance with depth := w.depth + 1 }) := by
    rw [Descent.run_nest]
    exact if_neg (Nat.not_le.2 hroom)
  have hgroup : Fails e (Descent.group inner) w :=
    bind_of_ok hcurrent (bind_of_ok (Descent.run_expect ht hp) (bind (bind_of_ok hnest (bind h))))
  have hprimary : Fails e (Descent.primary inner) w := by
    refine bind_of_ok hcurrent ?_
    rw [hp]
    exact hgroup
  have hunary : Fails e (Descent.unary inner) w :=
    bind_of_ok (Descent.run_optional_of_ne ht (by rw [hp]; nofun))
      (bind_of_ok (Descent.run_optional_of_ne ht (by rw [hp]; nofun)) hprimary)
  exact bind (bind (bind (bind (bind hunary))))

theorem assignmentOr (hroom : n ≤ w.room)
    (hgroups : ∀ i < n, ∃ t, w.tokens[w.index + i]? = some t ∧ t.cls = .punct .leftParen) :
    Fails e (Descent.assignmentOr (throw e) n) w := by
  induction n generalizing w with
  | zero => rfl
  | succ n ih =>
    obtain ⟨t, ht, hp⟩ := hgroups 0 (Nat.succ_pos n)
    rw [Walk.room] at hroom
    refine expression ht hp (by omega) (ih ?_ fun i hi => ?_)
    · show n ≤ w.limit - (w.depth + 1)
      omega
    · obtain ⟨t', ht', hp'⟩ := hgroups (i + 1) (Nat.succ_lt_succ hi)
      exact ⟨t', by rw [← ht', Nat.add_comm i 1, ← Nat.add_assoc]; rfl, hp'⟩

theorem programOf {x : Descent (Node Nat)} (ht : w.next? = some t) (heof : t.isEof = false)
    (h : Fails e x w) : Fails e (Descent.programOf x) w := by
  have hcurrent := Descent.run_current_of_next? ht
  refine bind_of_ok (a := w) rfl (bind ?_)
  cases hlength : w.tokens.length with
  | zero =>
    rw [Walk.next?, List.eq_nil_of_length_eq_zero hlength] at ht
    cases ht
  | succ fuel =>
    refine bind_of_ok hcurrent ?_
    rw [heof]
    exact bind (bind h)

end Fails

/-! ## Calls -/

/-- **More levels than the limit allows are never on the stack of the machine.** -/
theorem levels_run_le (p : Parser) (ts : List Token) :
    levels (run Locals.slot p.room (.initial p.locals) ts).state.stack ≤ p.room := by
  obtain ⟨u, s, hu, hrun⟩ := exists_reads_of_run Locals.slot p.room (.initial p.locals) ts
  have hstate : (run Locals.slot p.room (.initial p.locals) ts).state = s := by
    rcases hrun with ⟨-, hrun⟩ | ⟨_, _, _, -, -, hrun⟩
    · rw [hrun]
    · rw [hrun]
  rw [hstate]
  exact hu.levels_le_room (Nat.zero_le _)

theorem exists_endMarked_concat (tokens : List Token) :
    ∃ front t, endMarked tokens = front ++ [t] ∧ t.isEof = true := by
  cases hlast : tokens.getLast? with
  | none =>
    obtain rfl := List.getLast?_eq_none_iff.1 hlast
    exact ⟨[], .eofAt 0, rfl, rfl⟩
  | some t =>
    obtain ⟨front, rfl⟩ := List.getLast?_eq_some_iff.1 hlast
    cases ht : t.isEof with
    | true => exact ⟨front, t, endMarked_concat ht front, ht⟩
    | false =>
      refine ⟨front ++ [t], .eofAt t.stop, ?_, rfl⟩
      have hne : ¬ t.isEof = true := by
        rw [ht]
        exact Bool.false_ne_true
      rw [endMarked, List.getLast?_concat]
      exact if_neg hne

theorem ready_of_endMarked {tokens : List Token} {index : Nat}
    (hindex : index < (endMarked tokens).length) (locals : Locals) (depth limit : Nat) :
    Walk.Ready ⟨endMarked tokens, index, locals, depth, limit⟩ := by
  obtain ⟨front, t, heq, ht⟩ := exists_endMarked_concat tokens
  rw [heq, List.length_append, List.length_singleton] at hindex
  refine ⟨t, ?_, ht⟩
  rw [Walk.ahead, heq, List.drop_append_of_le_length (Nat.le_of_lt_succ hindex)]
  exact List.mem_append_right _ List.mem_cons_self

theorem getElem?_endMarked {tokens : List Token} {i : Nat} (h : i < tokens.length) :
    (endMarked tokens)[i]? = tokens[i]? := by
  rcases endMarked_eq_or tokens with heq | ⟨pos, heq⟩
  · rw [heq]
  · rw [heq, List.getElem?_append_left h]

/-- **A budget for `limit` expressions is too small** behind as many open groups. -/
theorem fails_openGroups {t : Token} (hp : t.cls = .punct .leftParen) (limit : Nat)
    (locals : Locals) (e : Halt) :
    Fails e (Descent.programOf (Descent.assignmentOr (throw e) limit))
      ((Walk.ofTokens (List.replicate (limit + 1) t) locals).withMaxDepth limit) := by
  have hnext : ∀ i ≤ limit, (endMarked (List.replicate (limit + 1) t))[i]? = some t := by
    intro i hi
    have hlt : i < limit + 1 := Nat.lt_succ_of_le hi
    rw [getElem?_endMarked (by rwa [List.length_replicate]), List.getElem?_replicate, if_pos hlt]
  refine .programOf (hnext 0 (Nat.zero_le _)) (Descent.isEof_of_punct hp) ?_
  refine .assignmentOr (Nat.le_refl _) fun i hi => ⟨t, ?_, hp⟩
  rw [← hnext i (Nat.le_of_lt hi)]
  exact congrArg _ (Nat.zero_add i)

theorem Walk.parse_eq_programOf (w : Walk) (beyond : Descent (Node Nat)) :
    (Descent.programOf (Descent.assignmentOr beyond (w.limit + 1))).run w = w.parse := by
  have hroom : w.room < w.limit + 1 := Nat.lt_succ_of_le (Nat.sub_le _ _)
  rw [parse, parseWithin, Descent.program_eq, Descent.assignment_eq]
  exact (agrees_assignmentOr beyond _ _).programOf.run_eq w hroom

/-- **The limit bounds the expressions that are open at the same time** by one more than itself.
Whatever would be done in the place of further ones is never done, from any walk, so a budget for
`limit + 1` of them is as good as any larger one.  In particular it does not run out for a parser,
which is a walk with an end of the input to come, and the answer is that of the machine, which has
at most `limit` levels on its stack at every moment.  A budget for `limit` of them would not do: on
some tokens one more is begun. -/
theorem parse_within_limit :
    (∀ (w : Walk) (beyond : Descent (Node Nat)) (extra : Nat),
      (Descent.programOf (Descent.assignmentOr beyond (w.limit + 1))).run w = w.parse ∧
        w.parseWithin (w.limit + 1 + extra) = w.parseWithin (w.limit + 1)) ∧
    (∀ (tokens : List Token) (index : Fin (endMarked tokens).length) (locals : Locals)
        (depth limit : Nat),
      let w : Walk := ⟨endMarked tokens, index, locals, depth, limit⟩
      (w.parseWithin (limit + 1)).1 = w.parser.parse.1.mapError .fault ∧
        (w.parseWithin (limit + 1)).1 ≠ .error (.breakdown .exhausted)) ∧
    (∀ (p : Parser) (k : Nat),
      levels (run Locals.slot p.room (.initial p.locals) (p.pending.take k)).state.stack ≤
        p.limit) ∧
    ∀ (limit : Nat) (locals : Locals) (e : Halt), ∃ tokens : List Token,
      ((Descent.programOf (Descent.assignmentOr (throw e) limit)).run
        ((Walk.ofTokens tokens locals).withMaxDepth limit)).1 = .error e := by
  refine ⟨fun w beyond extra => ⟨w.parse_eq_programOf beyond, ?_⟩,
    fun tokens index locals depth limit => ?_, fun p k => ?_, fun limit locals e => ?_⟩
  · rw [Walk.parseWithin, Descent.program_eq, Descent.assignment_eq, Descent.assignmentOr_add]
    exact w.parse_eq_programOf _
  · intro w
    have hw : w.Ready := ready_of_endMarked index.isLt locals depth limit
    refine ⟨?_, hw.parse_ne_breakdown .exhausted⟩
    rw [show w.parseWithin (limit + 1) = w.parse from rfl, hw.parse_eq]
  · exact Nat.le_trans (levels_run_le p _) (Nat.sub_le _ _)
  · exact ⟨_, fails_openGroups (t := ⟨.punct .leftParen, "(", 0⟩) rfl limit locals e⟩

end FrameLang

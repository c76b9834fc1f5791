import FrameLang.Proofs.Calls

/-!
# The limit on nesting

How deep a statement is nested can be counted along its tokens, without a parser: a group and an
assignment each open a level, the end of a group closes what was opened since it began, and the end
of a statement closes everything.

* `Nesting.next`, `Nesting.overflow?`: the count, and the first token that goes over a limit.
* `Takes.nesting_eq`: on tokens that fit, the count is the nesting of the state.
* `Reads.of_overflow?_eq_none`, `Reads.exists_tooDeep`: what is read with much room is also read
  with less, up to the first token that goes over the limit.
* `parse_limit_transparent`: for a new parser the limit changes nothing else.
-/

namespace FrameLang

/-! ## Counting along the tokens -/

/-- How many levels are open, and how many there were before each open group, innermost first. -/
structure Nesting where
  level : Nat := 0
  saved : List Nat := []
  deriving DecidableEq, Repr

namespace Nesting

def next (n : Nesting) (t : Token) : Nesting :=
  match t.cls with
  | .punct .semicolon => ⟨0, []⟩
  | .punct .leftParen => ⟨n.level + 1, n.level :: n.saved⟩
  | .punct .assign => ⟨n.level + 1, n.saved⟩
  | .punct .rightParen =>
    match n.saved with
    | [] => n
    | level :: saved => ⟨level, saved⟩
  | _ => n

/-- The first token that would open a level where `limit` of them are open. -/
def overflow? (limit : Nat) (n : Nesting) : List Token → Option Token
  | [] => none
  | t :: ts => if t.opens ∧ limit ≤ n.level then some t else (n.next t).overflow? limit ts

variable {n : Nesting} {t a b : Token} {u ts : List Token} {limit limit' : Nat}

theorem overflow?_eq_none_of_le (h : limit ≤ limit') (hn : n.overflow? limit ts = none) :
    n.overflow? limit' ts = none := by
  induction ts generalizing n with
  | nil => rfl
  | cons t ts ih =>
    rw [overflow?] at hn ⊢
    split at hn
    case isTrue => cases hn
    case isFalse hlt =>
      rw [if_neg fun ho => hlt ⟨ho.1, Nat.le_trans h ho.2⟩]
      exact ih hn

theorem overflow?_append (limit : Nat) (n : Nesting) (u v : List Token) :
    n.overflow? limit (u ++ v) = (n.overflow? limit u).or ((u.foldl next n).overflow? limit v) := by
  induction u generalizing n with
  | nil => rfl
  | cons t u ih =>
    rw [List.cons_append, overflow?, overflow?, ih]
    split
    · rfl
    · rfl

theorem saved_next (hl : t.cls ≠ .punct .leftParen) (hr : t.cls ≠ .punct .rightParen)
    (hs : t.cls ≠ .punct .semicolon) : (n.next t).saved = n.saved := by
  unfold next
  split
  case h_1 h => exact absurd h hs
  case h_2 h => exact absurd h hl
  case h_3 => rfl
  case h_4 h => exact absurd h hr
  case h_5 => rfl

theorem foldl_group (ha : a.cls = .punct .leftParen) (hb : b.cls = .punct .rightParen)
    (hu : ∀ n : Nesting, (u.foldl next n).saved = n.saved) (n : Nesting) :
    (u.foldl next (n.next a)).next b = n := by
  have hopen : n.next a = ⟨n.level + 1, n.level :: n.saved⟩ := by simp only [next, ha]
  have hsaved : (u.foldl next (n.next a)).saved = n.level :: n.saved := by rw [hu, hopen]
  generalize u.foldl next (n.next a) = m at hsaved
  simp only [next, hb, hsaved]

end Nesting

/-- Tokens with every group that they open also closed, and no end of a statement. -/
inductive Closed : List Token → Prop
  | nil : Closed []
  | cons {t : Token} {u : List Token} (hl : t.cls ≠ .punct .leftParen)
      (hr : t.cls ≠ .punct .rightParen) (hs : t.cls ≠ .punct .semicolon) (hu : Closed u) :
      Closed (t :: u)
  | group {a b : Token} {u v : List Token} (ha : a.cls = .punct .leftParen)
      (hb : b.cls = .punct .rightParen) (hu : Closed u) (hv : Closed v) :
      Closed (a :: u ++ b :: v)

theorem Closed.append {u v : List Token} (h : Closed u) (h' : Closed v) : Closed (u ++ v) := by
  induction h with
  | nil => exact h'
  | cons hl hr hs _ ih => exact .cons hl hr hs ih
  | group ha hb hu _ _ ih =>
    rw [List.append_assoc, List.cons_append]
    exact .group ha hb hu ih

theorem Closed.saved_foldl {u : List Token} (h : Closed u) (n : Nesting) :
    (u.foldl Nesting.next n).saved = n.saved := by
  induction h generalizing n with
  | nil => rfl
  | cons hl hr hs _ ih => rw [List.foldl_cons, ih, Nesting.saved_next hl hr hs]
  | group ha hb _ _ ihu ihv =>
    rw [List.foldl_append, List.foldl_cons, List.foldl_cons, Nesting.foldl_group ha hb ihu, ihv]

/-! ## Counting is the nesting of the state -/

section

variable {ν : Type} {resolve : Locals → String → ν} {room : Nat} {s s' : State ν} {t : Token}
  {u : List Token}

/-- The levels that there are below each open group. -/
def levelsBelow : List (Unfinished ν) → List Nat
  | [] => []
  | .group _ :: stack => levels stack :: levelsBelow stack
  | .binary _ _ :: stack => levelsBelow stack
  | .assign _ :: stack => levelsBelow stack

def State.nesting (s : State ν) : Nesting := ⟨levels s.stack, levelsBelow s.stack⟩

theorem levelsBelow_reduce (k : Nat) (stack : List (Unfinished ν)) (e : Node ν) :
    levelsBelow (reduce k stack e).1 = levelsBelow stack := by
  fun_induction reduce k stack e with
  | case1 e o first stack h ih => rw [ih, levelsBelow]
  | case2 => rfl
  | case3 => rfl

theorem levelsBelow_eq_of_reduce {k : Nat} {stack stack' : List (Unfinished ν)} {e e' : Node ν}
    (h : reduce k stack e = (stack', e')) : levelsBelow stack' = levelsBelow stack := by
  rw [← levelsBelow_reduce k stack e, h]

theorem levelsBelow_collapse (stack : List (Unfinished ν)) (e : Node ν) :
    levelsBelow (collapse stack e).1 = levelsBelow stack := by
  fun_induction collapse stack e with
  | case1 e o first stack ih => rw [ih, levelsBelow]
  | case2 e target stack ih => rw [ih, levelsBelow]
  | case3 => rfl

theorem levels_collapse_le (stack : List (Unfinished ν)) (e : Node ν) :
    levels (collapse stack e).1 ≤ levels stack := by
  fun_induction collapse stack e with
  | case1 e o first stack ih => rwa [levels_binary]
  | case2 e target stack ih =>
    rw [levels_assign]
    omega
  | case3 => exact Nat.le_refl _

theorem levels_of_collapse {stack rest : List (Unfinished ν)} {e inner : Node ν}
    {sign : Option Sign} (h : collapse stack e = (.group sign :: rest, inner)) :
    levelsBelow stack = levels rest :: levelsBelow rest ∧ levels rest < levels stack := by
  have hbelow := levelsBelow_collapse stack e
  have hle := levels_collapse_le stack e
  rw [h] at hbelow hle
  rw [levels_group] at hle
  exact ⟨hbelow.symm, hle⟩

theorem levels_aroundGroup?_le (stack : List (Unfinished ν)) :
    levels ((aroundGroup? stack).getD []) ≤ levels stack := by
  fun_induction aroundGroup? stack with
  | case1 => exact Nat.le_refl _
  | case2 sign stack =>
    rw [levels_group]
    exact Nat.le_succ _
  | case3 stack o first ih => rwa [levels_binary]
  | case4 stack target ih =>
    rw [levels_assign]
    exact Nat.le_succ_of_le ih

theorem State.abandoned_le (s : State ν) (r : Refusal) : s.abandoned r ≤ levels s.stack := by
  cases r with
  | mismatch expected => exact levels_aroundGroup?_le _
  | missingOperand => exact Nat.le_refl _
  | tooDeep => exact Nat.le_refl _

/-- **A token that fits changes the nesting as it changes the count.** -/
theorem Takes.nesting_eq (h : Takes resolve s t s') : s'.nesting = s.nesting.next t := by
  cases h with
  | plus hs ht | minus hs ht | literal hs ht | name hs ht =>
    simp only [Nesting.next, ht, State.nesting]
  | openGroup hs ht =>
    simp only [Nesting.next, ht, State.nesting, levels_group, levelsBelow]
  | assign hs ht hr =>
    simp only [Nesting.next, ht, State.nesting, levels_assign, levelsBelow,
      levels_eq_of_reduce hr, levelsBelow_eq_of_reduce hr]
  | operator hs ht hr =>
    simp only [State.nesting, levels_binary, levelsBelow, levels_eq_of_reduce hr,
      levelsBelow_eq_of_reduce hr]
    unfold Nesting.next
    split
    case h_1 hc => rw [hc] at ht; cases ht
    case h_2 hc => rw [hc] at ht; cases ht
    case h_3 hc => rw [hc] at ht; cases ht
    case h_4 hc => rw [hc] at ht; cases ht
    case h_5 => rfl
  | closeGroup hs ht hc => simp only [Nesting.next, ht, State.nesting, (levels_of_collapse hc).1]
  | finish hs ht hc =>
    simp only [Nesting.next, ht, State.nesting, State.finish, levels_nil, levelsBelow]

theorem Takes.levels_le (h : Takes resolve s t s') : levels s'.stack ≤ levels s.stack + 1 := by
  cases h with
  | plus | minus | literal | name => exact Nat.le_succ _
  | openGroup => exact Nat.le_of_eq (levels_group ..)
  | assign hs ht hr =>
    have heq := levels_eq_of_reduce hr
    rw [levels_assign]
    omega
  | operator hs ht hr =>
    have heq := levels_eq_of_reduce hr
    rw [levels_binary]
    omega
  | closeGroup hs ht hc => exact Nat.le_of_lt (Nat.lt_succ_of_lt (levels_of_collapse hc).2)
  | finish => exact Nat.zero_le _

theorem Reads.levels_le (h : Reads resolve room s u s') :
    levels s'.stack ≤ levels s.stack + u.length := by
  induction h with
  | nil => exact Nat.le_refl _
  | cons ht _ _ ih =>
    have hle := ht.levels_le
    rw [List.length_cons]
    omega

theorem Takes.levels_le_room (h : Takes resolve s t s') (hroom : t.opens → levels s.stack < room)
    (hs : levels s.stack ≤ room) : levels s'.stack ≤ room := by
  cases h with
  | plus | minus | literal | name => exact hs
  | openGroup _ ht =>
    rw [levels_group]
    exact hroom (.inl ht)
  | assign _ ht hr =>
    rw [levels_assign, levels_eq_of_reduce hr]
    exact hroom (.inr ht)
  | operator _ _ hr => rwa [levels_binary, levels_eq_of_reduce hr]
  | closeGroup _ _ hc => exact Nat.le_trans (Nat.le_of_lt (levels_of_collapse hc).2) hs
  | finish => exact Nat.zero_le _

theorem Reads.levels_le_room (h : Reads resolve room s u s') (hs : levels s.stack ≤ room) :
    levels s'.stack ≤ room := by
  induction h with
  | nil => exact hs
  | cons ht hroom _ ih => exact ih (ht.levels_le_room hroom hs)

/-! ## Reading with less room -/

variable {limit : Nat}

theorem Reads.of_overflow?_eq_none (h : Reads resolve room s u s')
    (hn : s.nesting.overflow? limit u = none) : Reads resolve limit s u s' := by
  induction h with
  | nil s => exact .nil s
  | @cons s s₁ s' t ts ht _ _ ih =>
    rw [Nesting.overflow?] at hn
    split at hn
    case isTrue => cases hn
    case isFalse hlt =>
      rw [← ht.nesting_eq] at hn
      exact .cons ht (fun ho => Nat.not_le.1 fun hle => hlt ⟨ho, hle⟩) (ih hn)

/-- The first token that goes over the limit is refused, and those before it are read. -/
theorem Reads.exists_tooDeep (h : Reads resolve room s u s')
    (hn : s.nesting.overflow? limit u = some t) :
    ∃ v w s₁, u = v ++ t :: w ∧ Reads resolve limit s v s₁ ∧
      s₁.step resolve limit t = .error .tooDeep := by
  induction h with
  | nil => cases hn
  | @cons s s₁ s' t₁ ts ht _ _ ih =>
    rw [Nesting.overflow?] at hn
    split at hn
    case isTrue hover =>
      obtain rfl : t₁ = t := Option.some.inj hn
      exact ⟨[], ts, s, rfl, .nil s, State.step_eq_error_iff.2
        (.inl ⟨⟨s₁, ht⟩, hover.1, hover.2, rfl⟩)⟩
    case isFalse hlt =>
      rw [← ht.nesting_eq] at hn
      obtain ⟨v, w, s₂, rfl, hv, hstep⟩ := ih hn
      exact ⟨t₁ :: v, w, s₂, rfl,
        .cons ht (fun ho => Nat.not_le.1 fun hle => hlt ⟨ho, hle⟩) hv, hstep⟩

end

/-! ## New parsers -/

variable {tokens u w : List Token} {t : Token} {locals : Locals} {limit large : Nat}

theorem length_lt_of_endMarked (h : endMarked tokens = u ++ t :: w) (ht : t.isEof = false) :
    u.length < tokens.length := by
  rcases endMarked_eq_or tokens with h' | ⟨pos, h'⟩
  · have hlength := congrArg List.length (h'.symm.trans h)
    rw [List.length_append, List.length_cons] at hlength
    omega
  · rw [h'] at h
    cases w with
    | nil =>
      obtain rfl : Token.eofAt pos = t := by simpa using congrArg List.getLast? h
      cases ht
    | cons =>
      have hlength := congrArg List.length h
      simp only [List.length_append, List.length_cons, List.length_nil] at hlength
      omega

theorem State.fault_refusal {ν : Type} (s : State ν) (limit large : Nat) (t : Token) :
    s.refusal.fault limit t = s.refusal.fault large t := by
  unfold refusal
  split
  · rfl
  · rfl

/-- With room for as many levels as there are tokens, a call stops at the end of the input or at a
token that does not fit. -/
theorem exists_stop_of_large (tokens : List Token) (locals : Locals)
    (hlarge : tokens.length ≤ large) :
    ∃ u t w s, endMarked tokens = u ++ t :: w ∧ Reads byName large (.initial locals) u s ∧
      ((Parser.ofTokens tokens locals).withMaxDepth large).stopIndex = u.length ∧
      (t.isEof = true ∧ s.betweenStatements = true ∨
        (∀ s', ¬ Takes byName s t s') ∧ (t.isEof = true → s.betweenStatements = false)) := by
  obtain ⟨u, t, w, s, hts, hr, ⟨ht, hb⟩ | ⟨r, ht, hb⟩⟩ := exists_stop tokens locals large
  · have hstop := (parse_ofTokens_of_reads hr hb ht w).2.2
    rw [← hts, ofTokens_endMarked] at hstop
    exact ⟨u, t, w, s, hts, hr, hstop, .inl ⟨ht, hb⟩⟩
  · have hstop := (parse_ofTokens_of_refused hr ht hb w).2.2
    rw [← hts, ofTokens_endMarked] at hstop
    refine ⟨u, t, w, s, hts, hr, hstop, .inr ⟨?_, hb⟩⟩
    rcases State.step_eq_error_iff.1 ht with ⟨⟨s', hs'⟩, -, hfull, -⟩ | ⟨hn, -⟩
    · -- fewer levels are open than tokens were read, so there is room
      have hlevels : levels s.stack ≤ 0 + u.length := hr.levels_le
      have hlength := length_lt_of_endMarked hts hs'.isEof_eq_false
      omega
    · exact hn

/-- Where the same tokens are read with two limits, the answers are the same. -/
theorem parse_eq_of_reads {s : State String} (hts : endMarked tokens = u ++ t :: w)
    (hlimit : Reads byName limit (.initial locals) u s)
    (hlarge : Reads byName large (.initial locals) u s)
    (hstop : t.isEof = true ∧ s.betweenStatements = true ∨
      (∀ s', ¬ Takes byName s t s') ∧ (t.isEof = true → s.betweenStatements = false)) :
    let call := fun m => ((Parser.ofTokens tokens locals).withMaxDepth m).parse
    (call limit).1 = (call large).1 ∧ (call limit).2.locals = (call large).2.locals := by
  intro call
  simp only [call, ← ofTokens_endMarked tokens, hts]
  rcases hstop with ⟨ht, hb⟩ | ⟨hn, hb⟩
  · obtain ⟨hanswer, hlocals, -⟩ := parse_ofTokens_of_reads hlimit hb ht w
    obtain ⟨hanswer', hlocals', -⟩ := parse_ofTokens_of_reads hlarge hb ht w
    exact ⟨hanswer.trans hanswer'.symm, hlocals.trans hlocals'.symm⟩
  · obtain ⟨hanswer, hlocals, -⟩ :=
      parse_ofTokens_of_refused hlimit (State.step_of_not_takes hn) hb w
    obtain ⟨hanswer', hlocals', -⟩ :=
      parse_ofTokens_of_refused hlarge (State.step_of_not_takes hn) hb w
    rw [s.fault_refusal limit large t] at hanswer
    exact ⟨hanswer.trans hanswer'.symm, hlocals.trans hlocals'.symm⟩

theorem parse_of_overflow? {s : State String} (hts : endMarked tokens = u ++ w)
    (hr : Reads byName large (.initial locals) u s)
    (hover : Nesting.overflow? limit {} u = some t) :
    ((Parser.ofTokens tokens locals).withMaxDepth limit).parse.1 =
      .error ⟨t.pos, .tooDeep limit⟩ := by
  obtain ⟨v, w', s₁, rfl, hv, hstep⟩ := hr.exists_tooDeep hover
  have hnot : t.isEof = false := hr.isEof_eq_false t (by simp)
  have hanswer := (parse_ofTokens_of_refused hv hstep (by rw [hnot]; nofun) (w' ++ w)).1
  rwa [show v ++ t :: (w' ++ w) = endMarked tokens by rw [hts]; simp, ofTokens_endMarked] at hanswer

/-- **The limit can be checked along the tokens, and changes nothing else.**  What a call does that
has much room stops at the token `j`.  If a token before it would go over the limit, the first one
that would is reported; if there is none, the limit is not noticed.  So a success stays the same
under every higher limit, and groups that are closed do not count. -/
theorem parse_limit_transparent (tokens : List Token) (locals : Locals) (limit large : Nat)
    (hlarge : tokens.length ≤ large) :
    let ts := endMarked tokens
    let parser := fun m => (Parser.ofTokens tokens locals).withMaxDepth m
    let j := (parser large).stopIndex
    let exceeding := Nesting.overflow? limit {} (ts.take j)
    (∃ t, ts[j]? = some t ∧ (∀ t' ∈ ts.take j, t'.isEof = false) ∧
      ((∃ program, (parser large).parse.1 = .ok program) → t.isEof = true) ∧
      ∀ e, (parser large).parse.1 = .error e → e.pos = t.pos) ∧
    (∀ t, exceeding = some t → (parser limit).parse.1 = .error ⟨t.pos, .tooDeep limit⟩) ∧
    (exceeding = none → (parser limit).parse.1 = (parser large).parse.1 ∧
      (parser limit).parse.2.locals = (parser large).parse.2.locals) ∧
    (∀ program, (parser limit).parse.1 = .ok program → ∀ m, limit ≤ m →
      (parser m).parse.1 = .ok program ∧
      (parser m).parse.2.locals = (parser limit).parse.2.locals) ∧
    ∀ u a b n, Closed u → a.cls = .punct .leftParen → b.cls = .punct .rightParen →
      (a :: u ++ [b]).foldl Nesting.next n = n := by
  intro ts parser j exceeding
  obtain ⟨u, t, w, s, hts, hr, hj, hstop⟩ := exists_stop_of_large tokens locals hlarge
  have htake : ts.take j = u := by rw [show ts = _ from hts, show j = _ from hj, List.take_left]
  have hexceeding : exceeding = Nesting.overflow? limit {} u :=
    congrArg (Nesting.overflow? limit {}) htake
  have hsame : ∀ m, Nesting.overflow? m {} u = none →
      (parser m).parse.1 = (parser large).parse.1 ∧
        (parser m).parse.2.locals = (parser large).parse.2.locals :=
    fun m hn => parse_eq_of_reads hts (hr.of_overflow?_eq_none hn) hr hstop
  have hanswer : (t.isEof = true ∧ ∃ program, (parser large).parse.1 = .ok program) ∨
      ∃ f, (parser large).parse.1 = .error ⟨t.pos, f⟩ := by
    simp only [parser, ← ofTokens_endMarked tokens, hts]
    rcases hstop with ⟨ht, hb⟩ | ⟨hn, hb⟩
    · exact .inl ⟨ht, _, (parse_ofTokens_of_reads hr hb ht w).1⟩
    · exact .inr ⟨_, (parse_ofTokens_of_refused hr (State.step_of_not_takes hn) hb w).1⟩
  refine ⟨⟨t, ?_, ?_, ?_, ?_⟩, ?_, ?_, ?_, ?_⟩
  · rw [show ts = _ from hts, show j = _ from hj, List.getElem?_append_right (Nat.le_refl _),
      Nat.sub_self]
    rfl
  · rw [htake]
    exact hr.isEof_eq_false
  · rintro ⟨program, hok⟩
    rcases hanswer with ⟨ht, -⟩ | ⟨f, herror⟩
    · exact ht
    · cases hok.symm.trans herror
  · intro e he
    rcases hanswer with ⟨-, program, hok⟩ | ⟨f, herror⟩
    · cases he.symm.trans hok
    · rw [Except.error.inj (he.symm.trans herror)]
  · intro t' ht'
    rw [hexceeding] at ht'
    exact parse_of_overflow? hts hr ht'
  · intro hn
    exact hsame limit (hexceeding ▸ hn)
  · intro program hok m hm
    cases hn : Nesting.overflow? limit {} u with
    | some t' =>
      rw [parse_of_overflow? hts hr hn] at hok
      cases hok
    | none =>
      obtain ⟨hanswer, hlocals⟩ := hsame limit hn
      obtain ⟨hanswer', hlocals'⟩ := hsame m (Nesting.overflow?_eq_none_of_le hm hn)
      exact ⟨hanswer'.trans (hanswer.symm.trans hok), hlocals'.trans hlocals.symm⟩
  · intro u a b n hu ha hb
    rw [List.foldl_append, List.foldl_cons]
    exact Nesting.foldl_group ha hb hu.saved_foldl n

/-- The source `a = (1);`, where the group is one level too many if only one may be open. -/
theorem parse_group_limit :
    let tokens : List Token :=
      [⟨.ident, "a", 0⟩, ⟨.punct .assign, "=", 2⟩, ⟨.punct .leftParen, "(", 4⟩, ⟨.num 1, "1", 5⟩,
        ⟨.punct .rightParen, ")", 6⟩, ⟨.punct .semicolon, ";", 7⟩]
    let parser := fun m => (Parser.ofTokens tokens {}).withMaxDepth m
    (parser 1).parse.1 = .error ⟨4, .tooDeep 1⟩ ∧ (parser 2).parse.1 = (parser 6).parse.1 := by
  intro tokens parser
  have hlarge : tokens.length ≤ 6 := Nat.le_refl 6
  exact ⟨(parse_limit_transparent tokens {} 1 6 hlarge).2.1 _ rfl,
    ((parse_limit_transparent tokens {} 2 6 hlarge).2.2.1 rfl).1⟩

end FrameLang

import FrameLang.Proofs.Grammar.Variables
import FrameLang.Proofs.Sessions
import FrameLang.Proofs.Tables

/-!
# What a call declares

Whatever a descent comes to, the table has changed by the names of the tokens that were passed, in
their order, and by nothing else.  This needs nothing of the walk: it is asked of every piece of a
descent, from every walk, and a piece that passes an identifier declares it before it ends.

* `Passes w w'`: a walk that has passed some tokens and declared their names.
* `Keeps x w`: the descent `x` from `w` ends in such a walk, with an answer or without one.  There
  is one rule for each piece that touches the walk, and `Keeps.bind` puts them together.
* `parse_declares`: the table after a call.
-/

namespace FrameLang

/-- From `w` to `w'` some tokens were passed, and their names were declared. -/
structure Passes (w w' : Walk) : Prop where
  passed : ∃ u, w.ahead = u ++ w'.ahead ∧ w'.index = w.index + u.length ∧
    w'.locals = w.locals.declareTokens u
  tokens : w'.tokens = w.tokens

/-- From `w`, the descent `x` passes tokens and declares their names, whatever it comes to. -/
def Keeps {α : Type} (x : Descent α) (w : Walk) : Prop := Passes w (x.run w).2

variable {α β : Type} {w w' w'' : Walk} {t : Token} {p : Punct}

namespace Descent

theorem run_current (w : Walk) :
    current.run w =
      match w.next? with
      | some t => (.ok t, w)
      | none => (.error (.breakdown .outOfRange), w) := by
  rw [current, run_bind]
  show (match w.next? with | some t => _ | none => _ : Descent Token).run w = _
  cases w.next? with
  | some t => rfl
  | none => rfl

theorem run_consume (ht : w.next? = some t) (he : t.isEof = false) :
    consume.run w = (.ok t, w.advance) := by
  rw [consume, run_bind, run_current, ht]
  show (Except.ok t, if t.isEof then w else w.advance) = _
  rw [he]
  rfl

end Descent

/-! ## Pieces of a descent -/

theorem TokenClass.ne_ident_of_punct {cls : TokenClass} (h : cls = .punct p) : cls ≠ .ident := by
  rw [h]
  nofun

theorem Level.ne_ident_of_mem_operators {l : Level} {cls : TokenClass} (h : cls ∈ l.operators) :
    cls ≠ .ident := by
  rintro rfl
  obtain ⟨o, ho, -⟩ := mem_operators_iff.1 h
  cases ho

namespace Passes

theorem refl (w : Walk) : Passes w w := ⟨⟨[], rfl, rfl, rfl⟩, rfl⟩

theorem trans (h : Passes w w') (h' : Passes w' w'') : Passes w w'' := by
  obtain ⟨u, hu, hindex, hlocals⟩ := h.passed
  obtain ⟨v, hv, hindex', hlocals'⟩ := h'.passed
  refine ⟨⟨u ++ v, ?_, ?_, ?_⟩, h'.tokens.trans h.tokens⟩
  · rw [hu, hv, List.append_assoc]
  · rw [hindex', hindex, List.length_append, Nat.add_assoc]
  · rw [hlocals', hlocals, Locals.declareTokens_append]

theorem withDepth (w : Walk) (depth : Nat) : Passes w { w with depth := depth } :=
  ⟨⟨[], rfl, rfl, rfl⟩, rfl⟩

theorem declareToken (ht : w.next? = some t) :
    Passes w { w.advance with locals := w.locals.declareToken t } :=
  ⟨⟨[t], Walk.ahead_of_next? ht, rfl, rfl⟩, rfl⟩

theorem advance (ht : w.next? = some t) (hi : t.cls ≠ .ident) : Passes w w.advance := by
  have h := declareToken ht
  rwa [Locals.declareToken_of_ne_ident hi] at h

end Passes

namespace Keeps

theorem pure (a : α) (w : Walk) : Keeps (Pure.pure a : Descent α) w := .refl w

theorem throw (e : Halt) (w : Walk) : Keeps (MonadExcept.throw e : Descent α) w := .refl w

theorem bind {x : Descent α} {f : α → Descent β} (h : Keeps x w)
    (hf : ∀ a w', x.run w = (.ok a, w') → Keeps (f a) w') : Keeps (x >>= f) w := by
  rw [Keeps] at h ⊢
  rw [Descent.run_bind]
  rcases hx : x.run w with ⟨e | a, w'⟩
  · rwa [hx] at h
  · rw [hx] at h
    exact h.trans (hf a w' hx)

theorem bind_get {f : Walk → Descent β} (h : Keeps (f w) w) : Keeps (get >>= f) w :=
  bind (.refl w) fun _ _ hget => by
    obtain ⟨hanswer, rfl⟩ := Prod.mk.inj hget
    obtain rfl := Except.ok.inj hanswer
    exact h

theorem set (h : Passes w w') : Keeps (MonadStateOf.set w' : Descent PUnit) w := h

theorem bind_current {f : Token → Descent β} (h : ∀ t, w.next? = some t → Keeps (f t) w) :
    Keeps (Descent.current >>= f) w := by
  rw [Keeps, Descent.run_bind, Descent.run_current]
  cases ht : w.next? with
  | some t => exact h t ht
  | none => exact .refl w

theorem consume (ht : w.next? = some t) (hi : t.cls ≠ .ident) : Keeps Descent.consume w := by
  refine bind_current fun t' ht' => ?_
  obtain rfl := Option.some.inj (ht.symm.trans ht')
  show Passes w (if t.isEof then w else w.advance)
  split
  · exact .refl w
  · exact .advance ht hi

theorem consume_declare (ht : w.next? = some t) (hi : t.cls = .ident) :
    Keeps (Descent.consume >>= fun _ => Descent.declare t.text) w := by
  have heof : t.isEof = false := by
    rw [Token.isEof, hi]
    rfl
  have h := Passes.declareToken ht
  rw [Locals.declareToken_of_ident hi] at h
  rw [Keeps, Descent.run_bind, Descent.run_consume ht heof]
  exact h

theorem optional (p : Punct) (w : Walk) : Keeps (Descent.optional p) w := by
  refine bind_current fun t ht => ?_
  split
  case isTrue hp => exact bind (consume ht (TokenClass.ne_ident_of_punct hp)) fun _ _ _ => pure _ _
  case isFalse => exact pure _ _

theorem expect (p : Punct) (w : Walk) : Keeps (Descent.expect p) w := by
  refine bind_current fun t ht => ?_
  split
  case isTrue hp => exact bind (consume ht (TokenClass.ne_ident_of_punct hp)) fun _ _ _ => pure _ _
  case isFalse => exact throw _ _

theorem nest (t : Token) (w : Walk) : Keeps (Descent.nest t) w := by
  refine bind_get ?_
  split
  · exact throw _ _
  · exact set (.withDepth w _)

theorem leave (w : Walk) : Keeps Descent.leave w := by
  refine bind_get ?_
  split
  · exact throw _ _
  · exact set (.withDepth w _)

theorem join (t : Token) (first second : Node Nat) (w : Walk) :
    Keeps (Descent.join t first second) w := by
  rw [Descent.join]
  split
  · exact pure _ _
  · exact throw _ _

/-! ## Nonterminals -/

section

variable {inner : Descent (Node Nat)} (hinner : ∀ w, Keeps inner w)

include hinner

theorem nested (t : Token) (w : Walk) : Keeps (Descent.nested t inner) w :=
  bind (nest t w) fun _ w₁ _ => bind (hinner w₁) fun _ w₂ _ => bind (leave w₂) fun _ _ _ =>
    pure _ _

theorem group (w : Walk) : Keeps (Descent.group inner) w :=
  bind_current fun t _ => bind (expect _ w) fun _ w₁ _ => bind (nested hinner t w₁) fun _ w₂ _ =>
    bind (expect _ w₂) fun _ _ _ => pure _ _

theorem primary (w : Walk) : Keeps (Descent.primary inner) w := by
  refine bind_current fun t ht => ?_
  split
  case h_1 value hc =>
    have hi : t.cls ≠ .ident := by
      rw [hc]
      nofun
    exact bind (consume ht hi) fun _ _ _ => pure _ _
  case h_2 hc => exact consume_declare ht hc
  case h_3 => exact group hinner w
  case h_4 => exact throw _ _

theorem unary (w : Walk) : Keeps (Descent.unary inner) w := by
  refine bind (optional .plus w) fun plus w₁ _ => ?_
  cases plus with
  | true => exact primary hinner w₁
  | false =>
    refine bind (optional .minus w₁) fun minus w₂ _ => ?_
    cases minus with
    | true => exact bind (primary hinner w₂) fun _ _ _ => pure _ _
    | false => exact primary hinner w₂

end

section

variable {operand : Descent (Node Nat)} (hoperand : ∀ w, Keeps operand w)

include hoperand

theorem chainFrom (l : Level) (fuel : Nat) (first : Node Nat) (w : Walk) :
    Keeps (Descent.chainFrom l operand fuel first) w := by
  induction fuel generalizing first w with
  | zero => exact throw _ _
  | succ fuel ih =>
    refine bind_current fun t ht => ?_
    split
    case isTrue ho =>
      exact bind (consume ht (Level.ne_ident_of_mem_operators ho)) fun t' w₁ _ =>
        bind (hoperand w₁) fun second w₂ _ =>
          bind (join t' first second w₂) fun first' w₃ _ => ih first' w₃
    case isFalse => exact pure _ _

theorem chain (l : Level) (w : Walk) : Keeps (Descent.chain l operand) w :=
  bind (hoperand w) fun first w₁ _ => bind_get (chainFrom hoperand l _ first w₁)

end

theorem equality {inner : Descent (Node Nat)} (hinner : ∀ w, Keeps inner w) :
    ∀ w, Keeps (Descent.equality inner) w :=
  chain (chain (chain (chain (unary hinner) .term) .additive) .relational) .equality

theorem assignment (budget : Nat) : ∀ w, Keeps (Descent.assignment budget) w := by
  induction budget with
  | zero => exact throw _
  | succ budget ih =>
    -- the groups and the value inside of an expression have one unit of the budget less
    intro w
    refine bind (equality ih w) fun target w₁ _ => bind_current fun t _ =>
      bind (optional .assign w₁) fun found w₂ _ => ?_
    cases found with
    | true => exact bind (nested ih t w₂) fun _ _ _ => pure _ _
    | false => exact pure _ _

theorem statement (budget : Nat) (w : Walk) : Keeps (Descent.statement budget) w :=
  bind (assignment budget w) fun _ w₁ _ => bind (expect _ w₁) fun _ _ _ => pure _ _

theorem statements (budget fuel : Nat) (done : List (Node Nat)) (w : Walk) :
    Keeps (Descent.statements budget fuel done) w := by
  induction fuel generalizing done w with
  | zero => exact throw _ _
  | succ fuel ih =>
    refine bind_current fun t _ => ?_
    split
    · exact pure _ _
    · exact bind (statement budget w) fun e w₁ _ => ih (e :: done) w₁

theorem program (budget : Nat) (w : Walk) : Keeps (Descent.program budget) w :=
  bind_get (bind (statements budget _ [] w) fun _ _ _ => bind_get (pure _ _))

end Keeps

/-! ## Calls -/

namespace Locals

theorem declareTokens_eq_foldl (locals : Locals) (ts : List Token) :
    locals.declareTokens ts = (namesOf ts).foldl declare locals := by
  induction ts generalizing locals with
  | nil => rfl
  | cons t ts ih =>
    rw [declareTokens_cons, ih]
    by_cases hi : t.cls = .ident
    · rw [declareToken_of_ident hi, namesOf_cons_of_ident hi, List.foldl_cons]
    · rw [declareToken_of_ne_ident hi, namesOf_cons_of_ne_ident hi]

theorem lookup?_declare_of_ne {x y : String} (h : x ≠ y) (locals : Locals) :
    (locals.declare x).lookup? y = locals.lookup? y := by
  unfold declare
  split
  · rfl
  · rw [lookup?_insert, if_neg h]

theorem lookup?_foldl_declare_of_not_mem {y : String} {names : List String} (h : y ∉ names)
    (locals : Locals) : (names.foldl declare locals).lookup? y = locals.lookup? y := by
  induction names generalizing locals with
  | nil => rfl
  | cons x names ih =>
    rw [List.mem_cons, not_or] at h
    rw [List.foldl_cons, ih h.2, lookup?_declare_of_ne (Ne.symm h.1)]

end Locals

theorem Passes.eq_take (h : Passes w w') :
    w.index ≤ w'.index ∧
      w'.locals = w.locals.declareTokens (w.ahead.take (w'.index - w.index)) := by
  obtain ⟨u, hu, hindex, hlocals⟩ := h.passed
  refine ⟨by omega, ?_⟩
  rw [hlocals, hu, hindex, Nat.add_sub_cancel_left, List.take_left]

/-- The tokens that the next call passes. -/
def Walk.passed (w : Walk) : List Token :=
  (w.tokens.drop w.index).take (w.parse.2.index - w.index)

theorem Walk.Ready.pending_eq (hw : w.Ready) :
    w.parser.pending = w.passed ++ w.parser.parse.2.pending := by
  obtain ⟨u, t, rest, hahead, hu, ht⟩ := exists_eq_append_eof hw
  obtain ⟨-, -, ⟨v, hv⟩, -⟩ := w.parser.parse_leaves
  have hpending : w.parser.pending = u := by rw [parser_of_ahead_eq hahead hu ht]
  have hpassed : w.passed = v := by
    have hindex : w.parse.2.index = w.index + v.length := by
      have hlength := congrArg List.length hv
      rw [List.length_append] at hlength
      rw [hw.parse_eq]
      show w.index + (w.parser.pending.length - _) = _
      omega
    rw [passed, hindex, Nat.add_sub_cancel_left]
    show w.ahead.take v.length = v
    rw [hahead, ← hpending, ← hv, List.append_assoc, List.take_left]
  rw [hpassed, hv]

/-- **What a call declares**, whatever it comes to and from whatever walk: the names of the tokens
that it passes, one after the other.  Each of them is found after that, and every other name is as
it was, among them those that stand only behind the place where the call stops.  A parser declares
the names that its walk does. -/
theorem parse_declares (w : Walk) :
    (w.parse.2.tokens = w.tokens ∧ w.index ≤ w.parse.2.index) ∧
    w.parse.2.locals = (namesOf w.passed).foldl Locals.declare w.locals ∧
    (∀ x, x ∈ namesOf w.passed → (w.parse.2.locals.lookup? x).isSome = true) ∧
    (∀ x, x ∉ namesOf w.passed → w.parse.2.locals.lookup? x = w.locals.lookup? x) ∧
    (w.Ready → w.parse.1 = w.parser.parse.1.mapError .fault ∧
      w.parser.pending = w.passed ++ w.parser.parse.2.pending ∧
      w.parser.parse.2.locals = (namesOf w.passed).foldl Locals.declare w.parser.locals) := by
  have h : Passes w w.parse.2 := Keeps.program (w.limit + 1) w
  obtain ⟨hindex, htable⟩ := h.eq_take
  have hlocals : w.parse.2.locals = (namesOf w.passed).foldl Locals.declare w.locals := by
    rw [← Locals.declareTokens_eq_foldl]
    exact htable
  refine ⟨⟨h.tokens, hindex⟩, hlocals, fun x hx => ?_, fun x hx => ?_, fun hw => ?_⟩
  · obtain ⟨t, ht, hi, rfl⟩ := mem_namesOf.1 hx
    have hfound : ∃ offset, (w.locals.declareTokens w.passed).lookup? t.text = some offset :=
      Locals.exists_lookup?_declareTokens ht hi
    rw [htable]
    exact Option.isSome_iff_exists.2 hfound
  · rw [hlocals, Locals.lookup?_foldl_declare_of_not_mem hx]
  · refine ⟨by rw [hw.parse_eq], hw.pending_eq, ?_⟩
    rw [show w.parser.locals = w.locals from rfl, ← hlocals, hw.parse_eq]

/-- A call that stops inside a group and an assignment.  The name behind that place is no local. -/
theorem parse_declares_at_semicolon :
    let tokens : List Token := [⟨.ident, "a", 0⟩, ⟨.punct .assign, "=", 1⟩,
      ⟨.punct .leftParen, "(", 2⟩, ⟨.ident, "b", 3⟩, ⟨.punct .semicolon, ";", 4⟩, ⟨.ident, "c", 5⟩]
    let w := Walk.ofTokens tokens { entries := [⟨"b", 8⟩] }
    w.Ready ∧ w.parse.1 = .error (.fault ⟨4, .mismatch ")" ";"⟩) ∧ w.parse.2.index = 4 ∧
      w.parser.parse.2.locals.entries = [⟨"a", 16⟩, ⟨"b", 8⟩] ∧
      w.parse.2.locals.lookup? "c" = none := by
  intro tokens w
  have hw : w.Ready := (Walk.ofTokens_stands tokens _).1
  obtain ⟨-, -, -, hothers, hparser⟩ := parse_declares w
  obtain ⟨-, -, hsame⟩ := hparser hw
  have hindex : w.parse.2.index = 4 := by with_unfolding_all rfl
  have hpassed : namesOf w.passed = ["a", "b"] := by
    rw [Walk.passed, hindex]
    decide
  rw [hpassed] at hothers hsame
  refine ⟨hw, by with_unfolding_all rfl, hindex, ?_, ?_⟩
  · rw [hsame]
    decide
  · rw [hothers "c" (by decide)]
    decide

end FrameLang

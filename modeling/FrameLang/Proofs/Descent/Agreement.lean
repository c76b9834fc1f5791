import FrameLang.Proofs.Descent
import FrameLang.Proofs.Grammar.Completeness
import FrameLang.Proofs.Grammar.Soundness
import FrameLang.Proofs.Nesting

/-!
# A descent does what the machine does

The calls that are open in a descent are what the machine has on its stack, and both go along the
same tokens.  So a descent never breaks down: at each of its steps the machine is in a state that
says why it cannot.

* `Stands w₀ s w`: the walk `w` has come from `w₀` to the place where the machine is in the state
  `s`.  `Refused w₀ e w` says the same of a walk that an error has ended.
* `ReadsChain`, `ReadsAssignment`: what the function of a nonterminal does wherever an expression
  may begin.  `n` is the number of levels that are known to be open there, and `readsAssignment`
  says that a budget of more than the levels that are left is enough.
* `Walk.parseWithin_eq`: a call of a walk has the answer of the parser that it stands for, and moves
  as that parser does.
-/

namespace FrameLang

/-! ## The stack of the machine -/

section

variable {ν : Type} {resolve : Locals → String → ν} {room : Nat} {s s' : State ν} {t : Token}
  {stack : List (Unfinished ν)} {e whole : Node ν} {sign : Option Sign}

/-- What fits after an expression and does not go on with it ends the innermost group, or the
statement if no group is open. -/
theorem Takes.ends_expression (h : Takes resolve s t s') (hs : s.phase = .operator e)
    (ho : t.cls.operator? = none) (ha : t.cls ≠ .punct .assign) :
    (t.cls = .punct .rightParen ∧ ∃ sign stack, (collapse s.stack e).1 = .group sign :: stack) ∨
      t.cls = .punct .semicolon ∧ (collapse s.stack e).1 = [] := by
  cases h with
  | plus h | minus h | literal h | name h | openGroup h => rw [hs] at h; cases h
  | assign _ h => exact absurd h ha
  | operator _ h => rw [ho] at h; cases h
  | closeGroup h ht hc =>
    obtain rfl : e = _ := Phase.operator.inj (hs.symm.trans h)
    exact .inl ⟨ht, _, _, by rw [hc]⟩
  | finish h ht hc =>
    obtain rfl : e = _ := Phase.operator.inj (hs.symm.trans h)
    exact .inr ⟨ht, by rw [hc]⟩

theorem step_in_group (hs : s.phase = .operator e)
    (hc : collapse s.stack e = (.group sign :: stack, whole)) (ho : t.cls.operator? = none)
    (ha : t.cls ≠ .punct .assign) (hp : t.cls ≠ .punct .rightParen) :
    s.step resolve room t = .error (.mismatch .rightParen) ∧
      s.abandoned (.mismatch .rightParen) = levels stack := by
  have haround : aroundGroup? s.stack = some stack := by
    rw [← aroundGroup?_collapse s.stack e, hc, aroundGroup?]
  have hn : ∀ s', ¬ Takes resolve s t s' := by
    intro s' h
    rcases h.ends_expression hs ho ha with ⟨ht, -⟩ | ⟨-, hnil⟩
    · exact hp ht
    · rw [hc] at hnil
      cases hnil
  rw [State.step_of_not_takes hn, State.refusal, hs]
  simp only [haround, Option.isSome_some, if_pos, State.abandoned, Option.getD_some, and_self]

theorem step_outside_groups (hs : s.phase = .operator e) (hc : collapse s.stack e = ([], whole))
    (ho : t.cls.operator? = none) (ha : t.cls ≠ .punct .assign)
    (hp : t.cls ≠ .punct .semicolon) :
    s.step resolve room t = .error (.mismatch .semicolon) ∧
      s.abandoned (.mismatch .semicolon) = 0 := by
  have haround : aroundGroup? s.stack = none := by
    rw [← aroundGroup?_collapse s.stack e, hc, aroundGroup?]
  have hn : ∀ s', ¬ Takes resolve s t s' := by
    intro s' h
    rcases h.ends_expression hs ho ha with ⟨-, sign, stack, hgroup⟩ | ⟨ht, -⟩
    · rw [hc] at hgroup
      cases hgroup
    · exact hp ht
  rw [State.step_of_not_takes hn, State.refusal, hs]
  simp [haround, State.abandoned]

end

/-! ## Walks and states -/

namespace Walk

def ahead (w : Walk) : List Token := w.tokens.drop w.index

/-- An end of the input is still to come. -/
def Ready (w : Walk) : Prop := ∃ t ∈ w.ahead, t.isEof = true

/-- No operator that binds at least as tightly as `k` comes next. -/
def NoOperator (k : Nat) (w : Walk) : Prop :=
  ∀ t o, w.next? = some t → t.cls.operator? = some o → o.level < k

def ExpressionEnds (w : Walk) : Prop :=
  ∀ t, w.next? = some t → t.cls.operator? = none ∧ t.cls ≠ .punct .assign

theorem ahead_of_next? {w : Walk} {t : Token} (h : w.next? = some t) :
    w.ahead = t :: w.advance.ahead := by
  obtain ⟨hlt, rfl⟩ := List.getElem?_eq_some_iff.1 h
  exact List.drop_eq_getElem_cons hlt

end Walk

/-- From `w₀` to `w` the tokens were read that lead the machine to the state `s`. -/
structure Stands (w₀ : Walk) (s : State Nat) (w : Walk) : Prop where
  reads : ∃ u, Reads Locals.slot w₀.room (.initial w₀.locals) u s ∧ w₀.ahead = u ++ w.ahead ∧
    w.index = w₀.index + u.length
  tokens : w.tokens = w₀.tokens
  locals : w.locals = s.locals
  limit : w.limit = w₀.limit

/-- The walk `w` is what an error leaves: the machine refuses the token that comes next. -/
def Refused (w₀ : Walk) (e : SyntaxError) (w : Walk) : Prop :=
  ∃ s w₁ t r, Stands w₀ s w₁ ∧ w₁.next? = some t ∧ s.step Locals.slot w₀.room t = .error r ∧
    (t.isEof = true → s.betweenStatements = false) ∧ e = ⟨t.pos, r.fault w₀.limit t⟩ ∧
    w = { w₁ with
      index := w₁.index + if r = .tooDeep then 1 else 0
      depth := w₀.depth + s.abandoned r }

variable {w₀ w w₁ : Walk} {s s₁ : State Nat} {t : Token} {n k : Nat} {sign : Option Sign}

namespace Stands

theorem start (w : Walk) : Stands w (.initial w.locals) w :=
  ⟨⟨[], .nil _, rfl, rfl⟩, rfl, rfl, rfl⟩

theorem withDepth (h : Stands w₀ s w) (depth : Nat) : Stands w₀ s { w with depth := depth } :=
  ⟨h.reads, h.tokens, h.locals, h.limit⟩

theorem levels_le (h : Stands w₀ s w) : levels s.stack ≤ w₀.room := by
  obtain ⟨u, hu, -⟩ := h.reads
  exact hu.levels_le_room (Nat.zero_le _)

theorem exists_next (h : Stands w₀ s w) (hw : w₀.Ready) : ∃ t, w.next? = some t := by
  obtain ⟨u, hu, hahead, -⟩ := h.reads
  obtain ⟨t, ht, heof⟩ := hw
  rw [hahead, List.mem_append] at ht
  rcases ht with ht | ht
  · rw [hu.isEof_eq_false t ht] at heof
    cases heof
  · have hlt := List.length_pos_of_mem ht
    rw [Walk.ahead, List.length_drop] at hlt
    exact ⟨_, List.getElem?_eq_getElem (by omega)⟩

theorem advance (h : Stands w₀ s w) (ht : w.next? = some t) (htakes : Takes Locals.slot s t s₁)
    (hroom : t.opens → levels s.stack < w₀.room) :
    Stands w₀ s₁ { w.advance with locals := s₁.locals } := by
  obtain ⟨u, hu, hahead, hindex⟩ := h.reads
  refine ⟨⟨u ++ [t], hu.append (.cons htakes hroom (.nil _)), ?_, ?_⟩, h.tokens, rfl, h.limit⟩
  · rw [hahead, Walk.ahead_of_next? ht, List.append_assoc]
    rfl
  · rw [List.length_append, ← Nat.add_assoc, ← hindex]
    rfl

theorem advance_of_locals_eq (h : Stands w₀ s w) (ht : w.next? = some t)
    (htakes : Takes Locals.slot s t s₁) (hroom : t.opens → levels s.stack < w₀.room)
    (hlocals : s₁.locals = s.locals) : Stands w₀ s₁ w.advance := by
  have hs₁ := h.advance ht htakes hroom
  rwa [hlocals, ← h.locals] at hs₁

end Stands

/-- An expression may begin where the walk stands, inside of at least `n` levels. -/
structure Begins (w₀ : Walk) (n : Nat) (sign : Option Sign) (s : State Nat) (w : Walk) : Prop where
  stands : Stands w₀ s w
  phase : s.phase = .operand sign
  depth : w.depth = w₀.depth + levels s.stack
  nested : n ≤ levels s.stack
  goesOn : ∀ t, w.next? = some t → t.isEof = true → s.betweenStatements = false

/-- From `w` to `w₁` an expression was read, and the machine, which was in the state `s`, holds it
as some items and `e'`. -/
structure Crosses (w₀ : Walk) (s : State Nat) (w : Walk) (items : List (Unfinished Nat))
    (e' : Node Nat) (s₁ : State Nat) (w₁ : Walk) : Prop where
  stands : Stands w₀ s₁ w₁
  holds : Holds s s₁ (items ++ s.stack) e'
  depth : w₁.depth = w.depth
  index : w.index ≤ w₁.index

theorem Crosses.push {items items₂ : List (Unfinished Nat)} {item : Unfinished Nat}
    {e₁ e₂ : Node Nat} {s₂ : State Nat} {w₂ w₃ : Walk} (h : Crosses w₀ s w items e₁ s₁ w₁)
    (h' : Crosses w₀ { s₁ with stack := item :: s.stack, phase := .operand none } w₂ items₂ e₂
      s₂ w₃)
    (hdepth : w₂.depth = w₁.depth) (hindex : w₁.index ≤ w₂.index) :
    Crosses w₀ s w (items₂ ++ [item]) e₂ s₂ w₃ := by
  refine ⟨h'.stands, ⟨h'.holds.done.trans h.holds.done, ?_, h'.holds.phase⟩, ?_, ?_⟩
  · rw [h'.holds.stack, List.append_assoc]
    rfl
  · rw [h'.depth, hdepth, h.depth]
  · exact Nat.le_trans h.index (Nat.le_trans hindex h'.index)

/-- Wherever an expression may begin whose operators bind at least as tightly as `k`, the descent
reads one, and after it no such operator is left. -/
def ReadsChain (w₀ : Walk) (n k : Nat) (x : Descent (Node Nat)) : Prop :=
  ∀ s w, Begins w₀ n none s w → Awaits k s.stack →
    Ends x w
      (fun e w₁ => ∃ s₁ items e', Crosses w₀ s w items e' s₁ w₁ ∧ Folds k items e' e ∧
        w₁.NoOperator k)
      (Refused w₀)

/-- Wherever any expression may begin, the descent reads one to its end. -/
def ReadsAssignment (w₀ : Walk) (n : Nat) (x : Descent (Node Nat)) : Prop :=
  ∀ s w, Begins w₀ n none s w → Awaits 0 s.stack →
    Ends x w
      (fun e w₁ => ∃ s₁ items e', Crosses w₀ s w items e' s₁ w₁ ∧
        (∀ rest, collapse (items ++ rest) e' = collapse rest e) ∧ w₁.ExpressionEnds)
      (Refused w₀)

/-! ## Operands -/

theorem Token.opens.isEof_eq_false (h : t.opens) : t.isEof = false := by
  rcases h with h | h
  · exact Descent.isEof_of_punct h
  · exact Descent.isEof_of_punct h

section

variable {inner : Descent (Node Nat)} (hw : w₀.Ready) (hinner : ReadsAssignment w₀ (n + 1) inner)

include hinner

/-- A level is opened where the machine opens one, with the same room. -/
theorem ends_nested {item : Unfinished Nat} {stack : List (Unfinished Nat)}
    (hstands : Stands w₀ s w) (hdepth : w.depth = w₀.depth + levels s.stack)
    (hnested : n ≤ levels s.stack) (ht : w.next? = some t) (ho : t.opens)
    (htakes : Takes Locals.slot s t { s with stack := item :: stack, phase := .operand none })
    (hlevels : levels (item :: stack) = levels s.stack + 1) (hawaits : Awaits 0 (item :: stack)) :
    Ends (Descent.nested t inner) w.advance
      (fun e w₁ => ∃ s₁ items e',
        Crosses w₀ { s with stack := item :: stack, phase := .operand none } w items e' s₁ w₁ ∧
          (∀ rest, collapse (items ++ rest) e' = collapse rest e) ∧ w₁.ExpressionEnds)
      (Refused w₀) := by
  have hlimit := hstands.limit
  refine .bind (Descent.ends_nest ?_ ?_)
  case refine_1 =>
    intro hfree
    have hroom : levels s.stack < w₀.room := by
      change w.depth < w.limit at hfree
      rw [Walk.room]
      omega
    have hinside : Begins w₀ (n + 1) none
        { s with stack := item :: stack, phase := .operand none }
        { w.advance with depth := w.depth + 1 } := by
      refine ⟨(hstands.advance_of_locals_eq ht htakes (fun _ => hroom) rfl).withDepth _, rfl, ?_,
        ?_, fun _ _ _ => rfl⟩
      · rw [hlevels, ← Nat.add_assoc, ← hdepth]
      · rw [hlevels]
        exact Nat.succ_le_succ hnested
    refine .bind ((hinner _ _ hinside hawaits).mono ?_)
    rintro e w₁ ⟨s₁, items, e', hx, hcollapse, hends⟩
    refine .bind (Descent.ends_leave hx.depth (.pure ⟨s₁, items, e', ?_, hcollapse, hends⟩))
    exact ⟨hx.stands.withDepth _, hx.holds, rfl, Nat.le_of_succ_le hx.index⟩
  case refine_2 =>
    intro hfull
    have hroom : w₀.room ≤ levels s.stack := by
      change w.limit ≤ w.depth at hfull
      rw [Walk.room]
      omega
    refine ⟨s, w, t, .tooDeep, hstands, ht, ?_, ?_, ?_, ?_⟩
    · exact State.step_eq_error_iff.2 (.inl ⟨⟨_, htakes⟩, ho, hroom, rfl⟩)
    · rw [ho.isEof_eq_false]
      nofun
    · rw [← hlimit]
      rfl
    · rw [if_pos rfl, State.abandoned, ← hdepth]
      rfl

include hw

theorem ends_group (hb : Begins w₀ n sign s w) (ht : w.next? = some t)
    (hp : t.cls = .punct .leftParen) :
    Ends (Descent.group inner) w
      (fun e w₁ => ∃ s₁, Crosses w₀ s w [] (signed sign e) s₁ w₁) (Refused w₀) := by
  refine .bind (Descent.ends_current ht (.bind (Descent.ends_expect ht ?_ (absurd hp ·))))
  intro _
  refine .bind ((ends_nested hinner hb.stands hb.depth hb.nested ht (.inl hp)
    (.openGroup hb.phase hp) (levels_group _ _) awaits_group).mono ?_)
  rintro e w₁ ⟨s₁, items, e', hx, hcollapse, hends⟩
  have hc : collapse s₁.stack e' = (.group sign :: s.stack, e) := by
    rw [hx.holds.stack, hcollapse, collapse]
    · exact fun _ _ _ h => by cases h
    · exact fun _ _ h => by cases h
  obtain ⟨t₁, ht₁⟩ := hx.stands.exists_next hw
  refine .bind (Descent.ends_expect ht₁ ?_ ?_)
  · intro hp₁
    have hclose := hx.stands.advance_of_locals_eq ht₁ (.closeGroup hx.holds.phase hp₁ hc)
      (fun ho => by simp [Token.opens, hp₁] at ho) rfl
    exact .pure ⟨_, hclose, ⟨hx.holds.done, rfl, rfl⟩, hx.depth, Nat.le_succ_of_le hx.index⟩
  · intro hp₁
    obtain ⟨ho, ha⟩ := hends t₁ ht₁
    obtain ⟨hstep, habandoned⟩ :
        s₁.step Locals.slot w₀.room t₁ = .error (.mismatch .rightParen) ∧ _ :=
      step_in_group hx.holds.phase hc ho ha hp₁
    refine ⟨s₁, w₁, t₁, _, hx.stands, ht₁, hstep, fun _ => ?_, rfl, ?_⟩
    · exact State.betweenStatements_of_operator hx.holds.phase
    · rw [habandoned, ← hb.depth, ← hx.depth]
      rfl

theorem ends_primary (hb : Begins w₀ n sign s w)
    (hsign : ∀ t, w.next? = some t → sign = none →
      t.cls ≠ .punct .plus ∧ t.cls ≠ .punct .minus) :
    Ends (Descent.primary inner) w
      (fun e w₁ => ∃ s₁, Crosses w₀ s w [] (signed sign e) s₁ w₁) (Refused w₀) := by
  obtain ⟨t, ht⟩ := hb.stands.exists_next hw
  refine .bind (Descent.ends_current ht ?_)
  split
  case h_1 value hc =>
    have htakes : Takes Locals.slot s t _ := .literal hb.phase hc
    refine .bind (Descent.ends_consume ht htakes.isEof_eq_false (.pure ?_))
    have hread := hb.stands.advance_of_locals_eq ht htakes (by simp [Token.opens, hc]) rfl
    exact ⟨_, hread, ⟨rfl, rfl, rfl⟩, rfl, Nat.le_succ _⟩
  case h_2 hc =>
    have htakes : Takes Locals.slot s t _ := .name hb.phase hc
    refine .bind (Descent.ends_consume ht htakes.isEof_eq_false (Descent.ends_declare ?_))
    have hread := hb.stands.advance ht htakes (by simp [Token.opens, hc])
    have hlocals : w.advance.locals = s.locals := hb.stands.locals
    rw [hlocals]
    exact ⟨_, hread, ⟨rfl, rfl, rfl⟩, rfl, Nat.le_succ _⟩
  case h_3 hc => exact ends_group hw hinner hb ht hc
  case h_4 hnum hident hparen =>
    -- a sign would fit as well, but then it was read before
    have hn : ∀ s', ¬ Takes Locals.slot s t s' := by
      intro s' h
      cases h with
      | plus h hc =>
        exact (hsign t ht (Phase.operand.inj (hb.phase.symm.trans h))).1 hc
      | minus h hc =>
        exact (hsign t ht (Phase.operand.inj (hb.phase.symm.trans h))).2 hc
      | literal _ hc => exact hnum _ hc
      | name _ hc => exact hident hc
      | openGroup _ hc => exact hparen hc
      | assign h | operator h | closeGroup h | finish h => rw [hb.phase] at h; cases h
    refine .fault ⟨s, w, t, _, hb.stands, ht, State.step_of_not_takes hn, hb.goesOn t ht, ?_, ?_⟩
    · rw [State.refusal, hb.phase]
      rfl
    · rw [State.refusal, hb.phase, State.abandoned, ← hb.depth]
      rfl

theorem ends_signed {sign : Sign} (hb : Begins w₀ n none s w) (ht : w.next? = some t)
    (ho : ¬ t.opens)
    (htakes : Takes Locals.slot s t { s with phase := .operand (some sign) }) :
    Ends (Descent.primary inner) w.advance
      (fun e w₁ => ∃ s₁, Crosses w₀ s w [] (signed (some sign) e) s₁ w₁) (Refused w₀) := by
  have hbegins : Begins w₀ n (some sign) { s with phase := .operand (some sign) } w.advance := by
    refine ⟨hb.stands.advance_of_locals_eq ht htakes (absurd · ho) rfl, rfl, hb.depth, hb.nested,
      ?_⟩
    intro _ _ _
    rw [State.betweenStatements]
    cases s.stack <;> rfl
  refine (ends_primary hw hinner hbegins fun _ _ h => by cases h).mono ?_
  rintro e w₁ ⟨s₁, hx⟩
  exact ⟨s₁, hx.stands, ⟨hx.holds.done, hx.holds.stack, hx.holds.phase⟩, hx.depth,
    Nat.le_of_succ_le hx.index⟩

theorem readsChain_unary : ReadsChain w₀ n 4 (Descent.unary inner) := by
  intro s w hb _
  have hpost : ∀ e w₁, (∃ s₁, Crosses w₀ s w [] e s₁ w₁) →
      ∃ s₁ items e', Crosses w₀ s w items e' s₁ w₁ ∧ Folds 4 items e' e ∧ w₁.NoOperator 4 :=
    fun e w₁ ⟨s₁, hx⟩ => ⟨s₁, [], e, hx, .nil, fun _ o _ _ => o.level_lt⟩
  obtain ⟨t, ht⟩ := hb.stands.exists_next hw
  refine .bind (Descent.ends_optional ht ?_ ?_)
  · intro hp
    exact (ends_signed hw hinner hb ht (by simp [Token.opens, hp]) (.plus hb.phase hp)).mono hpost
  intro hplus
  refine .bind (Descent.ends_optional ht ?_ ?_)
  · intro hp
    exact .bind ((ends_signed hw hinner hb ht (by simp [Token.opens, hp])
      (.minus hb.phase hp)).mono fun e w₁ h => .pure (hpost _ w₁ h))
  · intro hminus
    refine (ends_primary hw hinner hb ?_).mono hpost
    intro t' ht' _
    obtain rfl : t = t' := Option.some.inj (ht.symm.trans ht')
    exact ⟨hplus, hminus⟩

end

/-! ## Chains -/

section

variable {l : Level} {operand : Descent (Node Nat)} (hw : w₀.Ready)
  (hoperand : ReadsChain w₀ n (l.rank + 1) operand)

include hw hoperand

/-- The loop of a chain, after it has read a chain `first` that began in the state `s`. -/
theorem ends_chainFrom {fuel : Nat} {items : List (Unfinished Nat)} {first e' : Node Nat}
    (hb : Begins w₀ n none s w) (ha : Awaits l.rank s.stack) (hx : Crosses w₀ s w items e' s₁ w₁)
    (hf : Folds l.rank items e' first) (hn : w₁.NoOperator (l.rank + 1))
    (hfuel : w₁.tokens.length ≤ fuel + w₁.index) :
    Ends (Descent.chainFrom l operand fuel first) w₁
      (fun e w₂ => ∃ s₂ items e', Crosses w₀ s w items e' s₂ w₂ ∧ Folds l.rank items e' e ∧
        w₂.NoOperator l.rank)
      (Refused w₀) := by
  induction fuel generalizing items first e' s₁ w₁ with
  | zero =>
    obtain ⟨t, ht⟩ := hx.stands.exists_next hw
    obtain ⟨hlt, -⟩ := List.getElem?_eq_some_iff.1 ht
    omega
  | succ fuel ih =>
    obtain ⟨t, ht⟩ := hx.stands.exists_next hw
    refine .bind (Descent.ends_current ht ?_)
    split
    case isTrue hmem =>
      obtain ⟨o, ho, hl⟩ := Level.mem_operators_iff.1 hmem
      -- the operator takes all that the chain has left on the stack, and nothing from under it
      have hreduce : reduce o.level s₁.stack e' = (s.stack, first) := by
        rw [hx.holds.stack, hl, hf.reduce _ (Nat.le_refl _), ha.reduce_eq]
      have htakes : Takes Locals.slot s₁ t _ := .operator hx.holds.phase ho hreduce
      have hopens := not_opens_of_operator? ho
      have hafter : Begins w₀ n none
          { s₁ with stack := .binary o first :: s.stack, phase := .operand none } w₁.advance := by
        refine ⟨hx.stands.advance_of_locals_eq ht htakes (absurd · hopens) rfl, rfl, ?_, ?_,
          fun _ _ _ => rfl⟩
        · rw [levels_binary, ← hb.depth]
          exact hx.depth
        · rw [levels_binary]
          exact hb.nested
      refine .bind (Descent.ends_consume ht htakes.isEof_eq_false (.bind
        ((hoperand _ _ hafter (hl ▸ awaits_binary)).mono ?_)))
      rintro second w₂ ⟨s₂, items₂, e₂, hx₂, hf₂, hn₂⟩
      have hx' : Crosses w₀ s w (items₂ ++ [.binary o first]) e₂ s₂ w₂ :=
        hx.push hx₂ rfl (Nat.le_succ _)
      have hf' : Folds l.rank (items₂ ++ [.binary o first]) e₂ (o.apply first second) := by
        rw [← hl] at hf₂ ⊢
        exact hf₂.binary
      refine .bind (Descent.ends_join ho (ih hx' hf' hn₂ ?_))
      have hindex : w₁.index + 1 ≤ w₂.index := hx₂.index
      rw [hx₂.stands.tokens, ← hx.stands.tokens]
      omega
    case isFalse hmem =>
      refine .pure ⟨s₁, items, e', hx, hf, ?_⟩
      intro t' o ht' ho
      obtain rfl : t = t' := Option.some.inj (ht.symm.trans ht')
      refine Nat.lt_of_le_of_ne (Nat.le_of_lt_succ (hn t o ht ho)) fun hl => hmem ?_
      exact Level.mem_operators_iff.2 ⟨o, ho, hl⟩

theorem readsChain_chain : ReadsChain w₀ n l.rank (Descent.chain l operand) := by
  intro s w hb ha
  refine .bind ((hoperand s w hb (ha.mono (Nat.le_succ _))).mono ?_)
  rintro first w₁ ⟨s₁, items, e', hx, hf, hn⟩
  refine .bind (Descent.ends_get ?_)
  exact ends_chainFrom hw hoperand hb ha hx (hf.mono (Nat.le_succ _)) hn (Nat.le_add_right _ _)

end

/-! ## Expressions and statements -/

section

variable (hw : w₀.Ready)

include hw

theorem readsChain_equality {inner : Descent (Node Nat)} (h : ReadsAssignment w₀ (n + 1) inner) :
    ReadsChain w₀ n 0 (Descent.equality inner) := by
  have hterm : ReadsChain w₀ n 3 (Descent.term inner) :=
    readsChain_chain (l := .term) hw (readsChain_unary hw h)
  have hadditive : ReadsChain w₀ n 2 (Descent.additive inner) :=
    readsChain_chain (l := .additive) hw hterm
  have hrelational : ReadsChain w₀ n 1 (Descent.relational inner) :=
    readsChain_chain (l := .relational) hw hadditive
  exact readsChain_chain (l := .equality) hw hrelational

/-- **A budget that is greater than the number of levels that are left is enough.** -/
theorem readsAssignment {budget : Nat} (h : w₀.room < budget + n) :
    ReadsAssignment w₀ n (Descent.assignment budget) := by
  induction budget generalizing n with
  | zero =>
    -- so many levels are open that there is no room for them
    intro s w hb _
    have hle := hb.stands.levels_le
    have hnested := hb.nested
    omega
  | succ budget ih =>
    intro s w hb ha
    have hinner : ReadsAssignment w₀ (n + 1) (Descent.assignment budget) := ih (by omega)
    refine .bind ((readsChain_equality hw hinner s w hb ha).mono ?_)
    rintro target w₁ ⟨s₁, items, e', hx, hf, hn⟩
    obtain ⟨t, ht⟩ := hx.stands.exists_next hw
    refine .bind (Descent.ends_current ht (.bind (Descent.ends_optional ht ?_ ?_)))
    · intro hp
      have hreduce : reduce 0 s₁.stack e' = (s.stack, target) := by
        rw [hx.holds.stack, hf.reduce _ (Nat.le_refl _), ha.reduce_eq]
      have hlevels : levels s₁.stack = levels s.stack := (levels_eq_of_reduce hreduce).symm
      have hdepth : w₁.depth = w₀.depth + levels s₁.stack := by rw [hx.depth, hb.depth, hlevels]
      refine .bind ((ends_nested hinner hx.stands hdepth (hlevels ▸ hb.nested) ht (.inr hp)
        (.assign hx.holds.phase hp hreduce) ?_ awaits_assign).mono ?_)
      · rw [levels_assign, hlevels]
      rintro value w₂ ⟨s₂, items₂, e₂, hx₂, hcollapse, hends⟩
      refine .pure ⟨s₂, items₂ ++ [.assign target], e₂, hx.push hx₂ rfl (Nat.le_refl _), ?_, hends⟩
      intro rest
      rw [List.append_assoc, hcollapse, List.singleton_append, collapse]
    · intro hp
      refine .pure ⟨s₁, items, e', hx, hf.collapse, ?_⟩
      intro t' ht'
      obtain rfl : t = t' := Option.some.inj (ht.symm.trans ht')
      refine ⟨?_, hp⟩
      cases ho : t.cls.operator? with
      | none => rfl
      | some o => exact absurd (hn t o ht ho) (Nat.not_lt_zero _)

theorem ends_statement {budget : Nat} (hbudget : w₀.room < budget) (hstands : Stands w₀ s w)
    (hs : s.betweenStatements = true) (hdepth : w.depth = w₀.depth) (ht : w.next? = some t)
    (heof : t.isEof = false) :
    Ends (Descent.statement budget) w
      (fun e w₁ => ∃ s₁, Stands w₀ s₁ w₁ ∧ s₁.betweenStatements = true ∧ s₁.done = e :: s.done ∧
        w₁.depth = w₀.depth ∧ w.index < w₁.index)
      (Refused w₀) := by
  obtain ⟨hstack, hphase⟩ := betweenStatements_iff.1 hs
  have hbegins : Begins w₀ 0 none s w := by
    refine ⟨hstands, hphase, by rw [hdepth, hstack]; rfl, Nat.zero_le _, ?_⟩
    intro t' ht' heof'
    rw [← Option.some.inj (ht.symm.trans ht'), heof] at heof'
    cases heof'
  refine .bind ((readsAssignment hw hbudget s w hbegins (hstack ▸ awaits_nil)).mono ?_)
  rintro e w₁ ⟨s₁, items, e', hx, hcollapse, hends⟩
  have hc : collapse s₁.stack e' = ([], e) := by
    rw [hx.holds.stack, hcollapse, hstack, collapse]
    · exact fun _ _ _ h => by cases h
    · exact fun _ _ h => by cases h
  obtain ⟨t₁, ht₁⟩ := hx.stands.exists_next hw
  refine .bind (Descent.ends_expect ht₁ ?_ ?_)
  · intro hp
    have hfinish := hx.stands.advance_of_locals_eq ht₁ (.finish hx.holds.phase hp hc)
      (fun ho => by simp [Token.opens, hp] at ho) rfl
    refine .pure ⟨_, hfinish, rfl, ?_, hx.depth.trans hdepth, Nat.lt_succ_of_le hx.index⟩
    rw [State.finish, hx.holds.done]
  · intro hp
    obtain ⟨ho, ha⟩ := hends t₁ ht₁
    obtain ⟨hstep, habandoned⟩ :
        s₁.step Locals.slot w₀.room t₁ = .error (.mismatch .semicolon) ∧ _ :=
      step_outside_groups hx.holds.phase hc ho ha hp
    refine ⟨s₁, w₁, t₁, _, hx.stands, ht₁, hstep, fun _ => ?_, rfl, ?_⟩
    · exact State.betweenStatements_of_operator hx.holds.phase
    · rw [habandoned, Nat.add_zero, ← hdepth, ← hx.depth]
      rfl

theorem ends_statements {budget fuel : Nat} (hbudget : w₀.room < budget) (hstands : Stands w₀ s w)
    (hs : s.betweenStatements = true) (hdepth : w.depth = w₀.depth)
    (hfuel : w.tokens.length ≤ fuel + w.index) :
    Ends (Descent.statements budget fuel s.done) w
      (fun stmts w₁ => ∃ s₁ t, Stands w₀ s₁ w₁ ∧ s₁.betweenStatements = true ∧
        stmts = s₁.done.reverse ∧ w₁.depth = w₀.depth ∧ w₁.next? = some t ∧ t.isEof = true)
      (Refused w₀) := by
  induction fuel generalizing s w with
  | zero =>
    obtain ⟨t, ht⟩ := hstands.exists_next hw
    obtain ⟨hlt, -⟩ := List.getElem?_eq_some_iff.1 ht
    omega
  | succ fuel ih =>
    obtain ⟨t, ht⟩ := hstands.exists_next hw
    refine .bind (Descent.ends_current ht ?_)
    split
    case isTrue heof => exact .pure ⟨s, t, hstands, hs, rfl, hdepth, ht, heof⟩
    case isFalse heof =>
      refine .bind ((ends_statement hw hbudget hstands hs hdepth ht (by simpa using heof)).mono ?_)
      rintro e w₁ ⟨s₁, hstands₁, hs₁, hdone, hdepth₁, hindex⟩
      rw [← hdone]
      refine ih hstands₁ hs₁ hdepth₁ ?_
      rw [hstands₁.tokens, ← hstands.tokens]
      omega

end

/-! ## Whole calls -/

theorem Walk.ends_parseWithin {w : Walk} {budget : Nat} (hw : w.Ready) (hbudget : w.room < budget) :
    Ends (Descent.program budget) w
      (fun program w₁ => ∃ s t, Stands w s w₁ ∧ s.betweenStatements = true ∧
        program = ⟨s.done.reverse, s.locals.frameSize⟩ ∧ w₁.depth = w.depth ∧
        w₁.next? = some t ∧ t.isEof = true)
      (Refused w) := by
  refine .bind (Descent.ends_get (.bind ?_))
  refine (ends_statements hw hbudget (.start w) rfl rfl (Nat.le_add_right _ _)).mono ?_
  rintro stmts w₁ ⟨s, t, hstands, hs, rfl, hdepth, ht, heof⟩
  refine .bind (Descent.ends_get (.pure ⟨s, t, hstands, hs, ?_, hdepth, ht, heof⟩))
  rw [hstands.locals]

/-- The parser that a walk stands for. -/
def Walk.parser (w : Walk) : Parser where
  pending := w.ahead.takeWhile fun t => !t.isEof
  stop := ((w.ahead.find? Token.isEof).map Token.pos).getD 0
  locals := w.locals
  depth := w.depth
  limit := w.limit

theorem Walk.parser_of_ahead_eq {w : Walk} {u rest : List Token} {t : Token}
    (h : w.ahead = u ++ t :: rest) (hu : ∀ t ∈ u, t.isEof = false) (ht : t.isEof = true) :
    w.parser = ⟨u, t.pos, w.locals, w.depth, w.limit⟩ := by
  rw [parser, h, takeWhile_not_isEof_cons hu ht, find?_isEof_append hu, List.find?_cons_of_pos ht]
  rfl

/-- A walk that stands before the token `t` has read the first of the tokens of the parser, and `t`
comes next there, or the input of the parser ends at `t`. -/
theorem Stands.exists_pending_eq (h : Stands w₀ s w) (ht : w.next? = some t) :
    ∃ u rest, Reads Locals.slot w₀.room (.initial w₀.locals) u s ∧
      w₀.parser.pending = u ++ rest ∧ w.index = w₀.index + u.length ∧
      (t.isEof = true ∧ rest = [] ∧ w₀.parser.stop = t.pos ∨
        t.isEof = false ∧ ∃ rest', rest = t :: rest') := by
  obtain ⟨u, hu, hahead, hindex⟩ := h.reads
  rw [Walk.ahead_of_next? ht] at hahead
  cases heof : t.isEof with
  | true =>
    have hparser := Walk.parser_of_ahead_eq hahead hu.isEof_eq_false heof
    exact ⟨u, [], hu, by rw [hparser, List.append_nil], hindex, .inl ⟨rfl, rfl, by rw [hparser]⟩⟩
  | false =>
    refine ⟨u, _, hu, ?_, hindex, .inr ⟨rfl, w.advance.ahead.takeWhile fun t => !t.isEof, rfl⟩⟩
    rw [Walk.parser, hahead, takeWhile_not_isEof hu.isEof_eq_false,
      List.takeWhile_cons_of_pos (by rw [heof]; rfl)]

theorem Stands.parse_of_refused {r : Refusal} (h : Stands w₀ s w) (ht : w.next? = some t)
    (hstep : s.step Locals.slot w₀.room t = .error r)
    (hb : t.isEof = true → s.betweenStatements = false) :
    ∃ p, w₀.parser.parse = (.error ⟨t.pos, r.fault w₀.limit t⟩, p) ∧ p.locals = s.locals ∧
      p.depth = w₀.depth + s.abandoned r ∧
      w.index + (if r = .tooDeep then 1 else 0) =
        w₀.index + (w₀.parser.pending.length - p.pending.length) := by
  obtain ⟨u, rest, hu, hpending, hindex, hrest⟩ := h.exists_pending_eq ht
  have hparse : run Locals.slot w₀.room (.initial w₀.locals) (u ++ rest) = ⟨s, some r, rest⟩ →
      w₀.parser.parse =
        (.error (w₀.parser.errorAt r rest),
          { w₀.parser with
            pending := Parser.afterRefusal r rest
            locals := s.locals
            depth := w₀.depth + s.abandoned r }) := by
    intro hrun
    have hnext : w₀.parser.nextRun = ⟨s, some r, rest⟩ := by
      rw [Parser.nextRun, hpending]
      exact hrun
    simp only [Parser.parse, hnext]
    rfl
  rcases hrest with ⟨heof, rfl, hstop⟩ | ⟨heof, rest, rfl⟩
  · rw [State.step_eof heof] at hstep
    have hrefusal : s.refusal = r := Except.error.inj hstep
    have hend : s.step Locals.slot w₀.room (.eofAt w₀.parser.stop) = .error r :=
      hrefusal ▸ State.step_eof rfl
    have hrun : run Locals.slot w₀.room (.initial w₀.locals) (u ++ []) = ⟨s, some r, []⟩ :=
      hu.run_of_refused hend fun _ => hb heof
    have hdeep : r ≠ .tooDeep := hrefusal ▸ s.refusal_ne_tooDeep
    refine ⟨_, (hparse hrun).trans (Prod.ext ?_ rfl), rfl, rfl, ?_⟩
    · rw [Parser.errorAt, List.headD_nil, hstop, r.fault_of_isEof w₀.limit heof t.pos]
      rfl
    · rw [if_neg hdeep, hpending]
      cases r with
      | tooDeep => exact absurd rfl hdeep
      | mismatch expected => rw [hindex, List.append_nil]; rfl
      | missingOperand => rw [hindex, List.append_nil]; rfl
  · have hrun : run Locals.slot w₀.room (.initial w₀.locals) (u ++ t :: rest) =
        ⟨s, some r, t :: rest⟩ := by
      rw [hu.run_append, run, hstep]
    refine ⟨_, (hparse hrun).trans rfl, rfl, rfl, ?_⟩
    rw [hpending, hindex, List.length_append, List.length_cons]
    cases r with
    | tooDeep => simp [Parser.afterRefusal]; omega
    | mismatch expected => simp [Parser.afterRefusal]
    | missingOperand => simp [Parser.afterRefusal]

theorem Stands.parse_of_eof (h : Stands w₀ s w) (ht : w.next? = some t) (heof : t.isEof = true)
    (hs : s.betweenStatements = true) :
    w₀.parser.parse =
        (.ok ⟨s.done.reverse, s.locals.frameSize⟩,
          { w₀.parser with pending := [], locals := s.locals }) ∧
      w.index = w₀.index + w₀.parser.pending.length := by
  obtain ⟨u, rest, hu, hpending, hindex, ⟨-, rfl, -⟩ | ⟨hnot, -⟩⟩ := h.exists_pending_eq ht
  · rw [List.append_nil] at hpending
    have hnext : w₀.parser.nextRun = ⟨s, none, []⟩ := by
      rw [Parser.nextRun, hpending]
      exact hu.run_eq.trans (by rw [hs]; rfl)
    constructor
    · simp only [Parser.parse, hnext]
    · rw [hpending, hindex]
  · rw [heof] at hnot
    cases hnot

/-- **A call of a walk is a call of the parser that it stands for.**  It does not break down, and
the index moves over what the parser reads. -/
theorem Walk.parseWithin_eq {w : Walk} {budget : Nat} (hw : w.Ready) (hbudget : w.room < budget) :
    w.parseWithin budget =
      (w.parser.parse.1.mapError .fault,
        { w with
          index := w.index + (w.parser.pending.length - w.parser.parse.2.pending.length)
          locals := w.parser.parse.2.locals
          depth := w.parser.parse.2.depth }) := by
  have h := Walk.ends_parseWithin hw hbudget
  rw [Ends] at h
  rw [parseWithin]
  generalize (Descent.program budget).run w = result at h
  rcases result with ⟨(e | b) | program, w₁⟩
  · obtain ⟨s, w₁, t, r, hstands, ht, hstep, hb, rfl, rfl⟩ := h
    obtain ⟨p, hparse, hlocals, hdepth, hindex⟩ := hstands.parse_of_refused ht hstep hb
    rw [hparse]
    refine Prod.ext rfl (Walk.ext hstands.tokens hindex ?_ hdepth.symm hstands.limit)
    exact hstands.locals.trans hlocals.symm
  · exact h.elim
  · obtain ⟨s, t, hstands, hs, rfl, hdepth, ht, heof⟩ := h
    obtain ⟨hparse, hindex⟩ := hstands.parse_of_eof ht heof hs
    rw [hparse]
    exact Prod.ext rfl (Walk.ext hstands.tokens hindex hstands.locals hdepth hstands.limit)

end FrameLang

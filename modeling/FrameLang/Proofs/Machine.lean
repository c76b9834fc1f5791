import FrameLang.Parser

/-!
# What one token does

`State.step` is a nest of cases, and everything that is said about runs needs to know what they
come to.  Here it is said once.

* `Takes`: the tokens that fit a state and the states that they lead to, without a bound on nesting.
* `step_eq_ok_iff`, `step_eq_error_iff`: a step is a token that fits, if there is room for the level
  that it opens; it is refused as too deep if there is not, and as the state says if it does not
  fit.
* `Reads`: the tokens of a whole piece of a run.  `exists_reads_of_run` cuts a run into the tokens
  that were read and those that were not, and `run_append` puts them together again.
-/

namespace FrameLang

variable {ν : Type} {resolve : Locals → String → ν} {room : Nat}

/-- Whether a token, where it fits, opens a level of nesting. -/
def Token.opens (t : Token) : Prop := t.cls = .punct .leftParen ∨ t.cls = .punct .assign

instance (t : Token) : Decidable t.opens := inferInstanceAs (Decidable (_ ∨ _))

/-! ## Levels -/

@[simp] theorem levels_nil : levels ([] : List (Unfinished ν)) = 0 := rfl

@[simp] theorem levels_binary (o : Operator) (e : Node ν) (stack : List (Unfinished ν)) :
    levels (.binary o e :: stack) = levels stack := List.countP_cons_of_neg (by exact nofun)

@[simp] theorem levels_assign (e : Node ν) (stack : List (Unfinished ν)) :
    levels (.assign e :: stack) = levels stack + 1 := List.countP_cons_of_pos rfl

@[simp] theorem levels_group (sign : Option Sign) (stack : List (Unfinished ν)) :
    levels (.group sign :: stack) = levels stack + 1 := List.countP_cons_of_pos rfl

theorem levels_reduce (k : Nat) (stack : List (Unfinished ν)) (e : Node ν) :
    levels (reduce k stack e).1 = levels stack := by
  fun_induction reduce k stack e with
  | case1 e o first stack h ih => rw [ih, levels_binary]
  | case2 => rfl
  | case3 => rfl

theorem levels_eq_of_reduce {k : Nat} {stack stack' : List (Unfinished ν)} {e e' : Node ν}
    (h : reduce k stack e = (stack', e')) : levels stack' = levels stack := by
  rw [← levels_reduce k stack e, h]

/-! ## Collapsing -/

theorem collapse_eq_nil_or_group (stack : List (Unfinished ν)) (e : Node ν) :
    (collapse stack e).1 = [] ∨ ∃ sign rest, (collapse stack e).1 = .group sign :: rest := by
  fun_induction collapse stack e with
  | case1 e o first stack ih => exact ih
  | case2 e target stack ih => exact ih
  | case3 stack e hb ha =>
    cases stack with
    | nil => exact .inl rfl
    | cons item rest =>
      cases item with
      | binary o first => exact absurd rfl (hb o first rest)
      | assign target => exact absurd rfl (ha target rest)
      | group sign => exact .inr ⟨sign, rest, rfl⟩

theorem aroundGroup?_collapse (stack : List (Unfinished ν)) (e : Node ν) :
    aroundGroup? (collapse stack e).1 = aroundGroup? stack := by
  fun_induction collapse stack e with
  | case1 e o first stack ih => rw [ih, aroundGroup?]
  | case2 e target stack ih => rw [ih, aroundGroup?]
  | case3 => rfl

/-! ## Tokens that fit -/

/-- The token `t` fits the state, and with it the state becomes another.  There is one constructor
for each sort of token. -/
inductive Takes (resolve : Locals → String → ν) : State ν → Token → State ν → Prop
  | plus {s : State ν} {t : Token} (hs : s.phase = .operand none) (ht : t.cls = .punct .plus) :
      Takes resolve s t { s with phase := .operand (some .plus) }
  | minus {s : State ν} {t : Token} (hs : s.phase = .operand none) (ht : t.cls = .punct .minus) :
      Takes resolve s t { s with phase := .operand (some .minus) }
  | literal {s : State ν} {t : Token} {sign : Option Sign} {value : Int}
      (hs : s.phase = .operand sign) (ht : t.cls = .num value) :
      Takes resolve s t { s with phase := .operator (signed sign (.num value)) }
  | name {s : State ν} {t : Token} {sign : Option Sign}
      (hs : s.phase = .operand sign) (ht : t.cls = .ident) :
      Takes resolve s t
        { s with
          phase := .operator (signed sign (.var (resolve s.locals t.text)))
          locals := s.locals.declare t.text }
  | openGroup {s : State ν} {t : Token} {sign : Option Sign}
      (hs : s.phase = .operand sign) (ht : t.cls = .punct .leftParen) :
      Takes resolve s t { s with stack := .group sign :: s.stack, phase := .operand none }
  | assign {s : State ν} {t : Token} {e target : Node ν} {stack : List (Unfinished ν)}
      (hs : s.phase = .operator e) (ht : t.cls = .punct .assign)
      (hr : reduce 0 s.stack e = (stack, target)) :
      Takes resolve s t { s with stack := .assign target :: stack, phase := .operand none }
  | operator {s : State ν} {t : Token} {e first : Node ν} {o : Operator}
      {stack : List (Unfinished ν)} (hs : s.phase = .operator e) (ht : t.cls.operator? = some o)
      (hr : reduce o.level s.stack e = (stack, first)) :
      Takes resolve s t { s with stack := .binary o first :: stack, phase := .operand none }
  | closeGroup {s : State ν} {t : Token} {e inner : Node ν} {sign : Option Sign}
      {stack : List (Unfinished ν)} (hs : s.phase = .operator e) (ht : t.cls = .punct .rightParen)
      (hc : collapse s.stack e = (.group sign :: stack, inner)) :
      Takes resolve s t { s with stack := stack, phase := .operator (signed sign inner) }
  | finish {s : State ν} {t : Token} {e whole : Node ν}
      (hs : s.phase = .operator e) (ht : t.cls = .punct .semicolon)
      (hc : collapse s.stack e = ([], whole)) :
      Takes resolve s t (s.finish whole)

theorem not_opens_of_operator? {t : Token} {o : Operator} (h : t.cls.operator? = some o) :
    ¬ t.opens := by
  rintro (ht | ht) <;> rw [ht] at h <;> cases h

namespace State

theorem refusal_ne_tooDeep (s : State ν) : s.refusal ≠ .tooDeep := by
  unfold refusal
  split
  · nofun
  · nofun

theorem betweenStatements_of_operator {s : State ν} {e : Node ν} (h : s.phase = .operator e) :
    s.betweenStatements = false := by
  rw [betweenStatements, h]
  cases s.stack <;> rfl

theorem enter_eq_ok {s : State ν} {item : Unfinished ν} {stack : List (Unfinished ν)}
    (h : levels stack < room) :
    s.enter room item stack = .ok { s with stack := item :: stack, phase := .operand none } := by
  rw [enter, if_pos h]

theorem enter_eq_error {s : State ν} {item : Unfinished ν} {stack : List (Unfinished ν)}
    (h : room ≤ levels stack) : s.enter room item stack = .error .tooDeep := by
  rw [enter, if_neg (Nat.not_lt.2 h)]

theorem step_of_takes {s s' : State ν} {t : Token} (h : Takes resolve s t s') :
    s.step resolve room t =
      if t.opens ∧ room ≤ levels s.stack then .error .tooDeep else .ok s' := by
  cases h with
  | plus hs ht | minus hs ht | literal hs ht | name hs ht =>
    rw [if_neg (by simp [Token.opens, ht])]
    simp only [step, hs, stepOperand, ht]
  | openGroup hs ht =>
    simp only [step, hs, stepOperand, ht, Token.opens, true_or, true_and]
    split
    case isTrue hroom => exact enter_eq_error hroom
    case isFalse hroom => exact enter_eq_ok (Nat.not_le.1 hroom)
  | assign hs ht hr =>
    simp only [step, hs, stepOperator, ht, hr, Token.opens, or_true, true_and]
    rw [← levels_eq_of_reduce hr]
    split
    case isTrue hroom => exact enter_eq_error hroom
    case isFalse hroom => exact enter_eq_ok (Nat.not_le.1 hroom)
  | operator hs ht hr =>
    rw [if_neg (not_and_of_not_left _ (not_opens_of_operator? ht))]
    simp only [step, hs, stepOperator]
    split
    case h_1 hc => rw [hc] at ht; cases ht
    case h_2 hc => rw [hc] at ht; cases ht
    case h_3 hc => rw [hc] at ht; cases ht
    case h_4 => simp only [ht, hr]
  | closeGroup hs ht hc | finish hs ht hc =>
    rw [if_neg (by simp [Token.opens, ht])]
    simp only [step, hs, stepOperator, ht, hc]

theorem step_of_not_takes {s : State ν} {t : Token} (h : ∀ s', ¬ Takes resolve s t s') :
    s.step resolve room t = .error s.refusal := by
  unfold step
  split
  case h_1 sign hs =>
    unfold stepOperand
    split
    case h_1 ht => exact absurd (.plus hs ht) (h _)
    case h_2 ht => exact absurd (.minus hs ht) (h _)
    case h_3 ht => exact absurd (.literal hs ht) (h _)
    case h_4 ht => exact absurd (.name hs ht) (h _)
    case h_5 ht => exact absurd (.openGroup hs ht) (h _)
    case h_6 => rfl
  case h_2 e hs =>
    unfold stepOperator
    split
    case h_1 ht => exact absurd (.assign hs ht rfl) (h _)
    case h_2 ht =>
      split
      case h_1 hc => exact absurd (.closeGroup hs ht hc) (h _)
      case h_2 => rfl
    case h_3 ht =>
      split
      case h_1 hc => exact absurd (.finish hs ht hc) (h _)
      case h_2 => rfl
    case h_4 =>
      split
      case h_1 ho => exact absurd (.operator hs ho rfl) (h _)
      case h_2 => rfl

end State

theorem Takes.unique {s s₁ s₂ : State ν} {t : Token} (h₁ : Takes resolve s t s₁)
    (h₂ : Takes resolve s t s₂) : s₁ = s₂ := by
  have h : s.step resolve (levels s.stack + 1) t = _ := State.step_of_takes h₁
  rw [State.step_of_takes h₂, if_neg (by omega), if_neg (by omega)] at h
  exact (Except.ok.inj h).symm

namespace State

/-- A step reads a token that fits and opens no level beyond the room. -/
theorem step_eq_ok_iff {s s' : State ν} {t : Token} :
    s.step resolve room t = .ok s' ↔
      Takes resolve s t s' ∧ (t.opens → levels s.stack < room) := by
  by_cases h : ∃ s₁, Takes resolve s t s₁
  · obtain ⟨s₁, h₁⟩ := h
    rw [step_of_takes h₁]
    constructor
    · intro h
      split at h
      case isTrue => cases h
      case isFalse hroom =>
        cases h
        exact ⟨h₁, fun ho => Nat.not_le.1 fun hle => hroom ⟨ho, hle⟩⟩
    · rintro ⟨h₂, hroom⟩
      rw [if_neg fun ⟨ho, hle⟩ => Nat.not_lt.2 hle (hroom ho), h₁.unique h₂]
  · rw [step_of_not_takes (not_exists.1 h)]
    exact ⟨nofun, fun h₂ => absurd ⟨s', h₂.1⟩ h⟩

/-- A step refuses a token as too deep if it fits and opens a level beyond the room, and as the
state says if it does not fit. -/
theorem step_eq_error_iff {s : State ν} {t : Token} {r : Refusal} :
    s.step resolve room t = .error r ↔
      (∃ s', Takes resolve s t s') ∧ t.opens ∧ room ≤ levels s.stack ∧ r = .tooDeep ∨
        (∀ s', ¬ Takes resolve s t s') ∧ r = s.refusal := by
  by_cases h : ∃ s', Takes resolve s t s'
  · obtain ⟨s', h'⟩ := h
    rw [step_of_takes h']
    constructor
    · intro h
      split at h
      case isTrue hroom =>
        cases h
        exact .inl ⟨⟨s', h'⟩, hroom.1, hroom.2, rfl⟩
      case isFalse => cases h
    · rintro (⟨-, ho, hroom, rfl⟩ | ⟨hn, -⟩)
      · rw [if_pos ⟨ho, hroom⟩]
      · exact absurd h' (hn s')
  · rw [step_of_not_takes (not_exists.1 h)]
    constructor
    · intro hr
      cases hr
      exact .inr ⟨not_exists.1 h, rfl⟩
    · rintro (⟨h', -⟩ | ⟨-, rfl⟩)
      · exact absurd h' h
      · rfl

end State

/-! ## Pieces of a run -/

/-- The tokens lead from one state to another, and no level is opened beyond the room. -/
inductive Reads (resolve : Locals → String → ν) (room : Nat) :
    State ν → List Token → State ν → Prop
  | nil (s : State ν) : Reads resolve room s [] s
  | cons {s s₁ s' : State ν} {t : Token} {ts : List Token} (ht : Takes resolve s t s₁)
      (hroom : t.opens → levels s.stack < room) (hts : Reads resolve room s₁ ts s') :
      Reads resolve room s (t :: ts) s'

namespace Reads

variable {s s₁ s₂ s' : State ν} {t : Token} {u v ts : List Token}

theorem cons_of_not_opens (ht : Takes resolve s t s₁) (ho : ¬ t.opens)
    (h : Reads resolve room s₁ ts s') : Reads resolve room s (t :: ts) s' :=
  .cons ht (absurd · ho) h

theorem single (ht : Takes resolve s t s') (ho : ¬ t.opens) : Reads resolve room s [t] s' :=
  cons_of_not_opens ht ho (.nil s')

theorem append (h₁ : Reads resolve room s u s₁) (h₂ : Reads resolve room s₁ v s') :
    Reads resolve room s (u ++ v) s' := by
  induction h₁ with
  | nil => exact h₂
  | cons ht hroom _ ih => exact .cons ht hroom (ih h₂)

theorem unique (h₁ : Reads resolve room s u s₁) (h₂ : Reads resolve room s u s₂) : s₁ = s₂ := by
  induction h₁ with
  | nil => cases h₂; rfl
  | cons ht _ _ ih =>
    cases h₂ with
    | cons ht' _ h₂ => exact ih (ht.unique ht' ▸ h₂)

theorem of_append (h : Reads resolve room s (u ++ v) s') :
    ∃ s₁, Reads resolve room s u s₁ ∧ Reads resolve room s₁ v s' := by
  induction u generalizing s with
  | nil => exact ⟨s, .nil s, h⟩
  | cons t u ih =>
    cases h with
    | cons ht hroom h =>
      obtain ⟨s₁, h₁, h₂⟩ := ih h
      exact ⟨s₁, .cons ht hroom h₁, h₂⟩

theorem run_append (h : Reads resolve room s u s₁) (ts : List Token) :
    run resolve room s (u ++ ts) = run resolve room s₁ ts := by
  induction h with
  | nil => rfl
  | cons ht hroom _ ih =>
    rw [List.cons_append, run, State.step_eq_ok_iff.2 ⟨ht, hroom⟩]
    exact ih

end Reads

/-- A run reads a piece of its tokens.  Then they are at their end, or the next one is refused. -/
theorem exists_reads_of_run (resolve : Locals → String → ν) (room : Nat) (s : State ν)
    (ts : List Token) :
    ∃ u s', Reads resolve room s u s' ∧
      (ts = u ∧ run resolve room s ts =
          ⟨s', if s'.betweenStatements then none else some s'.refusal, []⟩ ∨
        ∃ t rest r, ts = u ++ t :: rest ∧ s'.step resolve room t = .error r ∧
          run resolve room s ts = ⟨s', some r, t :: rest⟩) := by
  induction ts generalizing s with
  | nil => exact ⟨[], s, .nil s, .inl ⟨rfl, rfl⟩⟩
  | cons t ts ih =>
    cases hstep : s.step resolve room t with
    | error r =>
      exact ⟨[], s, .nil s, .inr ⟨t, ts, r, rfl, hstep, by rw [run, hstep]⟩⟩
    | ok s₁ =>
      obtain ⟨ht, hroom⟩ := State.step_eq_ok_iff.1 hstep
      have hrun : run resolve room s (t :: ts) = run resolve room s₁ ts := by rw [run, hstep]
      obtain ⟨u, s', hu, ⟨rfl, h⟩ | ⟨t', rest, r, rfl, hr, h⟩⟩ := ih s₁
      · exact ⟨t :: ts, s', .cons ht hroom hu, .inl ⟨rfl, hrun.trans h⟩⟩
      · exact ⟨t :: u, s', .cons ht hroom hu, .inr ⟨t', rest, r, rfl, hr, hrun.trans h⟩⟩

end FrameLang

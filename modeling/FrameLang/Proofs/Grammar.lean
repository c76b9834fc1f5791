import FrameLang.Node

/-!
# The grammar

Which tokens make a program, and which trees they make, without any machine:

    program    ::= (assignment ";")*
    assignment ::= equality ("=" assignment)?
    equality   ::= relational (("==" | "!=") relational)*
    relational ::= additive (("<" | "<=" | ">" | ">=") additive)*
    additive   ::= term (("+" | "-") term)*
    term       ::= unary (("*" | "/") unary)*
    unary      ::= ("+" | "-")? primary
    primary    ::= literal | identifier | "(" assignment ")"

`Derives n u e` is a derivation of the tokens `u` from the nonterminal `n`, with the tree `e` that
it builds, and `DerivesProgram u es` one of a whole program.  The variables of these trees are
names.  A chain such as `a - b - c` is derived from the left, so that it groups to the left; `>` and
`>=` turn their operands around; a minus sign subtracts from zero, and a plus sign and parentheses
leave no trace.

The four chains are one rule with a `Level` as its parameter.  `Level.join?_eq_some_iff` compares
the operators of a level with what the tokens say by themselves.
-/

namespace FrameLang

/-- The chains of binary operators, loosest first. -/
inductive Level
  | equality
  | relational
  | additive
  | term
  deriving DecidableEq, Repr

inductive Nonterminal
  | assignment
  | chain (level : Level)
  | unary
  | primary
  deriving DecidableEq, Repr

namespace Level

/-- What stands between the operators of a chain. -/
def operand : Level → Nonterminal
  | equality => .chain relational
  | relational => .chain additive
  | additive => .chain term
  | term => .unary

def join? : Level → Punct → Option (Node String → Node String → Node String)
  | equality, .equal => some fun a b => .binary .eq a b
  | equality, .notEqual => some fun a b => .binary .ne a b
  | relational, .less => some fun a b => .binary .lt a b
  | relational, .lessEqual => some fun a b => .binary .le a b
  | relational, .greater => some fun a b => .binary .lt b a
  | relational, .greaterEqual => some fun a b => .binary .le b a
  | additive, .plus => some fun a b => .binary .add a b
  | additive, .minus => some fun a b => .binary .sub a b
  | term, .star => some fun a b => .binary .mul a b
  | term, .slash => some fun a b => .binary .div a b
  | _, _ => none

end Level

/-- The tokens `u` can be derived from a nonterminal, and `e` is the tree of the derivation. -/
inductive Derives : Nonterminal → List Token → Node String → Prop
  | value {u : List Token} {e : Node String} (h : Derives (.chain .equality) u e) :
      Derives .assignment u e
  | assign {u v : List Token} {t : Token} {e f : Node String} (h : Derives (.chain .equality) u e)
      (ht : t.cls = .punct .assign) (h' : Derives .assignment v f) :
      Derives .assignment (u ++ t :: v) (.assign e f)
  | first {l : Level} {u : List Token} {e : Node String} (h : Derives l.operand u e) :
      Derives (.chain l) u e
  | more {l : Level} {u v : List Token} {t : Token} {p : Punct}
      {join : Node String → Node String → Node String} {e f : Node String}
      (h : Derives (.chain l) u e) (ht : t.cls = .punct p) (hj : l.join? p = some join)
      (h' : Derives l.operand v f) :
      Derives (.chain l) (u ++ t :: v) (join e f)
  | plain {u : List Token} {e : Node String} (h : Derives .primary u e) : Derives .unary u e
  | plus {u : List Token} {t : Token} {e : Node String} (ht : t.cls = .punct .plus)
      (h : Derives .primary u e) : Derives .unary (t :: u) e
  | minus {u : List Token} {t : Token} {e : Node String} (ht : t.cls = .punct .minus)
      (h : Derives .primary u e) : Derives .unary (t :: u) (.binary .sub (.num 0) e)
  | literal {t : Token} {value : Int} (ht : t.cls = .num value) : Derives .primary [t] (.num value)
  | name {t : Token} (ht : t.cls = .ident) : Derives .primary [t] (.var t.text)
  | group {u : List Token} {t t' : Token} {e : Node String} (ht : t.cls = .punct .leftParen)
      (h : Derives .assignment u e) (ht' : t'.cls = .punct .rightParen) :
      Derives .primary (t :: (u ++ [t'])) e

/-- The tokens make a program, and these are the trees of its statements. -/
inductive DerivesProgram : List Token → List (Node String) → Prop
  | nil : DerivesProgram [] []
  | cons {u v : List Token} {t : Token} {e : Node String} {es : List (Node String)}
      (h : Derives .assignment u e) (ht : t.cls = .punct .semicolon) (h' : DerivesProgram v es) :
      DerivesProgram (u ++ t :: v) (.stmt e :: es)

theorem DerivesProgram.append {u v : List Token} {es fs : List (Node String)}
    (h : DerivesProgram u es) (h' : DerivesProgram v fs) : DerivesProgram (u ++ v) (es ++ fs) := by
  induction h with
  | nil => exact h'
  | cons h ht _ ih =>
    rw [List.append_assoc, List.cons_append, List.cons_append]
    exact .cons h ht ih

/-! ## Levels as numbers -/

def Level.rank : Level → Nat
  | equality => 0
  | relational => 1
  | additive => 2
  | term => 3

/-- The nonterminal whose operators bind at least as tightly as `k`. -/
def chainAt : Nat → Nonterminal
  | 0 => .chain .equality
  | 1 => .chain .relational
  | 2 => .chain .additive
  | 3 => .chain .term
  | _ => .unary

theorem Level.chainAt_rank (l : Level) : chainAt l.rank = .chain l := by cases l <;> rfl

theorem Level.chainAt_rank_succ (l : Level) : chainAt (l.rank + 1) = l.operand := by
  cases l <;> rfl

theorem Level.join?_eq_some_iff {l : Level} {p : Punct}
    {join : Node String → Node String → Node String} :
    l.join? p = some join ↔ ∃ o, p.operator? = some o ∧ o.level = l.rank ∧ join = o.apply := by
  constructor
  · intro h
    cases l <;> cases p <;> cases h <;> exact ⟨_, rfl, rfl, rfl⟩
  · rintro ⟨o, ho, hl, rfl⟩
    cases p <;> cases ho <;> cases l <;> first | rfl | cases hl

theorem Operator.exists_level_of_operator? {p : Punct} {o : Operator} (h : p.operator? = some o) :
    ∃ l : Level, l.rank = o.level := by
  cases p <;> cases h
  case plus => exact ⟨.additive, rfl⟩
  case minus => exact ⟨.additive, rfl⟩
  case star => exact ⟨.term, rfl⟩
  case slash => exact ⟨.term, rfl⟩
  case equal => exact ⟨.equality, rfl⟩
  case notEqual => exact ⟨.equality, rfl⟩
  all_goals exact ⟨.relational, rfl⟩

namespace Derives

variable {u v : List Token} {t : Token} {e f : Node String} {k m : Nat} {o : Operator}

/-- A chain of tighter operators is a chain of looser ones. -/
theorem loosen (h : Derives (chainAt m) u e) (hk : k ≤ m) : Derives (chainAt k) u e := by
  induction hk with
  | refl => exact h
  | @step m _ ih =>
    refine ih ?_
    match m with
    | 0 => exact .first (l := .equality) h
    | 1 => exact .first (l := .relational) h
    | 2 => exact .first (l := .additive) h
    | 3 => exact .first (l := .term) h
    | _ + 4 => exact h

/-- An operator joins a chain of its own level with an operand that binds tighter. -/
theorem binary (h : Derives (chainAt o.level) u e) (ht : t.cls.operator? = some o)
    (h' : Derives (chainAt (o.level + 1)) v f) :
    Derives (chainAt o.level) (u ++ t :: v) (o.apply e f) := by
  obtain ⟨p, hp⟩ : ∃ p, t.cls = .punct p := by
    cases hc : t.cls with
    | punct p => exact ⟨p, rfl⟩
    | ident => rw [hc] at ht; cases ht
    | num value => rw [hc] at ht; cases ht
    | eof => rw [hc] at ht; cases ht
  rw [hp] at ht
  obtain ⟨l, hl⟩ := Operator.exists_level_of_operator? ht
  rw [← hl, Level.chainAt_rank] at h ⊢
  rw [← hl, Level.chainAt_rank_succ] at h'
  exact .more h hp (Level.join?_eq_some_iff.2 ⟨o, ht, hl.symm, rfl⟩) h'

end Derives

end FrameLang

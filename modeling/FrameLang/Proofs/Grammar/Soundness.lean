import FrameLang.Proofs.Grammar.Completeness

/-!
# Every program that is read is derived

A state of the machine is made of finished statements, unfinished items and what the phase holds,
and each of these stands for some of the tokens that were read.  `Made s w` says that the tokens `w`
are these tokens in a row, and that each part has a derivation.

* `Opened`: the tokens of a stack.  An operator lies only on looser ones, so an operand that is
  given to it is tight enough.
* `Opened.reduce`, `Opened.collapse`: giving an expression to what waits for it keeps the tokens.
* `Reads.made`: every state that is reached is made of the tokens that were read.
-/

namespace FrameLang

variable {stack : List (Unfinished String)} {sign : Option Sign} {u v w : List Token} {t : Token}
  {e : Node String} {k m : Nat}

inductive SignTokens : Option Sign → List Token → Prop
  | none : SignTokens none []
  | plus {t : Token} (ht : t.cls = .punct .plus) : SignTokens (some .plus) [t]
  | minus {t : Token} (ht : t.cls = .punct .minus) : SignTokens (some .minus) [t]

theorem SignTokens.derives (h : SignTokens sign v) (h' : Derives .primary u e) :
    Derives .unary (v ++ u) (signed sign e) := by
  cases h with
  | none => exact .plain h'
  | plus ht => exact .plus ht h'
  | minus ht => exact .minus ht h'

/-- The tokens of a stack, outermost first. -/
inductive Opened : List (Unfinished String) → List Token → Prop
  | nil : Opened [] []
  | binary {stack : List (Unfinished String)} {w u : List Token} {t : Token} {o : Operator}
      {first : Node String} (h : Opened stack w) (ha : Awaits o.level stack)
      (hd : Derives (chainAt o.level) u first) (ht : t.cls.operator? = some o) :
      Opened (.binary o first :: stack) (w ++ (u ++ [t]))
  | assign {stack : List (Unfinished String)} {w u : List Token} {t : Token} {target : Node String}
      (h : Opened stack w) (ha : Awaits 0 stack) (hd : Derives (.chain .equality) u target)
      (ht : t.cls = .punct .assign) :
      Opened (.assign target :: stack) (w ++ (u ++ [t]))
  | group {stack : List (Unfinished String)} {w v : List Token} {t : Token} {sign : Option Sign}
      (h : Opened stack w) (hs : SignTokens sign v) (ht : t.cls = .punct .leftParen) :
      Opened (.group sign :: stack) (w ++ (v ++ [t]))

theorem Opened.reduce (h : Opened stack w) (ha : Awaits m stack) (hd : Derives (chainAt m) u e)
    (hk : k ≤ m) :
    ∃ w' u', Opened (reduce k stack e).1 w' ∧ Awaits k (reduce k stack e).1 ∧
      Derives (chainAt k) u' (reduce k stack e).2 ∧ w' ++ u' = w ++ u := by
  induction h generalizing m u e with
  | nil => exact ⟨[], u, .nil, awaits_nil, hd.loosen hk, rfl⟩
  | @binary stack w u₀ t o first h hao hdo ht ih =>
    have hom : o.level < m := ha o first stack rfl
    rw [FrameLang.reduce]
    split
    case isTrue hko =>
      obtain ⟨w', u', hw, ha', hd', heq⟩ := ih hao (hdo.binary ht (hd.loosen hom)) hko
      exact ⟨w', u', hw, ha', hd', by rw [heq]; simp⟩
    case isFalse hko =>
      refine ⟨_, u, .binary h hao hdo ht, ?_, hd.loosen hk, rfl⟩
      exact awaits_binary.mono (Nat.succ_le_of_lt (Nat.not_le.1 hko))
  | assign h ha₀ hd₀ ht => exact ⟨_, u, .assign h ha₀ hd₀ ht, awaits_assign, hd.loosen hk, rfl⟩
  | group h hs ht => exact ⟨_, u, .group h hs ht, awaits_group, hd.loosen hk, rfl⟩

theorem Opened.collapse_assignment (h : Opened stack w) (ha : Awaits 0 stack)
    (hd : Derives .assignment u e) :
    ∃ w' u', Opened (collapse stack e).1 w' ∧ Derives .assignment u' (collapse stack e).2 ∧
      w' ++ u' = w ++ u := by
  induction h generalizing u e with
  | nil => exact ⟨[], u, .nil, hd, rfl⟩
  | @binary stack w u₀ t o first h hao hdo ht ih =>
    exact absurd (ha o first stack rfl) (Nat.not_lt_zero _)
  | @assign stack w u₀ t target h ha₀ hd₀ ht ih =>
    obtain ⟨w', u', hw, hd', heq⟩ := ih ha₀ (.assign hd₀ ht hd)
    exact ⟨w', u', hw, hd', by rw [heq]; simp⟩
  | group h hs ht => exact ⟨_, u, .group h hs ht, hd, rfl⟩

theorem collapse_reduce (k : Nat) (stack : List (Unfinished String)) (e : Node String) :
    collapse (reduce k stack e).1 (reduce k stack e).2 = collapse stack e := by
  fun_induction reduce k stack e with
  | case1 e o first stack h ih => rw [ih, collapse]
  | case2 => rfl
  | case3 => rfl

theorem Opened.collapse (h : Opened stack w) (ha : Awaits m stack)
    (hd : Derives (chainAt m) u e) :
    ∃ w' u', Opened (collapse stack e).1 w' ∧ Derives .assignment u' (collapse stack e).2 ∧
      w' ++ u' = w ++ u := by
  obtain ⟨w₁, u₁, hw₁, ha₁, hd₁, heq₁⟩ := h.reduce ha hd (Nat.zero_le m)
  obtain ⟨w₂, u₂, hw₂, hd₂, heq₂⟩ := hw₁.collapse_assignment ha₁ (.value hd₁)
  rw [collapse_reduce] at hw₂ hd₂
  exact ⟨w₂, u₂, hw₂, hd₂, heq₂.trans heq₁⟩

theorem Operator.level_lt (o : Operator) : o.level < 4 := by
  obtain ⟨op, swapped⟩ := o
  cases op <;> simp [Operator.level, BinaryOp.level]

theorem Opened.awaits_unary (h : Opened stack w) : Awaits 4 stack := by
  cases h with
  | nil => exact awaits_nil
  | @binary stack w u t o => exact awaits_binary.mono o.level_lt
  | assign => exact awaits_assign
  | group => exact awaits_group

inductive PhaseTokens : Phase String → List Token → Prop
  | operand {sign : Option Sign} {v : List Token} (h : SignTokens sign v) :
      PhaseTokens (.operand sign) v
  | operator {e : Node String} {u : List Token} (h : Derives .unary u e) :
      PhaseTokens (.operator e) u

theorem PhaseTokens.signTokens (h : PhaseTokens (.operand sign) v) : SignTokens sign v := by
  cases h with
  | operand h => exact h

theorem PhaseTokens.derives (h : PhaseTokens (.operator e) u) : Derives (chainAt 4) u e := by
  cases h with
  | operator h => exact h

/-- The tokens that a state is made of. -/
inductive Made : State String → List Token → Prop
  | intro {s : State String} {u v w : List Token} (hd : DerivesProgram u s.done.reverse)
      (ho : Opened s.stack v) (hp : PhaseTokens s.phase w) : Made s (u ++ (v ++ w))

theorem Made.of_eq {s : State String} {x : List Token} (hd : DerivesProgram u s.done.reverse)
    (ho : Opened s.stack v) (hp : PhaseTokens s.phase w) (hx : x = u ++ (v ++ w)) : Made s x :=
  hx ▸ .intro hd ho hp

theorem made_initial (locals : Locals) : Made (.initial locals) [] :=
  .of_eq .nil .nil (.operand .none) rfl

theorem Takes.made {s s' : State String} (h : Takes byName s t s') (hm : Made s w) :
    Made s' (w ++ [t]) := by
  obtain ⟨hd, ho, hp⟩ := hm
  cases h with
  | plus hs ht =>
    rw [hs] at hp
    cases hp.signTokens
    exact .of_eq hd ho (.operand (.plus ht)) (by simp)
  | minus hs ht =>
    rw [hs] at hp
    cases hp.signTokens
    exact .of_eq hd ho (.operand (.minus ht)) (by simp)
  | literal hs ht =>
    rw [hs] at hp
    exact .of_eq hd ho (.operator (hp.signTokens.derives (.literal ht))) (by simp)
  | name hs ht =>
    rw [hs] at hp
    exact .of_eq hd ho (.operator (hp.signTokens.derives (.name ht))) (by simp)
  | openGroup hs ht =>
    rw [hs] at hp
    exact .of_eq hd (.group ho hp.signTokens ht) (.operand .none) (by simp)
  | assign hs ht hr =>
    rw [hs] at hp
    obtain ⟨w', u', ho', ha', hd', heq⟩ := ho.reduce ho.awaits_unary hp.derives (Nat.zero_le 4)
    rw [hr] at ho' ha' hd'
    exact .of_eq hd (.assign ho' ha' hd' ht) (.operand .none) (by simp [← heq])
  | @operator _ _ o _ hs ht hr =>
    rw [hs] at hp
    obtain ⟨w', u', ho', ha', hd', heq⟩ :=
      ho.reduce ho.awaits_unary hp.derives (Nat.le_of_lt o.level_lt)
    rw [hr] at ho' ha' hd'
    refine .of_eq hd (.binary ho' ha' hd' ht) (.operand .none) ?_
    simp [← heq]
  | closeGroup hs ht hc =>
    rw [hs] at hp
    obtain ⟨w', u', ho', hd', heq⟩ := ho.collapse ho.awaits_unary hp.derives
    rw [hc] at ho' hd'
    cases ho' with
    | @group stack w₀ v₀ t₀ sign h hsign ht₀ =>
      refine .of_eq hd h (.operator (hsign.derives (.group ht₀ hd' ht))) ?_
      simp [← heq]
  | finish hs ht hc =>
    rw [hs] at hp
    obtain ⟨w', u', ho', hd', heq⟩ := ho.collapse ho.awaits_unary hp.derives
    rw [hc] at ho' hd'
    cases ho'
    rw [List.nil_append] at heq
    have hd'' := hd.append (.cons hd' ht .nil)
    rw [← List.reverse_cons] at hd''
    exact .of_eq hd'' .nil (.operand .none) (by simp [← heq])

/-- **Every state is made of the tokens that were read.** -/
theorem Reads.made {room : Nat} {s s' : State String} (h : Reads byName room s u s')
    (hm : Made s w) : Made s' (w ++ u) := by
  induction h generalizing w with
  | nil => rwa [List.append_nil]
  | cons ht _ _ ih => simpa using ih (ht.made hm)

theorem betweenStatements_iff {ν : Type} {s : State ν} :
    s.betweenStatements = true ↔ s.stack = [] ∧ s.phase = .operand none := by
  obtain ⟨done, stack, phase, locals⟩ := s
  cases stack with
  | cons item stack => simp [State.betweenStatements]
  | nil =>
    cases phase with
    | operator e => simp [State.betweenStatements]
    | operand sign => cases sign <;> simp [State.betweenStatements]

theorem Made.derivesProgram {s : State String} (h : Made s w) (hs : s.betweenStatements = true) :
    DerivesProgram w s.done.reverse := by
  obtain ⟨hstack, hphase⟩ := betweenStatements_iff.1 hs
  obtain ⟨hd, ho, hp⟩ := h
  rw [hstack] at ho
  rw [hphase] at hp
  cases ho
  cases hp.signTokens
  simpa using hd

end FrameLang

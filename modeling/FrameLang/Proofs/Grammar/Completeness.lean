import FrameLang.Proofs.Grammar
import FrameLang.Proofs.Names

/-!
# Every derivation is read

The machine reads what the grammar derives, and with room for as many levels as there are tokens it
has room enough.

While it reads a chain it leaves operators on the stack, since a tighter one may follow.  So the
statement is about the stack and the operand that are left together: `Folds k items e' e` says that
`items` become `e` when they are given `e'`, whatever lies under them, and that all of their
operators bind at least as tightly as `k`.  The induction is on the derivation.

* `Derives.reads`: the machine reads a derivation of any nonterminal.
* `DerivesProgram.reads`: it reads a whole program and has its trees.
-/

namespace FrameLang

/-- The operator on top of the stack, if there is one, binds looser than `k`. -/
def Awaits {ν : Type} (k : Nat) (stack : List (Unfinished ν)) : Prop :=
  ∀ o first rest, stack = .binary o first :: rest → o.level < k

section

variable {ν : Type} {k m : Nat} {stack : List (Unfinished ν)} {e : Node ν}

theorem Awaits.mono (h : Awaits k stack) (hk : k ≤ m) : Awaits m stack :=
  fun o first rest hs => Nat.lt_of_lt_of_le (h o first rest hs) hk

theorem awaits_nil : Awaits k ([] : List (Unfinished ν)) := fun _ _ _ h => by cases h

theorem awaits_group {sign : Option Sign} : Awaits k (.group sign :: stack) :=
  fun _ _ _ h => by cases h

theorem awaits_assign : Awaits k (.assign e :: stack) := fun _ _ _ h => by cases h

theorem awaits_binary {o : Operator} : Awaits (o.level + 1) (.binary o e :: stack) := by
  intro o' first rest h
  cases h
  exact Nat.lt_succ_self _

theorem Awaits.reduce_eq (h : Awaits k stack) : reduce k stack e = (stack, e) := by
  cases stack with
  | nil => rfl
  | cons item rest =>
    cases item with
    | binary o first => rw [reduce, if_neg (Nat.not_le.2 (h o first rest rfl))]
    | assign target => rfl
    | group sign => rfl

/-- The items become `e` when they are given `e'`: nothing but operators that bind at least as
tightly as `k`. -/
structure Folds (k : Nat) (items : List (Unfinished ν)) (e' e : Node ν) : Prop where
  reduce : ∀ j ≤ k, ∀ rest, reduce j (items ++ rest) e' = reduce j rest e
  collapse : ∀ rest, collapse (items ++ rest) e' = collapse rest e

theorem Folds.nil : Folds k [] e e := ⟨fun _ _ _ => rfl, fun _ => rfl⟩

theorem Folds.mono {items : List (Unfinished ν)} {e' : Node ν} (h : Folds m items e' e)
    (hk : k ≤ m) : Folds k items e' e :=
  ⟨fun j hj => h.reduce j (Nat.le_trans hj hk), h.collapse⟩

theorem Folds.binary {items : List (Unfinished ν)} {o : Operator} {first e' : Node ν}
    (h : Folds (o.level + 1) items e' e) :
    Folds o.level (items ++ [.binary o first]) e' (o.apply first e) := by
  constructor
  · intro j hj rest
    rw [List.append_assoc, h.reduce j (Nat.le_succ_of_le hj), List.singleton_append,
      FrameLang.reduce, if_pos hj]
  · intro rest
    rw [List.append_assoc, h.collapse, List.singleton_append, FrameLang.collapse]

end

/-- Between two states the statements are the same, and the second holds an expression on a
stack. -/
structure Holds {ν : Type} (s s' : State ν) (stack : List (Unfinished ν)) (e : Node ν) : Prop where
  done : s'.done = s.done
  stack : s'.stack = stack
  phase : s'.phase = .operator e

variable {room : Nat}

/-- From every state that awaits an expression of the nonterminal, with room enough, the machine
reads the tokens and holds items that become the tree. -/
def ReadsAs (room : Nat) : Nonterminal → List Token → Node String → Prop
  | .assignment, u, e =>
    ∀ s : State String, s.phase = .operand none → Awaits 0 s.stack →
      levels s.stack + u.length ≤ room →
      ∃ s' items e', Reads byName room s u s' ∧ Holds s s' (items ++ s.stack) e' ∧
        ∀ rest, collapse (items ++ rest) e' = collapse rest e
  | .chain l, u, e =>
    ∀ s : State String, s.phase = .operand none → Awaits l.rank s.stack →
      levels s.stack + u.length ≤ room →
      ∃ s' items e', Reads byName room s u s' ∧ Holds s s' (items ++ s.stack) e' ∧
        Folds l.rank items e' e
  | .unary, u, e =>
    ∀ s : State String, s.phase = .operand none → levels s.stack + u.length ≤ room →
      ∃ s', Reads byName room s u s' ∧ Holds s s' s.stack e
  | .primary, u, e =>
    ∀ (s : State String) (sign : Option Sign), s.phase = .operand sign →
      levels s.stack + u.length ≤ room →
      ∃ s', Reads byName room s u s' ∧ Holds s s' s.stack (signed sign e)

theorem ReadsAs.operand {l : Level} {u : List Token} {e : Node String}
    (h : ReadsAs room l.operand u e) (s : State String) (hs : s.phase = .operand none)
    (ha : Awaits (l.rank + 1) s.stack) (hroom : levels s.stack + u.length ≤ room) :
    ∃ s' items e', Reads byName room s u s' ∧ Holds s s' (items ++ s.stack) e' ∧
      Folds (l.rank + 1) items e' e := by
  cases l with
  | equality => exact h s hs ha hroom
  | relational => exact h s hs ha hroom
  | additive => exact h s hs ha hroom
  | term =>
    obtain ⟨s', hr, hh⟩ := h s hs hroom
    exact ⟨s', [], e, hr, hh, .nil⟩

theorem ReadsAs.more {l : Level} {u v : List Token} {t : Token} {o : Operator} {e f : Node String}
    (h : ReadsAs room (.chain l) u e) (ht : t.cls.operator? = some o) (hl : o.level = l.rank)
    (h' : ReadsAs room l.operand v f) : ReadsAs room (.chain l) (u ++ t :: v) (o.apply e f) := by
  intro s hs ha hroom
  rw [List.length_append, List.length_cons] at hroom
  obtain ⟨s₁, items, e₁, hr₁, hh₁, hf₁⟩ := h s hs ha (by omega)
  -- the operator takes all that was left on the stack, and nothing from under it
  have hreduce : reduce o.level s₁.stack e₁ = (s.stack, e) := by
    rw [hh₁.stack, hl, hf₁.reduce _ (Nat.le_refl _), ha.reduce_eq]
  have htakes : Takes byName s₁ t _ := .operator hh₁.phase ht hreduce
  obtain ⟨s₂, items', f', hr₂, hh₂, hf₂⟩ :=
    h'.operand { s₁ with stack := .binary o e :: s.stack, phase := .operand none } rfl
      (hl ▸ awaits_binary) (by simp only [levels_binary]; omega)
  refine ⟨s₂, items' ++ [.binary o e], f', ?_, ?_, ?_⟩
  · exact hr₁.append (.cons_of_not_opens htakes (not_opens_of_operator? ht) hr₂)
  · refine ⟨hh₂.done.trans hh₁.done, ?_, hh₂.phase⟩
    rw [hh₂.stack, List.append_assoc, List.singleton_append]
  · rw [← hl] at hf₂ ⊢
    exact hf₂.binary

theorem ReadsAs.assign {u v : List Token} {t : Token} {e f : Node String}
    (h : ReadsAs room (.chain .equality) u e) (ht : t.cls = .punct .assign)
    (h' : ReadsAs room .assignment v f) :
    ReadsAs room .assignment (u ++ t :: v) (.assign e f) := by
  intro s hs ha hroom
  rw [List.length_append, List.length_cons] at hroom
  obtain ⟨s₁, items, e₁, hr₁, hh₁, hf₁⟩ := h s hs ha (by omega)
  have hreduce : reduce 0 s₁.stack e₁ = (s.stack, e) := by
    rw [hh₁.stack, hf₁.reduce _ (Nat.zero_le _), ha.reduce_eq]
  have htakes : Takes byName s₁ t _ := .assign hh₁.phase ht hreduce
  obtain ⟨s₂, items', f', hr₂, hh₂, hf₂⟩ :=
    h' { s₁ with stack := .assign e :: s.stack, phase := .operand none } rfl awaits_assign
      (by simp only [levels_assign]; omega)
  refine ⟨s₂, items' ++ [.assign e], f', hr₁.append (.cons htakes ?_ hr₂), ?_, ?_⟩
  · intro _
    rw [← levels_eq_of_reduce hreduce]
    omega
  · refine ⟨hh₂.done.trans hh₁.done, ?_, hh₂.phase⟩
    rw [hh₂.stack, List.append_assoc, List.singleton_append]
  · intro rest
    rw [List.append_assoc, hf₂, List.singleton_append, collapse]

theorem ReadsAs.group {u : List Token} {t t' : Token} {e : Node String}
    (ht : t.cls = .punct .leftParen) (h : ReadsAs room .assignment u e)
    (ht' : t'.cls = .punct .rightParen) : ReadsAs room .primary (t :: (u ++ [t'])) e := by
  intro s sign hs hroom
  rw [List.length_cons, List.length_append] at hroom
  have htakes : Takes byName s t _ := .openGroup hs ht
  obtain ⟨s₁, items, e₁, hr₁, hh₁, hf₁⟩ :=
    h { s with stack := .group sign :: s.stack, phase := .operand none } rfl awaits_group
      (by simp only [levels_group]; omega)
  have hcollapse : collapse s₁.stack e₁ = (.group sign :: s.stack, e) := by
    rw [hh₁.stack, hf₁, collapse]
    · exact fun _ _ _ h => by cases h
    · exact fun _ _ h => by cases h
  have hclose : Reads byName room s₁ [t'] _ :=
    .single (.closeGroup hh₁.phase ht' hcollapse) (by simp [Token.opens, ht'])
  exact ⟨_, .cons htakes (fun _ => by omega) (hr₁.append hclose), hh₁.done, rfl, rfl⟩

/-- **The machine reads every derivation.** -/
theorem Derives.reads {n : Nonterminal} {u : List Token} {e : Node String} (h : Derives n u e) :
    ReadsAs room n u e := by
  induction h with
  | value _ ih =>
    intro s hs ha hroom
    obtain ⟨s', items, e', hr, hh, hf⟩ := ih s hs ha hroom
    exact ⟨s', items, e', hr, hh, hf.collapse⟩
  | assign _ ht _ ih ih' => exact ih.assign ht ih'
  | first _ ih =>
    intro s hs ha hroom
    obtain ⟨s', items, e', hr, hh, hf⟩ := ih.operand s hs (ha.mono (Nat.le_succ _)) hroom
    exact ⟨s', items, e', hr, hh, hf.mono (Nat.le_succ _)⟩
  | more _ ht hj _ ih ih' =>
    obtain ⟨o, ho, hl, rfl⟩ := Level.join?_eq_some_iff.1 hj
    exact ih.more (by rw [ht]; exact ho) hl ih'
  | plain _ ih => exact fun s hs hroom => ih s none hs hroom
  | plus ht _ ih =>
    intro s hs hroom
    rw [List.length_cons] at hroom
    obtain ⟨s', hr, hh⟩ := ih { s with phase := .operand (some .plus) } _ rfl (by simp; omega)
    exact ⟨s', .cons_of_not_opens (.plus hs ht) (by simp [Token.opens, ht]) hr, hh.done, hh.stack,
      hh.phase⟩
  | minus ht _ ih =>
    intro s hs hroom
    rw [List.length_cons] at hroom
    obtain ⟨s', hr, hh⟩ := ih { s with phase := .operand (some .minus) } _ rfl (by simp; omega)
    exact ⟨s', .cons_of_not_opens (.minus hs ht) (by simp [Token.opens, ht]) hr, hh.done, hh.stack,
      hh.phase⟩
  | literal ht =>
    intro s sign hs hroom
    exact ⟨_, .single (.literal hs ht) (by simp [Token.opens, ht]), rfl, rfl, rfl⟩
  | name ht =>
    intro s sign hs hroom
    exact ⟨_, .single (.name hs ht) (by simp [Token.opens, ht]), rfl, rfl, rfl⟩
  | group ht _ ht' ih => exact ih.group ht ht'

/-- **The machine reads every program**, and has its trees. -/
theorem DerivesProgram.reads {u : List Token} {es : List (Node String)}
    (h : DerivesProgram u es) (s : State String) (hstack : s.stack = [])
    (hphase : s.phase = .operand none) (hroom : u.length ≤ room) :
    ∃ s', Reads byName room s u s' ∧ s'.done = es.reverse ++ s.done ∧ s'.stack = [] ∧
      s'.phase = .operand none := by
  induction h generalizing s with
  | nil => exact ⟨s, .nil s, rfl, hstack, hphase⟩
  | @cons u v t e es h ht _ ih =>
    rw [List.length_append, List.length_cons] at hroom
    obtain ⟨s₁, items, e', hr, hh, hf⟩ := (h.reads : ReadsAs room _ u e) s hphase
      (hstack ▸ awaits_nil) (by rw [hstack, levels_nil]; omega)
    have hcollapse : collapse s₁.stack e' = ([], e) := by
      rw [hh.stack, hstack, hf]
      rfl
    obtain ⟨s₂, hr₂, hdone, hs₂, hp₂⟩ := ih (s₁.finish e) rfl rfl (by omega)
    have hsemicolon : Reads byName room s₁ [t] (s₁.finish e) :=
      .single (.finish hh.phase ht hcollapse) (by simp [Token.opens, ht])
    refine ⟨s₂, hr.append (hsemicolon.append hr₂), ?_, hs₂, hp₂⟩
    rw [hdone, List.reverse_cons, List.append_assoc, State.finish, hh.done]
    rfl

end FrameLang

import FrameLang.Proofs.Machine

/-!
# Parsing by names

What the machine does with a name does not matter for how it goes on.  So a parse can be run with
the names themselves in its trees, and the offsets can be put in at the end.

* `Locals.declareTokens`: a table after the names of some tokens have been declared in order.
  `Reads.locals_eq` says that this is the table after these tokens have been read.
* `Locals.Extends`: every name of one table is found in another at the same offset.  Declaring keeps
  this, so the offset that a name got when it was read is the one that the last table has for it.
* `State.renamed`, `State.step_renamed`: a state with its variables replaced, over another table and
  after other statements, goes on in the same way.
* `run_slot`: the run with offsets is the run by names with the offsets of its last table put in.
* `Parser.parse_eq`: the same for a whole call of a parser.
-/

namespace FrameLang

/-! ## Tables that grow -/

theorem Token.name?_of_ident {t : Token} (h : t.cls = .ident) : t.name? = some t.text := by
  rw [name?, h]

theorem Token.name?_of_ne_ident {t : Token} (h : t.cls ≠ .ident) : t.name? = none := by
  cases hc : t.cls with
  | ident => exact absurd hc h
  | punct p => rw [name?, hc]
  | num value => rw [name?, hc]
  | eof => rw [name?, hc]

namespace Locals

def declareToken (locals : Locals) (t : Token) : Locals :=
  match t.name? with
  | some name => locals.declare name
  | none => locals

def declareTokens (locals : Locals) (ts : List Token) : Locals := ts.foldl declareToken locals

@[simp] theorem declareTokens_nil (locals : Locals) : locals.declareTokens [] = locals := rfl

@[simp] theorem declareTokens_cons (locals : Locals) (t : Token) (ts : List Token) :
    locals.declareTokens (t :: ts) = (locals.declareToken t).declareTokens ts := rfl

@[simp] theorem declareTokens_append (locals : Locals) (u v : List Token) :
    locals.declareTokens (u ++ v) = (locals.declareTokens u).declareTokens v := List.foldl_append

theorem declareToken_of_ident {locals : Locals} {t : Token} (h : t.cls = .ident) :
    locals.declareToken t = locals.declare t.text := by
  rw [declareToken, Token.name?_of_ident h]

theorem declareToken_of_ne_ident {locals : Locals} {t : Token} (h : t.cls ≠ .ident) :
    locals.declareToken t = locals := by
  rw [declareToken, Token.name?_of_ne_ident h]

/-- Every name of `t` is found in `t'` at the same offset. -/
def Extends (t' t : Locals) : Prop :=
  ∀ name offset, t.lookup? name = some offset → t'.lookup? name = some offset

theorem Extends.refl (t : Locals) : t.Extends t := fun _ _ h => h

theorem Extends.trans {t t' t'' : Locals} (h : t''.Extends t') (h' : t'.Extends t) :
    t''.Extends t := fun name offset ht => h name offset (h' name offset ht)

theorem extends_declareToken (locals : Locals) (t : Token) :
    (locals.declareToken t).Extends locals := by
  intro name offset h
  by_cases ht : t.cls = .ident
  · rw [declareToken_of_ident ht]
    exact lookup?_declare_of_some h t.text
  · rwa [declareToken_of_ne_ident ht]

theorem extends_declareTokens (locals : Locals) (ts : List Token) :
    (locals.declareTokens ts).Extends locals := by
  induction ts generalizing locals with
  | nil => exact .refl locals
  | cons t ts ih => exact (ih _).trans (extends_declareToken locals t)

/-- A table that was extended after a name was declared has the slot that the name got then. -/
theorem Extends.slot_eq {t t' : Locals} {name : String} (h : t'.Extends (t.declare name)) :
    t'.slot name = t.slot name := by
  rw [slot, h name _ (lookup?_declare_self t name), Option.getD_some]

/-- The offset that an identifier gets where it stands is the one that is found in the end. -/
theorem slot_declareTokens {locals : Locals} {u v : List Token} {t : Token} (h : t.cls = .ident) :
    (locals.declareTokens (u ++ t :: v)).slot t.text = (locals.declareTokens u).slot t.text := by
  rw [declareTokens_append, declareTokens_cons, declareToken_of_ident h]
  exact (extends_declareTokens _ v).slot_eq

end Locals

section

variable {ν : Type} {resolve : Locals → String → ν} {room : Nat} {s s' : State ν}

theorem Takes.locals_eq {t : Token} (h : Takes resolve s t s') :
    s'.locals = s.locals.declareToken t := by
  cases h with
  | name hs ht => exact (Locals.declareToken_of_ident ht).symm
  | plus hs ht => exact (Locals.declareToken_of_ne_ident (by simp [ht])).symm
  | minus hs ht => exact (Locals.declareToken_of_ne_ident (by simp [ht])).symm
  | literal hs ht => exact (Locals.declareToken_of_ne_ident (by simp [ht])).symm
  | openGroup hs ht => exact (Locals.declareToken_of_ne_ident (by simp [ht])).symm
  | assign hs ht => exact (Locals.declareToken_of_ne_ident (by simp [ht])).symm
  | closeGroup hs ht => exact (Locals.declareToken_of_ne_ident (by simp [ht])).symm
  | finish hs ht => exact (Locals.declareToken_of_ne_ident (by simp [ht])).symm
  | operator hs ht =>
    refine (Locals.declareToken_of_ne_ident fun hi => ?_).symm
    rw [hi] at ht
    cases ht

theorem Reads.locals_eq {u : List Token} (h : Reads resolve room s u s') :
    s'.locals = s.locals.declareTokens u := by
  induction h with
  | nil => rfl
  | cons ht _ _ ih => rw [ih, ht.locals_eq, Locals.declareTokens_cons]

theorem extends_run (s : State ν) (ts : List Token) :
    (run resolve room s ts).state.locals.Extends s.locals := by
  obtain ⟨u, s', hu, ⟨-, h⟩ | ⟨t, rest, r, -, -, h⟩⟩ := exists_reads_of_run resolve room s ts
  all_goals
    rw [h, show s'.locals = _ from hu.locals_eq]
    exact Locals.extends_declareTokens _ _

end

/-! ## Replacing what stands for the names -/

variable {ν μ : Type} (f : ν → μ)

theorem signed_map (sign : Option Sign) (e : Node ν) :
    (signed sign e).map f = signed sign (e.map f) := by
  cases sign with
  | none => rfl
  | some sign => cases sign <;> rfl

theorem Operator.apply_map (o : Operator) (first second : Node ν) :
    (o.apply first second).map f = o.apply (first.map f) (second.map f) := by
  unfold Operator.apply
  split <;> rfl

/-- What is unfinished, with every variable replaced. -/
def Unfinished.map : Unfinished ν → Unfinished μ
  | binary o first => binary o (first.map f)
  | assign target => assign (target.map f)
  | group sign => group sign

def Phase.map : Phase ν → Phase μ
  | operand sign => operand sign
  | operator e => operator (e.map f)

def State.map (s : State ν) : State μ where
  done := s.done.map (Node.map f)
  stack := s.stack.map (Unfinished.map f)
  phase := s.phase.map f
  locals := s.locals

def Run.map (r : Run ν) : Run μ := ⟨r.state.map f, r.refusal?, r.rest⟩

theorem levels_map (stack : List (Unfinished ν)) :
    levels (stack.map (Unfinished.map f)) = levels stack := by
  induction stack with
  | nil => rfl
  | cons item stack ih => cases item <;> simp [Unfinished.map, ih]

theorem aroundGroup?_map (stack : List (Unfinished ν)) :
    aroundGroup? (stack.map (Unfinished.map f)) =
      (aroundGroup? stack).map (List.map (Unfinished.map f)) := by
  fun_induction aroundGroup? stack with
  | case1 => rfl
  | case2 => rfl
  | case3 _ _ _ ih => exact ih
  | case4 _ _ ih => exact ih

theorem reduce_map (k : Nat) (stack : List (Unfinished ν)) (e : Node ν) :
    reduce k (stack.map (Unfinished.map f)) (e.map f) =
      ((reduce k stack e).1.map (Unfinished.map f), (reduce k stack e).2.map f) := by
  fun_induction reduce k stack e with
  | case1 e o first stack h ih =>
    rw [List.map_cons, Unfinished.map, reduce, if_pos h, ← Operator.apply_map, ih]
  | case2 e o first stack h => rw [List.map_cons, Unfinished.map, reduce, if_neg h]
  | case3 stack e hb =>
    cases stack with
    | nil => rfl
    | cons item rest =>
      cases item with
      | binary o first => exact absurd rfl (hb o first rest)
      | assign target => rfl
      | group sign => rfl

theorem collapse_map (stack : List (Unfinished ν)) (e : Node ν) :
    collapse (stack.map (Unfinished.map f)) (e.map f) =
      ((collapse stack e).1.map (Unfinished.map f), (collapse stack e).2.map f) := by
  fun_induction collapse stack e with
  | case1 e o first stack ih =>
    rw [List.map_cons, Unfinished.map, collapse, ← Operator.apply_map, ih]
  | case2 e target stack ih =>
    rw [List.map_cons, Unfinished.map, collapse, ← ih]
    rfl
  | case3 stack e hb ha =>
    cases stack with
    | nil => rfl
    | cons item rest =>
      cases item with
      | binary o first => exact absurd rfl (hb o first rest)
      | assign target => exact absurd rfl (ha target rest)
      | group sign => rfl

namespace State

variable {f} {resolve : Locals → String → ν} {resolve' : Locals → String → μ} {room : Nat}

theorem refusal_map (s : State ν) : (s.map f).refusal = s.refusal := by
  obtain ⟨done, stack, phase, locals⟩ := s
  cases phase with
  | operand sign => rfl
  | operator e => simp only [refusal, map, Phase.map, aroundGroup?_map, Option.isSome_map]

theorem betweenStatements_map (s : State ν) :
    (s.map f).betweenStatements = s.betweenStatements := by
  obtain ⟨done, stack, phase, locals⟩ := s
  cases stack with
  | cons item stack => rfl
  | nil =>
    cases phase with
    | operand sign => cases sign <;> rfl
    | operator e => rfl

theorem abandoned_map (s : State ν) (r : Refusal) : (s.map f).abandoned r = s.abandoned r := by
  cases r with
  | mismatch expected =>
    rw [abandoned, abandoned, map, aroundGroup?_map]
    cases aroundGroup? s.stack with
    | none => rfl
    | some stack => exact levels_map f stack
  | missingOperand => exact levels_map f s.stack
  | tooDeep => exact levels_map f s.stack

/-- The state with every variable replaced, over another table and after other statements. -/
def renamed (f : ν → μ) (earlier : List (Node μ)) (locals : Locals) (s : State ν) : State μ where
  done := s.done.map (Node.map f) ++ earlier
  stack := s.stack.map (Unfinished.map f)
  phase := s.phase.map f
  locals := locals

theorem map_eq_renamed (s : State ν) : s.map f = s.renamed f [] s.locals := by
  rw [renamed, List.append_nil, map]

variable {s : State ν} {t t' : Token} {earlier : List (Node μ)} {locals : Locals}

theorem refusal_renamed (s : State ν) : (s.renamed f earlier locals).refusal = s.refusal :=
  refusal_map (f := f) s

theorem betweenStatements_renamed (s : State ν) :
    (s.renamed f earlier locals).betweenStatements = s.betweenStatements :=
  betweenStatements_map (f := f) s

theorem enter_renamed (s : State ν) (item : Unfinished ν) (stack : List (Unfinished ν)) :
    (s.renamed f earlier locals).enter room (item.map f) (stack.map (Unfinished.map f)) =
      (s.enter room item stack).map (renamed f earlier locals) := by
  rw [enter, enter, levels_map]
  split <;> rfl

/-- **A step goes on in the same way whatever stands for the names**, and whatever is in the table
or was done before. -/
theorem step_renamed (hcls : t'.cls = t.cls)
    (hname : t.cls = .ident → resolve' locals t'.text = f (resolve s.locals t.text)) :
    (s.renamed f earlier locals).step resolve' room t' =
      (s.step resolve room t).map (renamed f earlier (locals.declareToken t')) := by
  have hother : t.cls ≠ .ident → locals.declareToken t' = locals := fun hne =>
    Locals.declareToken_of_ne_ident (by rwa [hcls])
  cases hs : s.phase with
  | operand sign =>
    have hs' : (s.renamed f earlier locals).phase = .operand sign := by rw [renamed, hs]; rfl
    simp only [step, hs, hs', stepOperand, refusal_renamed, hcls]
    split
    case h_1 ht => rw [hother (by simp [ht])]; rfl
    case h_2 ht => rw [hother (by simp [ht])]; rfl
    case h_3 ht =>
      rw [hother (by simp [ht])]
      simp only [Except.map, renamed, Phase.map, signed_map]
      rfl
    case h_4 ht =>
      rw [Locals.declareToken_of_ident (hcls.trans ht)]
      simp only [Except.map, renamed, Phase.map, signed_map, Node.map, hname ht]
    case h_5 ht =>
      rw [hother (by simp [ht])]
      exact enter_renamed s (.group _) s.stack
    case h_6 => rfl
  | operator e =>
    have hs' : (s.renamed f earlier locals).phase = .operator (e.map f) := by rw [renamed, hs]; rfl
    have hstack : (s.renamed f earlier locals).stack = s.stack.map (Unfinished.map f) := rfl
    simp only [step, hs, hs', stepOperator, refusal_renamed, hstack, reduce_map, collapse_map, hcls]
    split
    case h_1 ht =>
      rw [hother (by simp [ht])]
      exact enter_renamed s (.assign _) _
    case h_2 ht =>
      rw [hother (by simp [ht])]
      rcases collapse s.stack e with ⟨_ | ⟨_ | _ | sign, stack⟩, inner⟩
      · rfl
      · rfl
      · rfl
      · show Except.ok _ = Except.ok _
        simp only [renamed, Phase.map, signed_map]
    case h_3 ht =>
      rw [hother (by simp [ht])]
      rcases collapse s.stack e with ⟨_ | ⟨item, stack⟩, whole⟩
      · rfl
      · rfl
    case h_4 =>
      split
      case h_1 ho =>
        have hne : t.cls ≠ .ident := by
          intro ht
          rw [ht] at ho
          cases ho
        rw [hother hne]
        rfl
      case h_2 => rfl

theorem step_map (h : t.cls = .ident → resolve' s.locals t.text = f (resolve s.locals t.text)) :
    (s.map f).step resolve' room t = (s.step resolve room t).map (State.map f) := by
  rw [map_eq_renamed, step_renamed rfl h]
  cases hstep : s.step resolve room t with
  | error r => rfl
  | ok s' =>
    have hlocals := (step_eq_ok_iff.1 hstep).1.locals_eq
    rw [Except.map, Except.map, map_eq_renamed, hlocals]

end State

/-- The name of an identifier stands for itself. -/
def byName (_ : Locals) (name : String) : String := name

/-- **The run with offsets is the run by names**, with the offsets of the last table put in. -/
theorem run_slot {room : Nat} (locals : Locals) (s : State String) (ts : List Token)
    (h : (run byName room s ts).state.locals = locals) :
    run Locals.slot room (s.map locals.slot) ts = (run byName room s ts).map locals.slot := by
  induction ts generalizing s with
  | nil => rw [run, run, Run.map, State.betweenStatements_map, State.refusal_map]
  | cons t ts ih =>
    have hlocals : ∀ s', s.step byName room t = .ok s' → locals.Extends s'.locals := by
      intro s' hstep
      rw [← h, run, hstep]
      exact extends_run s' ts
    have hslot : t.cls = .ident → s.locals.slot t.text = locals.slot (byName s.locals t.text) := by
      intro ht
      cases hstep : s.step byName room t with
      | ok s' =>
        have hs' := (State.step_eq_ok_iff.1 hstep).1.locals_eq
        rw [Locals.declareToken_of_ident ht] at hs'
        exact (hs' ▸ hlocals s' hstep).slot_eq.symm
      | error r =>
        rw [run, hstep] at h
        rw [← h]
        rfl
    rw [run, run, State.step_map hslot]
    cases hstep : s.step byName room t with
    | error r => rfl
    | ok s' =>
      rw [run, hstep] at h
      exact ih s' h

namespace Parser

def namedRun (p : Parser) : Run String := run byName p.room (.initial p.locals) p.pending

theorem nextRun_eq (p : Parser) :
    p.nextRun = p.namedRun.map p.namedRun.state.locals.slot :=
  run_slot p.namedRun.state.locals (.initial p.locals) p.pending rfl

theorem parse_eq (p : Parser) :
    p.parse =
      match p.namedRun.refusal? with
      | none =>
        (.ok ⟨p.namedRun.state.done.reverse.map (Node.map p.namedRun.state.locals.slot),
            p.namedRun.state.locals.frameSize⟩,
          { p with pending := p.namedRun.rest, locals := p.namedRun.state.locals })
      | some refusal =>
        (.error (p.errorAt refusal p.namedRun.rest),
          { p with
            pending := afterRefusal refusal p.namedRun.rest
            locals := p.namedRun.state.locals
            depth := p.depth + p.namedRun.state.abandoned refusal }) := by
  simp only [parse, nextRun_eq, Run.map, State.abandoned_map]
  cases p.namedRun.refusal? with
  | none => simp only [State.map, List.map_reverse]
  | some refusal => rfl

end Parser

end FrameLang

import FrameLang.Proofs.Resolution

/-!
# Compiling with another way to insert

All offsets come from one operation, which gives a name the next slot.  So a machine whose addition
is not exact differs in that operation only, and everything else can be written down over it: it is
a parameter here, and it may fail.

* `Locals.declareVia`, `Locals.registerVia`, `State.stepVia`, `runVia`, `compileVia`: declaring,
  registering, a step, a run and a compilation over an operation that inserts.
* `Locals.LeadsTo`: a later table of the same run.
* `InsertsUpTo`: the operation inserts correctly wherever a given last table can still be reached.
* `compileVia_eq`: then a compilation with that last table does not depend on the operation.
* `compileVia_insert`: over the exact operation it is the compilation itself.
-/

namespace FrameLang

/-! ## Later tables -/

namespace Locals

variable {t t' t'' : Locals} {x : String} {ts : List Token}

/-- The second table comes from the first by some insertions. -/
def LeadsTo (t t' : Locals) : Prop := ∃ names, t' = t.insertAll names

theorem LeadsTo.refl (t : Locals) : t.LeadsTo t := ⟨[], rfl⟩

theorem LeadsTo.trans (h : t.LeadsTo t') (h' : t'.LeadsTo t'') : t.LeadsTo t'' := by
  obtain ⟨xs, rfl⟩ := h
  obtain ⟨ys, rfl⟩ := h'
  exact ⟨xs ++ ys, (insertAll_append t xs ys).symm⟩

theorem leadsTo_declareTokens (t : Locals) (ts : List Token) : t.LeadsTo (t.declareTokens ts) := by
  obtain ⟨xs, hxs, -⟩ := t.exists_declareTokens_eq_insertAll ts
  exact ⟨xs, hxs⟩

theorem leadsTo_registerTokens (t : Locals) (ts : List Token) :
    t.LeadsTo (t.registerTokens ts) := by
  obtain ⟨xs, hxs, -⟩ := t.exists_registerTokens_eq_insertAll ts
  exact ⟨xs, hxs⟩

end Locals

/-! ## Tables over an operation -/

section

variable (insert : Locals → String → Option Locals)

def Locals.declareVia (t : Locals) (name : String) : Option Locals :=
  if (t.lookup? name).isSome then some t else insert t name

def Locals.registerVia (t : Locals) (name : String) : Option Locals :=
  match t.mode with
  | .unique => t.declareVia insert name
  | .shadowing => insert t name

def Locals.registerTokenVia (t : Locals) (a : Token) : Option Locals :=
  match a.name? with
  | some name => t.registerVia insert name
  | none => some t

def Locals.registerTokensVia (t : Locals) (ts : List Token) : Option Locals :=
  ts.foldlM (registerTokenVia insert) t

def State.stepVia (room : Nat) (s : State Nat) (t : Token) :
    Option (Except Refusal (State Nat)) :=
  match s.phase, t.cls with
  | .operand sign, .ident => do
    let locals ← s.locals.declareVia insert t.text
    return .ok { s with
      phase := .operator (signed sign (.var (locals.slot t.text)))
      locals := locals }
  | _, _ => some (s.step Locals.slot room t)

def runVia (room : Nat) : State Nat → List Token → Option (Run Nat)
  | s, [] => some ⟨s, if s.betweenStatements then none else some s.refusal, []⟩
  | s, t :: ts => do
    match ← s.stepVia insert room t with
    | .ok s' => runVia room s' ts
    | .error refusal => return ⟨s, some refusal, t :: ts⟩

/-- The answer to a run of a parser, and the table that is left. -/
def Parser.conclude (p : Parser) (r : Run Nat) : Except SyntaxError Program × Locals :=
  match r.refusal? with
  | none => (.ok ⟨r.state.done.reverse, r.state.locals.frameSize⟩, r.state.locals)
  | some refusal => (.error (p.errorAt refusal r.rest), r.state.locals)

def parseProgramVia (config : Config) (tokens : List Token) (locals : Locals) :
    Option (Except SyntaxError Program × Locals) := do
  let p := (Parser.ofTokens tokens locals).withMaxDepth config.maxDepth
  return p.conclude (← runVia insert p.room (.initial p.locals) p.pending)

def Config.startTableVia (config : Config) (t : Locals) (ts : List Token) : Option Locals :=
  if config.eager then t.registerTokensVia insert ts else some t

def compileVia (config : Config) (source : String) (locals : Locals) :
    Option (Except CompileError Program × Locals) := do
  let start ← config.startTableVia insert locals (scan source).tokens
  match tokenize source with
  | .error e => return (.error (.lexical e), start)
  | .ok tokens => do
    let (answer, locals) ← parseProgramVia insert config tokens start
    return (answer.mapError .syntactic, locals)

end

/-! ## Operations that insert -/

/-- The operation inserts wherever the table `final` can still be reached. -/
def InsertsUpTo (insert : Locals → String → Option Locals) (final : Locals) : Prop :=
  ∀ t x, (t.insert x).LeadsTo final → insert t x = some (t.insert x)

section

variable {insert : Locals → String → Option Locals} {final t : Locals} {x : String} {room : Nat}
  {s : State Nat} {a : Token} {ts : List Token}

theorem Locals.declareVia_eq (h : InsertsUpTo insert final) (hx : (t.declare x).LeadsTo final) :
    t.declareVia insert x = some (t.declare x) := by
  unfold declareVia declare at *
  split
  case isTrue => rfl
  case isFalse hnone =>
    rw [if_neg hnone] at hx
    exact h t x hx

theorem Locals.registerVia_eq (h : InsertsUpTo insert final) (hx : (t.register x).LeadsTo final) :
    t.registerVia insert x = some (t.register x) := by
  unfold registerVia register at *
  cases hmode : t.mode with
  | unique =>
    rw [hmode] at hx
    exact declareVia_eq h hx
  | shadowing =>
    rw [hmode] at hx
    exact h t x hx

theorem Locals.registerTokenVia_eq (h : InsertsUpTo insert final)
    (ha : (t.registerToken a).LeadsTo final) :
    t.registerTokenVia insert a = some (t.registerToken a) := by
  unfold registerTokenVia registerToken at *
  cases hname : a.name? with
  | none => rfl
  | some name =>
    rw [hname] at ha
    exact registerVia_eq h ha

theorem Locals.registerTokensVia_eq (h : InsertsUpTo insert final)
    (hts : (t.registerTokens ts).LeadsTo final) :
    t.registerTokensVia insert ts = some (t.registerTokens ts) := by
  induction ts generalizing t with
  | nil => rfl
  | cons a ts ih =>
    rw [registerTokens_cons] at hts ⊢
    have ha := registerTokenVia_eq h ((leadsTo_registerTokens _ ts).trans hts)
    rw [registerTokensVia, List.foldlM_cons, ha]
    exact ih hts

theorem Config.startTableVia_eq {config : Config} (h : InsertsUpTo insert final)
    (hts : (config.startTable t ts).LeadsTo final) :
    config.startTableVia insert t ts = some (config.startTable t ts) := by
  unfold startTableVia startTable at *
  split
  case isTrue heager =>
    rw [if_pos heager] at hts
    exact Locals.registerTokensVia_eq h hts
  case isFalse => rfl

theorem State.stepVia_eq (h : InsertsUpTo insert final)
    (hs : ∀ s', s.step Locals.slot room a = .ok s' → s'.locals.LeadsTo final) :
    s.stepVia insert room a = some (s.step Locals.slot room a) := by
  cases hphase : s.phase with
  | operator e => simp only [stepVia, hphase]
  | operand sign =>
    cases hcls : a.cls with
    | ident =>
      have htakes : Takes Locals.slot s a _ := .name hphase hcls
      have hstep : s.step Locals.slot room a = .ok _ :=
        step_eq_ok_iff.2 ⟨htakes, by simp [Token.opens, hcls]⟩
      have hdeclared := Locals.declareVia_eq h (hs _ hstep)
      have hslot : (s.locals.declare a.text).slot a.text = s.locals.slot a.text :=
        (Locals.Extends.refl _).slot_eq
      rw [hstep]
      simp only [stepVia, hphase, hcls, hdeclared, ← hslot]
      rfl
    | punct p => simp only [stepVia, hphase, hcls]
    | num value => simp only [stepVia, hphase, hcls]
    | eof => simp only [stepVia, hphase, hcls]

theorem leadsTo_run (room : Nat) (s : State Nat) (ts : List Token) :
    s.locals.LeadsTo (run Locals.slot room s ts).state.locals := by
  obtain ⟨u, s', hr, ⟨-, hrun⟩ | ⟨a, rest, r, -, -, hrun⟩⟩ :=
    exists_reads_of_run Locals.slot room s ts
  · rw [hrun, show s'.locals = _ from hr.locals_eq]
    exact Locals.leadsTo_declareTokens _ u
  · rw [hrun, show s'.locals = _ from hr.locals_eq]
    exact Locals.leadsTo_declareTokens _ u

theorem runVia_eq (h : InsertsUpTo insert final)
    (hrun : (run Locals.slot room s ts).state.locals.LeadsTo final) :
    runVia insert room s ts = some (run Locals.slot room s ts) := by
  induction ts generalizing s with
  | nil => rfl
  | cons a ts ih =>
    rw [run] at hrun ⊢
    have hstep : s.stepVia insert room a = some (s.step Locals.slot room a) := by
      refine State.stepVia_eq h fun s' hs' => ?_
      rw [hs'] at hrun
      exact (leadsTo_run room s' ts).trans hrun
    rw [runVia, hstep]
    cases hs : s.step Locals.slot room a with
    | error r => rfl
    | ok s' =>
      rw [hs] at hrun
      exact ih hrun

theorem Parser.parse_eq_conclude (p : Parser) :
    (p.parse.1, p.parse.2.locals) = p.conclude p.nextRun := by
  cases h : p.nextRun.refusal? with
  | none => simp only [parse, conclude, h]
  | some refusal => simp only [parse, conclude, h]

theorem parseProgramVia_eq {config : Config} {tokens : List Token} (h : InsertsUpTo insert final)
    (hfinal : (parseProgram config tokens t).2.LeadsTo final) :
    parseProgramVia insert config tokens t = some (parseProgram config tokens t) := by
  have hparse := ((Parser.ofTokens tokens t).withMaxDepth config.maxDepth).parse_eq_conclude
  rw [parseProgram] at hfinal ⊢
  dsimp only at hfinal ⊢
  rw [Parser.locals_parse] at hfinal
  have hrun := runVia_eq h hfinal
  unfold parseProgramVia
  dsimp only
  rw [hrun]
  exact congrArg some hparse.symm

theorem leadsTo_parseProgram (config : Config) (tokens : List Token) (t : Locals) :
    t.LeadsTo (parseProgram config tokens t).2 := by
  obtain ⟨u, -, -, -, hu⟩ := exists_parseProgram_eq_declareTokens config tokens t
  rw [hu]
  exact Locals.leadsTo_declareTokens t u

/-- **A compilation does not depend on an operation that inserts up to its last table.** -/
theorem compileVia_eq {config : Config} {source : String}
    (h : InsertsUpTo insert (compileWith config source t).2) :
    compileVia insert config source t = some (compileWith config source t) := by
  rw [compileWith_eq] at h ⊢
  unfold compileVia
  cases htokens : tokenize source with
  | error e =>
    rw [htokens] at h
    rw [Config.startTableVia_eq h (.refl _)]
    rfl
  | ok tokens =>
    rw [htokens] at h
    rw [Config.startTableVia_eq h (leadsTo_parseProgram config tokens _)]
    have hprogram : parseProgramVia insert config tokens _ = some _ :=
      parseProgramVia_eq h (.refl _)
    simp only [Option.bind_eq_bind, Option.bind_some, hprogram]
    rfl

theorem compileVia_insert (config : Config) (source : String) (t : Locals) :
    compileVia (fun t x => some (t.insert x)) config source t =
      some (compileWith config source t) :=
  compileVia_eq fun _ _ _ => rfl

end

end FrameLang

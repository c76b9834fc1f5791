import FrameLang.Proofs.Grammar.Variables
import FrameLang.Proofs.Registering
import Mathlib.Data.List.Forall2

/-!
# Names and places of tokens

Where a token stands does not matter for what a parser makes of it, and of a name it matters only
where else it stands.

* `Token.Renamed f t t'`: the token `t'` is `t` with its name replaced, at any place.
* `State.step_renamed_byName`, `Reads.renamed`: a state with its names replaced goes on in the same
  way with these tokens.
* `Locals.rename`: a table with its names replaced.  If different names stay different, all
  operations on a table agree with this.
* `compile_of_renamed`: two sources whose tokens differ in names and places have the same program,
  or the same error at the same token.
-/

namespace FrameLang

/-- The text of a token, with another name in place of a name. -/
def Token.respelled (f : String → String) (t : Token) : String :=
  if t.cls = .ident then f t.text else t.text

/-- The token `t'` is `t` with another name, if it has one.  It may stand anywhere. -/
structure Token.Renamed (f : String → String) (t t' : Token) : Prop where
  cls : t'.cls = t.cls
  text : t'.text = t.respelled f

def SyntaxFault.mapFound (f : String → String) : SyntaxFault → SyntaxFault
  | mismatch expected found => mismatch expected (f found)
  | missingOperand found => missingOperand (f found)
  | tooDeep limit => tooDeep limit

theorem SyntaxFault.mapFound_id (fault : SyntaxFault) : fault.mapFound id = fault := by
  cases fault <;> rfl

variable {f : String → String} {s s' : State String} {t t' : Token} {u u' ts ts' : List Token}
  {room limit : Nat} {locals : Locals} {earlier : List (Node String)} {x : String}

/-! ## Tokens -/

theorem Token.respelled_of_ident (h : t.cls = .ident) : t.respelled f = f t.text := if_pos h

theorem Token.respelled_of_ne_ident (h : t.cls ≠ .ident) : t.respelled f = t.text := if_neg h

theorem Token.respelled_id (t : Token) : t.respelled id = t.text := ite_self _

namespace Token.Renamed

theorem isEof_eq (h : t.Renamed f t') : t'.isEof = t.isEof := by rw [isEof, h.cls, isEof]

theorem text_of_ident (h : t.Renamed f t') (ht : t.cls = .ident) : t'.text = f t.text := by
  rw [h.text, respelled_of_ident ht]

theorem describe_eq (h : t.Renamed f t') :
    t'.describe = if t.cls = .ident then f t.describe else t.describe := by
  unfold describe
  rw [h.cls, h.text, respelled]
  split
  case h_1 hc => rw [hc, if_neg nofun]
  case h_2 => rfl

theorem fault_eq (h : t.Renamed f t') (r : Refusal) (limit : Nat) :
    r.fault limit t' =
      if t.cls = .ident then (r.fault limit t).mapFound f else r.fault limit t := by
  cases r with
  | mismatch expected =>
    rw [Refusal.fault, h.describe_eq]
    split <;> rfl
  | missingOperand =>
    rw [Refusal.fault, h.describe_eq]
    split <;> rfl
  | tooDeep => split <;> rfl

end Token.Renamed

theorem renamed_id_iff : t.Renamed id t' ↔ t'.cls = t.cls ∧ t'.text = t.text := by
  constructor
  · intro h
    exact ⟨h.cls, h.text.trans t.respelled_id⟩
  · intro h
    exact ⟨h.1, h.2.trans t.respelled_id.symm⟩

theorem map_cls_text_of_renamed (h : List.Forall₂ (Token.Renamed f) ts ts') :
    ts'.map (fun t => (t.cls, t.text)) = ts.map fun t => (t.cls, t.respelled f) := by
  induction h with
  | nil => rfl
  | cons ht _ ih => rw [List.map_cons, List.map_cons, ih, ht.cls, ht.text]

/-! ## States -/

/-- **A renamed state does with a renamed token what the state does with the token.** -/
theorem State.step_renamed_byName (h : t.Renamed f t') :
    (s.renamed f earlier locals).step byName room t' =
      (s.step byName room t).map (renamed f earlier (locals.declareToken t')) :=
  step_renamed h.cls fun hi => h.text_of_ident hi

/-- **A renamed state reads renamed tokens as the state reads the tokens.** -/
theorem Reads.renamed (h : Reads byName room s u s') (hu : List.Forall₂ (Token.Renamed f) u u')
    (earlier : List (Node String)) (locals : Locals) :
    Reads byName room (s.renamed f earlier locals) u'
      (s'.renamed f earlier (locals.declareTokens u')) := by
  induction h generalizing u' locals with
  | nil s =>
    cases hu
    exact .nil _
  | @cons s s₁ s' t ts ht hroom _ ih =>
    cases hu with
    | @cons _ t' _ ts' hrenamed hts =>
      have hstep : (s.renamed f earlier locals).step byName room t' =
          .ok (s₁.renamed f earlier (locals.declareToken t')) := by
        rw [State.step_renamed_byName hrenamed, State.step_eq_ok_iff.2 ⟨ht, hroom⟩]
        rfl
      obtain ⟨ht', hroom'⟩ := State.step_eq_ok_iff.1 hstep
      exact .cons ht' hroom' (ih hts _)

theorem State.step_renamed_of_error {r : Refusal} (h : s.step byName room t = .error r)
    (ht : t.Renamed f t') : (s.renamed f earlier locals).step byName room t' = .error r := by
  rw [step_renamed_byName ht, h]
  rfl

/-! ## Tables -/

namespace Locals

def rename (f : String → String) (locals : Locals) : Locals :=
  { locals with entries := locals.entries.map fun e => { e with name := f e.name } }

theorem rename_id (locals : Locals) : locals.rename id = locals := by
  simp [rename]

theorem frameSize_rename (f : String → String) (locals : Locals) :
    (locals.rename f).frameSize = locals.frameSize := by
  rw [frameSize, rename, List.head?_map, Option.map_map]
  rfl

theorem insert_rename (f : String → String) (locals : Locals) (x : String) :
    (locals.rename f).insert (f x) = (locals.insert x).rename f := by
  have hnext : (locals.rename f).nextOffset = locals.nextOffset :=
    congrArg (· + locals.slotWidth) (frameSize_rename f locals)
  rw [insert, hnext]
  rfl

theorem lookup?_rename (h : ∀ e ∈ locals.entries, f e.name = f x → e.name = x) :
    (locals.rename f).lookup? (f x) = locals.lookup? x := by
  obtain ⟨w, mode, entries⟩ := locals
  simp only [lookup?, rename] at h ⊢
  induction entries with
  | nil => rfl
  | cons e es ih =>
    rw [List.forall_mem_cons] at h
    rw [List.map_cons]
    by_cases hx : e.name = x
    · rw [List.find?_cons_of_pos (by simp [hx]), List.find?_cons_of_pos (by simp [hx])]
      rfl
    · have hfx : f e.name ≠ f x := fun hfx => hx (h.1 hfx)
      rw [List.find?_cons_of_neg (by simp [hfx]), List.find?_cons_of_neg (by simp [hx]), ih h.2]

/-- The table `locals'` is `locals` with its names replaced, all of which satisfy `S`. -/
structure Renamed (S : String → Prop) (f : String → String) (locals locals' : Locals) : Prop where
  eq : locals' = locals.rename f
  names : ∀ e ∈ locals.entries, S e.name

section

variable {S : String → Prop} {locals' : Locals}

theorem Renamed.insert (h : locals.Renamed S f locals') (hx : S x) :
    (locals.insert x).Renamed S f (locals'.insert (f x)) :=
  ⟨by rw [h.eq, insert_rename], List.forall_mem_cons.2 ⟨hx, h.names⟩⟩

variable (hf : ∀ x y, S x → S y → f x = f y → x = y)

include hf

theorem Renamed.lookup?_eq (h : locals.Renamed S f locals') (hx : S x) :
    locals'.lookup? (f x) = locals.lookup? x := by
  rw [h.eq, lookup?_rename fun e he => hf e.name x (h.names e he) hx]

theorem Renamed.slot_eq (h : locals.Renamed S f locals') (hx : S x) :
    locals'.slot (f x) = locals.slot x := by
  rw [slot, h.lookup?_eq hf hx, slot, nextOffset, h.eq, frameSize_rename]
  rfl

theorem Renamed.declare (h : locals.Renamed S f locals') (hx : S x) :
    (locals.declare x).Renamed S f (locals'.declare (f x)) := by
  rw [Locals.declare, Locals.declare, h.lookup?_eq hf hx]
  split
  case isTrue => exact h
  case isFalse => exact h.insert hx

theorem Renamed.register (h : locals.Renamed S f locals') (hx : S x) :
    (locals.register x).Renamed S f (locals'.register (f x)) := by
  have hmode : locals'.mode = locals.mode := by rw [h.eq]; rfl
  rw [Locals.register, Locals.register, hmode]
  split
  case h_1 => exact h.declare hf hx
  case h_2 => exact h.insert hx

theorem Renamed.declareToken (h : locals.Renamed S f locals') (ht : t.Renamed f t')
    (hname : t.cls = .ident → S t.text) :
    (locals.declareToken t).Renamed S f (locals'.declareToken t') := by
  by_cases hi : t.cls = .ident
  · rw [declareToken_of_ident hi, declareToken_of_ident (ht.cls.trans hi), ht.text_of_ident hi]
    exact h.declare hf (hname hi)
  · rw [declareToken_of_ne_ident hi, declareToken_of_ne_ident (by rwa [ht.cls])]
    exact h

theorem Renamed.registerToken (h : locals.Renamed S f locals') (ht : t.Renamed f t')
    (hname : t.cls = .ident → S t.text) :
    (locals.registerToken t).Renamed S f (locals'.registerToken t') := by
  by_cases hi : t.cls = .ident
  · rw [registerToken_of_ident hi, registerToken_of_ident (ht.cls.trans hi), ht.text_of_ident hi]
    exact h.register hf (hname hi)
  · rw [registerToken_of_ne_ident hi, registerToken_of_ne_ident (by rwa [ht.cls])]
    exact h

omit hf in
theorem Renamed.foldl {g : Locals → Token → Locals}
    (hg : ∀ {locals locals' : Locals} {t t' : Token}, locals.Renamed S f locals' →
      t.Renamed f t' → (t.cls = .ident → S t.text) → (g locals t).Renamed S f (g locals' t'))
    (h : locals.Renamed S f locals') (hts : List.Forall₂ (Token.Renamed f) ts ts')
    (hnames : ∀ t ∈ ts, t.cls = .ident → S t.text) :
    (ts.foldl g locals).Renamed S f (ts'.foldl g locals') := by
  induction hts generalizing locals locals' with
  | nil => exact h
  | cons ht _ ih =>
    rw [List.forall_mem_cons] at hnames
    exact ih (hg h ht hnames.1) hnames.2

theorem Renamed.declareTokens (h : locals.Renamed S f locals')
    (hts : List.Forall₂ (Token.Renamed f) ts ts')
    (hnames : ∀ t ∈ ts, t.cls = .ident → S t.text) :
    (locals.declareTokens ts).Renamed S f (locals'.declareTokens ts') :=
  h.foldl (Renamed.declareToken hf) hts hnames

theorem Renamed.registerTokens (h : locals.Renamed S f locals')
    (hts : List.Forall₂ (Token.Renamed f) ts ts')
    (hnames : ∀ t ∈ ts, t.cls = .ident → S t.text) :
    (locals.registerTokens ts).Renamed S f (locals'.registerTokens ts') :=
  h.foldl (Renamed.registerToken hf) hts hnames

end

end Locals

/-! ## Whole parses -/

theorem Node.map_map {ν μ κ : Type} (g : μ → κ) (h : ν → μ) (e : Node ν) :
    (e.map h).map g = e.map (g ∘ h) := by
  induction e with
  | stmt e ih => rw [map, map, map, ih]
  | assign a b iha ihb => rw [map, map, map, iha, ihb]
  | binary op a b iha ihb => rw [map, map, map, iha, ihb]
  | num value => rfl
  | var v => rfl

theorem exists_of_forall₂_append_cons {α β : Type} {R : α → β → Prop} {u w : List α} {a : α}
    {l : List β} (h : List.Forall₂ R (u ++ a :: w) l) :
    ∃ u' a' w', l = u' ++ a' :: w' ∧ List.Forall₂ R u u' ∧ R a a' ∧ List.Forall₂ R w w' := by
  induction u generalizing l with
  | nil =>
    obtain ⟨a', w', ha, hw, rfl⟩ := List.forall₂_cons_left_iff.1 h
    exact ⟨[], a', w', rfl, .nil, ha, hw⟩
  | cons b u ih =>
    obtain ⟨b', l, hb, hl, rfl⟩ := List.forall₂_cons_left_iff.1 h
    obtain ⟨u', a', w', rfl, hu, ha, hw⟩ := ih hl
    exact ⟨b' :: u', a', w', rfl, .cons hb hu, ha, hw⟩

section

variable {S : String → Prop} {locals' : Locals} {tokens tokens' : List Token}

/-- **What a parse does with renamed tokens.**  It succeeds with the same program and the renamed
table, or fails at the token with the same index, with a fault that names that token as it is
spelled now. -/
theorem parseProgram_renamed (config : Config) (hf : ∀ x y, S x → S y → f x = f y → x = y)
    (hlocals : locals.Renamed S f locals')
    (hts : List.Forall₂ (Token.Renamed f) (endMarked tokens) (endMarked tokens'))
    (hnames : ∀ t ∈ endMarked tokens, t.cls = .ident → S t.text) :
    (∃ program final final', parseProgram config tokens locals = (.ok program, final) ∧
      parseProgram config tokens' locals' = (.ok program, final') ∧ final.Renamed S f final') ∨
    ∃ (i : Nat) (t t' : Token) (fault : SyntaxFault),
      (endMarked tokens)[i]? = some t ∧ (endMarked tokens')[i]? = some t' ∧
      (parseProgram config tokens locals).1 = .error ⟨t.pos, fault⟩ ∧
      (parseProgram config tokens' locals').1 =
        .error ⟨t'.pos, if t.cls = .ident then fault.mapFound f else fault⟩ := by
  obtain ⟨u, t, w, s, hu, hr, hstop⟩ := exists_stop tokens locals config.maxDepth
  rw [hu] at hts hnames
  obtain ⟨u', t', w', hu', hts', ht', -⟩ := exists_of_forall₂_append_cons hts
  have hr' : Reads byName config.maxDepth (.initial locals') u' _ := hr.renamed hts' [] locals'
  rcases hstop with ⟨ht, hb⟩ | ⟨r, ht, hb⟩
  · have hfinal : s.locals.Renamed S f (locals'.declareTokens u') := by
      rw [show s.locals = locals.declareTokens u from hr.locals_eq]
      exact hlocals.declareTokens hf hts' fun a ha => hnames a (List.mem_append_left _ ha)
    have hderives := (hr.made (made_initial locals)).derivesProgram hb
    have hS : ∀ x ∈ namesOf u, S x := by
      intro x hx
      obtain ⟨a, ha, hi, rfl⟩ := mem_namesOf.1 hx
      exact hnames a (List.mem_append_left _ ha) hi
    have htrees : (s.done.map (Node.map f)).reverse.map (Node.map (locals'.declareTokens u').slot) =
        s.done.reverse.map (Node.map s.locals.slot) :=
      calc
        _ = s.done.reverse.map (Node.map ((locals'.declareTokens u').slot ∘ f)) := by
          rw [← List.map_reverse, List.map_map]
          exact List.map_congr_left fun e _ => Node.map_map _ f e
        _ = s.done.reverse.map (Node.map s.locals.slot) :=
          hderives.map_congr fun x hx => hfinal.slot_eq hf (hS x hx)
    have hframe : (locals'.declareTokens u').frameSize = s.locals.frameSize := by
      rw [hfinal.eq, Locals.frameSize_rename]
    refine .inl ⟨_, _, _, parseProgram_of_reads hu hr hb ht, ?_, hfinal⟩
    rw [parseProgram_of_reads hu' hr' (by rwa [State.betweenStatements_renamed])
      (by rwa [ht'.isEof_eq])]
    simp only [State.renamed, List.append_nil, htrees, hframe]
  · have hstep' : (s.renamed f [] (locals'.declareTokens u')).step byName config.maxDepth t' =
        .error r := State.step_renamed_of_error ht ht'
    refine .inr ⟨u.length, t, t', r.fault config.maxDepth t, by simp [hu], ?_, ?_, ?_⟩
    · simp [hu', hts'.length_eq]
    · rw [parseProgram_of_refused hu hr ht hb]
    · rw [parseProgram_of_refused hu' hr' hstep'
        (by rwa [ht'.isEof_eq, State.betweenStatements_renamed]), ht'.fault_eq]

theorem startTable_renamed (config : Config) (hf : ∀ x y, S x → S y → f x = f y → x = y)
    (hts : List.Forall₂ (Token.Renamed f) ts ts')
    (hnames : ∀ t ∈ ts, t.cls = .ident → S t.text) :
    (config.startTable config.locals ts).Renamed S f (config.startTable config.locals ts') := by
  have hempty : config.locals.Renamed S f config.locals := ⟨rfl, nofun⟩
  unfold Config.startTable
  split
  · exact hempty.registerTokens hf hts hnames
  · exact hempty

/-- **Sources with renamed tokens.**  They have the same program, and the one table is the other
with its names replaced; or they fail at tokens with the same index, with a fault that names the
token as it is spelled in the source. -/
theorem compile_of_renamed {source source' : String} (config : Config)
    (hf : ∀ x y, S x → S y → f x = f y → x = y)
    (h : tokenize source = .ok tokens) (h' : tokenize source' = .ok tokens')
    (hts : List.Forall₂ (Token.Renamed f) tokens tokens')
    (hnames : ∀ t ∈ tokens, t.cls = .ident → S t.text) :
    (∃ program locals, compile config source = .ok (program, locals) ∧
      compile config source' = .ok (program, locals.rename f)) ∨
    ∃ (i : Nat) (t t' : Token) (fault : SyntaxFault),
      tokens[i]? = some t ∧ tokens'[i]? = some t' ∧
      compile config source = .error (.syntactic ⟨t.pos, fault⟩) ∧
      compile config source' = .error
        (.syntactic ⟨t'.pos, if t.cls = .ident then fault.mapFound f else fault⟩) := by
  obtain ⟨body, rfl, -, -, hcompile⟩ := compile_of_tokenize h
  obtain ⟨body', rfl, -, -, hcompile'⟩ := compile_of_tokenize h'
  have hbody : List.Forall₂ (Token.Renamed f) body body' := by
    obtain ⟨v, e, w, hv, hbody, -, hw⟩ := exists_of_forall₂_append_cons hts
    cases hw
    rwa [(List.append_inj' hv rfl).1]
  have hstart := startTable_renamed config hf hbody fun t ht =>
    hnames t (List.mem_append_left _ ht)
  rw [← endMarked_concat rfl body, ← endMarked_concat rfl body'] at hts
  rw [← endMarked_concat rfl body] at hnames
  rcases parseProgram_renamed config hf hstart hts hnames with
    ⟨program, final, final', hp, hp', hfinal⟩ | ⟨i, t, t', fault, ht, ht', hp, hp'⟩
  · refine .inl ⟨program, final, ?_, ?_⟩
    · rw [hcompile, hp]
      rfl
    · rw [hcompile', hp', hfinal.eq]
      rfl
  · rw [endMarked_concat rfl] at ht ht'
    refine .inr ⟨i, t, t', fault, ht, ht', ?_, ?_⟩
    · rw [hcompile]
      simp only [hp]
      rfl
    · rw [hcompile']
      simp only [hp']
      rfl

end

end FrameLang

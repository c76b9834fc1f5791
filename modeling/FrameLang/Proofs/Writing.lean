import FrameLang.Proofs.Boundary
import FrameLang.Compilation
import FrameLang.Proofs.Grammar.Acceptance
import FrameLang.Proofs.Segmentation
import FrameLang.Proofs.Tables

/-!
# Writing trees

A tree can be written as a source in many ways.  Parentheses have to stand where something binds too
loosely for its place, and may stand around everything else; blanks have to stand between the words,
and there may be more of them.  All of these sources are read as the tree.

* `Writes locals k e ws`: the words `ws` write the tree `e` in a place for what binds at least as
  tightly as `k`.  An assignment binds as `0`, and an operator one tighter than its level says.
  A variable is written as a name that the table has at its offset.
* `Spaced`: a text that consists of words with blanks between them.
* `exists_writesProgram_iff`: which trees can be written.
* `Writes.derives`: the grammar derives what is written, with the tree that was written.
* `parse_written`: every way of writing trees is read back as these trees.
-/

namespace FrameLang

variable {locals : Locals} {k m : Nat} {e : Node Nat} {es : List (Node Nat)} {ws : List String}
  {ts : List Token}

/-- The words write the tree in a place for what binds at least as tightly as a number says. -/
inductive Writes (locals : Locals) : Nat → Node Nat → List String → Prop
  | num {k v : Nat} {w : String} (hw : Lexeme (.num v) w.toList) (hv : v ≤ maxLiteral) :
      Writes locals k (.num v) [w]
  | var {k offset : Nat} {x : String} (hx : Lexeme .ident x.toList)
      (hl : locals.lookup? x = some offset) : Writes locals k (.var offset) [x]
  | binary {k : Nat} {op : BinaryOp} {a b : Node Nat} {u v : List String} (hk : k ≤ op.level + 1)
      (ha : Writes locals (op.level + 1) a u) (hb : Writes locals (op.level + 2) b v) :
      Writes locals k (.binary op a b) (u ++ op.symbol :: v)
  | assign {a b : Node Nat} {u v : List String} (ha : Writes locals 1 a u)
      (hb : Writes locals 0 b v) : Writes locals 0 (.assign a b) (u ++ "=" :: v)
  | group {k : Nat} {e : Node Nat} {u : List String} (h : Writes locals 0 e u) :
      Writes locals k e ("(" :: (u ++ [")"]))

/-- The words write the trees, with a semicolon after each. -/
inductive WritesProgram (locals : Locals) : List (Node Nat) → List String → Prop
  | nil : WritesProgram locals [] []
  | cons {e : Node Nat} {es : List (Node Nat)} {u v : List String} (h : Writes locals 0 e u)
      (h' : WritesProgram locals es v) : WritesProgram locals (e :: es) (u ++ ";" :: v)

/-! ## What can be written -/

/-- No statement stands inside the tree, its literals are in range, and each of its variables is the
offset of a name. -/
def Node.Writable (locals : Locals) : Node Nat → Prop
  | stmt _ => False
  | num value => 0 ≤ value ∧ value ≤ maxLiteral
  | var offset => ∃ x : String, Lexeme .ident x.toList ∧ locals.lookup? x = some offset
  | assign a b | binary _ a b => a.Writable locals ∧ b.Writable locals

theorem lexeme_toString (v : Nat) : Lexeme (.num v) (toString v).toList := by
  have hdigits : (toString v).toList = Nat.toDigits 10 v := Nat.toList_repr
  have h : Lexeme (.num (Nat.ofDigitChars 10 (Nat.toDigits 10 v) 0)) (Nat.toDigits 10 v) :=
    .literal Nat.toDigits_ne_nil fun c hc => Nat.isDigit_of_mem_toDigits (by decide) (by decide) hc
  rwa [Nat.ofDigitChars_ten_toDigits, ← hdigits] at h

theorem exists_writes (h : e.Writable locals) (k : Nat) : ∃ ws, Writes locals k e ws := by
  induction e generalizing k with
  | stmt e => exact h.elim
  | num value =>
    obtain ⟨v, rfl⟩ := Int.eq_ofNat_of_zero_le h.1
    exact ⟨_, .num (lexeme_toString v) (Int.ofNat_le.1 h.2)⟩
  | var offset =>
    obtain ⟨x, hx, hl⟩ := h
    exact ⟨_, .var hx hl⟩
  | assign a b iha ihb =>
    obtain ⟨u, hu⟩ := iha h.1 1
    obtain ⟨v, hv⟩ := ihb h.2 0
    exact ⟨_, .group (.assign hu hv)⟩
  | binary op a b iha ihb =>
    obtain ⟨u, hu⟩ := iha h.1 (op.level + 1)
    obtain ⟨v, hv⟩ := ihb h.2 (op.level + 2)
    exact ⟨_, .group (.binary (Nat.zero_le _) hu hv)⟩

theorem Writes.writable (h : Writes locals k e ws) : e.Writable locals := by
  induction h with
  | num hw hv => exact ⟨Int.natCast_nonneg _, Int.ofNat_le.2 hv⟩
  | var hx hl => exact ⟨_, hx, hl⟩
  | binary _ _ _ iha ihb => exact ⟨iha, ihb⟩
  | assign _ _ iha ihb => exact ⟨iha, ihb⟩
  | group _ ih => exact ih

/-- **Which trees can be written.** -/
theorem exists_writesProgram_iff :
    (∃ ws, WritesProgram locals es ws) ↔ ∀ e ∈ es, e.Writable locals := by
  constructor
  · rintro ⟨ws, h⟩
    induction h with
    | nil => nofun
    | cons h _ ih => exact List.forall_mem_cons.2 ⟨h.writable, ih⟩
  · intro h
    induction es with
    | nil => exact ⟨[], .nil⟩
    | cons e es ih =>
      rw [List.forall_mem_cons] at h
      obtain ⟨u, hu⟩ := exists_writes h.1 0
      obtain ⟨v, hv⟩ := ih h.2
      exact ⟨_, .cons hu hv⟩

/-! ## Words as lexemes -/

/-- What each word of a tree is: a lexeme, in range if it is a literal, and in the table if it is a
name. -/
def IsWord (locals : Locals) (w : String) : Prop :=
  ∃ cls, Lexeme cls w.toList ∧ (∀ v, cls = .num v → v ≤ maxLiteral) ∧
    (cls = .ident → ∃ offset, locals.lookup? w = some offset)

theorem isWord_spelling (p : Punct) : IsWord locals p.spelling := ⟨_, .punct p, nofun, nofun⟩

theorem BinaryOp.exists_punct (op : BinaryOp) :
    ∃ p : Punct, p.spelling = op.symbol ∧ p.operator? = some ⟨op, false⟩ := by
  cases op with
  | add => exact ⟨.plus, rfl, rfl⟩
  | sub => exact ⟨.minus, rfl, rfl⟩
  | mul => exact ⟨.star, rfl, rfl⟩
  | div => exact ⟨.slash, rfl, rfl⟩
  | eq => exact ⟨.equal, rfl, rfl⟩
  | ne => exact ⟨.notEqual, rfl, rfl⟩
  | lt => exact ⟨.less, rfl, rfl⟩
  | le => exact ⟨.lessEqual, rfl, rfl⟩

theorem isWord_symbol (op : BinaryOp) : IsWord locals op.symbol := by
  obtain ⟨p, hp, -⟩ := op.exists_punct
  exact hp ▸ isWord_spelling p

theorem Writes.isWord (h : Writes locals k e ws) : ∀ w ∈ ws, IsWord locals w := by
  induction h with
  | @num k v w hw hv =>
    intro w' hw'
    obtain rfl := List.mem_singleton.1 hw'
    refine ⟨_, hw, fun n hn => ?_, nofun⟩
    cases hn
    exact Int.ofNat_le.2 hv
  | var hx hl =>
    intro w hw
    obtain rfl := List.mem_singleton.1 hw
    exact ⟨_, hx, nofun, fun _ => ⟨_, hl⟩⟩
  | binary _ _ _ iha ihb =>
    rw [List.forall_mem_append, List.forall_mem_cons]
    exact ⟨iha, isWord_symbol _, ihb⟩
  | assign _ _ iha ihb =>
    rw [List.forall_mem_append, List.forall_mem_cons]
    exact ⟨iha, isWord_spelling .assign, ihb⟩
  | group _ ih =>
    rw [List.forall_mem_cons, List.forall_mem_append]
    refine ⟨isWord_spelling .leftParen, ih, fun w hw => ?_⟩
    obtain rfl := List.mem_singleton.1 hw
    exact isWord_spelling .rightParen

theorem WritesProgram.isWord (h : WritesProgram locals es ws) : ∀ w ∈ ws, IsWord locals w := by
  induction h with
  | nil => nofun
  | cons h _ ih =>
    rw [List.forall_mem_append, List.forall_mem_cons]
    exact ⟨h.isWord, isWord_spelling .semicolon, ih⟩

/-! ## Reading the words -/

def placeAt : Nat → Nonterminal
  | 0 => .assignment
  | k + 1 => chainAt k

theorem Derives.place_of_chain {u : List Token} {f : Node String} (h : Derives (chainAt m) u f)
    (hk : k ≤ m + 1) : Derives (placeAt k) u f := by
  cases k with
  | zero => exact .value (h.loosen (Nat.zero_le m))
  | succ k => exact h.loosen (Nat.le_of_succ_le_succ hk)

theorem Derives.place_of_primary {u : List Token} {f : Node String} (h : Derives .primary u f)
    (k : Nat) : Derives (placeAt k) u f := by
  have hunary : Derives (chainAt (k + 4)) u f := .plain h
  exact hunary.place_of_chain (by omega)

theorem cls_eq {t : Token} {cls : TokenClass} {w : String} (h : Lexeme t.cls t.text.toList)
    (hw : Lexeme cls w.toList) (ht : t.text = w) : t.cls = cls := (ht ▸ h).unique hw

/-- **The grammar derives what is written**, with a tree whose names stand for the offsets. -/
theorem Writes.derives (h : Writes locals k e ws) (hts : ts.map Token.text = ws)
    (hl : ∀ t ∈ ts, Lexeme t.cls t.text.toList) :
    ∃ f, Derives (placeAt k) ts f ∧ f.map locals.slot = e := by
  induction h generalizing ts with
  | num hw hv =>
    obtain ⟨t, rfl, ht⟩ := List.map_eq_singleton_iff.1 hts
    have hcls := cls_eq (hl t (by simp)) hw ht
    exact ⟨_, (Derives.literal hcls).place_of_primary _, rfl⟩
  | @var k offset x hx hlookup =>
    obtain ⟨t, rfl, rfl⟩ := List.map_eq_singleton_iff.1 hts
    have hcls := cls_eq (hl t (by simp)) hx rfl
    refine ⟨_, (Derives.name hcls).place_of_primary _, ?_⟩
    rw [Node.map, Locals.slot, hlookup, Option.getD_some]
  | @binary k op a b u v hk _ _ iha ihb =>
    obtain ⟨us, vs, rfl, hu, hv⟩ := List.map_eq_append_iff.1 hts
    obtain ⟨t, vs, rfl, ht, hv⟩ := List.map_eq_cons_iff.1 hv
    rw [List.forall_mem_append, List.forall_mem_cons] at hl
    obtain ⟨f, hf, rfl⟩ := iha hu hl.1
    obtain ⟨g, hg, rfl⟩ := ihb hv hl.2.2
    obtain ⟨p, hp, ho⟩ := op.exists_punct
    have hcls := cls_eq hl.2.1 (.punct p) (ht.trans hp.symm)
    have hchain : Derives (chainAt op.level) (us ++ t :: vs) (.binary op f g) :=
      Derives.binary (o := ⟨op, false⟩) hf (by rw [hcls]; exact ho) hg
    exact ⟨_, hchain.place_of_chain hk, rfl⟩
  | assign _ _ iha ihb =>
    obtain ⟨us, vs, rfl, hu, hv⟩ := List.map_eq_append_iff.1 hts
    obtain ⟨t, vs, rfl, ht, hv⟩ := List.map_eq_cons_iff.1 hv
    rw [List.forall_mem_append, List.forall_mem_cons] at hl
    obtain ⟨f, hf, rfl⟩ := iha hu hl.1
    obtain ⟨g, hg, rfl⟩ := ihb hv hl.2.2
    exact ⟨_, .assign hf (cls_eq hl.2.1 (.punct .assign) ht) hg, rfl⟩
  | group _ ih =>
    obtain ⟨t, vs, rfl, ht, hrest⟩ := List.map_eq_cons_iff.1 hts
    obtain ⟨us, vs, rfl, hu, hv⟩ := List.map_eq_append_iff.1 hrest
    obtain ⟨t', rfl, ht'⟩ := List.map_eq_singleton_iff.1 hv
    rw [List.forall_mem_cons, List.forall_mem_append] at hl
    obtain ⟨f, hf, rfl⟩ := ih hu hl.2.1
    have hgroup : Derives .primary (t :: (us ++ [t'])) f :=
      .group (cls_eq hl.1 (.punct .leftParen) ht) hf
        (cls_eq (hl.2.2 t' (by simp)) (.punct .rightParen) ht')
    exact ⟨f, hgroup.place_of_primary _, rfl⟩

theorem WritesProgram.derivesProgram (h : WritesProgram locals es ws)
    (hts : ts.map Token.text = ws) (hl : ∀ t ∈ ts, Lexeme t.cls t.text.toList) :
    ∃ fs, DerivesProgram ts fs ∧ fs.map (Node.map locals.slot) = es.map .stmt := by
  induction h generalizing ts with
  | nil =>
    rw [List.map_eq_nil_iff.1 hts]
    exact ⟨[], .nil, rfl⟩
  | cons h _ ih =>
    obtain ⟨us, vs, rfl, hu, hv⟩ := List.map_eq_append_iff.1 hts
    obtain ⟨t, vs, rfl, ht, hv⟩ := List.map_eq_cons_iff.1 hv
    rw [List.forall_mem_append, List.forall_mem_cons] at hl
    obtain ⟨f, hf, rfl⟩ := h.derives hu hl.1
    obtain ⟨fs, hfs, hmap⟩ := ih hv hl.2.2
    refine ⟨_, .cons hf (cls_eq hl.2.1 (.punct .semicolon) ht) hfs, ?_⟩
    rw [List.map_cons, List.map_cons, hmap, Node.map]

/-! ## Spaced words -/

/-- The characters are the words with blanks between any two of them.  More blanks may come before
the first word and after the last one. -/
inductive Spaced : List String → List Char → Prop
  | nil {gap : List Char} (hgap : ∀ c ∈ gap, c ∈ blanks) : Spaced [] gap
  | cons {w : String} {ws : List String} {gap rest : List Char} (hgap : ∀ c ∈ gap, c ∈ blanks)
      (hstart : ∀ c r, rest = c :: r → c ∈ blanks) (h : Spaced ws rest) :
      Spaced (w :: ws) (gap ++ (w.toList ++ rest))

theorem Spaced.blank {text : List Char} {c : Char} (h : Spaced ws text) (hc : c ∈ blanks) :
    Spaced ws (c :: text) := by
  cases h with
  | nil hgap => exact .nil (List.forall_mem_cons.2 ⟨hc, hgap⟩)
  | @cons w ws gap rest hgap hstart h =>
    exact @Spaced.cons w ws (c :: gap) rest (List.forall_mem_cons.2 ⟨hc, hgap⟩) hstart h

theorem spaced_flatMap (ws : List String) : Spaced ws (ws.flatMap fun w => w.toList ++ [' ']) := by
  induction ws with
  | nil => exact .nil nofun
  | cons w ws ih =>
    have hspace : ' ' ∈ blanks := by decide
    rw [List.flatMap_cons, List.append_assoc]
    refine @Spaced.cons w ws [] _ nofun (fun c r h => ?_) (ih.blank hspace)
    exact (List.cons.inj h).1 ▸ hspace

theorem Lexeme.longest_of_blank {cls : TokenClass} {text rest : List Char} (h : Lexeme cls text)
    (hrest : ∀ c r, rest = c :: r → c ∈ blanks) : Longest cls text rest :=
  longest_iff.2 ⟨h, fun c r hc => growsWith_eq_false_of_isBlank (isBlank_iff.2 (hrest c r hc)) cls⟩

theorem Spaced.exists_segmentation {text : List Char} (h : Spaced ws text)
    (hws : ∀ w ∈ ws, IsWord locals w) (offset : Nat) :
    ∃ ts, Segmentation offset text ts ∧ ts.map Token.text = ws ∧
      ∀ t ∈ ts, Lexeme t.cls t.text.toList ∧ t.Fits ∧
        (t.cls = .ident → ∃ o, locals.lookup? t.text = some o) := by
  induction h generalizing offset with
  | nil hgap => exact ⟨[], .nil hgap, rfl, nofun⟩
  | @cons w ws gap rest hgap hstart _ ih =>
    rw [List.forall_mem_cons] at hws
    obtain ⟨cls, hl, hfits, hknown⟩ := hws.1
    obtain ⟨ts, hseg, hts, hall⟩ := ih hws.2 (offset + String.utf8Len gap + String.utf8Len w.toList)
    refine ⟨_, .cons hgap (hl.longest_of_blank hstart) hseg, ?_, ?_⟩
    · rw [List.map_cons, hts, String.ofList_toList]
    · rw [List.forall_mem_cons, String.ofList_toList]
      exact ⟨⟨hl, hfits, hknown⟩, hall⟩

/-! ## Writing and reading -/

/-- **What is written is read back.**  The trees that can be written are those without statements
inside, with literals in range and with offsets of names.  However they are written, with any
parentheses that are not needed and any blanks, the words are the tokens of the source, and the
trees are its program; the table stays as it was. -/
theorem parse_written (config : Config) (hlazy : config.eager = false) (locals : Locals)
    (trees : List (Node Nat)) :
    ((∃ ws, WritesProgram locals trees ws) ↔ ∀ e ∈ trees, e.Writable locals) ∧
    ∀ ws source, WritesProgram locals trees ws → Spaced ws source.toList →
      ∃ tokens, readTokens config source locals = (.ok tokens, locals) ∧
        tokens.map Token.text = ws ++ [""] ∧
        (tokens.length ≤ config.maxDepth →
          parseProgram config tokens locals =
            (.ok ⟨trees.map .stmt, locals.frameSize⟩, locals)) := by
  refine ⟨exists_writesProgram_iff, fun ws source hws hspaced => ?_⟩
  obtain ⟨ts, hseg, hts, hall⟩ := hspaced.exists_segmentation hws.isWord 0
  have htokens := hseg.tokenize_eq fun t ht => (hall t ht).2.1
  refine ⟨ts ++ [.eofAt source.utf8ByteSize], ?_, ?_, fun hdepth => ?_⟩
  · rw [readTokens, hlazy]
    exact congrArg (·, locals) htokens
  · rw [List.map_append, hts]
    rfl
  · obtain ⟨fs, hfs, hmap⟩ := hws.derivesProgram hts fun t ht => (hall t ht).1
    have hknown := Locals.declareTokens_of_known fun t ht => (hall t ht).2.2
    have hp : Parser.ofTokens (ts ++ [.eofAt source.utf8ByteSize]) locals = _ :=
      ofTokens_append_eof hseg.isEof_eq_false rfl
    rw [List.length_append] at hdepth
    rw [parseProgram, hp, Parser.parse_of_derivesProgram hfs (by exact Nat.le_of_succ_le hdepth)]
    simp only [Parser.withMaxDepth, hknown, hmap]

/-- The tree of `1 - (a = 2);`, with a group around `a` that it does not need. -/
theorem parse_written_redundant_group :
    let locals : Locals := { entries := [⟨"a", 8⟩] }
    let config : Config := { maxDepth := 11 }
    let trees : List (Node Nat) := [.binary .sub (.num 1) (.assign (.var 8) (.num 2))]
    let ws := ["1", "-", "(", "(", "a", ")", "=", "2", ")", ";"]
    let source := "1 - ( ( a ) = 2 ) ; "
    config.eager = false ∧ WritesProgram locals trees ws ∧ Spaced ws source.toList ∧
      ∃ tokens, readTokens config source locals = (.ok tokens, locals) ∧ tokens.length = 11 ∧
        parseProgram config tokens locals = (.ok ⟨trees.map .stmt, 8⟩, locals) := by
  intro locals config trees ws source
  have hname : Writes locals 0 (.var 8) ["a"] := .var (.name (.inl (by decide)) nofun) rfl
  have hone : Writes locals (BinaryOp.sub.level + 1) (.num 1) ["1"] :=
    .num (lexeme_toString 1) (by decide)
  have htwo : Writes locals 0 (.num 2) ["2"] := .num (lexeme_toString 2) (by decide)
  have hwrites : WritesProgram locals trees ws :=
    .cons (.binary (Nat.zero_le _) hone (.group (.assign (.group hname) htwo))) .nil
  have hspaced : Spaced ws source.toList := by
    have hsource : source.toList = ws.flatMap fun w => w.toList ++ [' '] := by decide
    rw [hsource]
    exact spaced_flatMap ws
  obtain ⟨tokens, hread, htexts, hparse⟩ :=
    (parse_written config rfl locals trees).2 ws source hwrites hspaced
  have hlength : tokens.length = 11 := by simpa [ws] using congrArg List.length htexts
  exact ⟨rfl, hwrites, hspaced, tokens, hread, hlength, hparse (Nat.le_of_eq hlength)⟩

end FrameLang

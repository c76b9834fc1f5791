import FrameLang.Proofs.Grammar.Acceptance
import FrameLang.Proofs.Grammar.Depth
import FrameLang.Proofs.Renaming
import FrameLang.Proofs.Resolution

/-!
# Comparisons read from either side

`a > b` and `b < a` are one tree, although their names are declared in opposite orders and get
different slots.  So the two agree once each offset is read back as the name that has it, and at
once if both tables already have all names.

* `Derives.overflow?_comparison`: a limit admits a comparison if it admits both operands.
* `Locals.nameAt?`: the name that has a slot.
* `parse_mirrored`: two parsers that read the two forms.
-/

namespace FrameLang

variable {t : Token} {u v : List Token} {e f : Node String}

/-! ## Operands under a limit -/

theorem Derives.overflow?_comparison {o : Operator} {semi : Token} {limit : Nat}
    (hu : Derives (.chain .additive) u e) (ht : t.cls.operator? = some o)
    (hsemi : semi.cls = .punct .semicolon) :
    Nesting.overflow? limit {} (u ++ t :: (v ++ [semi])) = none ↔
      Nesting.overflow? limit {} u = none ∧ Nesting.overflow? limit {} v = none := by
  have hsemi : ∀ n : Nesting, n.overflow? limit [semi] = none := fun n => by
    simp [Nesting.overflow?, Token.opens, hsemi]
  rw [hu.overflow?_append_cons (by decide) ht, Nesting.overflow?_append, hsemi, Option.or_none]

/-! ## Reading offsets back -/

def Locals.nameAt? (t : Locals) (offset : Nat) : Option String :=
  (t.entries.find? (·.offset = offset)).map Local.name

/-- A slot is read back as the name that it was given to. -/
theorem Locals.Holds.nameAt?_slot {t : Locals} {w offset : Nat} {names : List String} {x : String}
    (h : t.Holds w names) (hw : 1 ≤ w) (hx : t.lookup? x = some offset) :
    t.nameAt? (t.slot x) = some x := by
  rw [nameAt?, ← List.head?_filter, slot, hx, Option.getD_some, h.filter_offset hw hx]
  rfl

theorem DerivesProgram.map_nameAt? {es : List (Node String)} {locals : Locals} {w : Nat}
    {names : List String} (h : DerivesProgram u es) (hw : 1 ≤ w)
    (hholds : locals.Holds w names) :
    (es.map (Node.map (locals.declareTokens u).slot)).map
        (Node.map (locals.declareTokens u).nameAt?) = es.map (Node.map some) := by
  obtain ⟨more, hmore, -⟩ := locals.exists_declareTokens_eq_insertAll u
  have hfinal : (locals.declareTokens u).Holds w (names ++ more) := by
    rw [hmore]
    exact hholds.insertAll more
  rw [List.map_map, ← h.map_congr (g := (locals.declareTokens u).nameAt? ∘
    (locals.declareTokens u).slot)]
  · exact List.map_congr_left fun e _ => Node.map_map _ _ e
  · intro x hx
    obtain ⟨t, ht, hi, rfl⟩ := mem_namesOf.1 hx
    obtain ⟨offset, hoffset⟩ : ∃ offset, (locals.declareTokens u).lookup? t.text = some offset :=
      Locals.exists_lookup?_declareTokens ht hi
    exact hfinal.nameAt?_slot hw hoffset

/-! ## The two forms of a comparison -/

theorem Punct.exists_comparison {p q : Punct}
    (h : (p, q) ∈ [(Punct.greater, Punct.less), (.greaterEqual, .lessEqual)]) :
    ∃ op, op.level = Level.relational.rank ∧ p.operator? = some ⟨op, true⟩ ∧
      q.operator? = some ⟨op, false⟩ := by
  rcases List.mem_cons.1 h with h | h
  · cases h
    exact ⟨.lt, rfl, rfl, rfl⟩
  · cases List.mem_singleton.1 h
    exact ⟨.le, rfl, rfl, rfl⟩

theorem DerivesProgram.comparison {o : Operator} {semi : Token}
    (hu : Derives (.chain .additive) u e) (hv : Derives (.chain .additive) v f)
    (ho : o.level = Level.relational.rank) (ht : t.cls.operator? = some o)
    (hsemi : semi.cls = .punct .semicolon) :
    DerivesProgram (u ++ t :: (v ++ [semi])) [.stmt (o.apply e f)] := by
  have h : Derives (chainAt o.level) (u ++ t :: v) (o.apply e f) := by
    refine Derives.binary ?_ ht ?_
    · rw [ho, Level.chainAt_rank]
      exact .first hu
    · rwa [ho, Level.chainAt_rank_succ]
  rw [ho, Level.chainAt_rank] at h
  simpa using DerivesProgram.cons (.value (.first h)) hsemi .nil

/-- **`a > b` is `b < a`.**  Under every limit the two are both accepted or both refused, and that
depends only on how deep each operand is nested.  Read back as names the trees are the same, and
with a table that has all names already the programs are, and it is left as it is. -/
theorem parse_mirrored {w : Nat} {table : Locals} {names : List String} (hw : 1 ≤ w)
    (htable : table.Holds w names) {p q : Punct} {gt lt semi semi' : Token}
    (hu : Derives (.chain .additive) u e) (hv : Derives (.chain .additive) v f)
    (hpq : (p, q) ∈ [(Punct.greater, Punct.less), (.greaterEqual, .lessEqual)])
    (hgt : gt.cls = .punct p) (hlt : lt.cls = .punct q) (hsemi : semi.cls = .punct .semicolon)
    (hsemi' : semi'.cls = .punct .semicolon) {tokens tokens' : List Token}
    (htokens : (tokens.takeWhile fun t => !t.isEof) = u ++ gt :: (v ++ [semi]))
    (htokens' : (tokens'.takeWhile fun t => !t.isEof) = v ++ lt :: (u ++ [semi'])) (limit : Nat) :
    let parser := (Parser.ofTokens tokens table).withMaxDepth limit
    let parser' := (Parser.ofTokens tokens' table).withMaxDepth limit
    let final := parser.parse.2.locals
    let final' := parser'.parse.2.locals
    let shallow := Nesting.overflow? limit {} u = none ∧ Nesting.overflow? limit {} v = none
    ((∃ program, parser.parse.1 = .ok program) ↔ shallow) ∧
      ((∃ program, parser'.parse.1 = .ok program) ↔ shallow) ∧
      ∀ program program', parser.parse.1 = .ok program → parser'.parse.1 = .ok program' →
        program.stmts.map (Node.map final.nameAt?) = program'.stmts.map (Node.map final'.nameAt?) ∧
        (∃ op, program.stmts.map (Node.map final.nameAt?) =
          [.stmt (.binary op (f.map some) (e.map some))]) ∧
        ((∀ x ∈ namesOf (u ++ v), ∃ offset, table.lookup? x = some offset) →
          program = program' ∧ final = table ∧ final' = table) := by
  obtain ⟨op, hlevel, hp, hq⟩ := Punct.exists_comparison hpq
  have ht : gt.cls.operator? = some ⟨op, true⟩ := by rw [hgt]; exact hp
  have ht' : lt.cls.operator? = some ⟨op, false⟩ := by rw [hlt]; exact hq
  -- both are the statement that compares the second operand with the first
  have hd : DerivesProgram (tokens.takeWhile fun t => !t.isEof) [.stmt (.binary op f e)] := by
    rw [htokens]
    exact .comparison (o := ⟨op, true⟩) hu hv hlevel ht hsemi
  have hd' : DerivesProgram (tokens'.takeWhile fun t => !t.isEof) [.stmt (.binary op f e)] := by
    rw [htokens']
    exact .comparison (o := ⟨op, false⟩) hv hu hlevel ht' hsemi'
  intro parser parser' final final' shallow
  refine ⟨?_, ?_, fun program program' hok hok' => ?_⟩
  · rw [parse_ok_iff_overflow? hd, htokens]
    exact hu.overflow?_comparison ht hsemi
  · rw [parse_ok_iff_overflow? hd', htokens']
    exact (hv.overflow?_comparison ht' hsemi').trans and_comm
  obtain ⟨es, hes, rfl, hfinal⟩ := exists_derivesProgram_of_ok hok
  obtain ⟨es', hes', rfl, hfinal'⟩ := exists_derivesProgram_of_ok hok'
  obtain rfl := hd.unique hes
  obtain rfl := hd'.unique hes'
  have hread : _ = _ := hd.map_nameAt? hw htable
  have hread' : _ = _ := hd'.map_nameAt? hw htable
  rw [show final = _ from hfinal, show final' = _ from hfinal', hread, hread']
  refine ⟨rfl, ⟨op, rfl⟩, fun hknown => ?_⟩
  have hvars : ∀ x ∈ [Node.stmt (.binary op f e)].flatMap Node.vars,
      ∃ offset, table.lookup? x = some offset := by
    intro x hx
    refine hknown x ?_
    rw [namesOf_append, List.mem_append, ← hu.vars_perm.mem_iff, ← hv.vars_perm.mem_iff]
    exact (List.mem_append.1 (by simpa [Node.vars] using hx)).symm
  have hsame : ∀ ts, DerivesProgram ts [.stmt (.binary op f e)] → table.declareTokens ts = table :=
    fun ts hts => Locals.declareTokens_of_known fun t ht hi =>
      hvars _ (hts.mem_vars_iff.2 (mem_namesOf.2 ⟨t, ht, hi, rfl⟩))
  rw [hsame _ hd, hsame _ hd']
  exact ⟨rfl, rfl, rfl⟩

/-- `(a = 1) + b >= -c;` and `-c <= (a = 1) + b;` over a table that has `b`.  They give `a` and `c`
each other's slots, and both nest two levels deep. -/
theorem parse_mirrored_of_new_names :
    let u : List Token := [⟨.punct .leftParen, "(", 0⟩, ⟨.ident, "a", 1⟩, ⟨.punct .assign, "=", 3⟩,
      ⟨.num 1, "1", 5⟩, ⟨.punct .rightParen, ")", 6⟩, ⟨.punct .plus, "+", 8⟩, ⟨.ident, "b", 10⟩]
    let v : List Token := [⟨.punct .minus, "-", 15⟩, ⟨.ident, "c", 16⟩]
    let table : Locals := { entries := [⟨"b", 8⟩] }
    let tokens := u ++ ⟨.punct .greaterEqual, ">=", 12⟩ :: (v ++ [⟨.punct .semicolon, ";", 17⟩])
    let tokens' := v ++ ⟨.punct .lessEqual, "<=", 12⟩ :: (u ++ [⟨.punct .semicolon, ";", 17⟩])
    let parser := fun limit => (Parser.ofTokens tokens table).withMaxDepth limit
    let parser' := fun limit => (Parser.ofTokens tokens' table).withMaxDepth limit
    let tree := fun a b c : Nat => Node.stmt (.binary .le (.binary .sub (.num 0) (.var c))
      (.binary .add (.assign (.var a) (.num 1)) (.var b)))
    let final := (parser 2).parse.2.locals
    let final' := (parser' 2).parse.2.locals
    (parser 2).parse.1 = .ok ⟨[tree 16 8 24], 24⟩ ∧ (parser' 2).parse.1 = .ok ⟨[tree 24 8 16], 24⟩ ∧
      (tree 16 8 24).map final.nameAt? = (tree 24 8 16).map final'.nameAt? ∧
      ¬ (∃ program, (parser 1).parse.1 = .ok program) ∧
      ¬ ∃ program, (parser' 1).parse.1 = .ok program := by
  intro u v table tokens tokens' parser parser' tree final final'
  have hinner : Derives .assignment [⟨.ident, "a", 1⟩, ⟨.punct .assign, "=", 3⟩, ⟨.num 1, "1", 5⟩]
      (.assign (.var "a") (.num 1)) :=
    .assign (.first (.first (.first (.first (.plain (.name (t := ⟨.ident, "a", 1⟩) rfl)))))) rfl
      (.value (.first (.first (.first (.first (.plain (.literal rfl)))))))
  have hclose : (⟨.punct .rightParen, ")", 6⟩ : Token).cls = .punct .rightParen := rfl
  have hgroup : Derives .primary (u.take 5) (.assign (.var "a") (.num 1)) :=
    .group rfl hinner hclose
  have hu : Derives (.chain .additive) u (.binary .add (.assign (.var "a") (.num 1)) (.var "b")) :=
    .more (l := .additive) (t := ⟨.punct .plus, "+", 8⟩) (p := .plus)
      (.first (l := .additive) (.first (l := .term) (.plain hgroup))) rfl rfl
      (.first (l := .term) (.plain (.name rfl)))
  have hv : Derives (.chain .additive) v (.binary .sub (.num 0) (.var "c")) :=
    .first (.first (.minus rfl (.name rfl)))
  have hok : (parser 2).parse.1 = .ok ⟨[tree 16 8 24], 24⟩ := by with_unfolding_all rfl
  have hok' : (parser' 2).parse.1 = .ok ⟨[tree 24 8 16], 24⟩ := by with_unfolding_all rfl
  have htable : table.Holds 8 ["b"] := ⟨rfl, rfl⟩
  have htokens : (tokens.takeWhile fun t => !t.isEof) = tokens := rfl
  have htokens' : (tokens'.takeWhile fun t => !t.isEof) = tokens' := rfl
  have hmirrored := parse_mirrored (by decide) htable hu hv (p := .greaterEqual) (q := .lessEqual)
    (by decide) rfl rfl rfl rfl htokens htokens'
  obtain ⟨-, -, hsame⟩ := hmirrored 2
  obtain ⟨hdeep, hdeep', -⟩ := hmirrored 1
  have hshallow : ¬ (Nesting.overflow? 1 {} u = none ∧ Nesting.overflow? 1 {} v = none) := by decide
  refine ⟨hok, hok', ?_, mt hdeep.1 hshallow, mt hdeep'.1 hshallow⟩
  exact (List.cons.inj (hsame _ _ hok hok').1).1

end FrameLang

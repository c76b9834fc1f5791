import FrameLang.Proofs.Grammar.Depth
import FrameLang.Proofs.Parts

/-!
# What is kept from tokens to trees

Nothing is lost between the tokens of a program and its trees, and nothing is made up.  The parts of
the trees are those that the tokens become, and how many there are of each can be told from the
punctuators and from which of them are signs.

* `number`, `occurrences`: how often a punctuator comes, and how often where an operand is to start.
* `count_partsOf`: how often tokens become a part that is no leaf.
* `leavesOf`: the leaves that tokens become, in order.
* `parse_conserves_tokens`: what this means for the program that a parser answers with.
-/

namespace FrameLang

variable {ν : Type} {t : Token} {u ts : List Token} {e : Node String}

/-! ## Counting -/

def number (p : Punct) (ts : List Token) : Nat := ts.countP (·.cls = .punct p)

/-- How often a punctuator comes where an operand is to start, or where none is. -/
def occurrences (starts : Bool) (p : Punct) (ts : List Token) : Nat :=
  (marked true ts).countP fun m => m.1 = starts && m.2.cls = .punct p

@[simp] theorem number_append (p : Punct) (u v : List Token) :
    number p (u ++ v) = number p u + number p v := List.countP_append

@[simp] theorem number_nil (p : Punct) : number p [] = 0 := rfl

theorem number_cons (p : Punct) (t : Token) (ts : List Token) :
    number p (t :: ts) = number p ts + if t.cls = .punct p then 1 else 0 := by
  simp [number, List.countP_cons]

theorem number_eq_zero {p : Punct} : number p ts = 0 ↔ ∀ t ∈ ts, t.cls ≠ .punct p := by
  simp [number, List.countP_eq_zero]

theorem Closed.number_eq (h : Closed u) :
    number .leftParen u = number .rightParen u ∧ number .semicolon u = 0 := by
  induction h with
  | nil => exact ⟨rfl, rfl⟩
  | cons hl hr hs _ ih => simpa [number_cons, hl, hr, hs] using ih
  | group ha hb _ _ ih ih' => simp [number_cons, ha, hb, ih, ih', Nat.add_assoc]

theorem DerivesProgram.number_parens {es : List (Node String)} (h : DerivesProgram u es) :
    number .leftParen u = number .rightParen u := by
  induction h with
  | nil => rfl
  | cons h ht _ ih => simp [number_cons, ht, ih, h.closed.number_eq]

theorem DerivesProgram.length_eq {es : List (Node String)} (h : DerivesProgram u es) :
    es.length = number .semicolon u := by
  induction h with
  | nil => rfl
  | cons h ht _ ih => simp [number_cons, ht, ih, h.closed.number_eq]

def Token.makes (starts : Bool) (part : Part ν) (t : Token) : Bool :=
  t.cls ∈ part.puncts.map TokenClass.punct && !(starts && t.cls = .punct .plus)

theorem Token.count_parts {part : Part String} (h : part.isLeaf = false) (starts : Bool)
    (t : Token) : (t.parts starts).count part = if t.makes starts part then 1 else 0 := by
  obtain ⟨cls, text, pos⟩ := t
  cases part with
  | num value => cases h
  | var v => cases h
  | stmt => cases cls with
    | punct p => cases p <;> cases starts <;> rfl
    | _ => rfl
  | assign => cases cls with
    | punct p => cases p <;> cases starts <;> rfl
    | _ => rfl
  | binary op => cases cls with
    | punct p => cases op <;> cases p <;> cases starts <;> rfl
    | _ => cases op <;> rfl

/-- **How often tokens become a part that is no leaf.** -/
theorem count_partsOf {part : Part String} (h : part.isLeaf = false) (starts : Bool)
    (ts : List Token) :
    (partsOf starts ts).count part = (marked starts ts).countP fun m => m.2.makes m.1 part := by
  induction ts generalizing starts with
  | nil => rfl
  | cons t ts ih =>
    rw [partsOf_cons, List.count_append, t.count_parts h, ih, marked, List.countP_cons,
      Nat.add_comm]

theorem number_add_number {p q : Punct} (h : p ≠ q) (ts : List Token) :
    number p ts + number q ts = ts.countP fun t => t.cls = .punct p || t.cls = .punct q := by
  induction ts with
  | nil => rfl
  | cons t ts ih =>
    rw [number_cons, number_cons, List.countP_cons, ← ih]
    by_cases hp : t.cls = .punct p
    · simp [hp, h]
      omega
    · simp [hp]
      omega

theorem count_partsOf_eq {part : Part String} (h : part.isLeaf = false)
    (hplus : .plus ∉ part.puncts) (ts : List Token) :
    (partsOf true ts).count part = ts.countP fun t => t.cls ∈ part.puncts.map TokenClass.punct := by
  rw [count_partsOf h, ← countP_marked _ true]
  refine List.countP_congr fun m _ => ?_
  simp only [Token.makes, Bool.and_eq_true, decide_eq_true_eq, and_iff_left_iff_imp]
  intro hm
  have hne : m.2.cls ≠ .punct .plus := by
    intro hcls
    rw [hcls] at hm
    obtain ⟨p, hp, hpeq⟩ := List.mem_map.1 hm
    cases hpeq
    exact hplus hp
  simp [hne]

theorem count_partsOf_of_one {part : Part String} {p : Punct} (h : part.puncts = [p])
    (hp : p ≠ .plus) (ts : List Token) : (partsOf true ts).count part = number p ts := by
  rw [count_partsOf_eq (part.isLeaf_eq_false (by simp [h])) (by simpa [h] using hp.symm), h]
  simp [number]

theorem count_partsOf_of_two {part : Part String} {p q : Punct} (h : part.puncts = [p, q])
    (hpq : p ≠ q) (hp : .plus ∉ [p, q]) (ts : List Token) :
    (partsOf true ts).count part = number p ts + number q ts := by
  rw [count_partsOf_eq (part.isLeaf_eq_false (by simp [h])) (by rwa [h]), h, number_add_number hpq]
  simp

theorem count_partsOf_add (ts : List Token) :
    (partsOf true ts).count (.binary .add) = occurrences false .plus ts := by
  rw [count_partsOf rfl, occurrences]
  refine List.countP_congr fun m _ => ?_
  by_cases hm : m.2.cls = .punct .plus <;> simp [Token.makes, Part.puncts, hm]

/-! ## Leaves -/

/-- The leaf that a token becomes, if it becomes one: an operand, or the zero of a minus sign. -/
def Token.leaf? (starts : Bool) (t : Token) : Option (Part String) :=
  match t.cls with
  | .num value => some (.num value)
  | .ident => some (.var t.text)
  | .punct .minus => if starts then some (.num 0) else none
  | _ => none

def leavesOf (ts : List Token) : List (Part String) :=
  (marked true ts).filterMap fun m => m.2.leaf? m.1

theorem Token.filter_parts (starts : Bool) (t : Token) :
    (t.parts starts).filter Part.isLeaf = (t.leaf? starts).toList := by
  obtain ⟨cls, text, pos⟩ := t
  cases cls with
  | punct p => cases p <;> cases starts <;> rfl
  | _ => rfl

theorem filter_partsOf (ts : List Token) : (partsOf true ts).filter Part.isLeaf = leavesOf ts := by
  unfold partsOf leavesOf
  induction marked true ts with
  | nil => rfl
  | cons m ms ih =>
    rw [List.flatMap_cons, List.filter_append, ih, m.2.filter_parts, List.filterMap_cons]
    cases m.2.leaf? m.1 <;> rfl

theorem Token.nums_parts (starts : Bool) (t : Token) :
    ((t.parts starts).filterMap Part.num?) =
      t.value?.toList ++ if starts && t.cls = .punct .minus then [0] else [] := by
  obtain ⟨cls, text, pos⟩ := t
  cases cls with
  | punct p => cases p <;> cases starts <;> rfl
  | _ => cases starts <;> rfl

theorem nums_partsOf (starts : Bool) (ts : List Token) :
    ((partsOf starts ts).filterMap Part.num?).Perm (ts.filterMap Token.value? ++
      List.replicate ((marked starts ts).countP fun m => m.1 && m.2.cls = .punct .minus) 0) := by
  induction ts generalizing starts with
  | nil => exact .refl _
  | cons t ts ih =>
    rw [partsOf_cons, List.filterMap_append, t.nums_parts, marked, List.countP_cons]
    refine ((ih t.awaitsOperand).append_left _).trans ?_
    by_cases hsign : starts ∧ t.cls = .punct .minus
    · have hvalue : t.value? = none := by rw [Token.value?, hsign.2]
      simpa [hsign, hvalue, List.filterMap_cons, List.replicate_succ] using List.perm_middle.symm
    · simp only [hsign, Bool.and_eq_true, decide_eq_true_eq, if_false, List.append_nil,
        Nat.add_zero, List.filterMap_cons]
      cases t.value? <;> exact .refl _

/-! ## Programs -/

/-- **Nothing is lost or made up between the tokens before the end of the input and the trees of a
program.**  Semicolons, assignments and operators become as many parts of the trees, where a plus
sign becomes none and a minus sign a subtraction.  The literals stay, with a zero for each minus
sign, and so do the identifiers, with the slots that they are resolved to.  Where no comparison
turns its operands around, the leaves come in the order of the tokens. -/
theorem parse_conserves_tokens {tokens : List Token} {locals : Locals} {limit : Nat}
    {program : Program}
    (h : ((Parser.ofTokens tokens locals).withMaxDepth limit).parse.1 = .ok program) :
    let parser := (Parser.ofTokens tokens locals).withMaxDepth limit
    let final := parser.parse.2.locals
    let ts := tokens.takeWhile fun t => !t.isEof
    let count := fun part => program.parts.count part
    program.stmts.length = number .semicolon ts ∧
      count .stmt = number .semicolon ts ∧
      count .assign = number .assign ts ∧
      number .leftParen ts = number .rightParen ts ∧
      count (.binary .add) = occurrences false .plus ts ∧
      count (.binary .sub) = number .minus ts ∧
      count (.binary .mul) = number .star ts ∧
      count (.binary .div) = number .slash ts ∧
      count (.binary .eq) = number .equal ts ∧
      count (.binary .ne) = number .notEqual ts ∧
      count (.binary .lt) = number .less ts + number .greater ts ∧
      count (.binary .le) = number .lessEqual ts + number .greaterEqual ts ∧
      (program.parts.filterMap Part.num?).Perm
        (ts.filterMap Token.value? ++ List.replicate (occurrences true .minus ts) 0) ∧
      (program.parts.filterMap Part.var?).Perm (parser.nextResolutions.map Prod.snd) ∧
      parser.nextResolutions =
        (ts.filter (·.cls = .ident)).map (fun t => (t, final.slot t.text)) ∧
      (number .greater ts = 0 → number .greaterEqual ts = 0 →
        program.parts.filter Part.isLeaf = (leavesOf ts).map (Part.map final.slot)) := by
  have hresolved := Parser.nextResolutions_of_ok h
  have hvars := (Parser.vars_perm_nextResolutions _).2 program h
  obtain ⟨es, hes, rfl, hfinal⟩ := exists_derivesProgram_of_ok h
  intro parser final ts count
  have hparts := Program.parts_map (locals.declareTokens ts).slot es
    (locals.declareTokens ts).frameSize
  -- a part that is no leaf comes as often in the trees as the tokens become it
  have hcount : ∀ part : Part String, part.isLeaf = false →
      count (part.map (locals.declareTokens ts).slot) = (partsOf true ts).count part := by
    intro part hpart
    show (Program.parts _).count _ = _
    rw [hparts, Part.count_map _ hpart, hes.parts_perm.count_eq]
  have hone : ∀ (part : Part String) (p : Punct), part.puncts = [p] → p ≠ .plus →
      count (part.map (locals.declareTokens ts).slot) = number p ts := fun part p h hp =>
    (hcount part (part.isLeaf_eq_false (by simp [h]))).trans (count_partsOf_of_one h hp ts)
  have htwo : ∀ (part : Part String) (p q : Punct), part.puncts = [p, q] → p ≠ q →
      .plus ∉ [p, q] →
      count (part.map (locals.declareTokens ts).slot) = number p ts + number q ts :=
    fun part p q h hpq hplus =>
      (hcount part (part.isLeaf_eq_false (by simp [h]))).trans
        (count_partsOf_of_two h hpq hplus ts)
  refine ⟨(List.length_map _).trans hes.length_eq, ?stmt, ?assign, hes.number_parens, ?add, ?sub,
    ?mul, ?div, ?eq, ?ne, ?lt, ?le, ?nums, ?vars, hresolved, ?leaves⟩
  case stmt => exact hone .stmt .semicolon rfl (by decide)
  case assign => exact hone .assign .assign rfl (by decide)
  case add => exact (hcount (.binary .add) rfl).trans (count_partsOf_add ts)
  case sub => exact hone (.binary .sub) .minus rfl (by decide)
  case mul => exact hone (.binary .mul) .star rfl (by decide)
  case div => exact hone (.binary .div) .slash rfl (by decide)
  case eq => exact hone (.binary .eq) .equal rfl (by decide)
  case ne => exact hone (.binary .ne) .notEqual rfl (by decide)
  case lt => exact htwo (.binary .lt) .less .greater rfl (by decide) (by decide)
  case le => exact htwo (.binary .le) .lessEqual .greaterEqual rfl (by decide) (by decide)
  case nums =>
    rw [hparts, Part.filterMap_num?_map]
    refine (hes.parts_perm.filterMap _).trans ((nums_partsOf true ts).trans (.of_eq ?_))
    simp [occurrences]
  case vars => rwa [Program.filterMap_var?_parts]
  case leaves =>
    intro hgreater hgreaterEqual
    have hturns : ∀ t ∈ ts, t.turns = false := fun t ht =>
      Token.turns_eq_false (number_eq_zero.1 hgreater t ht) (number_eq_zero.1 hgreaterEqual t ht)
    rw [hparts, Part.filter_isLeaf_map, hes.parts_eq hturns, filter_partsOf, ← hfinal]

/-- `a = +(b - -1) <= a;`, with a plus sign, which leaves nothing, and two minuses, one of them a
sign. -/
theorem parse_conserves_tokens_of_signs :
    let tokens : List Token := [⟨.ident, "a", 0⟩, ⟨.punct .assign, "=", 2⟩, ⟨.punct .plus, "+", 4⟩,
      ⟨.punct .leftParen, "(", 5⟩, ⟨.ident, "b", 6⟩, ⟨.punct .minus, "-", 8⟩,
      ⟨.punct .minus, "-", 10⟩, ⟨.num 1, "1", 11⟩, ⟨.punct .rightParen, ")", 12⟩,
      ⟨.punct .lessEqual, "<=", 14⟩, ⟨.ident, "a", 17⟩, ⟨.punct .semicolon, ";", 18⟩, .eofAt 19]
    let parser := (Parser.ofTokens tokens {}).withMaxDepth 3
    let ts := tokens.takeWhile fun t => !t.isEof
    let program : Program :=
      ⟨[.stmt (.assign (.var 8)
        (.binary .le (.binary .sub (.var 16) (.binary .sub (.num 0) (.num 1))) (.var 8)))], 16⟩
    parser.parse.1 = .ok program ∧
      (number .minus ts = 2 ∧ occurrences true .minus ts = 1 ∧ occurrences false .plus ts = 0) ∧
      program.parts.count (.binary .sub) = number .minus ts ∧
      program.parts.count (.binary .add) = occurrences false .plus ts ∧
      (program.parts.filterMap Part.num?).Perm [1, 0] ∧
      program.parts.filter Part.isLeaf = [.var 8, .var 16, .num 0, .num 1, .var 8] := by
  intro tokens parser ts program
  have hok : parser.parse.1 = .ok program := by with_unfolding_all rfl
  obtain ⟨-, -, -, -, hadd, hsub, -, -, -, -, -, -, hnums, -, -, hleaves⟩ :=
    parse_conserves_tokens hok
  refine ⟨hok, by decide, hsub, hadd, hnums, (hleaves rfl rfl).trans ?_⟩
  with_unfolding_all rfl

end FrameLang

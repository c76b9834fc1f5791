import FrameLang.Proofs.Calls
import FrameLang.Proofs.Grammar.Soundness

/-!
# A parser accepts its grammar

The two directions for a call of a parser, and what they come to for a new parser.

* `Parser.parse_of_derivesProgram`: with room for as many levels as there are tokens, a program of
  the grammar is accepted, and the answer is its trees with the offsets put in.
* `Parser.derivesProgram_of_parse`: what is accepted, with any room, is a program of the grammar.
* `parse_ok_iff_derivesProgram`: both for a new parser.  Since a run has one result only, the
  grammar is unambiguous.
-/

namespace FrameLang

theorem DerivesProgram.unique {u : List Token} {es fs : List (Node String)}
    (h : DerivesProgram u es) (h' : DerivesProgram u fs) : es = fs := by
  obtain ⟨s₁, hr₁, hd₁, -⟩ := h.reads (.initial {}) rfl rfl (Nat.le_refl _)
  obtain ⟨s₂, hr₂, hd₂, -⟩ := h'.reads (.initial {}) rfl rfl (Nat.le_refl _)
  rw [hr₁.unique hr₂, hd₂] at hd₁
  simpa [State.initial] using hd₁.symm

namespace Parser

variable {p : Parser} {es : List (Node String)}

/-- **A program of the grammar is accepted**, if there is room for as many levels as tokens. -/
theorem parse_of_derivesProgram (h : DerivesProgram p.pending es)
    (hroom : p.pending.length ≤ p.room) :
    p.parse =
      (.ok ⟨es.map (Node.map (p.locals.declareTokens p.pending).slot),
          (p.locals.declareTokens p.pending).frameSize⟩,
        { p with pending := [], locals := p.locals.declareTokens p.pending }) := by
  obtain ⟨s', hr, hdone, hstack, hphase⟩ := h.reads (.initial p.locals) rfl rfl hroom
  have hbetween : s'.betweenStatements = true := betweenStatements_iff.2 ⟨hstack, hphase⟩
  have hlocals : s'.locals = p.locals.declareTokens p.pending := hr.locals_eq
  have hdone' : s'.done.reverse = es := by
    rw [hdone, State.initial, List.append_nil, List.reverse_reverse]
  rw [(parse_of_reads hr hbetween).1, hlocals, hdone']

/-- **What is accepted is a program of the grammar.** -/
theorem derivesProgram_of_parse {program : Program} (h : p.parse.1 = .ok program) :
    ∃ es, DerivesProgram p.pending es := by
  obtain ⟨u, rest, s, hu, hr, ⟨rfl, hb⟩ | ⟨r, ht, hb⟩⟩ := p.exists_reads
  · have hm : Made s u := hr.made (made_initial p.locals)
    rw [hu, List.append_nil]
    exact ⟨s.done.reverse, hm.derivesProgram hb⟩
  · rw [(parse_of_refused hu hr ht hb).1] at h
    cases h

end Parser

/-- **A new parser accepts exactly the programs of the grammar and builds their trees.**  The tokens
of its input are those before the first end of the input.  A name in a tree becomes the offset that
it has in the last table, and that is the offset which declaring it gave where it stands. -/
theorem parse_ok_iff_derivesProgram (tokens : List Token) (locals : Locals) (limit : Nat)
    (hlimit : tokens.length ≤ limit) :
    let u := tokens.takeWhile fun t => !t.isEof
    let answer := ((Parser.ofTokens tokens locals).withMaxDepth limit).parse
    let final := locals.declareTokens u
    ((∃ program, answer.1 = .ok program) ↔ ∃ es, DerivesProgram u es) ∧
      ∀ es, DerivesProgram u es →
        (∀ es', DerivesProgram u es' → es' = es) ∧
        answer.1 = .ok ⟨es.map (Node.map final.slot), final.frameSize⟩ ∧
        answer.2.locals = final ∧
        ∀ v t w, u = v ++ t :: w → t.cls = .ident →
          final.slot t.text = (locals.declareTokens v).slot t.text := by
  intro u answer final
  have hlength : u.length ≤ limit := Nat.le_trans (List.takeWhile_sublist _).length_le hlimit
  have hanswer : ∀ es, DerivesProgram u es →
      answer = (.ok ⟨es.map (Node.map final.slot), final.frameSize⟩, _) :=
    fun es h => Parser.parse_of_derivesProgram h hlength
  refine ⟨⟨?_, ?_⟩, ?_⟩
  · rintro ⟨program, h⟩
    exact Parser.derivesProgram_of_parse h
  · rintro ⟨es, h⟩
    exact ⟨_, congrArg Prod.fst (hanswer es h)⟩
  · intro es h
    refine ⟨fun es' h' => h'.unique h, ?_, ?_, ?_⟩
    · exact congrArg Prod.fst (hanswer es h)
    · exact congrArg (fun a => a.2.locals) (hanswer es h)
    · intro v t w hu ht
      show (locals.declareTokens u).slot t.text = _
      rw [hu]
      exact Locals.slot_declareTokens ht

/-- The source `1 > a;`, where the operands change places. -/
theorem parse_greater_of_derivesProgram :
    let tokens : List Token :=
      [⟨.num 1, "1", 0⟩, ⟨.punct .greater, ">", 2⟩, ⟨.ident, "a", 4⟩, ⟨.punct .semicolon, ";", 5⟩]
    tokens.length ≤ 4 ∧
      ((Parser.ofTokens tokens {}).withMaxDepth 4).parse.1 =
        .ok ⟨[.stmt (.binary .lt (.var 8) (.num 1))], 8⟩ := by
  intro tokens
  have hlength : tokens.length ≤ 4 := Nat.le_refl 4
  have hone : Derives (.chain .relational) [⟨.num 1, "1", 0⟩] (.num 1) :=
    .first (.first (.first (.plain (.literal rfl))))
  have hname : Derives (.chain .additive) [⟨.ident, "a", 4⟩] (.var "a") :=
    .first (.first (.plain (.name rfl)))
  have hd : DerivesProgram tokens [.stmt (.binary .lt (.var "a") (.num 1))] :=
    .cons (.value (.first (.more hone (p := .greater) rfl rfl hname))) rfl .nil
  exact ⟨hlength, ((parse_ok_iff_derivesProgram tokens {} 4 hlength).2 _ hd).2.1⟩

end FrameLang

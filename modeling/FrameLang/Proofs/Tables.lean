import FrameLang.Compilation
import FrameLang.Proofs.Calls
import FrameLang.Proofs.Grammar.Soundness

/-!
# Parsing over any table

A parse by names never looks at its table, so it goes the same way over every table, and only the
names that it reads are put in.

* `State.withLocals`: a state over another table.
* `Takes.withLocals`, `Reads.withLocals`: what is read over one table is read over every other.
* `parse_cases`: a new parser fails with one error over all tables, or succeeds over all of them.
  Then there is one list of trees by names, and each table puts its own offsets into them.
* `Locals.declareTokens_of_known`: names that are there already change nothing.
-/

namespace FrameLang

variable {room limit : Nat} {s s' : State String} {t : Token} {u ts : List Token} {locals : Locals}

def State.withLocals (s : State String) (locals : Locals) : State String :=
  { s with locals := locals }

theorem Takes.withLocals (h : Takes byName s t s') (locals : Locals) :
    Takes byName (s.withLocals locals) t (s'.withLocals (locals.declareToken t)) := by
  have htakes : ∃ locals', Takes byName (s.withLocals locals) t (s'.withLocals locals') := by
    cases h with
    | plus hs ht => exact ⟨locals, .plus hs ht⟩
    | minus hs ht => exact ⟨locals, .minus hs ht⟩
    | literal hs ht => exact ⟨locals, .literal hs ht⟩
    | name hs ht => exact ⟨locals.declare t.text, .name hs ht⟩
    | openGroup hs ht => exact ⟨locals, .openGroup hs ht⟩
    | assign hs ht hr => exact ⟨locals, .assign hs ht hr⟩
    | operator hs ht hr => exact ⟨locals, .operator hs ht hr⟩
    | closeGroup hs ht hc => exact ⟨locals, .closeGroup hs ht hc⟩
    | finish hs ht hc => exact ⟨locals, .finish hs ht hc⟩
  obtain ⟨locals', h'⟩ := htakes
  rwa [show locals' = locals.declareToken t from h'.locals_eq] at h'

theorem not_takes_withLocals (h : ∀ s', ¬ Takes byName s t s') (locals : Locals) :
    ∀ s', ¬ Takes byName (s.withLocals locals) t s' :=
  fun _ h' => h _ (h'.withLocals s.locals)

theorem Reads.withLocals (h : Reads byName room s u s') (locals : Locals) :
    Reads byName room (s.withLocals locals) u (s'.withLocals (locals.declareTokens u)) := by
  induction h generalizing locals with
  | nil s => exact .nil _
  | cons ht hroom _ ih => exact .cons (ht.withLocals locals) hroom (ih _)

theorem State.step_withLocals_of_error {r : Refusal} (h : s.step byName room t = .error r)
    (locals : Locals) : (s.withLocals locals).step byName room t = .error r := by
  rw [step_eq_error_iff] at h ⊢
  rcases h with ⟨⟨s', hs'⟩, hopens, hroom, hr⟩ | ⟨hn, hr⟩
  · exact .inl ⟨⟨_, hs'.withLocals locals⟩, hopens, hroom, hr⟩
  · exact .inr ⟨not_takes_withLocals hn locals, hr⟩

/-! ## New parsers -/

theorem pending_ofTokens_endMarked (tokens : List Token) :
    (endMarked tokens).takeWhile (fun t => !t.isEof) = tokens.takeWhile fun t => !t.isEof :=
  congrArg Parser.pending (ofTokens_endMarked tokens {})

/-- **A new parser goes the same way over every table.**  It fails with the same error over all of
them, at a token that it refuses; or it succeeds over all of them, with trees by names that the
grammar derives from its tokens. -/
theorem parse_cases (limit : Nat) (tokens : List Token) :
    (∃ t ∈ endMarked tokens, ∃ r : Refusal, (r = .tooDeep → t.opens) ∧ ∃ u, ∀ locals,
      let answer := ((Parser.ofTokens tokens locals).withMaxDepth limit).parse
      answer.1 = .error ⟨t.pos, r.fault limit t⟩ ∧ answer.2.locals = locals.declareTokens u) ∨
    ∃ es, DerivesProgram (tokens.takeWhile fun t => !t.isEof) es ∧ ∀ locals,
      let answer := ((Parser.ofTokens tokens locals).withMaxDepth limit).parse
      let final := locals.declareTokens (tokens.takeWhile fun t => !t.isEof)
      answer.1 = .ok ⟨es.map (Node.map final.slot), final.frameSize⟩ ∧
        answer.2.locals = final := by
  obtain ⟨u, t, w, s, hts, hr, hstop⟩ := exists_stop tokens {} limit
  have hreads : ∀ locals, Reads byName limit (.initial locals) u
      (s.withLocals (locals.declareTokens u)) := fun locals => hr.withLocals locals
  rcases hstop with ⟨ht, hb⟩ | ⟨r, ht, hb⟩
  · have hpending : (tokens.takeWhile fun t => !t.isEof) = u := by
      rw [← pending_ofTokens_endMarked, hts, takeWhile_not_isEof_cons hr.isEof_eq_false ht]
    refine .inr ⟨s.done.reverse, ?_, fun locals => ?_⟩
    · rw [hpending]
      exact (hr.made (made_initial {})).derivesProgram hb
    · have hparse := parse_ofTokens_of_reads (hreads locals) hb ht w
      rw [← hts, ofTokens_endMarked] at hparse
      rw [hpending]
      exact ⟨hparse.1, hparse.2.1⟩
  · refine .inl ⟨t, by rw [hts]; simp, r, fun hdeep => ?_, u, fun locals => ?_⟩
    · rcases State.step_eq_error_iff.1 ht with ⟨-, hopens, -⟩ | ⟨-, hrefusal⟩
      · exact hopens
      · exact absurd (hrefusal.symm.trans hdeep) s.refusal_ne_tooDeep
    · have hstep := State.step_withLocals_of_error ht (locals.declareTokens u)
      have hparse := parse_ofTokens_of_refused (hreads locals) hstep hb w
      rw [← hts, ofTokens_endMarked] at hparse
      exact ⟨hparse.1, hparse.2.1⟩

theorem exists_derivesProgram_of_ok {tokens : List Token} {program : Program}
    (h : ((Parser.ofTokens tokens locals).withMaxDepth limit).parse.1 = .ok program) :
    let body := tokens.takeWhile fun t => !t.isEof
    let final := locals.declareTokens body
    ∃ es, DerivesProgram body es ∧ program = ⟨es.map (Node.map final.slot), final.frameSize⟩ ∧
      ((Parser.ofTokens tokens locals).withMaxDepth limit).parse.2.locals = final := by
  rcases parse_cases limit tokens with ⟨t, -, r, -, u, herror⟩ | ⟨es, hes, hok⟩
  · rw [(herror locals).1] at h
    cases h
  · obtain ⟨hanswer, hfinal⟩ := hok locals
    exact ⟨es, hes, Except.ok.inj (h.symm.trans hanswer), hfinal⟩

theorem parseProgram_of_reads {config : Config} {tokens w : List Token}
    (hts : endMarked tokens = u ++ t :: w)
    (hr : Reads byName config.maxDepth (.initial locals) u s)
    (hb : s.betweenStatements = true) (ht : t.isEof = true) :
    parseProgram config tokens locals =
      (.ok ⟨s.done.reverse.map (Node.map s.locals.slot), s.locals.frameSize⟩, s.locals) := by
  obtain ⟨hanswer, hlocals, -⟩ := parse_ofTokens_of_reads hr hb ht w
  rw [← hts, ofTokens_endMarked] at hanswer hlocals
  exact Prod.ext hanswer hlocals

theorem parseProgram_of_refused {config : Config} {tokens w : List Token} {r : Refusal}
    (hts : endMarked tokens = u ++ t :: w)
    (hr : Reads byName config.maxDepth (.initial locals) u s)
    (ht : s.step byName config.maxDepth t = .error r)
    (hb : t.isEof = true → s.betweenStatements = false) :
    parseProgram config tokens locals = (.error ⟨t.pos, r.fault config.maxDepth t⟩, s.locals) := by
  obtain ⟨hanswer, hlocals, -⟩ := parse_ofTokens_of_refused hr ht hb w
  rw [← hts, ofTokens_endMarked] at hanswer hlocals
  exact Prod.ext hanswer hlocals

/-! ## Names that are there already -/

namespace Locals

theorem declare_of_lookup? {x : String} {offset : Nat} (h : locals.lookup? x = some offset) :
    locals.declare x = locals := by
  rw [declare, h]
  rfl

theorem declareTokens_of_known
    (h : ∀ t ∈ ts, t.cls = .ident → ∃ offset, locals.lookup? t.text = some offset) :
    locals.declareTokens ts = locals := by
  induction ts with
  | nil => rfl
  | cons t ts ih =>
    rw [List.forall_mem_cons] at h
    have ht : locals.declareToken t = locals := by
      by_cases hi : t.cls = .ident
      · obtain ⟨offset, hoffset⟩ := h.1 hi
        rw [declareToken_of_ident hi, declare_of_lookup? hoffset]
      · exact declareToken_of_ne_ident hi
    rw [declareTokens_cons, ht, ih h.2]

theorem exists_lookup?_declareTokens (ht : t ∈ ts) (hi : t.cls = .ident) :
    ∃ offset, (locals.declareTokens ts).lookup? t.text = some offset := by
  obtain ⟨u, v, rfl⟩ := List.append_of_mem ht
  rw [declareTokens_append, declareTokens_cons, declareToken_of_ident hi]
  exact ⟨_, extends_declareTokens _ v _ _ (lookup?_declare_self _ _)⟩

theorem declareTokens_declareTokens (locals : Locals) (ts : List Token) :
    (locals.declareTokens ts).declareTokens ts = locals.declareTokens ts :=
  declareTokens_of_known fun _ ht hi => exists_lookup?_declareTokens ht hi

end Locals

end FrameLang

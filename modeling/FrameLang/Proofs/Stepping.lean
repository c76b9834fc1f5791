import FrameLang.Proofs.Faults
import FrameLang.Proofs.Offsets

/-!
# Reading on and on

A reading can be followed by another one also after a fault and at the end of the input.  The place
never goes back and never leaves the text, and in the end the answers stay the same.

* `Cursor.after`, `Cursor.afterWith`: the place after some readings.
* `Cursor.isFinal`: the answers that nothing else comes after.
* `Cursor.exists_passed`: one reading passes some characters, and one at least if its answer is not
  final.
* `Cursor.On.after`: after any readings the place is one of the text.
* `Cursor.exists_isFinal_or_le`: as long as no answer is final, every reading passes a byte.
* `steps_safe_and_constant`: all of this for a whole source, with a table or without.
-/

namespace FrameLang

namespace Cursor

/-- The place after some readings. -/
def after : Nat → Cursor → Cursor
  | 0, c => c
  | k + 1, c => after k c.next.2

def afterWith : Nat → Cursor → Locals → Cursor × Locals
  | 0, c, locals => (c, locals)
  | k + 1, c, locals =>
    let (_, c, locals) := c.nextWith locals
    afterWith k c locals

/-- The answers that nothing else comes after: the end of the input, and a character that starts no
token. -/
def isFinal : Except LexicalError Token → Bool
  | .ok t => t.isEof
  | .error ⟨_, .unknownChar _⟩ => true
  | .error ⟨_, .literalTooLarge _⟩ => false

variable {c : Cursor} {chars : List Char}

/-! ## One reading -/

/-- A reading passes some characters, and one at least if its answer is not final. -/
theorem exists_passed (c : Cursor) :
    ∃ passed, c.rest = passed ++ c.next.2.rest ∧
      c.next.2.offset = c.offset + String.utf8Len passed ∧
      (isFinal c.next.1 = false → passed ≠ []) := by
  obtain ⟨gap, rest, -, hc, hm⟩ := c.exists_munch
  generalize c.next = answer at hm
  cases hm with
  | ending => exact ⟨gap, hc, rfl, nofun⟩
  | @token _ text _ _ h =>
    refine ⟨gap ++ text, ?_, ?_, fun _ hnil => h.lexeme.ne_nil (List.append_eq_nil_iff.1 hnil).2⟩
    · rw [hc, List.append_assoc]
    · rw [String.utf8Len_append, Nat.add_assoc]
  | @tooLarge _ text _ _ h =>
    refine ⟨gap ++ text, ?_, ?_, fun _ hnil => h.lexeme.ne_nil (List.append_eq_nil_iff.1 hnil).2⟩
    · rw [hc, List.append_assoc]
    · rw [String.utf8Len_append, Nat.add_assoc]
  | unknown => exact ⟨gap, hc, rfl, nofun⟩

theorem offset_le_next (c : Cursor) : c.offset ≤ c.next.2.offset := by
  obtain ⟨passed, -, hoffset, -⟩ := c.exists_passed
  omega

theorem offset_lt_next (h : isFinal c.next.1 = false) : c.offset < c.next.2.offset := by
  obtain ⟨passed, -, hoffset, hne⟩ := c.exists_passed
  obtain ⟨ch, r, rfl⟩ := List.exists_cons_of_ne_nil (hne h)
  have hsize := ch.utf8Size_pos
  rw [String.utf8Len_cons] at hoffset
  omega

theorem eq_of_isFinal {answer : Except LexicalError Token × Cursor} (h : Munch c answer)
    (hfinal : isFinal answer.1 = true) : answer.2 = c := by
  cases h with
  | ending => rfl
  | token h => exact absurd (of_decide_eq_true hfinal) h.lexeme.ne_eof
  | tooLarge => cases hfinal
  | unknown => rfl

theorem skip_isBlank_skip (c : Cursor) : (c.skip isBlank).skip isBlank = c.skip isBlank :=
  skip_isBlank_eq_self c.not_isBlank_skip

/-- A final answer is given again and again. -/
theorem next_of_isFinal (h : isFinal c.next.1 = true) : c.next.2.next = c.next := by
  have hplace : c.next.2 = c.skip isBlank := eq_of_isFinal (munch_lexeme _) h
  rw [hplace, next, skip_isBlank_skip, next]

/-! ## Places of a text -/

theorem On.start (source : String) : (start source).On source.toList :=
  charsFrom?_append [] source.toList

theorem On.next (h : c.On chars) : c.next.2.On chars := by
  obtain ⟨before, rfl, hbefore⟩ := h.exists_before
  obtain ⟨passed, hrest, hoffset, -⟩ := c.exists_passed
  refine charsFrom?_eq_some_iff.2 ⟨before ++ passed, ?_, ?_⟩
  · rw [hrest, List.append_assoc]
  · rw [String.utf8Len_append, hbefore, hoffset]

theorem On.after (h : c.On chars) (k : Nat) : (c.after k).On chars := by
  induction k generalizing c with
  | zero => exact h
  | succ k ih => exact ih h.next

theorem On.offset_le (h : c.On chars) : c.offset ≤ String.utf8Len chars := by
  obtain ⟨before, rfl, hbefore⟩ := h.exists_before
  rw [String.utf8Len_append, hbefore]
  exact Nat.le_add_right _ _

/-- A place of a source is the start of what is left of it. -/
theorem On.exists_start {source : String} (h : c.On source.toList) :
    ∃ before rest : String, source = before ++ rest ∧ before.utf8ByteSize = c.offset ∧
      c = (Cursor.start rest).shift c.offset := by
  obtain ⟨before, hsource, hbefore⟩ := h.exists_before
  refine ⟨.ofList before, .ofList c.rest, ?_, ?_, ?_⟩
  · rw [← String.ofList_append, ← hsource, String.ofList_toList]
  · rw [String.utf8ByteSize_ofList, hbefore]
  · rw [Cursor.start, String.toList_ofList, shift, Nat.zero_add]

/-! ## Many readings -/

theorem after_add (j k : Nat) (c : Cursor) : c.after (j + k) = (c.after j).after k := by
  induction j generalizing c with
  | zero => rw [Nat.zero_add, after]
  | succ j ih => rw [Nat.succ_add, after, ih, after]

theorem steps_succ (n : Nat) (c : Cursor) : c.steps (n + 1) = c.next.1 :: c.next.2.steps n := rfl

theorem steps_eq_map (n : Nat) (c : Cursor) :
    c.steps n = (List.range n).map fun i => (c.after i).next.1 := by
  induction n generalizing c with
  | zero => rfl
  | succ n ih =>
    rw [steps_succ, ih, List.range_succ_eq_map, List.map_cons, List.map_map]
    rfl

theorem steps_shift (k n : Nat) (c : Cursor) :
    (c.shift k).steps n = (c.steps n).map (shiftAnswer k) := by
  induction n generalizing c with
  | zero => rfl
  | succ n ih => rw [steps_succ, next_shift, ih, steps_succ, List.map_cons]

theorem after_of_isFinal (h : isFinal c.next.1 = true) (n : Nat) : (c.after n).next = c.next := by
  induction n generalizing c with
  | zero => rfl
  | succ n ih =>
    have hnext := next_of_isFinal h
    rw [after, ih (by rwa [hnext]), hnext]

/-- As long as no answer is final, every reading passes a byte. -/
theorem exists_isFinal_or_le (k : Nat) (c : Cursor) :
    (∃ j < k, isFinal (c.after j).next.1 = true) ∨ c.offset + k ≤ (c.after k).offset := by
  induction k generalizing c with
  | zero => exact .inr (Nat.le_refl _)
  | succ k ih =>
    cases hfinal : isFinal c.next.1 with
    | true => exact .inl ⟨0, Nat.succ_pos k, hfinal⟩
    | false =>
      have hlt := offset_lt_next hfinal
      rcases ih c.next.2 with ⟨j, hj, hfinal'⟩ | hle
      · exact .inl ⟨j + 1, Nat.succ_lt_succ hj, hfinal'⟩
      · exact .inr (by rw [after]; omega)

theorem On.rest_eq_nil (h : c.On chars) (hle : String.utf8Len chars ≤ c.offset) : c.rest = [] := by
  obtain ⟨before, rfl, hbefore⟩ := h.exists_before
  cases hrest : c.rest with
  | nil => rfl
  | cons ch r =>
    have hsize := ch.utf8Size_pos
    rw [hrest, String.utf8Len_append, String.utf8Len_cons] at hle
    omega

theorem isFinal_after (source : String) :
    isFinal (((start source).after source.utf8ByteSize).next).1 = true := by
  rcases exists_isFinal_or_le source.utf8ByteSize (start source) with ⟨j, hj, hfinal⟩ | hle
  · obtain ⟨n, hn⟩ := Nat.exists_eq_add_of_lt hj
    rw [hn, Nat.add_assoc, after_add, after_of_isFinal hfinal]
    exact hfinal
  · -- all bytes are passed, so nothing is left
    have hon := (On.start source).after source.utf8ByteSize
    have hoffset : String.utf8Len source.toList ≤
        ((start source).after source.utf8ByteSize).offset := by
      rw [String.utf8Len_toList]
      exact Nat.le_trans (Nat.le_add_left _ _) hle
    have hrest := hon.rest_eq_nil hoffset
    generalize (start source).after source.utf8ByteSize = c at hrest
    obtain ⟨rest, offset⟩ := c
    obtain rfl : rest = [] := hrest
    rfl

/-! ## Readings with a table -/

def tokensOf (answers : List (Except LexicalError Token)) : List Token :=
  answers.filterMap Except.toOption

theorem nextWith_eq (c : Cursor) (locals : Locals) :
    c.nextWith locals = (c.next.1, c.next.2, locals.registerTokens (tokensOf [c.next.1])) := by
  unfold nextWith
  split
  case h_1 h => rw [h]; rfl
  case h_2 h => rw [h]; rfl

theorem registerTokens_tokensOf_cons (locals : Locals) (answer : Except LexicalError Token)
    (answers : List (Except LexicalError Token)) :
    locals.registerTokens (tokensOf (answer :: answers)) =
      (locals.registerTokens (tokensOf [answer])).registerTokens (tokensOf answers) := by
  cases answer with
  | error e => rfl
  | ok t => rfl

/-- A table does not change the answers, and the names among them are registered. -/
theorem stepsWith_eq (n : Nat) (c : Cursor) (locals : Locals) :
    c.stepsWith n locals = (c.steps n, locals.registerTokens (tokensOf (c.steps n))) := by
  induction n generalizing c locals with
  | zero => rfl
  | succ n ih =>
    rw [stepsWith, nextWith_eq]
    dsimp only
    rw [ih, ← registerTokens_tokensOf_cons]
    rfl

theorem afterWith_eq (k : Nat) (c : Cursor) (locals : Locals) :
    c.afterWith k locals = (c.after k, locals.registerTokens (tokensOf (c.steps k))) := by
  induction k generalizing c locals with
  | zero => rfl
  | succ k ih =>
    rw [afterWith, nextWith_eq]
    dsimp only
    rw [ih, ← registerTokens_tokensOf_cons]
    rfl

theorem tokensOf_map_shiftAnswer (k : Nat) (answers : List (Except LexicalError Token)) :
    tokensOf (answers.map (shiftAnswer k)) = (tokensOf answers).map (Token.shift k) := by
  induction answers with
  | nil => rfl
  | cons answer answers ih =>
    cases answer with
    | error e => exact ih
    | ok t => exact congrArg (t.shift k :: ·) ih

theorem stepsWith_shift (k n : Nat) (c : Cursor) (locals : Locals) :
    (c.shift k).stepsWith n locals =
      ((c.stepsWith n locals).1.map (shiftAnswer k), (c.stepsWith n locals).2) := by
  rw [stepsWith_eq, stepsWith_eq, steps_shift, tokensOf_map_shiftAnswer,
    Locals.registerTokens_map_shift]

end Cursor

/-! ## Whole sources -/

/-- **Reading on and on.**  After any number of readings of a source, also after faults and past the
end, the place is one where the source can be cut.  A reading there never fails to take a part of
the source, does not go back, and goes on unless its answer is final, and then all later answers are
the same.  The readings from there on are those of what is left, further on.  After as many readings
as there are bytes all answers are the same.  A table does not change anything of this, and the
names among the answers are registered in it in order. -/
theorem steps_safe_and_constant (source : String) (k : Nat) :
    let start := Cursor.start source
    let c := start.after k
    let answer := c.next.1
    (c.offset ≤ c.next.2.offset ∧ c.next.2.offset ≤ source.utf8ByteSize) ∧
    (∃ before rest : String, source = before ++ rest ∧ before.utf8ByteSize = c.offset ∧
      ∀ n locals, c.steps n = ((Cursor.start rest).steps n).map (Cursor.shiftAnswer c.offset) ∧
        c.stepsWith n locals =
          (((Cursor.start rest).stepsWith n locals).1.map (Cursor.shiftAnswer c.offset),
            ((Cursor.start rest).stepsWith n locals).2)) ∧
    nextAt? source.toList c.offset = some (answer, c.next.2.offset) ∧
    (if Cursor.isFinal answer then ∀ n, (c.after n).next.1 = answer
      else c.offset < c.next.2.offset) ∧
    (∀ n, (start.after (source.utf8ByteSize + n)).next.1 =
      (start.after source.utf8ByteSize).next.1) ∧
    (start.steps k = (List.range k).map fun i => (start.after i).next.1) ∧
    ∀ locals,
      let table := (namesOf (Cursor.tokensOf (start.steps k))).foldl Locals.register locals
      start.afterWith k locals = (c, table) ∧
        start.stepsWith k locals = (start.steps k, table) := by
  intro start c answer
  have hon : c.On source.toList := (Cursor.On.start source).after k
  refine ⟨⟨c.offset_le_next, ?_⟩, ?_, c.nextAt?_eq hon, ?_, fun n => ?_,
    Cursor.steps_eq_map k start, fun locals => ⟨?_, ?_⟩⟩
  · rw [← String.utf8Len_toList]
    exact hon.next.offset_le
  · obtain ⟨before, rest, hsource, hbefore, hc⟩ := hon.exists_start
    refine ⟨before, rest, hsource, hbefore, fun n locals => ⟨?_, ?_⟩⟩
    · rw [← Cursor.steps_shift, ← hc]
    · rw [← Cursor.stepsWith_shift, ← hc]
  · split
    case isTrue hfinal => exact fun n => congrArg Prod.fst (Cursor.after_of_isFinal hfinal n)
    case isFalse hfinal => exact Cursor.offset_lt_next (by simpa using hfinal)
  · rw [Cursor.after_add, Cursor.after_of_isFinal (Cursor.isFinal_after source)]
  · rw [Cursor.afterWith_eq, Locals.registerTokens_eq_foldl]
  · rw [Cursor.stepsWith_eq, Locals.registerTokens_eq_foldl]

example : (Cursor.start "a é").steps 3 =
    [.ok ⟨.ident, "a", 0⟩, .error ⟨2, .unknownChar 'é'⟩, .error ⟨2, .unknownChar 'é'⟩] := by
  decide

end FrameLang

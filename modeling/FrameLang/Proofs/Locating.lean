import FrameLang.Proofs.Report
import Mathlib.Data.List.Induction

/-!
# Lines and columns as offsets

A line and a column name a place in a source as well as its byte offset does.  Which line it is can
be told in two ways, by counting the line feeds before the place or by splitting the whole source at
them, and the two agree.

* `isValid_iff`: the offsets that lie between two characters.
* `prefix_splitAtByte`: a cut falls on the last of them that it has room for.
* `unlines_append_lastLine`: the characters before a place are whole lines and a part of one more.
* `splitOn_lineFeed`: these are the first lines of the source, and the line of the place comes next.
* `placeOf_append`: a later cut has a later place.
* `locate_recovers_offset`: the offset of a place from its line and its column.
-/

namespace FrameLang

variable {source : String} {before after cs : List Char} {c : Char} {pos pos' : Nat}

/-! ## Offsets between characters -/

theorem isValid_iff :
    (⟨pos⟩ : String.Pos.Raw).IsValid source ↔
      ∃ before after, source.toList = before ++ after ∧ pos = String.utf8Len before := by
  rw [String.Pos.Raw.isValid_iff_exists_append]
  constructor
  · rintro ⟨s, s', rfl, hpos⟩
    refine ⟨s.toList, s'.toList, String.toList_append, ?_⟩
    rw [String.utf8Len_toList]
    exact congrArg String.Pos.Raw.byteIdx hpos
  · rintro ⟨before, after, h, rfl⟩
    refine ⟨String.ofList before, String.ofList after, ?_, ?_⟩
    · rw [← String.ofList_append, ← h, String.ofList_toList]
    · rw [← String.utf8ByteSize_ofList]
      rfl

/-- A cut comes after all characters that it has room for. -/
theorem prefix_splitAtByte (h : cs = before ++ after) (hle : String.utf8Len before ≤ pos) :
    before <+: (splitAtByte pos cs).1 := by
  subst h
  induction before generalizing pos with
  | nil => exact List.nil_prefix
  | cons c before ih =>
    rw [String.utf8Len_cons] at hle
    rw [List.cons_append, splitAtByte, if_pos (by omega)]
    exact List.cons_prefix_cons.2 ⟨rfl, ih (by omega)⟩

theorem splitAtByte_mono (h : pos ≤ pos') (cs : List Char) :
    (splitAtByte pos cs).1 <+: (splitAtByte pos' cs).1 :=
  prefix_splitAtByte (splitAtByte_append pos cs).symm
    (Nat.le_trans (utf8Len_splitAtByte_le pos cs) h)

/-! ## Lines before a place -/

theorem lastLine_concat (cs : List Char) (c : Char) :
    lastLine (cs ++ [c]) = if c = '\n' then [] else lastLine cs ++ [c] := by
  by_cases h : c = '\n' <;> simp [lastLine, h]

theorem lastLine_append (h : '\n' ∉ cs) : lastLine (before ++ cs) = lastLine before ++ cs := by
  induction cs using List.reverseRecOn with
  | nil => simp
  | append_singleton cs c ih =>
    rw [List.mem_append, List.mem_singleton, not_or] at h
    rw [← List.append_assoc, lastLine_concat, if_neg (Ne.symm h.2), ih h.1, List.append_assoc]

theorem unlines_cons (line : List Char) (lines : List (List Char)) (cs : List Char) :
    unlines (line :: lines) ++ cs = line ++ '\n' :: (unlines lines ++ cs) := by
  simp [unlines]

theorem unlines_concat (lines : List (List Char)) (line : List Char) :
    unlines (lines ++ [line]) = unlines lines ++ line ++ ['\n'] := by
  simp [unlines]

theorem unlines_append_lastLine (before : List Char) :
    ∃ above, before = unlines above ++ lastLine before ∧ above.length = before.count '\n' ∧
      ∀ line ∈ above, '\n' ∉ line := by
  induction before using List.reverseRecOn with
  | nil => exact ⟨[], rfl, rfl, nofun⟩
  | append_singleton cs c ih =>
    obtain ⟨above, hcs, hlength, habove⟩ := ih
    rw [lastLine_concat]
    by_cases hc : c = '\n'
    · -- the line feed completes the line
      refine ⟨above ++ [lastLine cs], ?_, by simp [hlength, hc], ?_⟩
      · rw [if_pos hc, List.append_nil, unlines_concat, ← hcs, hc]
      · rw [List.forall_mem_append, List.forall_mem_singleton]
        exact ⟨habove, lineFeed_not_mem_lastLine cs⟩
    · refine ⟨above, ?_, by simp [hlength, hc], habove⟩
      rw [if_neg hc, ← List.append_assoc, ← hcs]

theorem splitOn_unlines {lines : List (List Char)} (h : ∀ line ∈ lines, '\n' ∉ line)
    (cs : List Char) : (unlines lines ++ cs).splitOn '\n' = lines ++ cs.splitOn '\n' := by
  induction lines with
  | nil => rfl
  | cons line lines ih =>
    rw [List.forall_mem_cons] at h
    rw [unlines_cons, List.splitOn_append_cons_self_of_not_mem h.1, ih h.2, List.cons_append]

/-- The number of bytes that some lines take, each with its line feed. -/
def linesLength : List (List Char) → Nat
  | [] => 0
  | line :: lines => String.utf8Len line + 1 + linesLength lines

theorem utf8Len_unlines (lines : List (List Char)) :
    String.utf8Len (unlines lines) = linesLength lines := by
  induction lines with
  | nil => rfl
  | cons line lines ih =>
    have hfeed : '\n'.utf8Size = 1 := by decide
    rw [← List.append_nil (unlines _), unlines_cons, String.utf8Len_append, String.utf8Len_cons,
      hfeed, List.append_nil, ih, linesLength, Nat.add_assoc, Nat.add_comm (linesLength lines)]

theorem exists_splitOn_firstLine (h : '\n' ∉ cs) (after : List Char) :
    ∃ below, (cs ++ after).splitOn '\n' = (cs ++ firstLine after) :: below := by
  have hline : '\n' ∉ cs ++ firstLine after := by
    rw [List.mem_append, not_or]
    exact ⟨h, lineFeed_not_mem_firstLine after⟩
  have hsplit : cs ++ after = cs ++ firstLine after ++ after.dropWhile (· ≠ '\n') := by
    rw [List.append_assoc, firstLine, List.takeWhile_append_dropWhile]
  rw [hsplit]
  cases hrest : after.dropWhile (· ≠ '\n') with
  | nil => exact ⟨[], by rw [List.append_nil, List.splitOn_eq_singleton hline]⟩
  | cons c rest =>
    have hc := List.head?_dropWhile_not (· ≠ '\n') after
    rw [hrest] at hc
    have hc : c = '\n' := by simpa using hc
    exact ⟨_, by rw [hc, List.splitOn_append_cons_self_of_not_mem hline]⟩

/-- **The line of a place comes after as many lines of the source as there are line feeds before the
place.** -/
theorem splitOn_lineFeed (before after : List Char) :
    ∃ above below,
      (before ++ after).splitOn '\n' = above ++ (lastLine before ++ firstLine after) :: below ∧
        above.length = before.count '\n' ∧
        String.utf8Len before = linesLength above + String.utf8Len (lastLine before) := by
  obtain ⟨above, hbefore, hlength, habove⟩ := unlines_append_lastLine before
  obtain ⟨below, hbelow⟩ := exists_splitOn_firstLine (lineFeed_not_mem_lastLine before) after
  refine ⟨above, below, ?_, hlength, ?_⟩
  · rw [← hbelow, ← splitOn_unlines habove, ← List.append_assoc, ← hbefore]
  · rw [← utf8Len_unlines, ← String.utf8Len_append, ← hbefore]

theorem exists_trimReturns_append (cs : List Char) :
    ∃ k, cs = trimReturns cs ++ List.replicate k '\r' := by
  refine ⟨(cs.reverse.takeWhile (· = '\r')).length, ?_⟩
  have hreturns : cs.reverse.takeWhile (· = '\r') =
      List.replicate (cs.reverse.takeWhile (· = '\r')).length '\r' :=
    List.eq_replicate_of_mem fun c hc => by simpa using List.all_eq_true.1 List.all_takeWhile c hc
  rw [trimReturns, ← List.reverse_replicate, ← hreturns, ← List.reverse_append,
    List.takeWhile_append_dropWhile, List.reverse_reverse]

theorem getLast?_trimReturns (cs : List Char) : (trimReturns cs).getLast? ≠ some '\r' := by
  rw [trimReturns, List.getLast?_reverse]
  intro h
  have := List.head?_dropWhile_not (· = '\r') cs.reverse
  rw [h] at this
  simp at this

/-! ## Places of two cuts -/

def placeOf (before : List Char) : Location :=
  ⟨before.count '\n' + 1, (lastLine before).length + 1, String.utf8Len before⟩

theorem placeOf_append (before cs : List Char) :
    let place := placeOf before
    let place' := placeOf (before ++ cs)
    (place.line < place'.line ∨ place.line = place'.line ∧ place.column ≤ place'.column) ∧
      (place.line = place'.line ∧ place.column = place'.column ↔ place.offset = place'.offset) := by
  simp only [placeOf, List.count_append, String.utf8Len_append]
  by_cases hfeed : '\n' ∈ cs
  · have hcount : 0 < cs.count '\n' := List.count_pos_iff.2 hfeed
    have hlength : 0 < String.utf8Len cs := by
      cases cs with
      | nil => cases hfeed
      | cons c cs =>
        have := c.utf8Size_pos
        rw [String.utf8Len_cons]
        omega
    omega
  · have hcount : cs.count '\n' = 0 := List.count_eq_zero.2 hfeed
    rw [lastLine_append hfeed, List.length_append]
    have hlength : cs.length = 0 ↔ String.utf8Len cs = 0 := by
      cases cs with
      | nil => simp
      | cons c cs =>
        have := c.utf8Size_pos
        rw [String.utf8Len_cons, List.length_cons]
        omega
    omega

theorem locate_eq (source : String) (pos : Nat) :
    locate source pos = placeOf (splitAtByte pos source.toList).1 := by
  rw [locate, placeOf, String.utf8ByteSize_ofList]

/-- **A line and a column name one offset.**  The offset of a place is the last one between two
characters that is not beyond it.  It lies in the line with that number, behind as many characters
as the column says, after the bytes of all lines above and of their line feeds, and this line is the
one that is shown.  A later place does not come earlier, and it has the same line and column only if
it has the same offset. -/
theorem locate_recovers_offset (source : String) (pos : Nat) :
    let place := locate source pos
    let lines := source.toList.splitOn '\n'
    ((⟨place.offset⟩ : String.Pos.Raw).IsValid source ∧
      place.offset ≤ min pos source.utf8ByteSize ∧
      ∀ n, (⟨n⟩ : String.Pos.Raw).IsValid source → n ≤ min pos source.utf8ByteSize →
        n ≤ place.offset) ∧
    (1 ≤ place.line ∧ place.line ≤ lines.length ∧ 1 ≤ place.column ∧
      ∃ line, lines[place.line - 1]? = some line ∧ place.column - 1 ≤ line.length ∧
        place.offset = linesLength (lines.take (place.line - 1)) +
          String.utf8Len (line.take (place.column - 1)) ∧
        (∃ k, line = (shownLine source pos).toList ++ List.replicate k '\r') ∧
        (shownLine source pos).toList.getLast? ≠ some '\r') ∧
    ∀ pos', pos ≤ pos' →
      let place' := locate source pos'
      (place.line < place'.line ∨ place.line = place'.line ∧ place.column ≤ place'.column) ∧
        (place.line = place'.line ∧ place.column = place'.column ↔
          place.offset = place'.offset) := by
  intro place lines
  have hsource := splitAtByte_append pos source.toList
  have hplace : place = placeOf (splitAtByte pos source.toList).1 := locate_eq source pos
  have hshown : (shownLine source pos).toList =
      trimReturns (lastLine (splitAtByte pos source.toList).1 ++
        firstLine (splitAtByte pos source.toList).2) := String.toList_ofList
  have hle := utf8Len_splitAtByte_le pos source.toList
  generalize hbefore : (splitAtByte pos source.toList).1 = before at *
  generalize (splitAtByte pos source.toList).2 = after at *
  have hsize : String.utf8Len before ≤ source.utf8ByteSize := by
    rw [← String.utf8Len_toList, ← hsource]
    exact String.utf8Len_le_of_prefix (List.prefix_append _ _)
  obtain ⟨above, below, hlines, hlength, hoffset⟩ := splitOn_lineFeed before after
  rw [hsource] at hlines
  have hlines : lines = above ++ (lastLine before ++ firstLine after) :: below := hlines
  rw [hplace, hlines]
  simp only [placeOf, Nat.add_sub_cancel, ← hlength]
  refine ⟨⟨isValid_iff.2 ⟨before, after, hsource.symm, rfl⟩, Nat.le_min.2 ⟨hle, hsize⟩, ?last⟩,
    ⟨Nat.le_add_left .., by simp, Nat.le_add_left .., lastLine before ++ firstLine after, by simp,
      by simp, by simpa using hoffset, ?shown⟩, ?later⟩
  case last =>
    intro n hn hmin
    obtain ⟨u, v, huv, rfl⟩ := isValid_iff.1 hn
    rw [← hbefore]
    exact String.utf8Len_le_of_prefix (prefix_splitAtByte huv (Nat.le_min.1 hmin).1)
  case shown =>
    rw [hshown]
    exact ⟨exists_trimReturns_append _, getLast?_trimReturns _⟩
  case later =>
    intro pos' hpos'
    obtain ⟨cs, hcs⟩ := splitAtByte_mono hpos' source.toList
    rw [locate_eq, ← hcs, hbefore, hlength]
    exact placeOf_append before cs

/-- An offset inside the first character of the second line, and one beyond the end. -/
theorem locate_recovers_offset_inside_character :
    let source := "é\r\nλ+"
    let place := locate source 5
    let place' := locate source 9
    place = ⟨2, 1, 4⟩ ∧ place' = ⟨2, 3, 7⟩ ∧ shownLine source 5 = "λ+" ∧
      (∀ n, (⟨n⟩ : String.Pos.Raw).IsValid source → n ≤ min 5 source.utf8ByteSize → n ≤ 4) ∧
      (place.line < place'.line ∨ place.line = place'.line ∧ place.column ≤ place'.column) := by
  intro source place place'
  have hplace : place = ⟨2, 1, 4⟩ := by decide
  obtain ⟨⟨-, -, hlast⟩, -, hlater⟩ := locate_recovers_offset source 5
  refine ⟨hplace, by decide, by decide, ?_, (hlater 9 (by decide)).1⟩
  rw [show locate source 5 = _ from hplace] at hlast
  exact hlast

end FrameLang

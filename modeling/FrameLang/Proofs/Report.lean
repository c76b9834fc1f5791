import FrameLang.Diagnostic
import FrameLang.Proofs.Bytes

/-!
# The three lines of a report

A place in a source cuts it into the characters before the place and those after it, and a report is
told by these two parts.

* `locate_utf8Len`, `toList_shownLine`: the place and the shown line, by the two parts.
* `unlines`: lines with a line feed after each.
* `report_eq_unlines`: a report has three lines, and they are the ones that a reader sees as long as
  the message has no line feed.
* `getElem?_shownLine`: what stands above the caret.
-/

namespace FrameLang

variable {source : String} {before after cs : List Char} {c : Char}

/-! ## Lines -/

theorem lineFeed_not_mem_firstLine (cs : List Char) : '\n' ∉ firstLine cs := by
  intro h
  have hne := List.all_eq_true.1 List.all_takeWhile _ h
  simp at hne

theorem lineFeed_not_mem_lastLine (cs : List Char) : '\n' ∉ lastLine cs := by
  intro h
  exact lineFeed_not_mem_firstLine cs.reverse (List.mem_reverse.1 h)

theorem mem_of_mem_trimReturns (h : c ∈ trimReturns cs) : c ∈ cs := by
  have hdrop := (List.dropWhile_suffix _).subset (List.mem_reverse.1 h)
  exact List.mem_reverse.1 hdrop

theorem trimReturns_append_cons (hc : c ≠ '\r') (u v : List Char) :
    trimReturns (u ++ c :: v) = u ++ c :: trimReturns v := by
  have hreverse : (u ++ c :: v).reverse = v.reverse ++ c :: u.reverse := by simp
  unfold trimReturns
  rw [hreverse]
  induction v.reverse with
  | nil => simp [hc]
  | cons d r ih =>
    by_cases hd : d = '\r'
    · rw [List.cons_append, List.dropWhile_cons_of_pos (by simpa using hd), ih,
        List.dropWhile_cons_of_pos (by simpa using hd)]
    · rw [List.cons_append, List.dropWhile_cons_of_neg (by simpa using hd),
        List.dropWhile_cons_of_neg (by simpa using hd)]
      simp

/-! ## Places -/

theorem locate_utf8Len (h : source.toList = before ++ after) :
    locate source (String.utf8Len before) =
      ⟨before.count '\n' + 1, (lastLine before).length + 1, String.utf8Len before⟩ := by
  simp only [locate, h, splitAtByte_utf8Len, String.utf8ByteSize_ofList]

theorem toList_shownLine (h : source.toList = before ++ after) :
    (shownLine source (String.utf8Len before)).toList =
      trimReturns (lastLine before ++ firstLine after) := by
  simp only [shownLine, h, splitAtByte_utf8Len, String.toList_ofList]

theorem lineFeed_not_mem_shownLine (source : String) (pos : Nat) :
    '\n' ∉ (shownLine source pos).toList := by
  intro h
  simp only [shownLine, String.toList_ofList] at h
  rcases List.mem_append.1 (mem_of_mem_trimReturns h) with h | h
  · exact lineFeed_not_mem_lastLine _ h
  · exact lineFeed_not_mem_firstLine _ h

/-- **A character that does not end its line is shown in its column.** -/
theorem getElem?_shownLine (h : source.toList = before ++ c :: after) (hfeed : c ≠ '\n')
    (hreturn : c ≠ '\r') :
    (shownLine source (String.utf8Len before)).toList[
      (locate source (String.utf8Len before)).column - 1]? = some c := by
  have hfirst : firstLine (c :: after) = c :: firstLine after :=
    List.takeWhile_cons_of_pos (by simpa using hfeed)
  rw [toList_shownLine h, locate_utf8Len h, hfirst, trimReturns_append_cons hreturn]
  simp

/-! ## Reports -/

/-- The characters of some lines, with a line feed after each. -/
def unlines (lines : List (List Char)) : List Char := lines.flatMap (· ++ ['\n'])

def headline (place : Location) : String :=
  "rcc: error at line " ++ toString place.line ++ ", column " ++ toString place.column
    ++ " (offset " ++ toString place.offset ++ ")"

def caretLine (place : Location) (message : String) : List Char :=
  List.replicate (place.column - 1) ' ' ++ '^' :: ' ' :: message.toList

theorem report_eq_unlines (source : String) (pos : Nat) (message : String) :
    (report source pos message).toList =
      unlines [(headline (locate source pos)).toList, (shownLine source pos).toList,
        caretLine (locate source pos) message] := by
  have hclose : ")\n".toList = ")".toList ++ ['\n'] := by simp
  have hcaret : "^ ".toList = ['^', ' '] := by simp
  have hfeed : "\n".toList = ['\n'] := by simp
  unfold report headline unlines caretLine
  simp only [String.toList_append, String.toList_ofList, hclose, hcaret, hfeed, List.flatMap_cons,
    List.flatMap_nil, List.append_assoc, List.append_nil, List.cons_append, List.nil_append]

theorem lineFeed_not_mem_toString (n : Nat) : '\n' ∉ (toString n).toList := by
  intro h
  have hdigits : (toString n).toList = Nat.toDigits 10 n := Nat.toList_repr
  rw [hdigits] at h
  have hdigit := Nat.isDigit_of_mem_toDigits (by decide) (by decide) h
  exact absurd hdigit (by decide)

theorem lineFeed_not_mem_append {a b : String} :
    '\n' ∉ (a ++ b).toList ↔ '\n' ∉ a.toList ∧ '\n' ∉ b.toList := by
  rw [String.toList_append, List.mem_append, not_or]

theorem lineFeed_not_mem_headline (place : Location) : '\n' ∉ (headline place).toList := by
  unfold headline
  simp only [lineFeed_not_mem_append, lineFeed_not_mem_toString]
  decide

theorem lineFeed_not_mem_caretLine {message : String} (h : '\n' ∉ message.toList)
    (place : Location) : '\n' ∉ caretLine place message := by
  simp [caretLine, h]

end FrameLang

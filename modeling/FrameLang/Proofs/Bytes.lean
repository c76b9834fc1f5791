import FrameLang.Utf8
import Mathlib.Data.String.Basic

/-!
# Cuts at byte offsets

A text that is cut at a byte offset is the text still, and the first part has no more bytes than it
may have.  At the end of a first part, the cut gives this part.
-/

namespace FrameLang

theorem splitAtByte_append (n : Nat) (cs : List Char) :
    (splitAtByte n cs).1 ++ (splitAtByte n cs).2 = cs := by
  induction cs generalizing n with
  | nil => rfl
  | cons c cs ih =>
    unfold splitAtByte
    split
    · exact congrArg (c :: ·) (ih _)
    · rfl

theorem utf8Len_splitAtByte_le (n : Nat) (cs : List Char) :
    String.utf8Len (splitAtByte n cs).1 ≤ n := by
  induction cs generalizing n with
  | nil => exact Nat.zero_le n
  | cons c cs ih =>
    unfold splitAtByte
    split
    case isTrue h =>
      have := ih (n - c.utf8Size)
      simp only [String.utf8Len_cons]
      omega
    case isFalse => exact Nat.zero_le n

theorem splitAtByte_utf8Len (before after : List Char) :
    splitAtByte (String.utf8Len before) (before ++ after) = (before, after) := by
  induction before with
  | nil =>
    cases after with
    | nil => rfl
    | cons c cs =>
      have : ¬ c.utf8Size ≤ 0 := Nat.not_le.2 c.utf8Size_pos
      simp [splitAtByte, this]
  | cons c cs ih =>
    rw [String.utf8Len_cons, List.cons_append, splitAtByte, if_pos (Nat.le_add_left _ _),
      Nat.add_sub_cancel, ih]

end FrameLang

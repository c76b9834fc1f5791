import FrameLang.Proofs.Boundary
import FrameLang.Proofs.Legible
import FrameLang.Proofs.Segmentation
import Mathlib.Data.Nat.Digits.Defs

/-!
# What digits mean

A run of digits may be as long as it likes, and zeros in front of it change nothing.  So its length
does not tell whether its value is too large for a literal: only the value does.

* `decimalValue`: the number that some digits write in base ten.
* `readChecked?`: the digits read one after the other, with a check after each multiplication and
  each addition.  `readChecked?_eq` says that this checks the last value only, because a value never
  becomes smaller.
* `literal_of_digits`: what is read where some digits come next.
-/

namespace FrameLang

/-! ## Values -/

def digitOf (c : Char) : Nat := c.toNat - '0'.toNat

/-- The number that some digits write in base ten. -/
def decimalValue (digits : List Char) : Nat := Nat.ofDigits 10 (digits.reverse.map digitOf)

theorem decimalValue_cons (c : Char) (digits : List Char) :
    decimalValue (c :: digits) = 10 ^ digits.length * digitOf c + decimalValue digits := by
  rw [decimalValue, List.reverse_cons, List.map_append, Nat.ofDigits_append, List.length_map,
    List.length_reverse, Nat.add_comm]
  simp [decimalValue]

theorem decimalValue_replicate_append (zeros : Nat) (digits : List Char) :
    decimalValue (List.replicate zeros '0' ++ digits) = decimalValue digits := by
  rw [decimalValue, List.reverse_append, List.reverse_replicate, List.map_append,
    List.map_replicate, show digitOf '0' = 0 from rfl, Nat.ofDigits_append_replicate_zero,
    decimalValue]

theorem ofDigitChars_eq_decimalValue (digits : List Char) :
    Nat.ofDigitChars 10 digits 0 = decimalValue digits := by
  induction digits with
  | nil => rfl
  | cons c digits ih =>
    rw [Nat.ofDigitChars_cons, Nat.ofDigitChars_eq_ofDigitChars_zero, ih, decimalValue_cons,
      Nat.mul_zero, Nat.zero_add, digitOf]

theorem decimalValue_toString (v : Nat) : decimalValue (toString v).toList = v := by
  have hdigits : (toString v).toList = Nat.toDigits 10 v := Nat.toList_repr
  rw [← ofDigitChars_eq_decimalValue, hdigits, Nat.ofDigitChars_ten_toDigits]

/-! ## Reading with checks -/

/-- A number, if it is not too large for a literal. -/
def checked (n : Nat) : Option Nat := if n < 2 ^ 63 then some n else none

/-- A value with one more digit behind it.  Both operations are checked. -/
def withDigit (value : Nat) (c : Char) : Option Nat :=
  (checked (10 * value)).bind fun tens => checked (tens + digitOf c)

def readChecked? (value : Nat) (digits : List Char) : Option Nat := digits.foldlM withDigit value

theorem checked_of_lt {n : Nat} (h : n < 2 ^ 63) : checked n = some n := if_pos h

theorem checked_of_le {n : Nat} (h : 2 ^ 63 ≤ n) : checked n = none := if_neg (Nat.not_lt.2 h)

/-- The check of the addition is enough. -/
theorem withDigit_eq (value : Nat) (c : Char) :
    withDigit value c = checked (10 * value + digitOf c) := by
  rw [withDigit]
  by_cases htens : 10 * value < 2 ^ 63
  · rw [checked_of_lt htens, Option.bind_some]
  · have hle : 2 ^ 63 ≤ 10 * value := Nat.not_lt.1 htens
    rw [checked_of_le hle, checked_of_le (Nat.le_trans hle (Nat.le_add_right ..)), Option.bind_none]

theorem le_ofDigitChars (value : Nat) (digits : List Char) :
    value ≤ Nat.ofDigitChars 10 digits value := by
  have hpower : 0 < 10 ^ digits.length := Nat.pow_pos (by decide)
  rw [Nat.ofDigitChars_eq_ofDigitChars_zero]
  exact Nat.le_trans (Nat.le_mul_of_pos_left value hpower) (Nat.le_add_right ..)

/-- **Checking every value on the way is checking the last one.** -/
theorem readChecked?_eq {value : Nat} (h : value < 2 ^ 63) (digits : List Char) :
    readChecked? value digits = checked (Nat.ofDigitChars 10 digits value) := by
  induction digits generalizing value with
  | nil => exact (checked_of_lt h).symm
  | cons c digits ih =>
    have hread : readChecked? value (c :: digits) =
        (checked (10 * value + digitOf c)).bind fun next => readChecked? next digits := by
      rw [← withDigit_eq]
      exact List.foldlM_cons
    rw [hread, Nat.ofDigitChars_cons, ← digitOf]
    by_cases hnext : 10 * value + digitOf c < 2 ^ 63
    · rw [checked_of_lt hnext, Option.bind_some, ih hnext]
    · -- the digits that follow do not bring the value back
      have hle : 2 ^ 63 ≤ 10 * value + digitOf c := Nat.not_lt.1 hnext
      rw [checked_of_le hle, Option.bind_none,
        checked_of_le (Nat.le_trans hle (le_ofDigitChars _ digits))]

/-! ## Reading literals -/

section

variable {digits rest : List Char} (hdigits : ∀ c ∈ digits, c.isDigit = true)

include hdigits

theorem utf8Len_of_isDigit : String.utf8Len digits = digits.length := by
  induction digits with
  | nil => rfl
  | cons c digits ih =>
    rw [List.forall_mem_cons] at hdigits
    have hc : c.utf8Size = 1 := by
      rw [Char.utf8Size_eq_one_iff]
      have h := hdigits.1
      unfold Char.isDigit at h
      grind
    rw [String.utf8Len_cons, hc, ih hdigits.2, List.length_cons, Nat.add_comm]

variable (hne : digits ≠ [])

include hne

theorem longest_of_isDigit (hrest : Stops Char.isDigit rest) :
    Longest (.num (decimalValue digits)) digits rest := by
  rw [← ofDigitChars_eq_decimalValue]
  exact longest_iff.2 ⟨.literal hne hdigits, hrest⟩

theorem next_of_isDigit (hrest : Stops Char.isDigit rest) (offset : Nat) :
    Cursor.next ⟨digits ++ rest, offset⟩ =
      (if decimalValue digits < 2 ^ 63 then
        .ok ⟨.num (decimalValue digits), String.ofList digits, offset⟩
      else .error ⟨offset, .literalTooLarge (String.ofList digits)⟩,
      ⟨rest, offset + digits.length⟩) := by
  have hlongest := longest_of_isDigit hdigits hne hrest
  have hmunch := Cursor.munch_lexeme ⟨digits ++ rest, offset⟩
  rw [Cursor.next, Cursor.skip_isBlank_eq_self hlongest.not_isBlank,
    ← utf8Len_of_isDigit hdigits]
  split
  case isTrue hfits =>
    refine hmunch.unique (.token hlongest fun value hvalue => ?_)
    cases hvalue
    exact Int.ofNat_le.2 (Nat.le_of_lt_succ hfits)
  case isFalse hlarge =>
    exact hmunch.unique (.tooLarge hlongest (Int.ofNat_lt.2 (Nat.not_lt.1 hlarge)))

theorem tokenize_ofList_of_isDigit (hvalue : decimalValue digits < 2 ^ 63) :
    tokenize (String.ofList digits) =
      .ok [⟨.num (decimalValue digits), String.ofList digits, 0⟩, .eofAt digits.length] := by
  let t : Token := ⟨.num (decimalValue digits), String.ofList digits, 0⟩
  have hlongest : Longest t.cls digits [] := longest_of_isDigit hdigits hne stops_nil
  have hseg : Segmentation 0 (String.ofList digits).toList [t] := by
    have h : Segmentation 0 ([] ++ (digits ++ [])) [t] := .cons nofun hlongest (.nil nofun)
    rwa [List.nil_append, List.append_nil, ← String.toList_ofList (l := digits)] at h
  have hfits : t.Fits := by
    intro v hv
    obtain rfl := TokenClass.num.inj hv
    exact Int.ofNat_le.2 (Nat.le_of_lt_succ hvalue)
  rw [hseg.tokenize_eq (List.forall_mem_singleton.2 hfits), String.utf8ByteSize_ofList,
    utf8Len_of_isDigit hdigits]
  rfl

end

/-- **Digits are read as the number that they write**, as long as it is below the 63rd power of two,
and are passed over as one literal that is too large otherwise.  That is what checked operations
come to.  In particular a number is read back from its decimal writing, with any zeros in front. -/
theorem literal_of_digits :
    (∀ (digits rest : List Char) (offset : Nat), digits ≠ [] →
      (∀ c ∈ digits, c.isDigit = true) → Stops Char.isDigit rest →
      Cursor.next ⟨digits ++ rest, offset⟩ =
          (if decimalValue digits < 2 ^ 63 then
            .ok ⟨.num (decimalValue digits), String.ofList digits, offset⟩
          else .error ⟨offset, .literalTooLarge (String.ofList digits)⟩,
          ⟨rest, offset + digits.length⟩) ∧
        readChecked? 0 digits =
          if decimalValue digits < 2 ^ 63 then some (decimalValue digits) else none) ∧
    ∀ zeros v : Nat, v < 2 ^ 63 →
      let text := List.replicate zeros '0' ++ (toString v).toList
      tokenize (String.ofList text) =
        .ok [⟨.num v, String.ofList text, 0⟩, .eofAt text.length] := by
  refine ⟨fun digits rest offset hne hdigits hrest =>
    ⟨next_of_isDigit hdigits hne hrest offset, ?_⟩, ?_⟩
  · rw [readChecked?_eq (by decide), ofDigitChars_eq_decimalValue, checked]
  · intro zeros v hv text
    have hdigits : ∀ c ∈ text, c.isDigit = true := by
      intro c hc
      rcases List.mem_append.1 hc with hc | hc
      · rw [List.eq_of_mem_replicate hc]
        rfl
      · exact isDigit_of_mem_toString hc
    have hne : text ≠ [] := List.append_ne_nil_of_right_ne_nil _ (toString_nat_ne_nil v)
    have hvalue : decimalValue text = v := by
      rw [decimalValue_replicate_append, decimalValue_toString]
    have htokenize := tokenize_ofList_of_isDigit hdigits hne (by rwa [hvalue])
    rwa [hvalue] at htokenize

/-- The greatest literal with zeros in front, and the number after it. -/
theorem literal_of_digits_limit :
    Cursor.next ⟨"0009223372036854775807x".toList, 3⟩ =
        (.ok ⟨.num 9223372036854775807, "0009223372036854775807", 3⟩, ⟨['x'], 25⟩) ∧
      Cursor.next ⟨"9223372036854775808é".toList, 3⟩ =
        (.error ⟨3, .literalTooLarge "9223372036854775808"⟩, ⟨['é'], 22⟩) ∧
      tokenize "007" = .ok [⟨.num 7, "007", 0⟩, .eofAt 3] := by
  have hfits := (literal_of_digits.1 "0009223372036854775807".toList ['x'] 3 (by decide)
    (List.all_eq_true.1 rfl) (stops_cons (by decide))).1
  have hlarge := (literal_of_digits.1 "9223372036854775808".toList ['é'] 3 (by decide)
    (List.all_eq_true.1 rfl) (stops_cons (by decide))).1
  have hvalue : decimalValue "0009223372036854775807".toList = 9223372036854775807 := by rfl
  have hvalue' : decimalValue "9223372036854775808".toList = 9223372036854775808 := by rfl
  rw [hvalue, if_pos (by decide)] at hfits
  rw [hvalue', if_neg (by decide)] at hlarge
  exact ⟨hfits, hlarge, literal_of_digits.2 2 7 (by decide)⟩

end FrameLang

import FrameLang.Proofs.Report
import Mathlib

/-!
# Texts that can be read back

A writing of values is legible if nothing is lost when other text is written after it: from the
whole text one can tell the value, and where its writing ends.

* `Legible Good Follows write`: this holds for values as `Good` says, before texts as `Follows`
  says.
* `legible_run`: some characters of one sort, before a text that starts with none of that sort.
  `eq_of_append_cons` is the case of all characters but one.
* `legible_nat`, `legible_int`: numbers in decimal, before what is neither a digit nor a minus.
* `Legible.flatMap`: the values of a list, one written after the other.
-/

namespace FrameLang

/-- Two texts that start with the writings of values are the same only if the values are, and what
comes after them. -/
def Legible {α : Type} (Good : α → Prop) (Follows : List Char → Prop) (write : α → List Char) :
    Prop :=
  ∀ ⦃a b : α⦄ ⦃u v : List Char⦄, Good a → Good b → Follows u → Follows v →
    write a ++ u = write b ++ v → a = b ∧ u = v

/-- No character as `q` says comes next. -/
def Stops (q : Char → Bool) (rest : List Char) : Prop := ∀ c r, rest = c :: r → q c = false

section

variable {α : Type} {Good : α → Prop} {Follows : List Char → Prop} {write : α → List Char}
  {q : Char → Bool} {a b u v rest : List Char} {c : Char}

theorem stops_nil : Stops q [] := nofun

theorem stops_cons (h : q c = false) : Stops q (c :: rest) := by
  rintro d r hd
  obtain ⟨rfl, -⟩ := List.cons.inj hd
  exact h

theorem Legible.injective (h : Legible Good Follows write) (hnil : Follows []) {x y : α}
    (hx : Good x) (hy : Good y) (heq : write x = write y) : x = y :=
  (h hx hy hnil hnil (congrArg (· ++ []) heq)).1

/-- **The values of a list can be read back one after the other**, if what comes after them is not
taken for one more. -/
theorem Legible.flatMap (h : Legible Good (fun _ => True) write)
    (hends : ∀ a u, Good a → ¬ Follows (write a ++ u)) :
    Legible (fun l => ∀ a ∈ l, Good a) Follows (List.flatMap write) := by
  intro l l' u v hl hl' hu hv heq
  -- where one list ends and the other goes on, what comes after the one starts like an item
  induction l generalizing l' with
  | nil =>
    cases l' with
    | nil => exact ⟨rfl, heq⟩
    | cons b l' =>
      rw [List.flatMap_nil, List.nil_append, List.flatMap_cons, List.append_assoc] at heq
      exact absurd (heq ▸ hu) (hends b _ (hl' b List.mem_cons_self))
  | cons a l ih =>
    cases l' with
    | nil =>
      rw [List.flatMap_nil, List.nil_append, List.flatMap_cons, List.append_assoc] at heq
      exact absurd (heq ▸ hv) (hends a _ (hl a List.mem_cons_self))
    | cons b l' =>
      rw [List.forall_mem_cons] at hl hl'
      simp only [List.flatMap_cons, List.append_assoc] at heq
      obtain ⟨rfl, hrest⟩ := h hl.1 hl'.1 trivial trivial heq
      obtain ⟨rfl, huv⟩ := ih hl.2 hl'.2 hrest
      exact ⟨rfl, huv⟩

/-! ## Runs of characters -/

theorem takeWhile_append_of_stops (ha : ∀ c ∈ a, q c = true) (hu : Stops q u) :
    (a ++ u).takeWhile q = a := by
  rw [List.takeWhile_append_of_pos ha]
  cases u with
  | nil => rw [List.takeWhile_nil, List.append_nil]
  | cons c u =>
    rw [List.takeWhile_cons_of_neg (by rw [hu c u rfl]; nofun), List.append_nil]

theorem legible_run (q : Char → Bool) :
    Legible (fun cs => ∀ c ∈ cs, q c = true) (Stops q) (fun cs => cs) := by
  intro a b u v ha hb hu hv heq
  have hab : a = b := by
    rw [← takeWhile_append_of_stops ha hu, ← takeWhile_append_of_stops hb hv]
    exact congrArg (List.takeWhile q) heq
  subst hab
  exact ⟨rfl, List.append_cancel_left heq⟩

theorem eq_of_append_cons (ha : c ∉ a) (hb : c ∉ b) (h : a ++ c :: u = b ++ c :: v) :
    a = b ∧ u = v := by
  have hother : ∀ {cs : List Char}, c ∉ cs → ∀ d ∈ cs, decide (d ≠ c) = true := by
    intro cs hcs d hd
    exact decide_eq_true fun heq => hcs (heq ▸ hd)
  obtain ⟨hab, huv⟩ := legible_run (fun d => decide (d ≠ c)) (hother ha) (hother hb)
    (stops_cons (by simp)) (stops_cons (by simp)) h
  exact ⟨hab, (List.cons.inj huv).2⟩

end

/-! ## Numbers -/

def isNumeral (c : Char) : Bool := c.isDigit || c = '-'

theorem isDigit_of_mem_toString {n : Nat} {c : Char} (h : c ∈ (toString n).toList) :
    c.isDigit = true := by
  have hdigits : (toString n).toList = Nat.toDigits 10 n := Nat.toList_repr
  rw [hdigits] at h
  exact Nat.isDigit_of_mem_toDigits (by decide) (by decide) h

theorem toString_nat_ne_nil (n : Nat) : (toString n).toList ≠ [] := by
  have hdigits : (toString n).toList = Nat.toDigits 10 n := Nat.toList_repr
  rw [hdigits]
  exact Nat.toDigits_ne_nil

theorem toList_toString_negSucc (n : Nat) :
    (toString (Int.negSucc n)).toList = '-' :: (toString (n + 1)).toList :=
  String.toList_append

theorem isNumeral_of_mem_toString_nat {n : Nat} {c : Char} (h : c ∈ (toString n).toList) :
    isNumeral c = true := by
  rw [isNumeral, isDigit_of_mem_toString h, Bool.true_or]

theorem isNumeral_of_mem_toString {i : Int} {c : Char} (h : c ∈ (toString i).toList) :
    isNumeral c = true := by
  cases i with
  | ofNat n => exact isNumeral_of_mem_toString_nat (n := n) h
  | negSucc n =>
    rw [toList_toString_negSucc, List.mem_cons] at h
    rcases h with rfl | h
    · rfl
    · exact isNumeral_of_mem_toString_nat h

theorem toString_int_ne_nil (i : Int) : (toString i).toList ≠ [] := by
  cases i with
  | ofNat n => exact toString_nat_ne_nil n
  | negSucc n =>
    rw [toList_toString_negSucc]
    nofun

theorem legible_nat :
    Legible (fun _ => True) (Stops isNumeral) fun n : Nat => (toString n).toList := by
  intro n m u v _ _ hu hv heq
  obtain ⟨h, huv⟩ := legible_run isNumeral (fun _ => isNumeral_of_mem_toString_nat)
    (fun _ => isNumeral_of_mem_toString_nat) hu hv heq
  exact ⟨Nat.repr_inj.1 (String.toList_inj.1 h), huv⟩

theorem legible_int :
    Legible (fun _ => True) (Stops isNumeral) fun i : Int => (toString i).toList := by
  intro i j u v _ _ hu hv heq
  obtain ⟨h, huv⟩ := legible_run isNumeral (fun _ => isNumeral_of_mem_toString)
    (fun _ => isNumeral_of_mem_toString) hu hv heq
  exact ⟨Int.repr_inj.1 (String.toList_inj.1 h), huv⟩

end FrameLang

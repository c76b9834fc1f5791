import FrameLang.Proofs.Segmentation

/-!
# Reading from another offset

A cursor uses its offset for nothing but the places of its tokens and faults.

* `Token.shift`, `Located.shift`, `CompileError.shift`: the same a number of bytes further on.
* `Cursor.next_shift`: one reading.
* `Cursor.scan_shift`: all readings up to the end of the input or the first fault.
-/

namespace FrameLang

/-- The same token further on. -/
def Token.shift (k : Nat) (t : Token) : Token := { t with pos := t.pos + k }

def Located.shift {α : Type} (k : Nat) (e : Located α) : Located α := { e with pos := e.pos + k }

def CompileError.shift (k : Nat) : CompileError → CompileError
  | lexical e => lexical (e.shift k)
  | syntactic e => syntactic (e.shift k)

@[simp] theorem Token.isEof_shift (k : Nat) (t : Token) : (t.shift k).isEof = t.isEof := rfl

namespace Cursor

def shift (k : Nat) (c : Cursor) : Cursor := { c with offset := c.offset + k }

def shiftAnswer (k : Nat) : Except LexicalError Token → Except LexicalError Token
  | .ok t => .ok (t.shift k)
  | .error e => .error (e.shift k)

theorem skip_shift (k : Nat) (p : Char → Bool) (c : Cursor) :
    (c.shift k).skip p = (c.skip p).shift k := by
  simp only [skip, shift, Nat.add_right_comm]

theorem lexeme_shift (k : Nat) (c : Cursor) :
    (c.shift k).lexeme = (shiftAnswer k c.lexeme.1, c.lexeme.2.shift k) := by
  have hrest : (c.shift k).rest = c.rest := rfl
  have hlead : ∀ p, (c.shift k).lead p = c.lead p := fun _ => rfl
  unfold lexeme
  rw [hrest]
  split
  case h_1 p r _ => simp only [shiftAnswer, shift, Token.shift, Nat.add_right_comm]
  case h_2 =>
    split
    case h_1 => rfl
    case h_2 ch r _ =>
      simp only [hlead, skip_shift]
      split
      case isTrue =>
        split
        case isTrue => rfl
        case isFalse => rfl
      case isFalse =>
        split
        case isTrue => rfl
        case isFalse => rfl

theorem next_shift (k : Nat) (c : Cursor) :
    (c.shift k).next = (shiftAnswer k c.next.1, c.next.2.shift k) := by
  rw [next, skip_shift, lexeme_shift]
  rfl

/-- **Reading further on reads the same**, at places further on. -/
theorem scan_shift (k : Nat) (c : Cursor) :
    (c.shift k).scan = ⟨c.scan.tokens.map (Token.shift k), shiftAnswer k c.scan.ending⟩ := by
  fun_induction Cursor.scan c with
  | case1 c e c' h => rw [scan_eq, next_shift, h]; rfl
  | case2 c t c' h ht =>
    rw [scan_eq, next_shift, h]
    simp [shiftAnswer, ht]
  | case3 c t c' h ht _ _ ih =>
    rw [scan_eq, next_shift, h]
    simp only [shiftAnswer, Token.isEof_shift, if_neg ht, ih]
    rfl

end Cursor

end FrameLang

import FrameLang.Node
import FrameLang.Proofs.Legible

/-!
# The compact text identifies the tree

The compact text of a tree starts with a number, or with a parenthesis and a word that says what the
tree is.  No word goes on where a blank comes, and no number goes on where a blank or a parenthesis
comes, so the text says where each part of it ends.

* `Node.word?`: the word.  `Node.parts_eq_of_append` reads it off a text.
* `Node.legible_render`, `legible_renderLines`: trees, and trees with a line for each.
* `render_eq_iff`: trees with the same text are the same, and programs with the same text have the
  same statements.
-/

namespace FrameLang

theorem BinaryOp.symbol_injective {op op' : BinaryOp} (h : op.symbol = op'.symbol) : op = op' := by
  cases op <;> cases op' <;> simp_all [symbol]

theorem BinaryOp.symbol_ne (op : BinaryOp) :
    op.symbol ≠ "stmt" ∧ op.symbol ≠ "=" ∧ op.symbol ≠ "lvar" := by
  cases op <;> decide

namespace Node

/-- The word behind the parenthesis that the text of a tree starts with.  A literal has none. -/
def word? : Node Nat → Option String
  | stmt _ => some "stmt"
  | assign _ _ => some "="
  | binary op _ _ => some op.symbol
  | num _ => none
  | var _ => some "lvar"

/-- The constructors of trees. -/
inductive Kind
  | stmt
  | assign
  | binary
  | num
  | var
  deriving DecidableEq, Repr

def kind : Node Nat → Kind
  | stmt _ => .stmt
  | assign _ _ => .assign
  | binary _ _ _ => .binary
  | num _ => .num
  | var _ => .var

variable {a b n : Node Nat} {w : String} {u v : List Char}

theorem kind_eq_of_word?_eq (h : a.word? = b.word?) : a.kind = b.kind := by
  have hne := BinaryOp.symbol_ne
  cases a <;> cases b <;> simp_all [word?, kind, eq_comm]

theorem exists_num_of_word?_eq_none (h : n.word? = none) : ∃ value, n = num value := by
  cases n with
  | num value => exact ⟨value, rfl⟩
  | stmt | assign | binary | var => cases h

/-! ## How a text starts -/

/-- What comes after the word in the text of a tree, or the whole text of a literal. -/
def body : Node Nat → List Char
  | stmt e => e.render.toList ++ [')']
  | assign left right | binary _ left right =>
    left.render.toList ++ ' ' :: (right.render.toList ++ [')'])
  | num value => (toString value).toList
  | var offset => (toString offset).toList ++ [')']

theorem toList_render_of_word? (h : n.word? = some w) :
    n.render.toList = '(' :: (w.toList ++ ' ' :: n.body) := by
  cases n with
  | num value => cases h
  | stmt | assign | binary | var =>
    cases h
    simp [render_stmt, render_assign, render_binary, render_var, body]

theorem toList_render_of_word?_eq_none (h : n.word? = none) : n.render.toList = n.body := by
  obtain ⟨value, rfl⟩ := exists_num_of_word?_eq_none h
  rw [render_num, body]

theorem blank_not_mem_word? (h : n.word? = some w) :
    ' ' ∉ w.toList := by
  cases n with
  | stmt | assign | var =>
    cases h
    decide
  | binary op =>
    cases h
    cases op <;> decide
  | num => cases h

/-- The characters that a text can start with. -/
def startsText (c : Char) : Bool := c = '(' || isNumeral c

theorem exists_isNumeral_of_word?_eq_none (h : n.word? = none) :
    ∃ c cs, n.render.toList = c :: cs ∧ isNumeral c = true := by
  obtain ⟨value, rfl⟩ := exists_num_of_word?_eq_none h
  obtain ⟨c, cs, hc⟩ := List.exists_cons_of_ne_nil (toString_int_ne_nil value)
  refine ⟨c, cs, by rw [render_num, hc], isNumeral_of_mem_toString (i := value) ?_⟩
  rw [hc]
  exact List.mem_cons_self

theorem exists_startsText (n : Node Nat) :
    ∃ c cs, n.render.toList = c :: cs ∧ startsText c = true := by
  cases hw : n.word? with
  | some w => exact ⟨_, _, toList_render_of_word? hw, rfl⟩
  | none =>
    obtain ⟨c, cs, hcs, hc⟩ := exists_isNumeral_of_word?_eq_none hw
    exact ⟨c, cs, hcs, by rw [startsText, hc, Bool.or_true]⟩

theorem not_append_eq_of_word? (ha : a.word? = some w) (hb : b.word? = none) :
    a.render.toList ++ u ≠ b.render.toList ++ v := by
  intro h
  obtain ⟨c, cs, hcs, hc⟩ := exists_isNumeral_of_word?_eq_none hb
  rw [toList_render_of_word? ha, hcs, List.cons_append, List.cons_append] at h
  rw [← (List.cons.inj h).1] at hc
  cases hc

/-- **The word can be read off a text**, and it says what the tree is. -/
theorem parts_eq_of_append (h : a.render.toList ++ u = b.render.toList ++ v) :
    a.word? = b.word? ∧ a.kind = b.kind ∧ a.body ++ u = b.body ++ v := by
  suffices hparts : a.word? = b.word? ∧ a.body ++ u = b.body ++ v from
    ⟨hparts.1, kind_eq_of_word?_eq hparts.1, hparts.2⟩
  cases ha : a.word? with
  | none =>
    cases hb : b.word? with
    | none =>
      rw [toList_render_of_word?_eq_none ha, toList_render_of_word?_eq_none hb] at h
      exact ⟨rfl, h⟩
    | some w => exact absurd h.symm (not_append_eq_of_word? hb ha)
  | some w =>
    cases hb : b.word? with
    | none => exact absurd h (not_append_eq_of_word? ha hb)
    | some w' =>
      rw [toList_render_of_word? ha, toList_render_of_word? hb, List.cons_append, List.cons_append,
        List.append_assoc, List.append_assoc] at h
      obtain ⟨hw, hbody⟩ := eq_of_append_cons (blank_not_mem_word? ha) (blank_not_mem_word? hb)
        (List.cons.inj h).2
      exact ⟨by rw [String.toList_inj.1 hw], hbody⟩

/-! ## Trees -/

/-- **The compact text of a tree can be read back** where no number goes on. -/
theorem legible_render :
    Legible (fun _ => True) (Stops isNumeral) fun n : Node Nat => n.render.toList := by
  intro a b u v _ _ hu hv h
  have hblank : ∀ r, Stops isNumeral (' ' :: r) := fun r => stops_cons (by decide)
  have hclose : ∀ r, Stops isNumeral (')' :: r) := fun r => stops_cons (by decide)
  induction a generalizing b u v with
  | stmt e ih =>
    obtain ⟨hword, hkind, hbody⟩ := parts_eq_of_append h
    cases b with
    | stmt e' =>
      simp only [body, List.append_assoc] at hbody
      obtain ⟨rfl, hrest⟩ := ih (hclose u) (hclose v) hbody
      exact ⟨rfl, (List.cons.inj hrest).2⟩
    | assign | binary | num | var => cases hkind
  | assign left right ihl ihr =>
    obtain ⟨hword, hkind, hbody⟩ := parts_eq_of_append h
    cases b with
    | assign left' right' =>
      simp only [body, List.append_assoc, List.cons_append] at hbody
      obtain ⟨rfl, hright⟩ := ihl (hblank _) (hblank _) hbody
      obtain ⟨rfl, hrest⟩ := ihr (hclose u) (hclose v) (List.cons.inj hright).2
      exact ⟨rfl, (List.cons.inj hrest).2⟩
    | stmt | binary | num | var => cases hkind
  | binary op left right ihl ihr =>
    obtain ⟨hword, hkind, hbody⟩ := parts_eq_of_append h
    cases b with
    | binary op' left' right' =>
      obtain rfl : op = op' := BinaryOp.symbol_injective (Option.some.inj hword)
      simp only [body, List.append_assoc, List.cons_append] at hbody
      obtain ⟨rfl, hright⟩ := ihl (hblank _) (hblank _) hbody
      obtain ⟨rfl, hrest⟩ := ihr (hclose u) (hclose v) (List.cons.inj hright).2
      exact ⟨rfl, (List.cons.inj hrest).2⟩
    | stmt | assign | num | var => cases hkind
  | num value =>
    obtain ⟨hword, hkind, hbody⟩ := parts_eq_of_append h
    cases b with
    | num value' =>
      obtain ⟨rfl, hrest⟩ := legible_int trivial trivial hu hv hbody
      exact ⟨rfl, hrest⟩
    | stmt | assign | binary | var => cases hkind
  | var offset =>
    obtain ⟨hword, hkind, hbody⟩ := parts_eq_of_append h
    cases b with
    | var offset' =>
      simp only [body, List.append_assoc] at hbody
      obtain ⟨rfl, hrest⟩ := legible_nat trivial trivial (hclose u) (hclose v) hbody
      exact ⟨rfl, (List.cons.inj hrest).2⟩
    | stmt | assign | binary | num => cases hkind

end Node

/-! ## Programs -/

def Node.renderLine (n : Node Nat) : List Char := n.render.toList ++ ['\n']

theorem Program.toList_render (p : Program) :
    p.render.toList = p.stmts.flatMap Node.renderLine := by
  simp only [Program.render, String.toList_join, List.flatMap_map, String.toList_append]
  rfl

theorem Node.legible_renderLine :
    Legible (fun _ => True) (fun _ => True) Node.renderLine := by
  intro a b u v _ _ _ _ h
  have hfeed : ∀ r, Stops isNumeral ('\n' :: r) := fun r => stops_cons (by decide)
  rw [renderLine, renderLine, List.append_assoc, List.append_assoc] at h
  obtain ⟨rfl, hrest⟩ := legible_render trivial trivial (hfeed u) (hfeed v) h
  exact ⟨rfl, (List.cons.inj hrest).2⟩

/-- **The text of a program can be read back** where no tree starts. -/
theorem legible_renderLines :
    Legible (fun _ => True) (Stops Node.startsText) (List.flatMap Node.renderLine) := by
  intro ns ms u v _ _ hu hv h
  refine Node.legible_renderLine.flatMap ?_ (fun _ _ => trivial) (fun _ _ => trivial) hu hv h
  intro n r _ hstops
  obtain ⟨c, cs, hcs, hc⟩ := n.exists_startsText
  rw [hstops c _ (by rw [Node.renderLine, hcs]; rfl)] at hc
  cases hc

/-- **The compact text identifies what it is the text of**, for a tree of any shape and for the
statements of a program. -/
theorem render_eq_iff :
    (∀ a b : Node Nat, a.render = b.render ↔ a = b) ∧
      ∀ p q : Program, p.render = q.render ↔ p.stmts = q.stmts := by
  refine ⟨fun a b => ⟨fun h => ?_, congrArg Node.render⟩, fun p q => ⟨fun h => ?_, fun h => ?_⟩⟩
  · exact Node.legible_render.injective stops_nil trivial trivial (congrArg String.toList h)
  · have hlines := congrArg String.toList h
    rw [p.toList_render, q.toList_render] at hlines
    exact legible_renderLines.injective stops_nil trivial trivial hlines
  · rw [Program.render, Program.render, h]

/-- A number below zero is not the tree that a sign in front of a number makes. -/
example : (Node.num (-1)).render = "-1" ∧
    (Node.binary .sub (.num 0) (.num 1)).render = "(- 0 1)" := by decide

end FrameLang

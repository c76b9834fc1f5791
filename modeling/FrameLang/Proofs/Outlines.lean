import FrameLang.Node.Outline
import FrameLang.Proofs.Rendering

/-!
# Outlines can be read back

An outline names each record and each field, and every value ends at a comma or a brace, so nothing
that comes after it is taken for a part of it.

* `Node.outline`: the outline of a tree by itself.  `Node.toList_outline` cuts it into the name of
  the record and its fields.
* `Node.legible_outline`: trees at a depth, by induction on the tree.
* `Program.legible_outline`: programs.
-/

namespace FrameLang

open Outline

theorem BinaryOp.name_injective {op op' : BinaryOp} (h : op.name = op'.name) : op = op' := by
  cases op <;> cases op' <;> simp_all [name]

theorem BinaryOp.comma_not_mem_name (op : BinaryOp) : ',' ∉ op.name.toList := by
  cases op <;> decide

/-! ## Outlines by themselves -/

namespace Outline

variable (a b name word : String) (depth : Nat)

theorem openRecord_append : openRecord (a ++ b) name = a ++ openRecord b name := by
  simp only [openRecord, String.append_assoc]

theorem openField_append : openField (a ++ b) depth name = a ++ openField b depth name := by
  simp only [openField, String.append_assoc]

theorem closeEntry_append : closeEntry (a ++ b) = a ++ closeEntry b := String.append_assoc ..

theorem closeRecord_append : closeRecord (a ++ b) depth = a ++ closeRecord b depth := by
  simp only [closeRecord, String.append_assoc]

theorem wordField_append :
    wordField (a ++ b) depth name word = a ++ wordField b depth name word := by
  rw [wordField, openField_append, String.append_assoc, closeEntry_append, wordField]

end Outline

namespace Node

theorem outlineOnto_append (a b : String) (depth : Nat) (n : Node Nat) :
    n.outlineOnto (a ++ b) depth = a ++ n.outlineOnto b depth := by
  induction n generalizing b depth with
  | stmt e ih =>
    simp only [outlineOnto, openRecord_append, openField_append, closeEntry_append,
      closeRecord_append, ih]
  | assign target value iht ihv =>
    simp only [outlineOnto, openRecord_append, openField_append, closeEntry_append,
      closeRecord_append, iht, ihv]
  | binary op left right ihl ihr =>
    simp only [outlineOnto, openRecord_append, openField_append, closeEntry_append,
      closeRecord_append, wordField_append, ihl, ihr]
  | num value => simp only [outlineOnto, openRecord_append, closeRecord_append, wordField_append]
  | var offset => simp only [outlineOnto, openRecord_append, closeRecord_append, wordField_append]

def outline (depth : Nat) (n : Node Nat) : String := n.outlineOnto "" depth

theorem outlineOnto_eq (out : String) (depth : Nat) (n : Node Nat) :
    n.outlineOnto out depth = out ++ n.outline depth := by
  rw [outline, ← outlineOnto_append, String.append_empty]

/-! ## Records and fields -/

def Kind.recordName : Kind → String
  | stmt => "ExprStmt"
  | assign => "Assign"
  | binary => "Binary"
  | num => "Num"
  | var => "LVar"

theorem Kind.recordName_injective {k k' : Kind}
    (h : k.recordName.toList = k'.recordName.toList) : k = k' := by
  cases k <;> cases k' <;> simp_all [recordName]

theorem Kind.blank_not_mem_recordName (k : Kind) : ' ' ∉ k.recordName.toList := by
  cases k <;> decide

/-- What a field is called, where its record stands at a depth. -/
def label (depth : Nat) (name : String) : List Char :=
  (indentation (depth + 1)).toList ++ (name.toList ++ [':', ' '])

def fields (depth : Nat) : Node Nat → List Char
  | stmt e => label depth "expr" ++ ((e.outline (depth + 1)).toList ++ [',', '\n'])
  | assign left right =>
    label depth "lhs" ++ ((left.outline (depth + 1)).toList ++ ',' :: '\n' ::
      (label depth "rhs" ++ ((right.outline (depth + 1)).toList ++ [',', '\n'])))
  | binary op left right =>
    label depth "op" ++ (op.name.toList ++ ',' :: '\n' ::
      (label depth "lhs" ++ ((left.outline (depth + 1)).toList ++ ',' :: '\n' ::
        (label depth "rhs" ++ ((right.outline (depth + 1)).toList ++ [',', '\n'])))))
  | num value => label depth "val" ++ ((toString value).toList ++ [',', '\n'])
  | var offset => label depth "offset" ++ ((toString offset).toList ++ [',', '\n'])

theorem toList_outline (depth : Nat) (n : Node Nat) :
    (n.outline depth).toList = n.kind.recordName.toList ++ ' ' :: '{' :: '\n' ::
      (n.fields depth ++ ((indentation depth).toList ++ ['}'])) := by
  rw [outline]
  cases n <;>
    simp [outlineOnto, outlineOnto_eq, openRecord, openField, closeEntry, closeRecord,
      wordField, label, fields, kind, Kind.recordName]

/-- **The record of a tree can be read off an outline.** -/
theorem fields_eq_of_append {depth : Nat} {a b : Node Nat} {u v : List Char}
    (h : (a.outline depth).toList ++ u = (b.outline depth).toList ++ v) :
    a.kind = b.kind ∧
      a.fields depth ++ ((indentation depth).toList ++ '}' :: u) =
        b.fields depth ++ ((indentation depth).toList ++ '}' :: v) := by
  simp only [toList_outline, List.append_assoc, List.cons_append, List.nil_append] at h
  obtain ⟨hname, hrest⟩ := eq_of_append_cons a.kind.blank_not_mem_recordName
    b.kind.blank_not_mem_recordName h
  simp only [List.cons.injEq, true_and] at hrest
  exact ⟨Kind.recordName_injective hname, hrest⟩

/-! ## Trees -/

/-- **The outline of a tree can be read back**, whatever comes after it. -/
theorem legible_outline (depth : Nat) :
    Legible (fun _ => True) (fun _ => True) fun n : Node Nat => (n.outline depth).toList := by
  intro a b u v _ _ _ _ h
  have hcomma : ∀ r, Stops isNumeral (',' :: r) := fun r => stops_cons (by decide)
  induction a generalizing depth b u v with
  | stmt e ih =>
    obtain ⟨hkind, hfields⟩ := fields_eq_of_append h
    cases b with
    | stmt e' =>
      simp only [fields, List.append_assoc, List.append_cancel_left_eq] at hfields
      obtain ⟨rfl, hrest⟩ := ih (depth + 1) hfields
      refine ⟨rfl, ?_⟩
      simpa using hrest
    | assign | binary | num | var => cases hkind
  | assign left right ihl ihr =>
    obtain ⟨hkind, hfields⟩ := fields_eq_of_append h
    cases b with
    | assign left' right' =>
      simp only [fields, List.append_assoc, List.cons_append, List.append_cancel_left_eq] at hfields
      obtain ⟨rfl, hright⟩ := ihl (depth + 1) hfields
      simp only [List.cons.injEq, true_and, List.append_cancel_left_eq] at hright
      obtain ⟨rfl, hrest⟩ := ihr (depth + 1) hright
      refine ⟨rfl, ?_⟩
      simpa using hrest
    | stmt | binary | num | var => cases hkind
  | binary op left right ihl ihr =>
    obtain ⟨hkind, hfields⟩ := fields_eq_of_append h
    cases b with
    | binary op' left' right' =>
      simp only [fields, List.append_assoc, List.cons_append, List.append_cancel_left_eq] at hfields
      obtain ⟨hname, hleft⟩ :=
        eq_of_append_cons op.comma_not_mem_name op'.comma_not_mem_name hfields
      obtain rfl := BinaryOp.name_injective (String.toList_inj.1 hname)
      simp only [List.cons.injEq, true_and, List.append_cancel_left_eq] at hleft
      obtain ⟨rfl, hright⟩ := ihl (depth + 1) hleft
      simp only [List.cons.injEq, true_and, List.append_cancel_left_eq] at hright
      obtain ⟨rfl, hrest⟩ := ihr (depth + 1) hright
      refine ⟨rfl, ?_⟩
      simpa using hrest
    | stmt | assign | num | var => cases hkind
  | num value =>
    obtain ⟨hkind, hfields⟩ := fields_eq_of_append h
    cases b with
    | num value' =>
      simp only [fields, List.append_assoc, List.cons_append, List.append_cancel_left_eq] at hfields
      obtain ⟨rfl, hrest⟩ := legible_int trivial trivial (hcomma _) (hcomma _) hfields
      refine ⟨rfl, ?_⟩
      simpa using hrest
    | stmt | assign | binary | var => cases hkind
  | var offset =>
    obtain ⟨hkind, hfields⟩ := fields_eq_of_append h
    cases b with
    | var offset' =>
      simp only [fields, List.append_assoc, List.cons_append, List.append_cancel_left_eq] at hfields
      obtain ⟨rfl, hrest⟩ := legible_nat trivial trivial (hcomma _) (hcomma _) hfields
      refine ⟨rfl, ?_⟩
      simpa using hrest
    | stmt | assign | binary | num => cases hkind

end Node

/-! ## Lists and programs -/

def Node.outlineItem (n : Node Nat) : List Char :=
  (indentation 2).toList ++ ((n.outline 2).toList ++ [',', '\n'])

def endOfList : List Char := (indentation 1).toList ++ [']']

/-- The list ends here. -/
def ListEnds (u : List Char) : Prop := ∃ v, u = endOfList ++ v

def outlineList : List (Node Nat) → List Char
  | [] => ['[', ']']
  | s :: stmts => '[' :: '\n' :: ((s :: stmts).flatMap Node.outlineItem ++ endOfList)

theorem toList_foldl_outline (out : String) (stmts : List (Node Nat)) :
    (stmts.foldl (fun out s => closeEntry (s.outlineOnto (out ++ indentation 2) 2)) out).toList =
      out.toList ++ stmts.flatMap Node.outlineItem := by
  induction stmts generalizing out with
  | nil => simp
  | cons s stmts ih =>
    rw [List.foldl_cons, ih, Node.outlineOnto_eq, List.flatMap_cons, Node.outlineItem]
    simp [closeEntry]

theorem toList_outlineStmtsOnto (out : String) (stmts : List (Node Nat)) :
    (outlineStmtsOnto out stmts).toList = out.toList ++ outlineList stmts := by
  cases stmts with
  | nil => exact String.toList_append
  | cons s stmts =>
    rw [outlineStmtsOnto, List.isEmpty_cons, if_neg Bool.false_ne_true, String.toList_append,
      String.toList_append, toList_foldl_outline, outlineList, endOfList]
    simp

theorem Node.legible_outlineItem :
    Legible (fun _ => True) (fun _ => True) Node.outlineItem := by
  intro a b u v _ _ _ _ h
  simp only [outlineItem, List.append_assoc, List.append_cancel_left_eq] at h
  obtain ⟨rfl, hrest⟩ := legible_outline 2 trivial trivial trivial trivial h
  exact ⟨rfl, List.append_cancel_left hrest⟩

/-- An item stands deeper than the end of its list. -/
theorem Node.outlineItem_append_ne (n : Node Nat) (u v : List Char) :
    n.outlineItem ++ u ≠ endOfList ++ v := by
  have hdeeper : (indentation 2).toList = (indentation 1).toList ++ (indentation 1).toList := by
    decide
  have hblanks : (indentation 1).toList = ' ' :: [' ', ' ', ' '] := by decide
  intro h
  simp only [outlineItem, endOfList, hdeeper, List.append_assoc, List.append_cancel_left_eq] at h
  rw [hblanks] at h
  cases h

theorem legible_outlineList : Legible (fun _ => True) (fun _ => True) outlineList := by
  have hitems : Legible (fun _ => True) ListEnds (List.flatMap Node.outlineItem) := by
    intro l m u v _ _ hu hv h
    refine Node.legible_outlineItem.flatMap ?_ (fun _ _ => trivial) (fun _ _ => trivial) hu hv h
    rintro n r - ⟨v, hv⟩
    exact n.outlineItem_append_ne r v hv
  intro l m u v _ _ _ _ h
  cases l with
  | nil =>
    cases m with
    | nil => exact ⟨rfl, List.append_cancel_left h⟩
    | cons b m => cases h
  | cons a l =>
    cases m with
    | nil => cases h
    | cons b m =>
      simp only [outlineList, List.cons_append, List.append_assoc, List.cons.injEq,
        true_and] at h
      obtain ⟨hlist, hrest⟩ := hitems trivial trivial ⟨u, rfl⟩ ⟨v, rfl⟩ h
      exact ⟨hlist, List.append_cancel_left hrest⟩

namespace Program

theorem toList_outline (p : Program) :
    p.outline.toList = "Program \x7b\n".toList ++ (Node.label 0 "stmts" ++
      (outlineList p.stmts ++ ',' :: '\n' :: (Node.label 0 "frame_size" ++
        ((toString p.frameSize).toList ++ [',', '\n', '\x7d'])))) := by
  simp [outline, closeRecord, wordField, closeEntry, openField, openRecord,
    toList_outlineStmtsOnto, Node.label, indentation]

/-- **The outline of a program can be read back**, whatever comes after it. -/
theorem legible_outline :
    Legible (fun _ => True) (fun _ => True) fun p : Program => p.outline.toList := by
  intro p q u v _ _ _ _ h
  have hcomma : ∀ r, Stops isNumeral (',' :: r) := fun r => stops_cons (by decide)
  simp only [toList_outline, List.append_assoc, List.cons_append, List.append_cancel_left_eq] at h
  obtain ⟨hstmts, hframe⟩ := legible_outlineList trivial trivial trivial trivial h
  simp only [List.cons.injEq, true_and, List.append_cancel_left_eq] at hframe
  obtain ⟨hsize, hrest⟩ := legible_nat trivial trivial (hcomma _) (hcomma _) hframe
  refine ⟨?_, by simpa using hrest⟩
  cases p
  cases q
  rw [Program.mk.injEq]
  exact ⟨hstmts, hsize⟩

end Program

end FrameLang

import FrameLang.Proofs.Resolution

/-!
# Parts of trees and of tokens

A tree is made of parts, and each token becomes some of them.  A literal, a name, an operator, an
assignment and the end of a statement each become one.  A minus sign becomes two, since it subtracts
from zero, while a plus sign and parentheses become none.  Whether a plus or a minus is a sign is
told by the token in front of it.

* `Part`, `Node.parts`: what a tree is made of, from left to right.
* `marked`: the tokens, each with whether an operand is to start there.
* `Token.parts`, `partsOf`: what tokens become.
* `Derives.parts_perm`, `Derives.parts_eq`: the parts of a tree are those of its tokens, in their
  order if no operator turns its operands around.
-/

namespace FrameLang

variable {ν μ : Type} {t : Token} {u v ts : List Token} {e : Node String} {starts : Bool}

/-! ## Parts of trees -/

/-- One thing that a tree is made of. -/
inductive Part (ν : Type)
  | stmt
  | assign
  | binary (op : BinaryOp)
  | num (value : Int)
  | var (v : ν)
  deriving DecidableEq, Repr

namespace Part

def map (f : ν → μ) : Part ν → Part μ
  | stmt => stmt
  | assign => assign
  | binary op => binary op
  | num value => num value
  | var v => var (f v)

def isLeaf : Part ν → Bool
  | num _ | var _ => true
  | stmt | assign | binary _ => false

def num? : Part ν → Option Int
  | num value => some value
  | stmt | assign | binary _ | var _ => none

def var? : Part ν → Option ν
  | var v => some v
  | stmt | assign | binary _ | num _ => none

def puncts : Part ν → List Punct
  | stmt => [.semicolon]
  | assign => [.assign]
  | binary .add => [.plus]
  | binary .sub => [.minus]
  | binary .mul => [.star]
  | binary .div => [.slash]
  | binary .eq => [.equal]
  | binary .ne => [.notEqual]
  | binary .lt => [.less, .greater]
  | binary .le => [.lessEqual, .greaterEqual]
  | num _ | var _ => []

theorem isLeaf_eq_false (part : Part ν) (h : part.puncts ≠ []) : part.isLeaf = false := by
  cases part with
  | num value => exact absurd rfl h
  | var v => exact absurd rfl h
  | _ => rfl

theorem count_map (f : ν → μ) {part : Part ν} [DecidableEq ν] [DecidableEq μ]
    (h : part.isLeaf = false) (parts : List (Part ν)) :
    (parts.map (map f)).count (part.map f) = parts.count part := by
  rw [List.count, List.count, List.countP_map]
  refine List.countP_congr fun x _ => ?_
  cases part with
  | num value => cases h
  | var v => cases h
  | _ => cases x <;> simp [map, Function.comp]

theorem filterMap_num?_map (f : ν → μ) (parts : List (Part ν)) :
    (parts.map (map f)).filterMap num? = parts.filterMap num? := by
  have hnum : num? ∘ map f = num? := funext fun part => by cases part <;> rfl
  rw [List.filterMap_map, hnum]

theorem filter_isLeaf_map (f : ν → μ) (parts : List (Part ν)) :
    (parts.map (map f)).filter isLeaf = (parts.filter isLeaf).map (map f) := by
  have hleaf : isLeaf ∘ map f = isLeaf := funext fun part => by cases part <;> rfl
  rw [List.filter_map, hleaf]

end Part

/-- The parts of a tree from left to right: an operator between its operands, and a statement after
its expression. -/
def Node.parts : Node ν → List (Part ν)
  | stmt e => e.parts ++ [.stmt]
  | assign target value => target.parts ++ .assign :: value.parts
  | binary op left right => left.parts ++ .binary op :: right.parts
  | num value => [.num value]
  | var v => [.var v]

theorem Node.parts_map (f : ν → μ) (e : Node ν) : (e.map f).parts = e.parts.map (Part.map f) := by
  induction e with
  | stmt e ih => simp [map, parts, ih, Part.map]
  | assign a b iha ihb => simp [map, parts, iha, ihb, Part.map]
  | binary op a b iha ihb => simp [map, parts, iha, ihb, Part.map]
  | num value => rfl
  | var v => rfl

theorem Node.filterMap_var?_parts (e : Node ν) : e.parts.filterMap Part.var? = e.vars := by
  induction e with
  | stmt e ih => simp [parts, vars, Part.var?, List.filterMap_cons, ih]
  | assign a b iha ihb => simp [parts, vars, Part.var?, List.filterMap_cons, iha, ihb]
  | binary op a b iha ihb => simp [parts, vars, Part.var?, List.filterMap_cons, iha, ihb]
  | num value => rfl
  | var v => rfl

theorem Node.parts_apply_perm (o : Operator) (a b : Node ν) :
    (o.apply a b).parts.Perm (a.parts ++ .binary o.op :: b.parts) := by
  unfold Operator.apply
  split
  · -- the operands change places around the operator
    show (b.parts ++ Part.binary o.op :: a.parts).Perm _
    calc b.parts ++ Part.binary o.op :: a.parts
      _ |>.Perm (Part.binary o.op :: (b.parts ++ a.parts)) := List.perm_middle
      _ |>.Perm (Part.binary o.op :: (a.parts ++ b.parts)) := List.perm_append_comm.cons _
      _ |>.Perm (a.parts ++ Part.binary o.op :: b.parts) := List.perm_middle.symm
  · exact .refl _

theorem Node.parts_apply_of_not_swapped {o : Operator} (h : o.swapped = false) (a b : Node ν) :
    (o.apply a b).parts = a.parts ++ .binary o.op :: b.parts := by
  rw [Operator.apply, h]
  rfl

/-! ## Parts of tokens -/

/-- Whether an operand is to start after the token: after an operator, an assignment, the start of a
group and the end of a statement. -/
def Token.awaitsOperand (t : Token) : Bool :=
  t.cls.operator?.isSome || t.cls ∈ [.punct .assign, .punct .leftParen, .punct .semicolon]

/-- The tokens, each with whether an operand is to start there. -/
def marked (starts : Bool) : List Token → List (Bool × Token)
  | [] => []
  | t :: ts => (starts, t) :: marked t.awaitsOperand ts

def Token.parts (starts : Bool) (t : Token) : List (Part String) :=
  match t.cls with
  | .num value => [.num value]
  | .ident => [.var t.text]
  | .punct .assign => [.assign]
  | .punct .semicolon => [.stmt]
  | .punct .plus => if starts then [] else [.binary .add]
  | .punct .minus => if starts then [.num 0, .binary .sub] else [.binary .sub]
  | cls => (cls.operator?.map fun o => .binary o.op).toList

def partsOf (starts : Bool) (ts : List Token) : List (Part String) :=
  (marked starts ts).flatMap fun m => m.2.parts m.1

@[simp] theorem partsOf_nil (starts : Bool) : partsOf starts [] = [] := rfl

theorem partsOf_cons (starts : Bool) (t : Token) (ts : List Token) :
    partsOf starts (t :: ts) = t.parts starts ++ partsOf t.awaitsOperand ts := rfl

theorem map_snd_marked (starts : Bool) (ts : List Token) :
    (marked starts ts).map Prod.snd = ts := by
  induction ts generalizing starts with
  | nil => rfl
  | cons t ts ih => rw [marked, List.map_cons, ih]

theorem countP_marked (q : Token → Bool) (starts : Bool) (ts : List Token) :
    ((marked starts ts).countP fun m => q m.2) = ts.countP q := by
  have h : ((marked starts ts).map Prod.snd).countP q = ts.countP q := by rw [map_snd_marked]
  rwa [List.countP_map] at h

/-- After the tokens no operand is to start. -/
def EndsOperand (u : List Token) : Prop := ∃ v t, u = v ++ [t] ∧ t.awaitsOperand = false

theorem partsOf_append (hu : EndsOperand u) (starts : Bool) (ts : List Token) :
    partsOf starts (u ++ ts) = partsOf starts u ++ partsOf false ts := by
  obtain ⟨v, t, rfl, ht⟩ := hu
  induction v generalizing starts with
  | nil => simp [partsOf_cons, ht]
  | cons a v ih =>
    rw [List.cons_append, List.cons_append, partsOf_cons, partsOf_cons, ih, List.append_assoc]

theorem Token.awaitsOperand_of_operator? {o : Operator} (h : t.cls.operator? = some o) :
    t.awaitsOperand = true := by
  simp [awaitsOperand, h]

theorem Token.parts_of_operator? {o : Operator} (h : t.cls.operator? = some o) :
    t.parts false = [.binary o.op] := by
  obtain ⟨cls, text, pos⟩ := t
  cases cls with
  | punct p => cases p <;> cases h <;> rfl
  | ident => cases h
  | num value => cases h
  | eof => cases h

theorem partsOf_operator {o : Operator} (hu : EndsOperand u) (ht : t.cls.operator? = some o)
    (starts : Bool) (v : List Token) :
    partsOf starts (u ++ t :: v) = partsOf starts u ++ .binary o.op :: partsOf true v := by
  rw [partsOf_append hu, partsOf_cons, Token.parts_of_operator? ht,
    Token.awaitsOperand_of_operator? ht, List.singleton_append]

theorem partsOf_assign (hu : EndsOperand u) (ht : t.cls = .punct .assign) (starts : Bool)
    (v : List Token) :
    partsOf starts (u ++ t :: v) = partsOf starts u ++ .assign :: partsOf true v := by
  rw [partsOf_append hu, partsOf_cons]
  simp [Token.parts, Token.awaitsOperand, ht]

theorem partsOf_semicolon (hu : EndsOperand u) (ht : t.cls = .punct .semicolon) (starts : Bool)
    (v : List Token) :
    partsOf starts (u ++ t :: v) = partsOf starts u ++ .stmt :: partsOf true v := by
  rw [partsOf_append hu, partsOf_cons]
  simp [Token.parts, Token.awaitsOperand, ht]

theorem partsOf_plusSign (ht : t.cls = .punct .plus) (u : List Token) :
    partsOf true (t :: u) = partsOf true u := by
  rw [partsOf_cons, Token.awaitsOperand_of_operator? (o := ⟨.add, false⟩) (by rw [ht]; rfl)]
  simp [Token.parts, ht]

theorem partsOf_minusSign (ht : t.cls = .punct .minus) (u : List Token) :
    partsOf true (t :: u) = .num 0 :: .binary .sub :: partsOf true u := by
  rw [partsOf_cons, Token.awaitsOperand_of_operator? (o := ⟨.sub, false⟩) (by rw [ht]; rfl)]
  simp [Token.parts, ht]

theorem partsOf_group {t' : Token} (ht : t.cls = .punct .leftParen) (hu : EndsOperand u)
    (ht' : t'.cls = .punct .rightParen) :
    partsOf true (t :: (u ++ [t'])) = partsOf true u := by
  rw [partsOf_cons, partsOf_append hu, partsOf_cons]
  simp [Token.parts, Token.awaitsOperand, ht, ht', TokenClass.operator?, Punct.operator?]

/-! ## Derivations -/

theorem Derives.endsOperand {n : Nonterminal} (h : Derives n u e) : EndsOperand u := by
  have hcons : ∀ {u : List Token}, EndsOperand u → ∀ w, EndsOperand (w ++ u) := by
    rintro _ ⟨v, t, rfl, ht⟩ w
    exact ⟨w ++ v, t, (List.append_assoc ..).symm, ht⟩
  induction h with
  | value _ ih | first _ ih | plain _ ih => exact ih
  | @assign u v t _ _ _ _ _ _ ih => simpa using hcons ih (u ++ [t])
  | @more _ u v t _ _ _ _ _ _ _ _ _ ih => simpa using hcons ih (u ++ [t])
  | @plus u t _ _ _ ih | @minus u t _ _ _ ih => exact hcons ih [t]
  | @literal t value ht =>
    exact ⟨[], t, rfl, by simp [Token.awaitsOperand, ht, TokenClass.operator?]⟩
  | @name t ht => exact ⟨[], t, rfl, by simp [Token.awaitsOperand, ht, TokenClass.operator?]⟩
  | @group u t t' _ _ _ ht' =>
    exact ⟨t :: u, t', rfl, by
      simp [Token.awaitsOperand, ht', TokenClass.operator?, Punct.operator?]⟩

/-- **The parts of a tree are those of its tokens.** -/
theorem Derives.parts_perm {n : Nonterminal} (h : Derives n u e) :
    e.parts.Perm (partsOf true u) := by
  induction h with
  | value _ ih | first _ ih | plain _ ih => exact ih
  | assign h ht _ ih ih' =>
    rw [partsOf_assign h.endsOperand ht]
    exact ih.append (ih'.cons _)
  | more h ht hj _ ih ih' =>
    obtain ⟨o, ho, -, rfl⟩ := Level.join?_eq_some_iff.1 hj
    rw [partsOf_operator h.endsOperand (by rw [ht]; exact ho)]
    exact (Node.parts_apply_perm o _ _).trans (ih.append (ih'.cons _))
  | plus ht _ ih => rwa [partsOf_plusSign ht]
  | minus ht _ ih =>
    rw [partsOf_minusSign ht]
    exact (ih.cons _).cons _
  | literal ht =>
    rw [partsOf_cons, Token.parts, ht]
    exact .refl _
  | name ht =>
    rw [partsOf_cons, Token.parts, ht]
    exact .refl _
  | group ht h ht' ih => rwa [partsOf_group ht h.endsOperand ht']

/-- Whether a token is an operator that turns its operands around. -/
def Token.turns (t : Token) : Bool := (t.cls.operator?.map Operator.swapped).getD false

theorem Token.turns_eq_false (h : t.cls ≠ .punct .greater) (h' : t.cls ≠ .punct .greaterEqual) :
    t.turns = false := by
  obtain ⟨cls, text, pos⟩ := t
  cases cls with
  | punct p => cases p <;> first | rfl | exact absurd rfl h | exact absurd rfl h'
  | _ => rfl

/-- **Where no operator turns its operands around, the parts of a tree are those of its tokens in
their order.** -/
theorem Derives.parts_eq {n : Nonterminal} (h : Derives n u e) (hu : ∀ t ∈ u, t.turns = false) :
    e.parts = partsOf true u := by
  induction h with
  | value _ ih | first _ ih | plain _ ih => exact ih hu
  | assign h ht _ ih ih' =>
    rw [List.forall_mem_append, List.forall_mem_cons] at hu
    rw [partsOf_assign h.endsOperand ht, Node.parts, ih hu.1, ih' hu.2.2]
  | @more _ _ _ t _ _ _ _ h ht hj _ ih ih' =>
    obtain ⟨o, ho, -, rfl⟩ := Level.join?_eq_some_iff.1 hj
    rw [List.forall_mem_append, List.forall_mem_cons] at hu
    have ho : t.cls.operator? = some o := by rw [ht]; exact ho
    have hswapped : o.swapped = false := by simpa [Token.turns, ho] using hu.2.1
    rw [partsOf_operator h.endsOperand ho, Node.parts_apply_of_not_swapped hswapped, ih hu.1,
      ih' hu.2.2]
  | plus ht _ ih =>
    rw [List.forall_mem_cons] at hu
    rw [partsOf_plusSign ht, ih hu.2]
  | minus ht _ ih =>
    rw [List.forall_mem_cons] at hu
    rw [partsOf_minusSign ht, Node.parts, ih hu.2]
    rfl
  | literal ht =>
    rw [partsOf_cons, Token.parts, ht]
    rfl
  | name ht =>
    rw [partsOf_cons, Token.parts, ht]
    rfl
  | group ht h ht' ih =>
    rw [List.forall_mem_cons, List.forall_mem_append] at hu
    rw [partsOf_group ht h.endsOperand ht', ih hu.2.1]

namespace DerivesProgram

variable {es : List (Node String)}

theorem parts_perm (h : DerivesProgram u es) : (es.flatMap Node.parts).Perm (partsOf true u) := by
  induction h with
  | nil => exact .refl _
  | cons h ht _ ih =>
    rw [List.flatMap_cons, Node.parts, List.append_assoc, partsOf_semicolon h.endsOperand ht]
    exact h.parts_perm.append (ih.cons _)

theorem parts_eq (h : DerivesProgram u es) (hu : ∀ t ∈ u, t.turns = false) :
    es.flatMap Node.parts = partsOf true u := by
  induction h with
  | nil => rfl
  | cons h ht _ ih =>
    rw [List.forall_mem_append, List.forall_mem_cons] at hu
    rw [List.flatMap_cons, Node.parts, List.append_assoc, partsOf_semicolon h.endsOperand ht,
      h.parts_eq hu.1, ih hu.2.2]
    rfl

end DerivesProgram

/-! ## Programs -/

def Program.parts (program : Program) : List (Part Nat) := program.stmts.flatMap Node.parts

namespace Program

theorem parts_map (f : String → Nat) (es : List (Node String)) (frameSize : Nat) :
    (⟨es.map (Node.map f), frameSize⟩ : Program).parts =
      (es.flatMap Node.parts).map (Part.map f) := by
  rw [parts, List.flatMap_map, List.map_flatMap]
  exact congrArg (List.flatMap · es) (funext (Node.parts_map f))

theorem filterMap_var?_parts (program : Program) :
    program.parts.filterMap Part.var? = program.stmts.flatMap Node.vars := by
  rw [parts, List.filterMap_flatMap]
  exact congrArg (List.flatMap · _) (funext Node.filterMap_var?_parts)

end Program

end FrameLang

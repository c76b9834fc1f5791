import FrameLang.Proofs.Grammar
import FrameLang.Proofs.Names

/-!
# The variables of trees

Each identifier among the tokens of a derivation becomes one variable of its tree, and there are no
others.  Their order may change, since some operators turn their operands around.

* `Node.vars`: the variables of a tree, from left to right.
* `namesOf`: the names of some tokens, in order.
* `Derives.vars_perm`, `DerivesProgram.vars_perm`: the variables of a derived tree are the names of
  its tokens.
-/

namespace FrameLang

variable {ν μ : Type} {t : Token} {u v : List Token} {e f : Node String}

def Node.vars : Node ν → List ν
  | stmt e => e.vars
  | assign left right | binary _ left right => left.vars ++ right.vars
  | num _ => []
  | var v => [v]

/-- The names of some tokens, in order. -/
def namesOf (ts : List Token) : List String := ts.filterMap Token.name?

namespace Node

theorem vars_map (g : ν → μ) (e : Node ν) : (e.map g).vars = e.vars.map g := by
  induction e with
  | stmt e ih => exact ih
  | assign a b iha ihb => rw [map, vars, vars, iha, ihb, List.map_append]
  | binary op a b iha ihb => rw [map, vars, vars, iha, ihb, List.map_append]
  | num value => rfl
  | var v => rfl

theorem map_congr {g h : ν → μ} {e : Node ν} (hvars : ∀ x ∈ e.vars, g x = h x) :
    e.map g = e.map h := by
  induction e with
  | stmt e ih => rw [map, map, ih hvars]
  | assign a b iha ihb =>
    rw [vars, List.forall_mem_append] at hvars
    rw [map, map, iha hvars.1, ihb hvars.2]
  | binary op a b iha ihb =>
    rw [vars, List.forall_mem_append] at hvars
    rw [map, map, iha hvars.1, ihb hvars.2]
  | num value => rfl
  | var v => rw [map, map, hvars v (by simp [vars])]

theorem flatMap_vars_map (g : ν → μ) (es : List (Node ν)) :
    (es.map (map g)).flatMap vars = (es.flatMap vars).map g := by
  induction es with
  | nil => rfl
  | cons e es ih =>
    rw [List.map_cons, List.flatMap_cons, List.flatMap_cons, List.map_append, ih, vars_map]

theorem vars_apply (o : Operator) (a b : Node ν) : (o.apply a b).vars.Perm (a.vars ++ b.vars) := by
  unfold Operator.apply
  split
  · exact List.perm_append_comm
  · exact .refl _

end Node

/-! ## Names of tokens -/

@[simp] theorem namesOf_nil : namesOf [] = [] := rfl

@[simp] theorem namesOf_append (u v : List Token) : namesOf (u ++ v) = namesOf u ++ namesOf v :=
  List.filterMap_append

theorem namesOf_cons_of_ident (h : t.cls = .ident) (u : List Token) :
    namesOf (t :: u) = t.text :: namesOf u := by
  rw [namesOf, List.filterMap_cons_some (Token.name?_of_ident h)]
  rfl

theorem namesOf_cons_of_ne_ident (h : t.cls ≠ .ident) (u : List Token) :
    namesOf (t :: u) = namesOf u := by
  rw [namesOf, List.filterMap_cons_none (Token.name?_of_ne_ident h)]
  rfl

theorem namesOf_cons_of_punct {p : Punct} (h : t.cls = .punct p) (u : List Token) :
    namesOf (t :: u) = namesOf u := namesOf_cons_of_ne_ident (by rw [h]; nofun) u

theorem mem_namesOf {x : String} : x ∈ namesOf u ↔ ∃ t ∈ u, t.cls = .ident ∧ t.text = x := by
  have hname : ∀ t : Token, t.name? = some x ↔ t.cls = .ident ∧ t.text = x := by
    intro t
    by_cases ht : t.cls = .ident
    · simp [Token.name?_of_ident ht, ht]
    · simp [Token.name?_of_ne_ident ht, ht]
  rw [namesOf, List.mem_filterMap]
  exact exists_congr fun t => and_congr_right fun _ => hname t

/-! ## Derived trees -/

theorem Derives.vars_perm {n : Nonterminal} (h : Derives n u e) : e.vars.Perm (namesOf u) := by
  induction h with
  | value _ ih | first _ ih | plain _ ih => exact ih
  | assign _ ht _ ih ih' =>
    rw [namesOf_append, namesOf_cons_of_punct ht]
    exact ih.append ih'
  | more _ ht hj _ ih ih' =>
    obtain ⟨o, -, -, rfl⟩ := Level.join?_eq_some_iff.1 hj
    rw [namesOf_append, namesOf_cons_of_punct ht]
    exact (Node.vars_apply o _ _).trans (ih.append ih')
  | plus ht _ ih | minus ht _ ih =>
    rw [namesOf_cons_of_punct ht]
    exact ih
  | literal ht =>
    rw [namesOf_cons_of_ne_ident (by rw [ht]; nofun)]
    exact .refl _
  | name ht =>
    rw [namesOf_cons_of_ident ht]
    exact .refl _
  | group ht _ ht' ih =>
    rw [namesOf_cons_of_punct ht, namesOf_append, namesOf_cons_of_punct ht', namesOf_nil,
      List.append_nil]
    exact ih

/-- **The variables of a program are the names of its tokens.** -/
theorem DerivesProgram.vars_perm {es : List (Node String)} (h : DerivesProgram u es) :
    (es.flatMap Node.vars).Perm (namesOf u) := by
  induction h with
  | nil => exact .refl _
  | cons h ht _ ih =>
    rw [List.flatMap_cons, namesOf_append, namesOf_cons_of_punct ht]
    exact h.vars_perm.append ih

theorem DerivesProgram.mem_vars_iff {es : List (Node String)} {x : String}
    (h : DerivesProgram u es) : x ∈ es.flatMap Node.vars ↔ x ∈ namesOf u := h.vars_perm.mem_iff

theorem DerivesProgram.map_congr {es : List (Node String)} {g h : String → μ}
    (hd : DerivesProgram u es) (hnames : ∀ x ∈ namesOf u, g x = h x) :
    es.map (Node.map g) = es.map (Node.map h) :=
  List.map_congr_left fun e he => Node.map_congr fun x hx =>
    hnames x (hd.mem_vars_iff.1 (List.mem_flatMap.2 ⟨e, he, hx⟩))

end FrameLang

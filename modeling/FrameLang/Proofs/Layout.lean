import FrameLang.Proofs.Grammar.Variables
import FrameLang.Proofs.Registering

/-!
# The layout of the frame

Which slot a name gets can be read off the names of a source in order, without any parser.

* `lastRank`: the place where a name stands last in a list, counted from one.
* `Locals.Holds t w names`: the table has these names in its slots, oldest first, and each slot is
  `w` wide.  Inserting and declaring keep this, and a name is found where it stands last.
* `tableOf_holds`: the names that the table of a compilation holds.
* `compile_layout`: the table, the offsets in the trees and the frame size of a program.
-/

namespace FrameLang

variable {x : String} {names u v : List String} {t : Locals} {ts : List Token} {w : Nat}

/-! ## Places of names -/

/-- The place where a name stands last, counted from one. -/
def lastRank (x : String) (names : List String) : Nat := names.length - names.reverse.idxOf x

theorem lastRank_append_cons (h : x ∉ v) : lastRank x (u ++ x :: v) = u.length + 1 := by
  have hreverse : (u ++ x :: v).reverse = v.reverse ++ x :: u.reverse := by simp
  have hidx : (u ++ x :: v).reverse.idxOf x = v.length := by
    rw [hreverse, List.idxOf_append, if_neg (by simpa using h), List.idxOf_cons_self,
      List.length_reverse, Nat.zero_add]
  rw [lastRank, hidx, List.length_append, List.length_cons]
  omega

theorem lastRank_le_length (x : String) (names : List String) :
    lastRank x names ≤ names.length := Nat.sub_le _ _

theorem exists_last_of_mem (h : x ∈ names) : ∃ u v, names = u ++ x :: v ∧ x ∉ v := by
  obtain ⟨u, v, huv, hx⟩ := List.eq_append_cons_of_mem (List.mem_reverse.2 h)
  refine ⟨v.reverse, u.reverse, ?_, by simpa using hx⟩
  rw [← List.reverse_reverse names, huv]
  simp

theorem lastRank_of_nodup (hn : names.Nodup) (hx : x ∈ names) :
    lastRank x names = names.idxOf x + 1 := by
  obtain ⟨u, v, rfl, hv⟩ := exists_last_of_mem hx
  have hu : x ∉ u := fun hu => (List.nodup_append.1 hn).2.2 x hu x (by simp) rfl
  rw [lastRank_append_cons hv, List.idxOf_append, if_neg hu, List.idxOf_cons_self, Nat.zero_add]

theorem eraseDups_concat (names : List String) (x : String) :
    (names ++ [x]).eraseDups =
      if x ∈ names.eraseDups then names.eraseDups else names.eraseDups ++ [x] := by
  by_cases h : x ∈ names
  · have hremove : [x].removeAll names = [] := by simp [List.removeAll, h]
    rw [if_pos (List.mem_eraseDups.2 h), List.eraseDups_append, hremove, List.eraseDups_nil,
      List.append_nil]
  · have hremove : [x].removeAll names = [x] := by simp [List.removeAll, h]
    rw [if_neg (mt List.mem_eraseDups.1 h), List.eraseDups_append, hremove]
    rfl

theorem nodup_eraseDups (names : List String) : names.eraseDups.Nodup := by
  induction hn : names.length using Nat.strongRecOn generalizing names with
  | ind n ih =>
    cases names with
    | nil => exact List.nodup_nil
    | cons x names =>
      rw [List.eraseDups_cons, List.nodup_cons]
      refine ⟨by simp, ih _ ?_ _ rfl⟩
      rw [← hn]
      exact Nat.lt_succ_of_le (List.length_filter_le _ _)

/-! ## What a table holds -/

/-- The entries of names in slots one width apart, oldest first. -/
def slots (w : Nat) (names : List String) : List Local :=
  names.mapIdx fun i x => ⟨x, w * (i + 1)⟩

theorem not_named_of_mem_slots {e : Local} (hx : x ∉ names) {f : Nat → Nat}
    (he : e ∈ names.mapIdx fun i x => (⟨x, f i⟩ : Local)) : ¬ decide (e.name = x) = true := by
  obtain ⟨i, hi, rfl⟩ := List.mem_mapIdx.1 he
  simp only [decide_eq_true_eq]
  rintro rfl
  exact hx (List.getElem_mem hi)

namespace Locals

/-- The table has these names in its slots, oldest first, and each slot is `w` wide. -/
structure Holds (t : Locals) (w : Nat) (names : List String) : Prop where
  width : t.slotWidth = w
  entries : t.entries.reverse = slots w names

theorem holds_empty (w : Nat) (mode : Mode) :
    Holds { slotWidth := w, mode := mode } w [] := ⟨rfl, rfl⟩

theorem Holds.entries_eq (h : t.Holds w names) : t.entries = (slots w names).reverse := by
  rw [← h.entries, List.reverse_reverse]

theorem Holds.frameSize_eq (h : t.Holds w names) : t.frameSize = w * names.length := by
  rw [frameSize, h.entries_eq, slots, List.head?_reverse, List.getLast?_mapIdx]
  cases hn : names.getLast? with
  | none =>
    rw [List.getLast?_eq_none_iff.1 hn]
    rfl
  | some x =>
    obtain ⟨u, rfl⟩ := List.getLast?_eq_some_iff.1 hn
    simp

theorem Holds.insert (h : t.Holds w names) (x : String) : (t.insert x).Holds w (names ++ [x]) := by
  have hnext : t.nextOffset = w * (names.length + 1) := by
    rw [nextOffset, h.frameSize_eq, h.width, Nat.mul_succ]
  refine ⟨h.width, ?_⟩
  rw [Locals.insert, List.reverse_cons, h.entries, hnext, slots, slots, List.mapIdx_concat]

/-- Gives each of some names the next slot, in order. -/
def insertAll (t : Locals) (names : List String) : Locals := names.foldl Locals.insert t

@[simp] theorem insertAll_nil (t : Locals) : t.insertAll [] = t := rfl

@[simp] theorem insertAll_cons (t : Locals) (x : String) (xs : List String) :
    t.insertAll (x :: xs) = (t.insert x).insertAll xs := rfl

theorem Holds.insertAll (h : t.Holds w names) (xs : List String) :
    (t.insertAll xs).Holds w (names ++ xs) := by
  induction xs generalizing t names with
  | nil => rwa [List.append_nil]
  | cons x xs ih =>
    rw [← List.singleton_append, ← List.append_assoc]
    exact ih (h.insert x)

theorem Holds.lookup?_of_not_mem (h : t.Holds w names) (hx : x ∉ names) : t.lookup? x = none := by
  rw [lookup?, h.entries_eq, List.find?_eq_none.2, Option.map_none]
  exact fun e he => not_named_of_mem_slots hx (List.mem_reverse.1 he)

/-- **A name is found where it stands last.** -/
theorem Holds.lookup?_of_mem (h : t.Holds w names) (hx : x ∈ names) :
    t.lookup? x = some (w * lastRank x names) := by
  obtain ⟨u, v, rfl, hv⟩ := exists_last_of_mem hx
  rw [lookup?, h.entries_eq, lastRank_append_cons hv, slots, List.mapIdx_append,
    List.reverse_append, List.find?_append, List.mapIdx_cons, List.reverse_cons,
    List.find?_append, List.find?_eq_none.2, Option.none_or]
  · simp
  · exact fun e he => not_named_of_mem_slots hv (List.mem_reverse.1 he)

theorem Holds.slot_of_mem (h : t.Holds w names) (hx : x ∈ names) :
    t.slot x = w * lastRank x names := by
  rw [slot, h.lookup?_of_mem hx, Option.getD_some]

theorem Holds.declare (h : t.Holds w names) (x : String) :
    (t.declare x).Holds w (if x ∈ names then names else names ++ [x]) := by
  by_cases hx : x ∈ names
  · rw [if_pos hx, declare_of_lookup? (h.lookup?_of_mem hx)]
    exact h
  · rw [if_neg hx, Locals.declare, h.lookup?_of_not_mem hx]
    exact h.insert x

/-- Declaring adds the names that are new, in the order in which they come first. -/
theorem Holds.declareTokens (h : t.Holds w names.eraseDups) (ts : List Token) :
    (t.declareTokens ts).Holds w (names ++ namesOf ts).eraseDups := by
  induction ts generalizing t names with
  | nil => simpa using h
  | cons a ts ih =>
    rw [declareTokens_cons]
    by_cases ha : a.cls = .ident
    · rw [declareToken_of_ident ha, namesOf_cons_of_ident ha, ← List.singleton_append,
        ← List.append_assoc]
      refine ih ?_
      rw [eraseDups_concat]
      exact h.declare a.text
    · rw [declareToken_of_ne_ident ha, namesOf_cons_of_ne_ident ha]
      exact ih h

theorem registerTokens_of_shadowing (hmode : t.mode = .shadowing) (ts : List Token) :
    t.registerTokens ts = t.insertAll (namesOf ts) := by
  induction ts generalizing t with
  | nil => rfl
  | cons a ts ih =>
    rw [registerTokens_cons]
    by_cases ha : a.cls = .ident
    · have hregister : t.register a.text = t.insert a.text := by rw [register, hmode]
      rw [registerToken_of_ident ha, hregister, namesOf_cons_of_ident ha, insertAll_cons]
      exact ih hmode
    · rw [registerToken_of_ne_ident ha, namesOf_cons_of_ne_ident ha]
      exact ih hmode

end Locals

/-! ## Whole compilations -/

/-- The names that the table of a compilation holds: each name once, in the order in which they come
first, unless every token was registered with a slot of its own. -/
def Config.heldNames (config : Config) (names : List String) : List String :=
  if config.eager = true ∧ config.mode = .shadowing then names else names.eraseDups

theorem mem_heldNames {config : Config} : x ∈ config.heldNames names ↔ x ∈ names := by
  unfold Config.heldNames
  split
  · exact Iff.rfl
  · exact List.mem_eraseDups

/-- **The names that the table of a compilation holds.** -/
theorem tableOf_holds (config : Config) (ts : List Token) :
    (config.tableOf ts).Holds config.slotWidth (config.heldNames (namesOf ts)) := by
  have hempty : config.locals.Holds config.slotWidth ([] : List String).eraseDups :=
    Locals.holds_empty _ _
  have hdeclared : (config.locals.declareTokens ts).Holds config.slotWidth (namesOf ts).eraseDups :=
    hempty.declareTokens ts
  unfold Config.heldNames
  split
  case isTrue h =>
    have hregistered : (config.locals.registerTokens ts).Holds config.slotWidth (namesOf ts) := by
      rw [Locals.registerTokens_of_shadowing h.2]
      exact hempty.insertAll (namesOf ts)
    -- the parser finds every name that was registered, so it adds none
    have hknown : (config.locals.registerTokens ts).declareTokens ts = _ :=
      Locals.declareTokens_of_known fun a ha hi => ⟨_, hregistered.lookup?_of_mem <| by
        exact List.mem_filterMap.2 ⟨a, ha, Token.name?_of_ident hi⟩⟩
    rw [Config.tableOf, if_pos h.1, hknown]
    exact hregistered
  case isFalse h =>
    cases heager : config.eager with
    | false =>
      rw [tableOf_of_lazy config ts heager]
      exact hdeclared
    | true =>
      have hmode : config.mode = .unique := by
        cases hm : config.mode with
        | unique => rfl
        | shadowing => exact absurd ⟨heager, hm⟩ h
      rw [tableOf_of_unique config ts hmode]
      exact hdeclared

/-! ## Offsets in the trees -/

section

variable {body : List Token} {es : List (Node String)}

/-- **The frame ends with the largest offset in the trees.** -/
theorem DerivesProgram.frameSize_eq_max (h : DerivesProgram body es) (ht : t.Holds w names)
    (hnames : ∀ x, x ∈ names ↔ x ∈ namesOf body) :
    t.frameSize = ((es.map (Node.map t.slot)).flatMap Node.vars).max?.getD 0 := by
  rw [ht.frameSize_eq, Node.flatMap_vars_map]
  have hvars : ∀ x, x ∈ es.flatMap Node.vars ↔ x ∈ names := fun x => by
    rw [h.mem_vars_iff, hnames]
  cases hlast : names.getLast? with
  | none =>
    obtain rfl := List.getLast?_eq_none_iff.1 hlast
    have hnil : es.flatMap Node.vars = [] :=
      List.eq_nil_iff_forall_not_mem.2 fun x hx => List.not_mem_nil ((hvars x).1 hx)
    rw [hnil]
    rfl
  | some x =>
    obtain ⟨u, rfl⟩ := List.getLast?_eq_some_iff.1 hlast
    have hmax : ((es.flatMap Node.vars).map t.slot).max? = some (w * (u ++ [x]).length) := by
      rw [List.max?_eq_some_iff]
      constructor
      · -- the last name has the last slot
        have hslot : t.slot x = w * (u ++ [x]).length := by
          rw [ht.slot_of_mem (by simp), lastRank_append_cons List.not_mem_nil, List.length_append]
          rfl
        exact List.mem_map.2 ⟨x, (hvars x).2 (by simp), hslot⟩
      · intro offset hoffset
        obtain ⟨y, hy, rfl⟩ := List.mem_map.1 hoffset
        rw [ht.slot_of_mem ((hvars y).1 hy)]
        exact Nat.mul_le_mul_left w (lastRank_le_length y _)
    rw [hmax, Option.getD_some]

end

/-- **The frame is a function of the names of the source in order.**  If each name has one slot, the
table holds the names in the order in which they come first, and a variable has the place of its
name in that list.  If every occurrence is registered with a slot of its own, the table holds all
occurrences, a variable has the place where its name stands last, and the trees are those of a late
registration with other offsets.  The frame ends with the last slot, and with the largest offset in
the trees. -/
theorem compile_layout (config : Config) (source : String) (program : Program) (locals : Locals)
    (h : compile config source = .ok (program, locals)) :
    ∃ body es, tokenize source = .ok (body ++ [.eofAt source.utf8ByteSize]) ∧
      DerivesProgram body es ∧
      let names := namesOf body
      let w := config.slotWidth
      let byFirst := fun x => w * (names.eraseDups.idxOf x + 1)
      let byLast := fun x => w * lastRank x names
      (config.eager = false ∨ config.mode = .unique →
        locals.entries.reverse = slots w names.eraseDups ∧
        program.stmts = es.map (Node.map byFirst) ∧
        program.frameSize = w * names.eraseDups.length) ∧
      (config.eager = true → config.mode = .shadowing →
        locals.entries.reverse = slots w names ∧
        program.stmts = es.map (Node.map byLast) ∧
        program.frameSize = w * names.length ∧
        ∃ plain, compile { config with eager := false } source = .ok plain ∧
          plain.1.stmts = es.map (Node.map byFirst)) ∧
      program.frameSize = (program.stmts.flatMap Node.vars).max?.getD 0 := by
  rcases compile_cases source config.maxDepth with
    ⟨e, -, he⟩ | ⟨body, -, htokens, ⟨t, -, r, -, he⟩ | ⟨es, hes, hall⟩⟩
  · rw [he config rfl] at h
    cases h
  · rw [he config rfl] at h
    cases h
  obtain ⟨rfl, rfl⟩ := Prod.mk.inj (Except.ok.inj (h.symm.trans (hall config rfl)))
  have hfirst : ∀ c : Config, c.heldNames (namesOf body) = (namesOf body).eraseDups →
      es.map (Node.map (c.tableOf body).slot) =
        es.map (Node.map fun x => c.slotWidth * ((namesOf body).eraseDups.idxOf x + 1)) := by
    intro c hc
    have hholds := tableOf_holds c body
    rw [hc] at hholds
    refine hes.map_congr fun x hx => ?_
    rw [← List.mem_eraseDups] at hx
    rw [hholds.slot_of_mem hx, lastRank_of_nodup (nodup_eraseDups _) hx]
  have hholds := tableOf_holds config body
  refine ⟨body, es, htokens, hes, fun hone => ?_, fun heager hmode => ?_, ?_⟩
  · have hheld : config.heldNames (namesOf body) = (namesOf body).eraseDups :=
      if_neg fun hboth => by rcases hone with hone | hone <;> simp_all
    rw [hheld] at hholds
    exact ⟨hholds.entries, hfirst config hheld, hholds.frameSize_eq⟩
  · have hheld : config.heldNames (namesOf body) = namesOf body := if_pos ⟨heager, hmode⟩
    rw [hheld] at hholds
    refine ⟨hholds.entries, hes.map_congr fun x hx => hholds.slot_of_mem hx, hholds.frameSize_eq, _,
      hall { config with eager := false } rfl, ?_⟩
    exact hfirst { config with eager := false } (if_neg fun hboth => by cases hboth.1)
  · exact hes.frameSize_eq_max hholds fun x => mem_heldNames

/-- The source `a = b; a > 1;`, where the first variable already has the slot of its last
occurrence. -/
theorem compile_layout_of_shadowing :
    let config : Config := { eager := true, mode := .shadowing }
    let program : Program :=
      ⟨[.stmt (.assign (.var 24) (.var 16)), .stmt (.binary .lt (.num 1) (.var 24))], 24⟩
    let locals : Locals := { mode := .shadowing, entries := [⟨"a", 24⟩, ⟨"b", 16⟩, ⟨"a", 8⟩] }
    compile config "a = b; a > 1;" = .ok (program, locals) ∧
      ∃ body, tokenize "a = b; a > 1;" = .ok (body ++ [.eofAt 13]) ∧
        locals.entries.reverse = slots 8 (namesOf body) ∧
        program.frameSize = 8 * (namesOf body).length ∧
        program.frameSize = (program.stmts.flatMap Node.vars).max?.getD 0 := by
  intro config program locals
  have h : compile config "a = b; a > 1;" = .ok (program, locals) := by with_unfolding_all rfl
  obtain ⟨body, es, htokens, -, -, hlast, hmax⟩ := compile_layout config _ program locals h
  obtain ⟨hentries, -, hframe, -⟩ := hlast rfl rfl
  exact ⟨h, body, htokens, hentries, hframe, hmax⟩

end FrameLang

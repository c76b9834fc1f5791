import FrameLang.Proofs.Layout

/-!
# Tables in use

A table is filled by hand, by reading sources and by parsing tokens, one after the other and in any
order, and a reading or a parse may stop half way.  Whatever is done, the table only grows, and it
grows by insertions.

* `Locals.AllNew`: none of some names is there when its turn comes to be inserted.
* `Use`, `Locals.use`, `Locals.useAll`: what can be done to a table.
* `exists_useAll_eq_insertAll`: the names that a run of uses inserts.  Where each name has one slot
  and nothing is inserted by hand, all of them are new.
* `useAll_layout`: what the table looks like at every moment of a run, and that an entry stays.
-/

namespace FrameLang

namespace Locals

/-! ## Insertions -/

/-- None of the names is in the table when its turn comes to be inserted. -/
def AllNew (t : Locals) : List String → Prop
  | [] => True
  | x :: xs => t.lookup? x = none ∧ (t.insert x).AllNew xs

variable {t : Locals} {w : Nat} {names xs ys : List String} {ts : List Token}

theorem insertAll_append (t : Locals) (xs ys : List String) :
    t.insertAll (xs ++ ys) = (t.insertAll xs).insertAll ys := List.foldl_append

theorem mode_insertAll (t : Locals) (xs : List String) : (t.insertAll xs).mode = t.mode := by
  induction xs generalizing t with
  | nil => rfl
  | cons x xs ih => exact ih (t.insert x)

theorem AllNew.append (h : t.AllNew xs) (h' : (t.insertAll xs).AllNew ys) :
    t.AllNew (xs ++ ys) := by
  induction xs generalizing t with
  | nil => exact h'
  | cons x xs ih => exact ⟨h.1, ih h.2 h'⟩

theorem Holds.nodup_append (h : t.Holds w names) (hnames : names.Nodup) (hxs : t.AllNew xs) :
    (names ++ xs).Nodup := by
  induction xs generalizing t names with
  | nil => rwa [List.append_nil]
  | cons x xs ih =>
    have hnone : t.lookup? x = none := hxs.1
    have hx : x ∉ names := fun hmem => by
      rw [h.lookup?_of_mem hmem] at hnone
      cases hnone
    rw [← List.singleton_append, ← List.append_assoc]
    refine ih (h.insert x) ?_ hxs.2
    rw [List.nodup_append]
    refine ⟨hnames, by simp, fun y hy z hz => ?_⟩
    rintro rfl
    exact hx (List.mem_singleton.1 hz ▸ hy)

/-! ## Declaring and registering are insertions -/

theorem exists_declare_eq_insertAll (t : Locals) (x : String) :
    ∃ xs, t.declare x = t.insertAll xs ∧ t.AllNew xs := by
  cases hx : t.lookup? x with
  | some offset => exact ⟨[], declare_of_lookup? hx, trivial⟩
  | none =>
    refine ⟨[x], ?_, hx, trivial⟩
    rw [declare, hx]
    rfl

theorem exists_declareTokens_eq_insertAll (t : Locals) (ts : List Token) :
    ∃ xs, t.declareTokens ts = t.insertAll xs ∧ t.AllNew xs := by
  induction ts generalizing t with
  | nil => exact ⟨[], rfl, trivial⟩
  | cons a ts ih =>
    rw [declareTokens_cons]
    by_cases ha : a.cls = .ident
    · obtain ⟨xs, hxs, hnew⟩ := exists_declare_eq_insertAll t a.text
      obtain ⟨ys, hys, hnew'⟩ := ih (t.declare a.text)
      rw [hxs] at hys hnew'
      rw [declareToken_of_ident ha, hxs, hys]
      exact ⟨xs ++ ys, (insertAll_append t xs ys).symm, hnew.append hnew'⟩
    · rw [declareToken_of_ne_ident ha]
      exact ih t

theorem exists_registerTokens_eq_insertAll (t : Locals) (ts : List Token) :
    ∃ xs, t.registerTokens ts = t.insertAll xs ∧ (t.mode = .unique → t.AllNew xs) := by
  cases hmode : t.mode with
  | unique =>
    rw [registerTokens_of_unique hmode]
    obtain ⟨xs, hxs, hnew⟩ := exists_declareTokens_eq_insertAll t ts
    exact ⟨xs, hxs, fun _ => hnew⟩
  | shadowing => exact ⟨namesOf ts, registerTokens_of_shadowing hmode ts, nofun⟩

end Locals

/-! ## Uses -/

inductive Use
  | insert (name : String)
  | declare (name : String)
  | register (name : String)
  | lookup (name : String)
  | read (source : String)
  | parse (config : Config) (tokens : List Token)

namespace Locals

def use (t : Locals) : Use → Locals
  | .insert x => t.insert x
  | .declare x => t.declare x
  | .register x => t.register x
  | .lookup _ => t
  | .read source => (tokenizeWith source t).2
  | .parse config tokens => (parseProgram config tokens t).2

def useAll (t : Locals) (uses : List Use) : Locals := uses.foldl use t

end Locals

variable {uses : List Use} {w : Nat}

/-- A parse declares the names of the tokens before the one at which it stops, also if it fails. -/
theorem exists_parseProgram_eq_declareTokens (config : Config) (tokens : List Token)
    (t : Locals) :
    ∃ u a v, endMarked tokens = u ++ a :: v ∧
      (parseProgram config tokens t).2 = t.declareTokens u := by
  obtain ⟨u, a, v, s, hts, hr, ⟨ha, hb⟩ | ⟨r, ha, hb⟩⟩ := exists_stop tokens t config.maxDepth
  · refine ⟨u, a, v, hts, ?_⟩
    rw [parseProgram_of_reads hts hr hb ha]
    exact hr.locals_eq
  · refine ⟨u, a, v, hts, ?_⟩
    rw [parseProgram_of_refused hts hr ha hb]
    exact hr.locals_eq

/-- **Every use inserts some names**, and where each name has one slot only new ones, unless it is
an insertion by hand. -/
theorem exists_use_eq_insertAll (t : Locals) (u : Use) :
    ∃ xs, t.use u = t.insertAll xs ∧
      (t.mode = .unique → (∀ x, u ≠ .insert x) → t.AllNew xs) := by
  cases u with
  | insert x => exact ⟨[x], rfl, fun _ h => absurd rfl (h x)⟩
  | declare x =>
    obtain ⟨xs, hxs, hnew⟩ := t.exists_declare_eq_insertAll x
    exact ⟨xs, hxs, fun _ _ => hnew⟩
  | register x =>
    cases hmode : t.mode with
    | unique =>
      obtain ⟨xs, hxs, hnew⟩ := t.exists_declare_eq_insertAll x
      refine ⟨xs, ?_, fun _ _ => hnew⟩
      rw [Locals.use, Locals.register, hmode]
      exact hxs
    | shadowing =>
      refine ⟨[x], ?_, fun h => by cases h⟩
      rw [Locals.use, Locals.register, hmode]
      rfl
  | lookup x => exact ⟨[], rfl, fun _ _ => trivial⟩
  | read source =>
    obtain ⟨xs, hxs, hnew⟩ := t.exists_registerTokens_eq_insertAll (scan source).tokens
    refine ⟨xs, ?_, fun hmode _ => hnew hmode⟩
    rw [Locals.use, tokenizeWith_eq]
    exact hxs
  | parse config tokens =>
    obtain ⟨v, -, -, -, hv⟩ := exists_parseProgram_eq_declareTokens config tokens t
    obtain ⟨xs, hxs, hnew⟩ := t.exists_declareTokens_eq_insertAll v
    exact ⟨xs, hv.trans hxs, fun _ _ => hnew⟩

theorem exists_useAll_eq_insertAll (t : Locals) (uses : List Use) :
    ∃ xs, t.useAll uses = t.insertAll xs ∧
      (t.mode = .unique → (∀ x, .insert x ∉ uses) → t.AllNew xs) := by
  induction uses generalizing t with
  | nil => exact ⟨[], rfl, fun _ _ => trivial⟩
  | cons u uses ih =>
    obtain ⟨xs, hxs, hnew⟩ := exists_use_eq_insertAll t u
    obtain ⟨ys, hys, hnew'⟩ := ih (t.use u)
    rw [hxs] at hys hnew'
    refine ⟨xs ++ ys, ?_, fun hmode hinsert => ?_⟩
    · rw [Locals.insertAll_append, ← hys, ← hxs]
      rfl
    · refine (hnew hmode fun x hx => hinsert x ?_).append (hnew' ?_ fun x hx => hinsert x ?_)
      · rw [hx]
        exact List.mem_cons_self
      · rwa [Locals.mode_insertAll]
      · exact List.mem_cons_of_mem u hx

/-! ## The table at every moment -/

theorem map_name_slots (w : Nat) (names : List String) :
    (slots w names).map Local.name = names := by
  refine List.ext_getElem? fun i => ?_
  rw [List.getElem?_map, slots, List.getElem?_mapIdx]
  cases names[i]? <;> rfl

namespace Locals

variable {t : Locals} {names : List String} {e : Local} {k : Nat}

theorem Holds.getElem?_eq_some_iff (h : t.Holds w names) :
    t.entries.reverse[k]? = some e ↔ names[k]? = some e.name ∧ e.offset = w * (k + 1) := by
  obtain ⟨x, offset⟩ := e
  rw [h.entries, slots, List.getElem?_mapIdx, Option.map_eq_some_iff]
  constructor
  · rintro ⟨y, hy, he⟩
    obtain ⟨rfl, rfl⟩ := Local.mk.inj he
    exact ⟨hy, rfl⟩
  · rintro ⟨hy, rfl⟩
    exact ⟨x, hy, rfl⟩

theorem Holds.size_eq (h : t.Holds w names) : t.size = names.length := by
  rw [size, ← List.length_reverse, h.entries, slots, List.length_mapIdx]

theorem Holds.map_name_eq (h : t.Holds w names) : t.entries.reverse.map Local.name = names := by
  rw [h.entries, map_name_slots]

theorem Holds.lookup?_eq (h : t.Holds w names) (x : String) :
    t.lookup? x = if x ∈ names then some (w * lastRank x names) else none := by
  split
  case isTrue hx => exact h.lookup?_of_mem hx
  case isFalse hx => exact h.lookup?_of_not_mem hx

theorem Holds.exists_useAll (h : t.Holds w names) (uses : List Use) :
    ∃ more, (t.useAll uses).Holds w (names ++ more) ∧
      t.entries.reverse <+: (t.useAll uses).entries.reverse := by
  obtain ⟨more, hmore, -⟩ := exists_useAll_eq_insertAll t uses
  have hgrown := h.insertAll more
  rw [← hmore] at hgrown
  refine ⟨more, hgrown, ?_⟩
  rw [h.entries, hgrown.entries, slots, slots, List.mapIdx_append]
  exact List.prefix_append ..

end Locals

theorem exists_holds_useAll (w : Nat) (mode : Mode) (uses : List Use) :
    ∃ names, (Locals.useAll { slotWidth := w, mode := mode } uses).Holds w names ∧
      (mode = .unique → (∀ x, .insert x ∉ uses) → names.Nodup) := by
  have hempty := Locals.holds_empty w mode
  obtain ⟨xs, hxs, hnew⟩ := exists_useAll_eq_insertAll { slotWidth := w, mode := mode } uses
  exact ⟨xs, hxs ▸ hempty.insertAll xs, fun hmode hinsert =>
    hempty.nodup_append List.nodup_nil (hnew hmode hinsert)⟩

/-- **The table at every moment of a run.**  After `i` uses of a new table, its entries lie one
width apart in the order in which they were made, the frame ends with the last one, and a name is
found where it stands last.  The entries stay where they are from then on.  Where each name has one
slot and nothing is inserted by hand, a name has one entry in the whole run.  Slots that are not
empty do not coincide. -/
theorem useAll_layout (w : Nat) (mode : Mode) (uses : List Use) :
    let tableAt := fun i => Locals.useAll { slotWidth := w, mode := mode } (uses.take i)
    let entry? := fun i k => (tableAt i).entries.reverse[k]?
    (∀ i,
      let t := tableAt i
      let names := t.entries.reverse.map Local.name
      (∀ k e, entry? i k = some e → e.offset = w * (k + 1)) ∧
        t.frameSize = w * t.size ∧
        ∀ x, t.lookup? x = if x ∈ names then some (w * lastRank x names) else none) ∧
    (∀ i j, i ≤ j → (tableAt i).entries.reverse <+: (tableAt j).entries.reverse) ∧
    (mode = .unique → (∀ x, .insert x ∉ uses) → ∀ i j k l e e',
      entry? i k = some e → entry? j l = some e' → e.name = e'.name → k = l ∧ e = e') ∧
    (1 ≤ w → ∀ i j k l e e',
      entry? i k = some e → entry? j l = some e' → e.offset = e'.offset → k = l) := by
  intro tableAt entry?
  have hholds : ∀ i, ∃ names, (tableAt i).Holds w names ∧
      (mode = .unique → (∀ x, .insert x ∉ uses) → names.Nodup) := by
    intro i
    obtain ⟨names, hnames, hnodup⟩ := exists_holds_useAll w mode (uses.take i)
    exact ⟨names, hnames, fun hmode hinsert =>
      hnodup hmode fun x hx => hinsert x (List.mem_of_mem_take hx)⟩
  have hoffset : ∀ i k e, entry? i k = some e → e.offset = w * (k + 1) := by
    intro i k e he
    obtain ⟨names, hnames, -⟩ := hholds i
    exact (hnames.getElem?_eq_some_iff.1 he).2
  have hgrows : ∀ i j, i ≤ j → (tableAt i).entries.reverse <+: (tableAt j).entries.reverse := by
    intro i j hij
    obtain ⟨names, hnames, -⟩ := hholds i
    obtain ⟨more, -, hgrown⟩ := hnames.exists_useAll ((uses.drop i).take (j - i))
    have htake : tableAt j = (tableAt i).useAll ((uses.drop i).take (j - i)) := by
      show List.foldl _ _ _ = List.foldl _ (List.foldl _ _ _) _
      rw [← List.foldl_append, ← List.take_add, Nat.add_sub_cancel' hij]
    rwa [htake]
  refine ⟨fun i => ⟨hoffset i, ?_, fun x => ?_⟩, hgrows, ?_, ?_⟩
  · obtain ⟨names, hnames, -⟩ := hholds i
    rw [hnames.frameSize_eq, hnames.size_eq]
  · obtain ⟨names, hnames, -⟩ := hholds i
    rw [hnames.map_name_eq, hnames.lookup?_eq]
  · intro hmode hinsert i j k l e e' he he' hname
    -- both entries are still there at the later moment
    obtain ⟨names, hnames, hnodup⟩ := hholds (max i j)
    have hlater : ∀ i' k e, i' ≤ max i j → entry? i' k = some e →
        names[k]? = some e.name ∧ e.offset = w * (k + 1) := by
      intro i' k e hle he
      obtain ⟨hlt, rfl⟩ := List.getElem?_eq_some_iff.1 he
      exact hnames.getElem?_eq_some_iff.1 (List.prefix_iff_getElem?.1 (hgrows i' _ hle) k hlt)
    obtain ⟨hk, hek⟩ := hlater i k e (Nat.le_max_left i j) he
    obtain ⟨hl, hel⟩ := hlater j l e' (Nat.le_max_right i j) he'
    have hkl : k = l := by
      have hlt : k < names.length := (List.getElem?_eq_some_iff.1 hk).1
      exact (List.getElem?_inj hlt (hnodup hmode hinsert)).1 (by rw [hk, hl, hname])
    subst hkl
    obtain ⟨x, offset⟩ := e
    obtain ⟨x', offset'⟩ := e'
    exact ⟨rfl, by rw [Local.mk.injEq]; exact ⟨hname, hek.trans hel.symm⟩⟩
  · intro hw i j k l e e' he he' heq
    rw [hoffset i k e he, hoffset j l e' he'] at heq
    have := Nat.eq_of_mul_eq_mul_left hw heq
    omega

/-- A reading that fails at `$` and a parse that fails where its tokens end leave the names that
they have met, each once. -/
theorem useAll_layout_of_failures :
    let uses : List Use := [.declare "a", .read "b $",
      .parse {} [⟨.ident, "c", 0⟩, ⟨.punct .plus, "+", 1⟩, ⟨.ident, "a", 2⟩], .register "b"]
    let t := Locals.useAll { slotWidth := 8, mode := .unique } uses
    t.entries.reverse = [⟨"a", 8⟩, ⟨"b", 16⟩, ⟨"c", 24⟩] ∧ t.frameSize = 8 * t.size ∧
      t.lookup? "b" = some (8 * lastRank "b" ["a", "b", "c"]) ∧
      ∀ (k l : Nat) (e e' : Local), t.entries.reverse[k]? = some e →
        t.entries.reverse[l]? = some e' → e.name = e'.name → k = l := by
  intro uses t
  have hentries : t.entries.reverse = [⟨"a", 8⟩, ⟨"b", 16⟩, ⟨"c", 24⟩] := by with_unfolding_all rfl
  have hinsert : ∀ x, Use.insert x ∉ uses := by simp [uses]
  obtain ⟨hnow, -, honce, -⟩ := useAll_layout 8 .unique uses
  obtain ⟨-, hframe, hlookup⟩ := hnow 4
  refine ⟨hentries, hframe, (hlookup "b").trans ?_, fun k l e e' he he' hname => ?_⟩
  · rw [show (Locals.useAll _ (uses.take 4)).entries.reverse = _ from hentries]
    rfl
  · exact (honce rfl hinsert 4 4 k l e e' he he' hname).1

end FrameLang

import FrameLang.Proofs.Allocation
import FrameLang.Proofs.Sessions

/-!
# What identifiers are resolved to

An identifier is resolved as soon as it is read, while names that come later are not in the table
yet.  It keeps its slot, so all identifiers of one text have one slot, whichever statements or calls
they are read in.

* `State.vars`: the variables of all trees that a machine holds, finished or not.
* `resolutions`: the identifiers that a run reads, with what stands for each of them in the trees.
* `Takes.vars_perm`, `Reads.vars_perm`: nothing else becomes a variable of the trees.
* `Parser.resolvedBy`: the identifiers that are read by some uses of a parser.
* `Parser.lookup?_of_mem_resolvedBy`: the table that is left has them where they were resolved to.
* `resolutions_consistent`: what this means for a table whose slots are one width apart.
-/

namespace FrameLang

section

variable {ν : Type} {resolve : Locals → String → ν} {room : Nat} {s s' : State ν} {t : Token}
  {u ts : List Token}

/-! ## Variables in a machine -/

def Unfinished.vars : Unfinished ν → List ν
  | binary _ first => first.vars
  | assign target => target.vars
  | group _ => []

def Phase.vars : Phase ν → List ν
  | operand _ => []
  | operator e => e.vars

/-- The variables of all trees that a machine holds, innermost first. -/
def State.vars (s : State ν) : List ν :=
  s.phase.vars ++ s.stack.flatMap Unfinished.vars ++ s.done.flatMap Node.vars

theorem vars_signed (sign : Option Sign) (e : Node ν) : (signed sign e).vars = e.vars := by
  cases sign with
  | none => rfl
  | some sign => cases sign <;> rfl

theorem vars_reduce (k : Nat) (stack : List (Unfinished ν)) (e : Node ν) :
    ((reduce k stack e).2.vars ++ (reduce k stack e).1.flatMap Unfinished.vars).Perm
      (e.vars ++ stack.flatMap Unfinished.vars) := by
  fun_induction reduce k stack e with
  | case1 e o first stack h ih =>
    -- an operator may turn its operands around
    rw [List.flatMap_cons, ← List.append_assoc]
    exact ih.trans (((Node.vars_apply _ _ _).trans List.perm_append_comm).append_right _)
  | case2 => exact .refl _
  | case3 => exact .refl _

theorem vars_collapse (stack : List (Unfinished ν)) (e : Node ν) :
    ((collapse stack e).2.vars ++ (collapse stack e).1.flatMap Unfinished.vars).Perm
      (e.vars ++ stack.flatMap Unfinished.vars) := by
  fun_induction collapse stack e with
  | case1 e o first stack ih =>
    rw [List.flatMap_cons, ← List.append_assoc]
    exact ih.trans (((Node.vars_apply _ _ _).trans List.perm_append_comm).append_right _)
  | case2 e target stack ih =>
    rw [List.flatMap_cons, ← List.append_assoc]
    exact ih.trans (List.perm_append_comm.append_right _)
  | case3 => exact .refl _

/-! ## Resolutions -/

/-- The token with what stands for it in the trees, if it is an identifier. -/
def State.resolution (resolve : Locals → String → ν) (s : State ν) (t : Token) : List (Token × ν) :=
  (t.name?.map fun name => (t, resolve s.locals name)).toList

def resolutions (resolve : Locals → String → ν) (room : Nat) :
    State ν → List Token → List (Token × ν)
  | _, [] => []
  | s, t :: ts =>
    match s.step resolve room t with
    | .ok s' => s.resolution resolve t ++ resolutions resolve room s' ts
    | .error _ => []

namespace State

theorem resolution_of_ident (s : State ν) (h : t.cls = .ident) :
    s.resolution resolve t = [(t, resolve s.locals t.text)] := by
  rw [resolution, Token.name?_of_ident h]
  rfl

theorem resolution_of_ne_ident (s : State ν) (h : t.cls ≠ .ident) :
    s.resolution resolve t = [] := by
  rw [resolution, Token.name?_of_ne_ident h]
  rfl

theorem resolution_of_punct {p : Punct} (s : State ν) (h : t.cls = .punct p) :
    s.resolution resolve t = [] := s.resolution_of_ne_ident (by rw [h]; nofun)

theorem map_fst_resolution (s : State ν) (t : Token) :
    (s.resolution resolve t).map Prod.fst = [t].filter (·.cls = .ident) := by
  by_cases h : t.cls = .ident
  · rw [resolution_of_ident s h, List.filter_cons_of_pos (by simpa using h)]
    rfl
  · rw [resolution_of_ne_ident s h, List.filter_cons_of_neg (by simpa using h)]
    rfl

end State

/-- **A token adds one variable if it is an identifier, and no other.** -/
theorem Takes.vars_perm (h : Takes resolve s t s') :
    s'.vars.Perm ((s.resolution resolve t).map Prod.snd ++ s.vars) := by
  cases h with
  | plus hs ht | minus hs ht =>
    rw [s.resolution_of_punct ht, State.vars, State.vars, hs]
    exact .refl _
  | literal hs ht =>
    rw [s.resolution_of_ne_ident (by rw [ht]; nofun)]
    simp only [State.vars, Phase.vars, vars_signed, hs]
    exact .refl _
  | name hs ht =>
    rw [s.resolution_of_ident ht]
    simp only [State.vars, Phase.vars, vars_signed, hs]
    exact .refl _
  | openGroup hs ht =>
    rw [s.resolution_of_punct ht, State.vars, State.vars, hs]
    exact .refl _
  | @assign e _ _ hs ht hr =>
    have hreduce := vars_reduce 0 s.stack e
    rw [hr] at hreduce
    rw [s.resolution_of_punct ht, State.vars, State.vars, hs]
    exact hreduce.append_right _
  | @operator e _ o _ hs ht hr =>
    have hreduce := vars_reduce o.level s.stack e
    rw [hr] at hreduce
    have hne : t.cls ≠ .ident := by
      intro hi
      rw [hi] at ht
      cases ht
    rw [s.resolution_of_ne_ident hne, State.vars, State.vars, hs]
    exact hreduce.append_right _
  | @closeGroup e _ _ _ hs ht hc =>
    have hcollapse := vars_collapse s.stack e
    rw [hc] at hcollapse
    rw [s.resolution_of_punct ht]
    simp only [State.vars, Phase.vars, vars_signed, hs]
    exact hcollapse.append_right _
  | @finish e _ hs ht hc =>
    have hcollapse := vars_collapse s.stack e
    rw [hc, List.flatMap_nil, List.append_nil] at hcollapse
    rw [s.resolution_of_punct ht, State.vars, State.vars, hs]
    exact hcollapse.append_right _

namespace Reads

theorem resolutions_append (h : Reads resolve room s u s') (ts : List Token) :
    resolutions resolve room s (u ++ ts) =
      resolutions resolve room s u ++ resolutions resolve room s' ts := by
  induction h with
  | nil => rfl
  | cons ht hroom _ ih =>
    rw [List.cons_append, resolutions, resolutions, State.step_eq_ok_iff.2 ⟨ht, hroom⟩]
    dsimp only
    rw [ih, List.append_assoc]

theorem map_fst_resolutions (h : Reads resolve room s u s') :
    (resolutions resolve room s u).map Prod.fst = u.filter (·.cls = .ident) := by
  induction h with
  | nil => rfl
  | @cons s _ _ t ts ht hroom _ ih =>
    rw [resolutions, State.step_eq_ok_iff.2 ⟨ht, hroom⟩]
    dsimp only
    rw [List.map_append, ih, s.map_fst_resolution, ← List.filter_append, List.singleton_append]

/-- **The variables in the trees are what the identifiers are resolved to.** -/
theorem vars_perm (h : Reads resolve room s u s') :
    s'.vars.Perm ((resolutions resolve room s u).map Prod.snd ++ s.vars) := by
  induction h with
  | nil => exact .refl _
  | @cons s s₁ _ t ts ht hroom _ ih =>
    rw [resolutions, State.step_eq_ok_iff.2 ⟨ht, hroom⟩]
    dsimp only
    rw [List.map_append]
    refine ih.trans ((ht.vars_perm.append_left _).trans ?_)
    rw [← List.append_assoc]
    exact List.perm_append_comm.append_right _

end Reads

end

/-! ## Slots -/

/-- **An identifier keeps the slot that it was resolved to.** -/
theorem Reads.lookup?_of_mem {room : Nat} {s s' : State Nat} {u : List Token} {a : Token × Nat}
    (h : Reads Locals.slot room s u s') (ha : a ∈ resolutions Locals.slot room s u) :
    a.1.cls = .ident ∧ s'.locals.lookup? a.1.text = some a.2 := by
  induction h with
  | nil => cases ha
  | @cons s s₁ s' t ts ht hroom hts ih =>
    rw [resolutions, State.step_eq_ok_iff.2 ⟨ht, hroom⟩] at ha
    rcases List.mem_append.1 ha with ha | ha
    · by_cases hi : t.cls = .ident
      · rw [s.resolution_of_ident hi] at ha
        obtain rfl := List.mem_singleton.1 ha
        refine ⟨hi, ?_⟩
        -- the slot that is answered is the one that is declared, and later names leave it there
        rw [hts.locals_eq]
        refine Locals.extends_declareTokens _ ts _ _ ?_
        rw [ht.locals_eq, Locals.declareToken_of_ident hi]
        exact Locals.lookup?_declare_self _ _
      · rw [s.resolution_of_ne_ident hi] at ha
        cases ha
    · exact ih ha

/-! ## Calls -/

namespace Parser

variable {p : Parser} {a : Token × Nat} {w : Nat} {names : List String}

/-- The identifiers that the next call reads, with the slots that they are resolved to. -/
def nextResolutions (p : Parser) : List (Token × Nat) :=
  resolutions Locals.slot p.room (.initial p.locals) p.pending

/-- The identifiers that are read by some uses, with the slots that they are resolved to. -/
def resolvedBy (p : Parser) : List Call → List (Token × Nat)
  | [] => []
  | .parse :: calls => p.nextResolutions ++ (p.next .parse).resolvedBy calls
  | .limit n :: calls => (p.next (.limit n)).resolvedBy calls

theorem reads_nextRun (p : Parser) :
    Reads Locals.slot p.room (.initial p.locals) (p.pending.take p.stopIndex) p.nextRun.state ∧
      p.nextResolutions =
        resolutions Locals.slot p.room (.initial p.locals) (p.pending.take p.stopIndex) ∧
      (p.nextRun.refusal? = none → p.nextRun.state.betweenStatements = true) := by
  obtain ⟨u, s, hu, ⟨hpending, hrun⟩ | ⟨t, rest, r, hpending, ht, hrun⟩⟩ :=
    exists_reads_of_run Locals.slot p.room (.initial p.locals) p.pending
  · have htake : p.pending.take p.stopIndex = u := by
      rw [stopIndex, nextRun, hrun, List.length_nil, Nat.sub_zero, List.take_length, hpending]
    rw [htake, nextRun, hrun, nextResolutions, hpending]
    refine ⟨hu, rfl, fun hnone => ?_⟩
    cases hb : s.betweenStatements with
    | true => rfl
    | false =>
      dsimp only at hnone
      rw [hb] at hnone
      cases hnone
  · have htake : p.pending.take p.stopIndex = u := by
      rw [stopIndex, nextRun, hrun, hpending, List.length_append, Nat.add_sub_cancel,
        List.take_left]
    rw [htake, nextRun, hrun, nextResolutions, hpending, hu.resolutions_append, resolutions, ht]
    exact ⟨hu, List.append_nil _, fun hnone => by cases hnone⟩

theorem locals_parse (p : Parser) : p.parse.2.locals = p.nextRun.state.locals := by
  unfold parse
  dsimp only
  split <;> rfl

theorem parse_eq_ok {program : Program} (h : p.parse.1 = .ok program) :
    p.nextRun.refusal? = none ∧
      program = ⟨p.nextRun.state.done.reverse, p.nextRun.state.locals.frameSize⟩ := by
  unfold parse at h
  dsimp only at h
  split at h
  case h_1 hnone => exact ⟨hnone, (Except.ok.inj h).symm⟩
  case h_2 => cases h

theorem lookup?_of_mem_nextResolutions (ha : a ∈ p.nextResolutions) :
    a.1.cls = .ident ∧ p.parse.2.locals.lookup? a.1.text = some a.2 := by
  obtain ⟨hreads, hresolutions, -⟩ := p.reads_nextRun
  rw [hresolutions] at ha
  rw [locals_parse]
  exact hreads.lookup?_of_mem ha

/-- A call that succeeds resolves all identifiers that are pending, to the slots that they have in
the table that is left. -/
theorem nextResolutions_of_ok {program : Program} (h : p.parse.1 = .ok program) :
    p.nextResolutions =
      (p.pending.filter (·.cls = .ident)).map fun t => (t, p.parse.2.locals.slot t.text) := by
  have hfst : p.nextResolutions.map Prod.fst = p.pending.filter (·.cls = .ident) := by
    obtain ⟨hnone, -⟩ := parse_eq_ok h
    obtain ⟨u, s, hu, ⟨hpending, -⟩ | ⟨t, rest, r, -, -, hrun⟩⟩ :=
      exists_reads_of_run Locals.slot p.room (.initial p.locals) p.pending
    · rw [nextResolutions, hpending, hu.map_fst_resolutions]
    · rw [nextRun, hrun] at hnone
      cases hnone
  rw [← hfst, List.map_map]
  refine (List.map_id _).symm.trans (List.map_congr_left fun a ha => Prod.ext rfl ?_)
  show a.2 = p.parse.2.locals.slot a.1.text
  rw [Locals.slot, (lookup?_of_mem_nextResolutions ha).2]
  rfl

theorem exists_locals_next (p : Parser) (call : Call) :
    ∃ u, (p.next call).locals = p.locals.declareTokens u := by
  cases call with
  | parse => exact ⟨_, p.locals_parse.trans p.reads_nextRun.1.locals_eq⟩
  | limit n => exact ⟨[], rfl⟩

theorem exists_locals_after (p : Parser) (calls : List Call) :
    ∃ u, (p.after calls).locals = p.locals.declareTokens u := by
  induction calls generalizing p with
  | nil => exact ⟨[], rfl⟩
  | cons call calls ih =>
    obtain ⟨u, hu⟩ := p.exists_locals_next call
    obtain ⟨v, hv⟩ := ih (p.next call)
    refine ⟨u ++ v, ?_⟩
    rw [Locals.declareTokens_append, ← hu]
    exact hv

theorem extends_after (p : Parser) (calls : List Call) :
    (p.after calls).locals.Extends p.locals := by
  obtain ⟨u, hu⟩ := p.exists_locals_after calls
  rw [hu]
  exact Locals.extends_declareTokens _ u

theorem exists_holds_after (h : p.locals.Holds w names) (calls : List Call) :
    ∃ more, (p.after calls).locals.Holds w (names ++ more) := by
  obtain ⟨u, hu⟩ := p.exists_locals_after calls
  obtain ⟨more, hmore, -⟩ := p.locals.exists_declareTokens_eq_insertAll u
  rw [hu, hmore]
  exact ⟨more, h.insertAll more⟩

/-- **The table that is left has an identifier where it was resolved to**, whenever that was. -/
theorem lookup?_of_mem_resolvedBy {calls : List Call} (ha : a ∈ p.resolvedBy calls) :
    a.1.cls = .ident ∧ (p.after calls).locals.lookup? a.1.text = some a.2 := by
  induction calls generalizing p with
  | nil => cases ha
  | cons call calls ih =>
    cases call with
    | parse =>
      rcases List.mem_append.1 ha with ha | ha
      · obtain ⟨hi, hlookup⟩ := lookup?_of_mem_nextResolutions ha
        exact ⟨hi, extends_after _ calls _ _ hlookup⟩
      · exact ih ha
    | limit n => exact ih ha

theorem resolvedBy_append (p : Parser) (earlier later : List Call) :
    p.resolvedBy (earlier ++ later) =
      p.resolvedBy earlier ++ (p.after earlier).resolvedBy later := by
  induction earlier generalizing p with
  | nil => rfl
  | cons call earlier ih =>
    cases call with
    | parse =>
      rw [List.cons_append, resolvedBy, ih, resolvedBy, List.append_assoc]
      rfl
    | limit n => exact ih _

theorem vars_perm_nextResolutions (p : Parser) :
    p.nextRun.state.vars.Perm (p.nextResolutions.map Prod.snd) ∧
      ∀ program, p.parse.1 = .ok program →
        (program.stmts.flatMap Node.vars).Perm (p.nextResolutions.map Prod.snd) := by
  obtain ⟨hreads, hresolutions, hbetween⟩ := p.reads_nextRun
  have hvars : p.nextRun.state.vars.Perm (p.nextResolutions.map Prod.snd) := by
    have hperm := hreads.vars_perm
    rw [← hresolutions] at hperm
    exact hperm.trans (.of_eq (List.append_nil _))
  refine ⟨hvars, fun program hok => ?_⟩
  obtain ⟨hnone, rfl⟩ := parse_eq_ok hok
  obtain ⟨hstack, hphase⟩ := betweenStatements_iff.1 (hbetween hnone)
  rw [State.vars, hstack, hphase] at hvars
  exact ((List.reverse_perm _).flatMap_right _).trans hvars

end Parser

/-! ## Slots one width apart -/

section

variable {t : Locals} {w : Nat} {names : List String} {x : String} {offset : Nat}

theorem filter_offset_eq_nil (names : List String) {f : Nat → Nat}
    (h : ∀ i < names.length, f i ≠ offset) :
    (names.mapIdx fun i x => (⟨x, f i⟩ : Local)).filter (·.offset = offset) = [] := by
  rw [List.filter_eq_nil_iff]
  intro e he
  obtain ⟨i, hi, rfl⟩ := List.mem_mapIdx.1 he
  simpa using h i hi

namespace Locals

theorem Holds.filter_offset (h : t.Holds w names) (hw : 1 ≤ w) (hx : t.lookup? x = some offset) :
    t.entries.filter (·.offset = offset) = [⟨x, offset⟩] := by
  rw [h.lookup?_eq] at hx
  split at hx
  case isFalse => cases hx
  case isTrue hmem =>
    obtain ⟨u, v, rfl, hv⟩ := exists_last_of_mem hmem
    obtain rfl := Option.some.inj hx
    have hne : ∀ i, i ≠ u.length → w * (i + 1) ≠ w * (u.length + 1) := fun i hi heq =>
      hi (Nat.succ.inj (Nat.eq_of_mul_eq_mul_left hw heq))
    have hbefore := filter_offset_eq_nil u fun i hi => hne i (Nat.ne_of_lt hi)
    have hafter := filter_offset_eq_nil v fun i _ => hne (i + 1 + u.length) (by omega)
    rw [h.entries_eq, List.filter_reverse, lastRank_append_cons hv, slots, List.mapIdx_append,
      List.mapIdx_cons, List.filter_append, hbefore, List.filter_cons, hafter]
    simp

theorem Holds.le_frameSize (h : t.Holds w names) (hx : t.lookup? x = some offset) :
    offset ≤ t.frameSize := by
  rw [h.lookup?_eq] at hx
  split at hx
  case isTrue =>
    obtain rfl := Option.some.inj hx
    rw [h.frameSize_eq]
    exact Nat.mul_le_mul_left w (lastRank_le_length x names)
  case isFalse => cases hx

end Locals

end

/-- **Identifiers are resolved consistently.**  Over a table with slots one width apart, where a
name may have several, two identifiers that are read by any uses of a parser are resolved to one
slot if they have one text, and otherwise not.  In the table that is left this slot has one entry,
with that text, and the text is found there.  Every call resolves the identifiers among the tokens
that it reads.  They are the variables of the trees that it holds at its end, and so of its program,
whose frame no variable is beyond. -/
theorem resolutions_consistent {w : Nat} {table : Locals} {names : List String} (hw : 1 ≤ w)
    (htable : table.Holds w names) (tokens : List Token) (calls : List Call) :
    let p := Parser.ofTokens tokens table
    let resolved := p.resolvedBy calls
    let final := (p.after calls).locals
    (∀ a ∈ resolved, ∀ b ∈ resolved, a.2 = b.2 ↔ a.1.text = b.1.text) ∧
    (∀ a ∈ resolved, a.1.cls = .ident ∧
      final.entries.filter (·.offset = a.2) = [⟨a.1.text, a.2⟩] ∧
      final.lookup? a.1.text = some a.2) ∧
    ∀ earlier later, calls = earlier ++ .parse :: later →
      let q := p.after earlier
      resolved = p.resolvedBy earlier ++ (q.nextResolutions ++ (q.next .parse).resolvedBy later) ∧
      q.nextResolutions.map Prod.fst = (q.pending.take q.stopIndex).filter (·.cls = .ident) ∧
      q.nextRun.state.vars.Perm (q.nextResolutions.map Prod.snd) ∧
      ∀ program, q.parse.1 = .ok program →
        (program.stmts.flatMap Node.vars).Perm (q.nextResolutions.map Prod.snd) ∧
        ∀ offset ∈ program.stmts.flatMap Node.vars, offset ≤ program.frameSize := by
  intro p resolved final
  obtain ⟨more, hfinal⟩ := Parser.exists_holds_after (p := p) htable calls
  have hentry : ∀ a ∈ resolved, a.1.cls = .ident ∧
      final.entries.filter (·.offset = a.2) = [⟨a.1.text, a.2⟩] ∧
      final.lookup? a.1.text = some a.2 := by
    intro a ha
    obtain ⟨hi, hlookup⟩ := Parser.lookup?_of_mem_resolvedBy ha
    exact ⟨hi, hfinal.filter_offset hw hlookup, hlookup⟩
  refine ⟨fun a ha b hb => ⟨fun hoffset => ?_, fun htext => ?_⟩, hentry, ?_⟩
  · obtain ⟨-, hfilter, -⟩ := hentry a ha
    obtain ⟨-, hfilter', -⟩ := hentry b hb
    rw [hoffset, hfilter'] at hfilter
    exact (Local.mk.inj (List.cons.inj hfilter).1).1.symm
  · obtain ⟨-, -, hlookup⟩ := hentry a ha
    obtain ⟨-, -, hlookup'⟩ := hentry b hb
    rw [htext, hlookup'] at hlookup
    exact (Option.some.inj hlookup).symm
  · rintro earlier later rfl
    obtain ⟨hvars, hprogram⟩ := (p.after earlier).vars_perm_nextResolutions
    refine ⟨p.resolvedBy_append earlier _, ?_, hvars, fun program hok => ⟨hprogram program hok, ?_⟩⟩
    · obtain ⟨hreads, hresolutions, -⟩ := (p.after earlier).reads_nextRun
      rw [hresolutions, hreads.map_fst_resolutions]
    · intro offset hoffset
      obtain ⟨a, ha, rfl⟩ := List.mem_map.1 ((hprogram program hok).mem_iff.1 hoffset)
      obtain ⟨-, hlookup⟩ := Parser.lookup?_of_mem_nextResolutions ha
      obtain ⟨more', hq⟩ := Parser.exists_holds_after (p := p) htable earlier
      obtain ⟨more'', hq'⟩ := Parser.exists_holds_after hq [.parse]
      rw [(Parser.parse_leaves _).2.2.2.2.2 program hok |>.2.2]
      exact hq'.le_frameSize hlookup

/-- A name with two slots, one with one, and a new one, in a call that fails at `b` and in a second
one that goes on there. -/
theorem resolutions_consistent_of_two_calls :
    let table : Locals := { entries := [⟨"a", 24⟩, ⟨"b", 16⟩, ⟨"a", 8⟩] }
    let tokens : List Token := [⟨.ident, "a", 0⟩, ⟨.punct .assign, "=", 1⟩, ⟨.ident, "c", 2⟩,
      ⟨.punct .semicolon, ";", 3⟩, ⟨.ident, "c", 4⟩, ⟨.ident, "b", 6⟩, ⟨.punct .semicolon, ";", 7⟩,
      ⟨.ident, "c", 8⟩, ⟨.punct .semicolon, ";", 9⟩]
    let p := Parser.ofTokens tokens table
    let resolved := p.resolvedBy [.parse, .parse]
    let final := (p.after [.parse, .parse]).locals
    let program : Program := ⟨[.stmt (.var 16), .stmt (.var 32)], 32⟩
    table.Holds 8 ["a", "b", "a"] ∧ resolved.map Prod.snd = [24, 32, 32, 16, 32] ∧
      (∀ a ∈ resolved, ∀ b ∈ resolved, a.2 = b.2 ↔ a.1.text = b.1.text) ∧
      (∀ a ∈ resolved, final.entries.filter (·.offset = a.2) = [⟨a.1.text, a.2⟩] ∧
        final.lookup? a.1.text = some a.2) ∧
      (p.after [.parse]).parse.1 = .ok program ∧
      ∀ offset ∈ program.stmts.flatMap Node.vars, offset ≤ program.frameSize := by
  intro table tokens p resolved final program
  have htable : table.Holds 8 ["a", "b", "a"] := ⟨rfl, rfl⟩
  have hresolved : resolved.map Prod.snd = [24, 32, 32, 16, 32] := by with_unfolding_all rfl
  have hprogram : (p.after [.parse]).parse.1 = .ok program := by with_unfolding_all rfl
  obtain ⟨hiff, hentry, hcall⟩ := resolutions_consistent (by decide) htable tokens [.parse, .parse]
  obtain ⟨-, -, -, hok⟩ := hcall [.parse] [] rfl
  exact ⟨htable, hresolved, hiff, fun a ha => (hentry a ha).2, hprogram, (hok program hprogram).2⟩

end FrameLang

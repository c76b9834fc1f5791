import FrameLang.Proofs.Insertions
import FrameLang.Proofs.Options

/-!
# Offsets in words of 64 bits

A machine adds offsets as words of 64 bits.  For all widths that can be asked for, and for all
sources that are not enormous, this is the same as adding numbers.  Each entry of a table comes from
an identifier of its own, and each identifier takes at least one byte of the source.

* `Locals.Holds.of_insertAll`: the tables on the way to a table are laid out like it.
* `exists_holds_compileWith`: the table of a compilation, also of one that fails, has no more
  entries than there are identifiers.
* `Locals.insertChecked`, `Locals.insertWords`: inserting with a check, and with words.
* `compile_offsets_fit`: a compilation inserts into small tables only, so checks and words do not
  change it.
-/

namespace FrameLang

/-! ## Identifiers and bytes -/

theorem Cursor.length_scan_le (c : Cursor) : c.scan.tokens.length ≤ c.rest.length := by
  fun_induction Cursor.scan c with
  | case1 c e c' h => exact Nat.zero_le _
  | case2 c t c' h ht => exact Nat.zero_le _
  | case3 c t c' h ht hshorter s ih =>
    show c'.scan.tokens.length + 1 ≤ c.rest.length
    omega

theorem length_le_utf8Len (cs : List Char) : cs.length ≤ String.utf8Len cs := by
  induction cs with
  | nil => exact Nat.le_refl 0
  | cons c cs ih =>
    have hc := c.utf8Size_pos
    rw [List.length_cons, String.utf8Len_cons]
    omega

/-- **There are no more identifiers than bytes.** -/
theorem length_namesOf_scan_le (source : String) :
    (namesOf (scan source).tokens).length ≤ source.utf8ByteSize := by
  calc (namesOf (scan source).tokens).length
    _ ≤ (scan source).tokens.length := List.length_filterMap_le _ _
    _ ≤ source.toList.length := (Cursor.start source).length_scan_le
    _ ≤ String.utf8Len source.toList := length_le_utf8Len _
    _ = source.utf8ByteSize := String.utf8Len_toList source

/-! ## Entries and identifiers -/

namespace Locals

variable {t t' : Locals} {w : Nat} {x : String} {names xs : List String}

theorem Holds.of_insert (h : (t.insert x).Holds w names) :
    ∃ before, names = before ++ [x] ∧ t.Holds w before := by
  have hentries : t.entries.reverse ++ [⟨x, t.nextOffset⟩] = slots w names := by
    rw [← h.entries, Locals.insert, List.reverse_cons]
  cases hlast : names.getLast? with
  | none =>
    rw [List.getLast?_eq_none_iff.1 hlast] at hentries
    simp [slots] at hentries
  | some y =>
    obtain ⟨before, rfl⟩ := List.getLast?_eq_some_iff.1 hlast
    rw [slots, List.mapIdx_concat] at hentries
    obtain ⟨hbefore, hy⟩ := List.append_inj' hentries rfl
    obtain ⟨rfl, -⟩ := Local.mk.inj (List.cons.inj hy).1
    exact ⟨before, rfl, h.width, hbefore⟩

theorem Holds.of_insertAll (h : (t.insertAll xs).Holds w names) :
    ∃ before, names = before ++ xs ∧ t.Holds w before := by
  induction xs generalizing t with
  | nil => exact ⟨names, (List.append_nil names).symm, h⟩
  | cons x xs ih =>
    obtain ⟨before, rfl, hinsert⟩ := ih h
    obtain ⟨before, rfl, hbefore⟩ := hinsert.of_insert
    exact ⟨before, by rw [List.append_assoc, List.singleton_append], hbefore⟩

end Locals

theorem length_heldNames_le (config : Config) (names : List String) :
    (config.heldNames names).length ≤ names.length := by
  unfold Config.heldNames
  split
  · exact Nat.le_refl _
  · exact (nodup_eraseDups names).length_le_of_subset fun x hx => List.mem_eraseDups.1 hx

theorem leadsTo_tableOf (config : Config) (source : String) :
    (compileWith config source config.locals).2.LeadsTo
      (config.tableOf (scan source).tokens) := by
  rw [compileWith_eq, Config.tableOf]
  rcases tokenize_cases source with ⟨e, -, he⟩ | ⟨-, -, htokens⟩
  · rw [he]
    exact Locals.leadsTo_declareTokens _ _
  · rw [htokens]
    obtain ⟨u, a, w, hts, hu⟩ := exists_parseProgram_eq_declareTokens config
      ((scan source).tokens ++ [.eofAt source.utf8ByteSize])
      (config.startTable config.locals (scan source).tokens)
    rw [endMarked_concat rfl] at hts
    obtain ⟨v, huv⟩ : u <+: (scan source).tokens := by
      refine List.prefix_of_prefix_length_le ⟨a :: w, hts.symm⟩ (List.prefix_append _ _) ?_
      have := congrArg List.length hts
      simp only [List.length_append, List.length_cons, List.length_nil] at this
      omega
    generalize hstart : config.startTable config.locals (scan source).tokens = start at hu ⊢
    have htable : (if config.eager then config.locals.registerTokens (scan source).tokens
        else config.locals) = start := hstart
    dsimp only
    rw [hu, htable, ← huv, Locals.declareTokens_append]
    exact Locals.leadsTo_declareTokens _ v

/-- **The table that a compilation leaves, also on an error, has no more entries than the source has
identifiers.** -/
theorem exists_holds_compileWith (config : Config) (source : String) :
    ∃ names, (compileWith config source config.locals).2.Holds config.slotWidth names ∧
      names.length ≤ (namesOf (scan source).tokens).length := by
  obtain ⟨more, hmore⟩ := leadsTo_tableOf config source
  have hholds := tableOf_holds config (scan source).tokens
  rw [hmore] at hholds
  obtain ⟨names, hnames, hbefore⟩ := hholds.of_insertAll
  refine ⟨names, hbefore, Nat.le_trans ?_ (length_heldNames_le config _)⟩
  rw [hnames, List.length_append]
  exact Nat.le_add_right _ _

/-! ## Operations on words -/

namespace Locals

/-- Refuses to give a name a slot whose offset does not fit a word of 64 bits. -/
def insertChecked (t : Locals) (name : String) : Option Locals :=
  if t.nextOffset < UInt64.size then some (t.insert name) else none

/-- Gives a name the slot that adding words of 64 bits makes the next one. -/
def insertWords (t : Locals) (name : String) : Option Locals :=
  let offset := UInt64.ofNat t.frameSize + UInt64.ofNat t.slotWidth
  some { t with entries := ⟨name, offset.toNat⟩ :: t.entries }

variable {t : Locals} (h : t.nextOffset < UInt64.size) (x : String)
include h

theorem insertChecked_eq : t.insertChecked x = some (t.insert x) := if_pos h

theorem insertWords_eq : t.insertWords x = some (t.insert x) := by
  have hoffset : (UInt64.ofNat t.frameSize + UInt64.ofNat t.slotWidth).toNat = t.nextOffset := by
    rw [nextOffset, UInt64.size] at h
    rw [UInt64.toNat_add, UInt64.toNat_ofNat', UInt64.toNat_ofNat', nextOffset]
    omega
  rw [insertWords, hoffset]
  rfl

end Locals

/-! ## Whole compilations -/

/-- What an operation needs to do for a compilation: insert into tables with fewer entries than the
source has identifiers, all in slots one width apart. -/
theorem insertsUpTo_compileWith {config : Config} {source : String}
    {insert : Locals → String → Option Locals}
    (h : ∀ t x, t.size < (namesOf (scan source).tokens).length →
      t.nextOffset = config.slotWidth * (t.size + 1) → insert t x = some (t.insert x)) :
    InsertsUpTo insert (compileWith config source config.locals).2 := by
  rintro t x ⟨more, hmore⟩
  obtain ⟨names, hnames, hlength⟩ := exists_holds_compileWith config source
  rw [hmore] at hnames
  obtain ⟨before, rfl, hinsert⟩ := hnames.of_insertAll
  obtain ⟨before, rfl, ht⟩ := hinsert.of_insert
  refine h t x ?_ ?_
  · rw [ht.size_eq]
    simp only [List.length_append, List.length_cons, List.length_nil] at hlength
    omega
  · rw [Locals.nextOffset, ht.frameSize_eq, ht.width, ht.size_eq, Nat.mul_succ]

/-- The size that a source has to stay below: the 52nd power of two. -/
def sourceBound : Nat := 4503599627370496

/-- **Offsets fit words of 64 bits.**  For every width that can be asked for, and every source of
less than four pebibytes, a compilation has no more entries than identifiers and no more identifiers
than bytes, also where it ends in an error.  It inserts only into tables with fewer entries than
that, so it is the same over an operation that refuses an offset beyond 64 bits, and over one that
adds words. -/
theorem compile_offsets_fit {config : Config} {source : String}
    (hwidth : config.slotWidth ≤ CommandLine.maxSlotWidth)
    (hsource : source.utf8ByteSize < sourceBound) :
    let outcome := compileWith config source config.locals
    let identifiers := (namesOf (scan source).tokens).length
    let run := fun insert => compileVia insert config source config.locals
    (∀ args o, CommandLine.interpret args = .ok o →
      1 ≤ o.config.slotWidth ∧ o.config.slotWidth ≤ CommandLine.maxSlotWidth) ∧
    identifiers ≤ source.utf8ByteSize ∧
    outcome.2.size ≤ identifiers ∧
    outcome.2.frameSize = config.slotWidth * outcome.2.size ∧
    outcome.2.frameSize < UInt64.size ∧
    (∀ insert : Locals → String → Option Locals,
      (∀ t x, t.size < identifiers → t.nextOffset = config.slotWidth * (t.size + 1) →
        insert t x = some (t.insert x)) → run insert = some outcome) ∧
    run Locals.insertChecked = some outcome ∧ run Locals.insertWords = some outcome := by
  intro outcome identifiers run
  have hbytes : identifiers ≤ source.utf8ByteSize := length_namesOf_scan_le source
  rw [sourceBound] at hsource
  have hfits : ∀ n, n ≤ identifiers → config.slotWidth * n < UInt64.size := fun n hn => by
    calc config.slotWidth * n
      _ ≤ 4096 * n := Nat.mul_le_mul_right n hwidth
      _ < 18446744073709551616 := by omega
  have hrun : ∀ insert : Locals → String → Option Locals,
      (∀ t x, t.size < identifiers → t.nextOffset = config.slotWidth * (t.size + 1) →
        insert t x = some (t.insert x)) → run insert = some outcome :=
    fun insert h => compileVia_eq (insertsUpTo_compileWith h)
  obtain ⟨names, hnames, hlength⟩ := exists_holds_compileWith config source
  refine ⟨fun args o h => CommandLine.width_of_interpret h, hbytes, ?size, ?layout, ?frame, hrun,
    ?checked, ?words⟩
  case size =>
    rw [hnames.size_eq]
    exact hlength
  case layout => rw [hnames.frameSize_eq, hnames.size_eq]
  case frame =>
    rw [hnames.frameSize_eq]
    exact hfits names.length hlength
  case checked =>
    refine hrun _ fun t x hsize hnext => Locals.insertChecked_eq ?_ x
    rw [hnext]
    exact hfits _ hsize
  case words =>
    refine hrun _ fun t x hsize hnext => Locals.insertWords_eq ?_ x
    rw [hnext]
    exact hfits _ hsize

/-- The source `a = b; a$`, which fails after three insertions where every occurrence gets a slot of
the greatest width. -/
theorem compile_offsets_fit_of_failure :
    let config : Config := { slotWidth := 4096, eager := true, mode := .shadowing }
    let source := "a = b; a$"
    let final : Locals :=
      { slotWidth := 4096, mode := .shadowing,
        entries := [⟨"a", 12288⟩, ⟨"b", 8192⟩, ⟨"a", 4096⟩] }
    let outcome : Except CompileError Program × Locals :=
      (.error (.lexical ⟨8, .unknownChar '$'⟩), final)
    config.slotWidth ≤ CommandLine.maxSlotWidth ∧ source.utf8ByteSize < sourceBound ∧
      compileWith config source config.locals = outcome ∧ final.frameSize < UInt64.size ∧
      compileVia Locals.insertChecked config source config.locals = some outcome ∧
      compileVia Locals.insertWords config source config.locals = some outcome := by
  intro config source final outcome
  have hwidth : config.slotWidth ≤ CommandLine.maxSlotWidth := Nat.le_refl 4096
  have hsize : source.utf8ByteSize = 9 := by decide
  have hsource : source.utf8ByteSize < sourceBound := by rw [hsize, sourceBound]; omega
  have houtcome : compileWith config source config.locals = outcome := by
    have htokens : tokenize source = .error ⟨8, .unknownChar '$'⟩ := by
      show tokenize "a = b; a$" = .error ⟨8, .unknownChar '$'⟩
      with_unfolding_all rfl
    have hstart : config.startTable config.locals (scan source).tokens = final := by
      decide +kernel
    rw [compileWith_eq, htokens, hstart]
  have hfit := compile_offsets_fit hwidth hsource
  rw [houtcome] at hfit
  obtain ⟨-, -, -, -, hframe, -, hchecked, hwords⟩ := hfit
  exact ⟨hwidth, hsource, houtcome, hframe, hchecked, hwords⟩

end FrameLang

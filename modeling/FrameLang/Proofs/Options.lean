import FrameLang.Proofs.Arguments
import Mathlib.Data.List.Nodup

/-!
# The options of a command line

The options are what the requests ask for, and their defaults where nothing is asked for.

* `Request.item?`: what a request asks for, which may be asked for only once.
* `Arguments.Records a rs`: what has been read is what the requests say.
* `Arguments.Records.add`, `Arguments.Records.exists_foldlM_iff`: one more request keeps this, and
  requests can be added just if none asks for something twice and all their values can be used.
* `Asks rs o`: the requests ask for the options, each setting and each switch for its own.
* `interpret_eq_ok_iff`: the options of a whole command line.
-/

namespace FrameLang.CommandLine

open Arguments

variable {a b : Arguments} {r : Request} {rs rs' : List Request} {args : List String}
  {text value : String} {o o' : Options}

/-! ## What has been read -/

/-- What may be asked for only once. -/
inductive Item
  | source
  | switch (switch : Switch)
  | setting (setting : Setting)
  deriving DecidableEq

namespace Request

def item? : Request → Option Item
  | source _ => some .source
  | switch s => some (.switch s)
  | setting s _ => some (.setting s)
  | verbose => none

theorem item?_eq_some_iff {i : Item} : r.item? = some i ↔
    match i with
    | .source => ∃ text, r = source text
    | .switch s => r = switch s
    | .setting s => ∃ value, r = setting s value := by
  cases r <;> cases i <;> simp [item?]

theorem mem_items_iff {i : Item} : i ∈ rs.filterMap item? ↔
    match i with
    | .source => ∃ text, source text ∈ rs
    | .switch s => switch s ∈ rs
    | .setting s => ∃ value, setting s value ∈ rs := by
  simp only [List.mem_filterMap, item?_eq_some_iff]
  cases i <;> aesop

theorem nodup_items_snoc : ((rs ++ [r]).filterMap item?).Nodup ↔
    (rs.filterMap item?).Nodup ∧ ∀ i, r.item? = some i → i ∉ rs.filterMap item? := by
  rw [List.filterMap_append, List.filterMap_cons]
  cases r.item? with
  | none => simp
  | some i =>
    rw [List.filterMap_nil, ← List.concat_eq_append, List.nodup_concat, and_comm]
    simp

def Accepted : Request → Prop
  | setting .slotWidth value => ∃ n, readUpTo? maxSlotWidth value = some n
  | setting .maxDepth value => ∃ n, readUpTo? greatestMaxDepth value = some n
  | _ => True

end Request

/-- The value that has been read is that of the requests for it, of which there are none if there is
no value. -/
structure Recorded {α : Type} (request : String → Request) (read? : String → Option α)
    (rs : List Request) (current : Option α) : Prop where
  of_mem : ∀ text, request text ∈ rs → ∃ x, read? text = some x ∧ current = some x
  exists_mem : ∀ x, current = some x → ∃ text, request text ∈ rs

namespace Recorded

variable {α : Type} {request : String → Request} {read? : String → Option α} {current : Option α}

theorem nil : Recorded request read? [] none where
  of_mem := by simp
  exists_mem := by simp

theorem snoc_other (h : Recorded request read? rs current) (hr : ∀ text, request text ≠ r) :
    Recorded request read? (rs ++ [r]) current := by
  have hmem : ∀ text, request text ∈ rs ++ [r] ↔ request text ∈ rs := fun text => by
    rw [List.mem_append, List.mem_singleton, or_iff_left (hr text)]
  constructor
  · intro text htext
    exact h.of_mem text ((hmem text).1 htext)
  · intro x hx
    obtain ⟨text, htext⟩ := h.exists_mem x hx
    exact ⟨text, (hmem text).2 htext⟩

theorem snoc_new {x : α} (h : Recorded request read? rs none) (hinj : Function.Injective request)
    (hx : read? text = some x) : Recorded request read? (rs ++ [request text]) (some x) := by
  constructor
  · intro text' htext
    rcases List.mem_append.1 htext with hold | hnew
    · obtain ⟨_, -, hnone⟩ := h.of_mem text' hold
      cases hnone
    · obtain rfl := hinj (List.mem_singleton.1 hnew)
      exact ⟨x, hx, rfl⟩
  · intro _ _
    exact ⟨text, List.mem_append_right _ (List.mem_singleton.2 rfl)⟩

theorem ne_none_iff (h : Recorded request read? rs current) :
    current ≠ none ↔ ∃ text, request text ∈ rs := by
  constructor
  · intro hne
    obtain ⟨x, hx⟩ := Option.ne_none_iff_exists'.1 hne
    exact h.exists_mem x hx
  · rintro ⟨text, htext⟩ rfl
    obtain ⟨_, -, hnone⟩ := h.of_mem text htext
    cases hnone

theorem mem_iff {request : String → Request} {current : Option String}
    (h : Recorded request some rs current) : request text ∈ rs ↔ current = some text := by
  constructor
  · intro htext
    obtain ⟨x, hx, hcurrent⟩ := h.of_mem text htext
    rwa [hx]
  · rintro rfl
    obtain ⟨text', htext⟩ := h.exists_mem text rfl
    obtain ⟨x, hx, hcurrent⟩ := h.of_mem text' htext
    obtain rfl : text = text' := Option.some.inj (hcurrent.trans hx.symm)
    exact htext

theorem getD_of_mem (h : Recorded request read? rs current) (default : α) (text : String)
    (htext : request text ∈ rs) : read? text = some (current.getD default) := by
  obtain ⟨x, hx, rfl⟩ := h.of_mem text htext
  exact hx

theorem getD_of_forall_notMem (h : Recorded request read? rs current) (default : α)
    (hnone : ∀ text, request text ∉ rs) : current.getD default = default := by
  obtain rfl : current = none := not_not.1 (mt h.ne_none_iff.1 (not_exists.2 hnone))
  rfl

end Recorded

namespace Arguments

/-- What has been read is what the requests say. -/
structure Records (a : Arguments) (rs : List Request) : Prop where
  source : Recorded .source some rs a.source?
  filename : Recorded (.setting .filename) some rs a.filename?
  slotWidth : Recorded (.setting .slotWidth) (readUpTo? maxSlotWidth) rs a.slotWidth?
  maxDepth : Recorded (.setting .maxDepth) (readUpTo? greatestMaxDepth) rs a.maxDepth?
  switches : ∀ s, s ∈ a.switches ↔ .switch s ∈ rs

theorem Records.nil : Records {} [] where
  source := .nil
  filename := .nil
  slotWidth := .nil
  maxDepth := .nil
  switches := by simp

theorem once_bind_eq_ok_iff {α : Type} {s : Setting} {old new : Option α}
    {f : Option α → Arguments} :
    (do let answer ← once s old value new; return f answer) = .ok b ↔
      ∃ x, new = some x ∧ old = none ∧ b = f (some x) := by
  unfold once
  cases new with
  | none => simp [bind, Except.bind]
  | some x => cases old <;> simp [bind, Except.bind, pure, Except.pure, eq_comm]

theorem exists_once_bind_iff {α : Type} {s : Setting} {old new : Option α}
    {f : Option α → Arguments} :
    (∃ b, (do let answer ← once s old value new; return f answer) = .ok b) ↔
      (∃ x, new = some x) ∧ old = none := by
  constructor
  · rintro ⟨b, hb⟩
    obtain ⟨x, hx, hold, -⟩ := once_bind_eq_ok_iff.1 hb
    exact ⟨⟨x, hx⟩, hold⟩
  · rintro ⟨⟨x, hx⟩, hold⟩
    exact ⟨_, once_bind_eq_ok_iff.2 ⟨x, hx, hold, rfl⟩⟩

theorem addSource_eq_ok_iff : a.addSource text = .ok b ↔
    a.source? = none ∧ b = { a with source? := some text } := by
  unfold addSource
  cases a.source? <;> simp [eq_comm]

theorem addSwitch_eq_ok_iff {s : Switch} : a.addSwitch s = .ok b ↔
    s ∉ a.switches ∧ b = { a with switches := s :: a.switches } := by
  unfold addSwitch
  split <;> simp [*, eq_comm]

theorem Records.add (h : a.Records rs) (hb : a.add r = .ok b) : b.Records (rs ++ [r]) := by
  cases r with
  | source text =>
    obtain ⟨hnone, rfl⟩ := addSource_eq_ok_iff.1 hb
    exact {
      source := (hnone ▸ h.source).snoc_new (fun _ _ => Request.source.inj) rfl
      filename := h.filename.snoc_other (by simp)
      slotWidth := h.slotWidth.snoc_other (by simp)
      maxDepth := h.maxDepth.snoc_other (by simp)
      switches := fun s => by simp [h.switches s] }
  | switch s =>
    obtain ⟨-, rfl⟩ := addSwitch_eq_ok_iff.1 hb
    exact {
      source := h.source.snoc_other (by simp)
      filename := h.filename.snoc_other (by simp)
      slotWidth := h.slotWidth.snoc_other (by simp)
      maxDepth := h.maxDepth.snoc_other (by simp)
      switches := fun s' => by simp [h.switches s', or_comm] }
  | setting s value =>
    have hinj : Function.Injective (Request.setting s) := fun _ _ heq => (Request.setting.inj heq).2
    cases s with
    | filename =>
      obtain ⟨x, hx, hnone, rfl⟩ := once_bind_eq_ok_iff.1 hb
      exact {
        source := h.source.snoc_other (by simp)
        filename := (hnone ▸ h.filename).snoc_new hinj hx
        slotWidth := h.slotWidth.snoc_other (by simp)
        maxDepth := h.maxDepth.snoc_other (by simp)
        switches := fun s => by simp [h.switches s] }
    | slotWidth =>
      obtain ⟨x, hx, hnone, rfl⟩ := once_bind_eq_ok_iff.1 hb
      exact {
        source := h.source.snoc_other (by simp)
        filename := h.filename.snoc_other (by simp)
        slotWidth := (hnone ▸ h.slotWidth).snoc_new hinj hx
        maxDepth := h.maxDepth.snoc_other (by simp)
        switches := fun s => by simp [h.switches s] }
    | maxDepth =>
      obtain ⟨x, hx, hnone, rfl⟩ := once_bind_eq_ok_iff.1 hb
      exact {
        source := h.source.snoc_other (by simp)
        filename := h.filename.snoc_other (by simp)
        slotWidth := h.slotWidth.snoc_other (by simp)
        maxDepth := (hnone ▸ h.maxDepth).snoc_new hinj hx
        switches := fun s => by simp [h.switches s] }
  | verbose =>
    cases hb
    exact {
      source := h.source.snoc_other (by simp)
      filename := h.filename.snoc_other (by simp)
      slotWidth := h.slotWidth.snoc_other (by simp)
      maxDepth := h.maxDepth.snoc_other (by simp)
      switches := fun s => by simp [h.switches s] }

def Has (a : Arguments) : Item → Prop
  | .source => a.source? ≠ none
  | .switch s => s ∈ a.switches
  | .setting .filename => a.filename? ≠ none
  | .setting .slotWidth => a.slotWidth? ≠ none
  | .setting .maxDepth => a.maxDepth? ≠ none

theorem exists_add_iff : (∃ b, a.add r = .ok b) ↔
    r.Accepted ∧ ∀ i, r.item? = some i → ¬a.Has i := by
  cases r with
  | source text => simp [add, addSource_eq_ok_iff, Request.Accepted, Request.item?, Has]
  | switch s => simp [add, addSwitch_eq_ok_iff, Request.Accepted, Request.item?, Has]
  | setting s value =>
    cases s <;> simp only [add, addSetting, exists_once_bind_iff] <;>
      simp [Request.Accepted, Request.item?, Has]
  | verbose => simp [add, Request.Accepted, Request.item?]

theorem Records.has_iff (h : a.Records rs) {i : Item} :
    a.Has i ↔ i ∈ rs.filterMap Request.item? := by
  rw [Request.mem_items_iff]
  match i with
  | .source => exact h.source.ne_none_iff
  | .switch s => exact h.switches s
  | .setting .filename => exact h.filename.ne_none_iff
  | .setting .slotWidth => exact h.slotWidth.ne_none_iff
  | .setting .maxDepth => exact h.maxDepth.ne_none_iff

theorem Records.foldlM (h : a.Records rs) (hb : rs'.foldlM Arguments.add a = .ok b) :
    b.Records (rs ++ rs') := by
  induction rs' generalizing a rs with
  | nil =>
    cases hb
    rwa [List.append_nil]
  | cons r rs' ih =>
    obtain ⟨next, hnext, hb⟩ := bind_eq_ok_iff.1 hb
    rw [List.append_cons]
    exact ih (h.add hnext) hb

/-- Requests can be added if they ask for nothing twice and all their values can be used. -/
theorem Records.exists_foldlM_iff (h : a.Records rs) (hrs : (rs.filterMap Request.item?).Nodup) :
    (∃ b, rs'.foldlM Arguments.add a = .ok b) ↔
      (∀ r ∈ rs', r.Accepted) ∧ ((rs ++ rs').filterMap Request.item?).Nodup := by
  induction rs' generalizing a rs with
  | nil => simpa [pure, Except.pure] using hrs
  | cons r rs' ih =>
    rw [List.append_cons, List.forall_mem_cons]
    constructor
    · rintro ⟨b, hb⟩
      obtain ⟨next, hnext, hb⟩ := bind_eq_ok_iff.1 hb
      obtain ⟨haccepted, hfresh⟩ := exists_add_iff.1 ⟨next, hnext⟩
      have hfirst := Request.nodup_items_snoc.2 ⟨hrs, fun i hi => mt h.has_iff.2 (hfresh i hi)⟩
      obtain ⟨hall, hnd⟩ := (ih (h.add hnext) hfirst).1 ⟨b, hb⟩
      exact ⟨⟨haccepted, hall⟩, hnd⟩
    · rintro ⟨⟨haccepted, hall⟩, hnd⟩
      have hfirst : ((rs ++ [r]).filterMap Request.item?).Nodup := by
        rw [List.filterMap_append] at hnd
        exact (List.nodup_append.1 hnd).1
      obtain ⟨-, hfresh⟩ := Request.nodup_items_snoc.1 hfirst
      obtain ⟨next, hnext⟩ :=
        exists_add_iff.2 ⟨haccepted, fun i hi => mt h.has_iff.1 (hfresh i hi)⟩
      obtain ⟨b, hb⟩ := (ih (h.add hnext) hfirst).2 ⟨hall, hnd⟩
      exact ⟨b, bind_eq_ok_iff.2 ⟨next, hnext, hb⟩⟩

end Arguments

/-! ## The options -/

def Options.isOn (o : Options) : Switch → Bool
  | .printAst => o.printAst
  | .printTokens => o.printTokens
  | .printLocals => o.printLocals
  | .eagerIdents => o.config.eager
  | .shadowing => o.config.mode = .shadowing
  | .timings => o.timings

/-- The requests ask for the options. -/
structure Asks (rs : List Request) (o : Options) : Prop where
  source : ∀ text, .source text ∈ rs ↔ o.origin = .argument text
  filename : ∀ name, .setting .filename name ∈ rs ↔ o.origin = .file name
  slotWidth : ∀ value, .setting .slotWidth value ∈ rs →
    readUpTo? maxSlotWidth value = some o.config.slotWidth
  noSlotWidth : (∀ value, .setting .slotWidth value ∉ rs) → o.config.slotWidth = defaultSlotWidth
  maxDepth : ∀ value, .setting .maxDepth value ∈ rs →
    readUpTo? greatestMaxDepth value = some o.config.maxDepth
  noMaxDepth : (∀ value, .setting .maxDepth value ∉ rs) → o.config.maxDepth = defaultMaxDepth
  switch : ∀ s, .switch s ∈ rs ↔ o.isOn s = true

theorem Options.ext_isOn (horigin : o.origin = o'.origin)
    (hwidth : o.config.slotWidth = o'.config.slotWidth)
    (hdepth : o.config.maxDepth = o'.config.maxDepth) (hon : ∀ s, o.isOn s = o'.isOn s) :
    o = o' := by
  have hmode : o.config.mode = o'.config.mode := by
    have hshadowing : o.config.mode = .shadowing ↔ o'.config.mode = .shadowing :=
      decide_eq_decide.1 (hon .shadowing)
    cases h : o.config.mode <;> cases h' : o'.config.mode <;> simp [h, h'] at hshadowing ⊢
  obtain ⟨origin, ⟨width, depth, eager, mode⟩, ast, tokens, locals, timings⟩ := o
  obtain ⟨origin', ⟨width', depth', eager', mode'⟩, ast', tokens', locals', timings'⟩ := o'
  obtain rfl : eager = eager' := hon .eagerIdents
  obtain rfl : ast = ast' := hon .printAst
  obtain rfl : tokens = tokens' := hon .printTokens
  obtain rfl : locals = locals' := hon .printLocals
  obtain rfl : timings = timings' := hon .timings
  dsimp only at horigin hwidth hdepth hmode
  rw [horigin, hwidth, hdepth, hmode]

/-- Requests ask for at most one row of options. -/
theorem Asks.unique (h : Asks rs o) (h' : Asks rs o') : o = o' := by
  refine Options.ext_isOn ?origin ?width ?depth fun s => ?on
  case origin =>
    have hsource : ∀ text, o.origin = .argument text ↔ o'.origin = .argument text := fun text =>
      (h.source text).symm.trans (h'.source text)
    have hfile : ∀ name, o.origin = .file name ↔ o'.origin = .file name := fun name =>
      (h.filename name).symm.trans (h'.filename name)
    cases horigin : o.origin with
    | argument text => exact ((hsource text).1 horigin).symm
    | file name => exact ((hfile name).1 horigin).symm
    | standardInput =>
      cases horigin' : o'.origin with
      | argument text => exact horigin.symm.trans ((hsource text).2 horigin')
      | file name => exact horigin.symm.trans ((hfile name).2 horigin')
      | standardInput => rfl
  case width =>
    by_cases hgiven : ∃ value, .setting .slotWidth value ∈ rs
    · obtain ⟨value, hvalue⟩ := hgiven
      exact Option.some.inj ((h.slotWidth value hvalue).symm.trans (h'.slotWidth value hvalue))
    · rw [h.noSlotWidth (not_exists.1 hgiven), h'.noSlotWidth (not_exists.1 hgiven)]
  case depth =>
    by_cases hgiven : ∃ value, .setting .maxDepth value ∈ rs
    · obtain ⟨value, hvalue⟩ := hgiven
      exact Option.some.inj ((h.maxDepth value hvalue).symm.trans (h'.maxDepth value hvalue))
    · rw [h.noMaxDepth (not_exists.1 hgiven), h'.noMaxDepth (not_exists.1 hgiven)]
  case on => exact Bool.eq_iff_iff.2 ((h.switch s).symm.trans (h'.switch s))

namespace Arguments

theorem Records.asks (h : a.Records rs) (ho : a.options = .ok o) : Asks rs o := by
  unfold options at ho
  dsimp only at ho
  split at ho
  case isTrue => cases ho
  case isFalse hswitches =>
    obtain ⟨origin, horigin, ho⟩ := bind_eq_ok_iff.1 ho
    cases ho
    have hsource : ∀ text, a.source? = some text ↔ origin = .argument text := by
      split at horigin <;> cases horigin <;> simp [*]
    have hfilename : ∀ name, a.filename? = some name ↔ origin = .file name := by
      split at horigin <;> cases horigin <;> simp [*]
    exact {
      source := fun text => h.source.mem_iff.trans (hsource text)
      filename := fun name => h.filename.mem_iff.trans (hfilename name)
      slotWidth := h.slotWidth.getD_of_mem defaultSlotWidth
      noSlotWidth := h.slotWidth.getD_of_forall_notMem defaultSlotWidth
      maxDepth := h.maxDepth.getD_of_mem defaultMaxDepth
      noMaxDepth := h.maxDepth.getD_of_forall_notMem defaultMaxDepth
      switch := fun s => by cases s <;> simp [Options.isOn, ← h.switches] }

theorem eagerIdents_mem_of_options (ho : a.options = .ok o) (hs : .shadowing ∈ a.switches) :
    .eagerIdents ∈ a.switches := by
  unfold options at ho
  dsimp only at ho
  split at ho
  case isTrue => cases ho
  case isFalse hswitches => simpa [hs] using hswitches

theorem Records.exists_options (h : a.Records rs) (hasks : Asks rs o)
    (hs : .shadowing ∈ a.switches → .eagerIdents ∈ a.switches) : ∃ o', a.options = .ok o' := by
  have hswitches : ¬(decide (.shadowing ∈ a.switches) && !decide (.eagerIdents ∈ a.switches)) := by
    simpa using hs
  unfold options
  dsimp only
  rw [if_neg hswitches]
  cases hsource : a.source? with
  | none => cases a.filename? <;> exact ⟨_, rfl⟩
  | some text =>
    cases hfilename : a.filename? with
    | none => exact ⟨_, rfl⟩
    | some name =>
      -- Both would have to be the origin.
      have htext := (hasks.source text).1 (h.source.mem_iff.2 hsource)
      have hname := (hasks.filename name).1 (h.filename.mem_iff.2 hfilename)
      cases htext.symm.trans hname

end Arguments

theorem Asks.accepted (h : Asks rs o) : ∀ r ∈ rs, r.Accepted := by
  intro r hr
  match r with
  | .source _ => exact True.intro
  | .switch _ => exact True.intro
  | .setting .filename _ => exact True.intro
  | .setting .slotWidth value => exact ⟨_, h.slotWidth value hr⟩
  | .setting .maxDepth value => exact ⟨_, h.maxDepth value hr⟩
  | .verbose => exact True.intro

theorem interpret_eq_ok_iff_exists : interpret args = .ok o ↔
    ∃ a : Arguments, ({} : Arguments).read args = .ok a ∧ a.options = .ok o := by
  rw [interpret, bind_eq_ok_iff]
  exact exists_congr fun a => and_congr_right fun _ => mapError_eq_ok_iff

/-- **What a command line asks for.**  It is understood just if it spells requests that ask for
nothing twice, and for shadowing only with eager identifiers.  Its options are the ones that these
requests ask for. -/
theorem interpret_eq_ok_iff : interpret args = .ok o ↔
    ∃ rs, Spells rs args ∧ (rs.filterMap Request.item?).Nodup ∧ Asks rs o ∧
      (.switch .shadowing ∈ rs → .switch .eagerIdents ∈ rs) := by
  constructor
  · intro h
    obtain ⟨a, hread, ho⟩ := interpret_eq_ok_iff_exists.1 h
    obtain ⟨rs, hspells⟩ := exists_spells_of_read hread
    rw [hspells.read_eq] at hread
    have ha : a.Records rs := Records.nil.foldlM hread
    obtain ⟨-, hnodup⟩ := (Records.nil.exists_foldlM_iff List.nodup_nil).1 ⟨a, hread⟩
    refine ⟨rs, hspells, hnodup, ha.asks ho, ?_⟩
    rw [← ha.switches, ← ha.switches]
    exact eagerIdents_mem_of_options ho
  · rintro ⟨rs, hspells, hnodup, hasks, hshadowing⟩
    obtain ⟨a, hadd⟩ := (Records.nil.exists_foldlM_iff List.nodup_nil).2 ⟨hasks.accepted, hnodup⟩
    have ha : a.Records rs := Records.nil.foldlM hadd
    rw [← ha.switches, ← ha.switches] at hshadowing
    obtain ⟨o', ho'⟩ := ha.exists_options hasks hshadowing
    obtain rfl := hasks.unique (ha.asks ho')
    exact interpret_eq_ok_iff_exists.2 ⟨a, (hspells.read_eq {}).trans hadd, ho'⟩

/-! ## Where the source comes from -/

theorem Asks.cons_source (h : Asks rs o) (hin : o.origin = .standardInput) (text : String) :
    Asks (.source text :: rs) { o with origin := .argument text } where
  source := by simp [h.source, hin, eq_comm]
  filename := by simp [h.filename, hin]
  slotWidth := by simpa using h.slotWidth
  noSlotWidth := by simpa using h.noSlotWidth
  maxDepth := by simpa using h.maxDepth
  noMaxDepth := by simpa using h.noMaxDepth
  switch s := by
    rw [List.mem_cons, or_iff_right (by simp), h.switch]
    cases s <;> rfl

theorem Asks.cons_filename (h : Asks rs o) (hin : o.origin = .standardInput) (name : String) :
    Asks (.setting .filename name :: rs) { o with origin := .file name } where
  source := by simp [h.source, hin]
  filename := by simp [h.filename, hin, eq_comm]
  slotWidth := by simpa using h.slotWidth
  noSlotWidth := by simpa using h.noSlotWidth
  maxDepth := by simpa using h.maxDepth
  noMaxDepth := by simpa using h.noMaxDepth
  switch s := by
    rw [List.mem_cons, or_iff_right (by simp), h.switch]
    cases s <;> rfl

/-- A source in front of options that have none only changes where the source comes from. -/
theorem interpret_cons_source (h : interpret args = .ok o) (hin : o.origin = .standardInput)
    (htext : IsPlain text) :
    interpret (text :: args) = .ok { o with origin := .argument text } := by
  obtain ⟨rs, hspells, hnodup, hasks, hshadowing⟩ := interpret_eq_ok_iff.1 h
  refine interpret_eq_ok_iff.2 ⟨_, .source htext hspells, ?_, hasks.cons_source hin text, ?_⟩
  · refine List.nodup_cons.2 ⟨fun hmem => ?_, hnodup⟩
    obtain ⟨other, hother⟩ := Request.mem_items_iff.1 hmem
    cases hin.symm.trans ((hasks.source other).1 hother)
  · simpa using hshadowing

theorem interpret_cons_filename (h : interpret args = .ok o) (hin : o.origin = .standardInput)
    (name : String) : interpret (longOption Setting.filename.name (some name) :: args) =
      .ok { o with origin := .file name } := by
  obtain ⟨rs, hspells, hnodup, hasks, hshadowing⟩ := interpret_eq_ok_iff.1 h
  refine interpret_eq_ok_iff.2
    ⟨_, .joined .filename name hspells, ?_, hasks.cons_filename hin name, ?_⟩
  · refine List.nodup_cons.2 ⟨fun hmem => ?_, hnodup⟩
    obtain ⟨other, hother⟩ := Request.mem_items_iff.1 hmem
    cases hin.symm.trans ((hasks.filename other).1 hother)
  · simpa using hshadowing

/-! ## Widths -/

theorem readUpTo?_eq_some {greatest n : Nat} (h : readUpTo? greatest text = some n) :
    1 ≤ n ∧ n ≤ greatest := by
  have hn := (Option.filter_eq_some_iff.1 h).2
  simpa using hn

theorem width_of_interpret (h : interpret args = .ok o) :
    1 ≤ o.config.slotWidth ∧ o.config.slotWidth ≤ maxSlotWidth := by
  obtain ⟨rs, -, -, hasks, -⟩ := interpret_eq_ok_iff.1 h
  by_cases hgiven : ∃ value, .setting .slotWidth value ∈ rs
  · obtain ⟨value, hvalue⟩ := hgiven
    exact readUpTo?_eq_some (hasks.slotWidth value hvalue)
  · rw [hasks.noSlotWidth (not_exists.1 hgiven)]
    decide

end FrameLang.CommandLine

import FrameLang.CommandLine.Response
import FrameLang.Proofs.Options

/-!
# Sources in files

A name leads to the path that its parts spell, and a file whose path is spelled by a name can be
read under it.  The same source is answered alike as an argument, in a file and as the standard
input.

* `resolve start parts`: the path that the parts of a name spell.
* `FileTree.lookup_of_read`: what is read under a name is the file at its path.
* `FileTree.IsFile`: a file that nothing is in the way of.
* `FileTree.read_absolute`, `FileTree.read_relative`: such a file is read under its name.
* `FileTree.respond_argument`, `FileTree.respond_filename_cases`, `FileTree.respond_of_isFile`: the
  answer to a source as an argument and in a file.
-/

namespace FrameLang.CommandLine

/-! ## Where a name leads -/

/-- The path after one more part of a name. -/
def follow (path : Path) (part : String) : Path :=
  if part = "" ∨ part = "." then path
  else if part = ".." then path.dropLast
  else path ++ [part]

/-- The path that the parts of a name spell. -/
def resolve (start : Path) (parts : List String) : Path := parts.foldl follow start

namespace FileTree

variable {t : FileTree} {path start : Path} {parts : List String} {part name : String}
  {entry next : Entry} {content input : ByteArray} {t' : FileTree} {args : List String}
  {o : Options} {source : String} {timings : Timings}

inductive IsAt (t : FileTree) : Path → Entry → Prop
  | folder (path : Path) : IsAt t path (.folder path)
  | file {path : Path} {content : ByteArray} (h : t.files.lookup path = some content) :
      IsAt t path (.file content)

theorem isAt_of_entry? (h : t.entry? path = some entry) : t.IsAt path entry := by
  unfold entry? at h
  split at h
  case h_1 content hcontent =>
    cases h
    exact .file hcontent
  case h_2 =>
    split at h
    · cases h
      exact .folder path
    · cases h

theorem IsAt.enter (h : t.IsAt path entry) (hnext : t.enter entry part = .ok next) :
    t.IsAt (follow path part) next := by
  cases h with
  | file h => cases hnext
  | folder =>
    rw [FileTree.enter] at hnext
    unfold follow
    by_cases hstay : part = "" ∨ part = "."
    · rw [if_pos hstay] at hnext ⊢
      cases hnext
      exact .folder path
    rw [if_neg hstay] at hnext ⊢
    by_cases hback : part = ".."
    · rw [if_pos hback] at hnext ⊢
      cases hnext
      exact .folder path.dropLast
    rw [if_neg hback] at hnext ⊢
    by_cases hlong : maxPartLength < part.utf8ByteSize
    · rw [if_pos hlong] at hnext
      cases hnext
    rw [if_neg hlong] at hnext
    cases hfound : t.entry? (path ++ [part]) with
    | none =>
      rw [hfound] at hnext
      cases hnext
    | some found =>
      rw [hfound] at hnext
      cases hnext
      exact isAt_of_entry? hfound

theorem IsAt.foldlM (h : t.IsAt path entry) (hnext : parts.foldlM t.enter entry = .ok next) :
    t.IsAt (resolve path parts) next := by
  induction parts generalizing path entry with
  | nil =>
    cases hnext
    exact h
  | cons part parts ih =>
    obtain ⟨mid, hmid, hnext⟩ := bind_eq_ok_iff.1 hnext
    exact ih (h.enter hmid) hnext

theorem find_eq_ok_iff : t.find name = .ok entry ↔ name ≠ "" ∧ name.utf8ByteSize ≤ maxNameLength ∧
    (FileTree.parts name).foldlM t.enter (.folder (t.start name)) = .ok entry := by
  unfold find
  split
  case isTrue h => simp [h]
  case isFalse h =>
    split
    case isTrue hlong => simp [Nat.not_le.2 hlong]
    case isFalse hlong => simp [h, Nat.not_lt.1 hlong]

theorem read_eq_ok_iff : t.read name = .ok content ↔ t.find name = .ok (.file content) := by
  unfold read
  rw [bind_eq_ok_iff]
  constructor
  · rintro ⟨entry, hentry, h⟩
    cases entry with
    | folder path => cases h
    | file content' =>
      cases h
      exact hentry
  · intro h
    exact ⟨_, h, rfl⟩

/-- What is read under a name is the file at its path. -/
theorem lookup_of_read (h : t.read name = .ok content) :
    t.files.lookup (resolve (t.start name) (FileTree.parts name)) = some content := by
  obtain ⟨-, -, hfold⟩ := find_eq_ok_iff.1 (read_eq_ok_iff.1 h)
  cases (IsAt.folder (t.start name)).foldlM hfold with
  | file h => exact h

/-! ## Files under their paths -/

/-- A part of a name that is the name of a file or a folder. -/
structure IsPart (part : String) : Prop where
  ne_empty : part ≠ ""
  ne_here : part ≠ "."
  ne_up : part ≠ ".."
  slash_notMem : '/' ∉ part.toList
  length_le : part.utf8ByteSize ≤ maxPartLength

/-- The file at a path, if no folder on the way is a file too. -/
structure IsFile (t : FileTree) (path : Path) (content : ByteArray) : Prop where
  lookup_eq : t.files.lookup path = some content
  lookup_prefix : ∀ p, p <+: path → p ≠ path → t.files.lookup p = none

theorem IsFile.entry?_eq (h : t.IsFile path content) : t.entry? path = some (.file content) := by
  unfold entry?
  rw [h.lookup_eq]

theorem IsFile.entry?_prefix {p : Path} (h : t.IsFile path content) (hp : p <+: path)
    (hne : p ≠ path) : t.entry? p = some (.folder p) := by
  have hfolder : t.isFolder p = true := by
    obtain ⟨before, after, hfiles, -⟩ := List.lookup_eq_some_iff.1 h.lookup_eq
    simp [isFolder, hfiles, List.isPrefixOf_iff_prefix.2 hp]
  unfold entry?
  rw [h.lookup_prefix p hp hne]
  exact if_pos hfolder

theorem IsPart.enter (h : IsPart part) (hentry : t.entry? (path ++ [part]) = some entry) :
    t.enter (.folder path) part = .ok entry := by
  rw [FileTree.enter, if_neg (not_or_intro h.ne_empty h.ne_here), if_neg h.ne_up,
    if_neg (Nat.not_lt.2 h.length_le), hentry]

theorem IsFile.foldlM (h : t.IsFile (start ++ parts) content) (hne : parts ≠ [])
    (hparts : ∀ part ∈ parts, IsPart part) :
    parts.foldlM t.enter (.folder start) = .ok (.file content) := by
  induction parts generalizing start with
  | nil => exact absurd rfl hne
  | cons part parts ih =>
    have hpart := hparts part List.mem_cons_self
    rw [List.append_cons] at h
    rw [List.foldlM_cons, bind_eq_ok_iff]
    cases parts with
    | nil =>
      rw [List.append_nil] at h
      exact ⟨_, hpart.enter h.entry?_eq, rfl⟩
    | cons part' parts =>
      have hfolder := h.entry?_prefix (List.prefix_append _ _) (by simp)
      exact ⟨_, hpart.enter hfolder, ih h (List.cons_ne_nil _ _)
        fun p hp => hparts p (List.mem_cons_of_mem _ hp)⟩

theorem parts_intercalate (hne : parts ≠ []) (hslash : ∀ part ∈ parts, '/' ∉ part.toList) :
    FileTree.parts ("/".intercalate parts) = parts := by
  have hsplit : (("/".intercalate parts).toList.splitOn '/') = parts.map String.toList := by
    rw [String.toList_intercalate]
    refine List.splitOn_intercalate '/' ?_ (mt List.map_eq_nil_iff.1 hne)
    rintro _ hmem
    obtain ⟨part, hpart, rfl⟩ := List.mem_map.1 hmem
    exact hslash part hpart
  rw [FileTree.parts, hsplit, List.map_map]
  simp [Function.comp_def]

/-- A file is read under its path after a slash. -/
theorem IsFile.read_absolute (h : t.IsFile path content) (hne : path ≠ [])
    (hparts : ∀ part ∈ path, IsPart part)
    (hlength : ("/".intercalate ("" :: path)).utf8ByteSize ≤ maxNameLength) :
    t.read ("/".intercalate ("" :: path)) = .ok content := by
  obtain ⟨part, rest, rfl⟩ := List.exists_cons_of_ne_nil hne
  have hslash : ∀ part' ∈ "" :: part :: rest, '/' ∉ part'.toList :=
    List.forall_mem_cons.2 ⟨by simp, fun part' hpart' => (hparts part' hpart').slash_notMem⟩
  have hchars : ("/".intercalate ("" :: part :: rest)).toList =
      '/' :: ("/".intercalate (part :: rest)).toList := by
    simp [String.toList_intercalate]
  have hstart : t.start ("/".intercalate ("" :: part :: rest)) = [] := by
    rw [start, hchars]
    rfl
  rw [read_eq_ok_iff, find_eq_ok_iff, parts_intercalate (List.cons_ne_nil _ _) hslash, hstart]
  have hway := (show t.IsFile ([] ++ part :: rest) content from h).foldlM hne hparts
  refine ⟨fun hempty => ?_, hlength, bind_eq_ok_iff.2 ⟨.folder [], rfl, hway⟩⟩
  rw [hempty] at hchars
  cases hchars

theorem IsFile.read_relative (h : t.IsFile (t.current ++ path) content) (hne : path ≠ [])
    (hparts : ∀ part ∈ path, IsPart part)
    (hlength : ("/".intercalate path).utf8ByteSize ≤ maxNameLength) :
    t.read ("/".intercalate path) = .ok content := by
  have hslash : ∀ part ∈ path, '/' ∉ part.toList := fun part hpart =>
    (hparts part hpart).slash_notMem
  obtain ⟨part, rest, rfl⟩ := List.exists_cons_of_ne_nil hne
  have hpart := hparts part List.mem_cons_self
  -- The first character is that of the first part.
  obtain ⟨c, cs, hcs⟩ := List.exists_cons_of_ne_nil (mt String.toList_eq_nil_iff.1 hpart.ne_empty)
  have hc : c ≠ '/' := fun heq => hpart.slash_notMem (hcs ▸ heq ▸ List.mem_cons_self)
  have hhead : ("/".intercalate (part :: rest)).toList.head? = some c := by
    rw [String.toList_intercalate]
    cases rest <;> simp [hcs, List.intercalate]
  have hstart : t.start ("/".intercalate (part :: rest)) = t.current := by
    rw [start, hhead, if_neg (mt Option.some.inj hc)]
  rw [read_eq_ok_iff, find_eq_ok_iff, parts_intercalate hne hslash, hstart]
  refine ⟨fun hempty => ?_, hlength, h.foldlM hne hparts⟩
  rw [hempty] at hhead
  cases hhead

/-! ## The answer to a source -/

theorem decodeText_eq_ok_iff {bytes : ByteArray} {text : String} :
    decodeText bytes = .ok text ↔ bytes = text.toUTF8 := by
  rw [decodeText, String.fromUTF8?]
  constructor
  · intro h
    split at h
    case h_1 decoded hdecoded =>
      cases h
      split at hdecoded
      · cases hdecoded
        rfl
      · cases hdecoded
    case h_2 => cases h
  · rintro rfl
    rw [dif_pos (show text.toUTF8.IsValidUTF8 from text.isValidUTF8)]
    rfl

/-- The source is where it is said to come from. -/
inductive Given (t : FileTree) (input : ByteArray) (source : String) : Origin → Prop
  | argument : Given t input source (.argument source)
  | standardInput (h : input = source.toUTF8) : Given t input source .standardInput
  | file {name : String} (h : t.read name = .ok source.toUTF8) : Given t input source (.file name)

theorem load_eq_ok_iff {origin : Origin} :
    origin.load (t.content input origin) = .ok source ↔ t.Given input source origin := by
  cases origin with
  | argument text =>
    constructor
    · intro h
      cases h
      exact .argument
    · rintro ⟨⟩
      rfl
  | file name =>
    rw [Origin.load, mapError_eq_ok_iff]
    constructor
    · intro h
      obtain ⟨bytes, hread, hdecode⟩ := bind_eq_ok_iff.1 h
      exact .file (hread.trans (congrArg _ (decodeText_eq_ok_iff.1 hdecode)))
    · rintro (_ | _ | hread)
      exact bind_eq_ok_iff.2 ⟨_, hread, decodeText_eq_ok_iff.2 rfl⟩
  | standardInput =>
    rw [Origin.load, mapError_eq_ok_iff]
    constructor
    · exact fun h => .standardInput (decodeText_eq_ok_iff.1 h)
    · rintro (_ | hinput)
      exact decodeText_eq_ok_iff.2 hinput

theorem respond_eq_of_given (ho : interpret args = .ok o) (h : t.Given input source o.origin) :
    t.respond input args timings = o.respond source timings := by
  rw [FileTree.respond, CommandLine.respond, ho]
  simp only [load_eq_ok_iff.2 h]

theorem respond_argument (ho : interpret args = .ok o) (hin : o.origin = .standardInput)
    (hsource : IsPlain source) :
    t.respond input (source :: args) timings = t'.respond source.toUTF8 args timings := by
  have hinput : t'.Given source.toUTF8 source o.origin := hin ▸ .standardInput rfl
  rw [respond_eq_of_given ho hinput,
    respond_eq_of_given (interpret_cons_source ho hin hsource) .argument]
  rfl

theorem respond_filename (ho : interpret args = .ok o) (hin : o.origin = .standardInput)
    (hread : t.read name = .ok source.toUTF8) :
    t.respond input (longOption Setting.filename.name (some name) :: args) timings =
      t'.respond source.toUTF8 args timings := by
  have hinput : t'.Given source.toUTF8 source o.origin := hin ▸ .standardInput rfl
  rw [respond_eq_of_given ho hinput,
    respond_eq_of_given (interpret_cons_filename ho hin name) (.file hread)]
  rfl

/-- **What is answered to a source in a file.**  Either the file cannot be read, or there is one at
the path of its name, and its source is answered as it would be as the standard input. -/
theorem respond_filename_cases (ho : interpret args = .ok o) (hin : o.origin = .standardInput) :
    (∃ fault, t.respond input (longOption Setting.filename.name (some name) :: args) timings =
      unreadable (.file name fault)) ∨
    ∃ source : String, t.files.lookup (resolve (t.start name) (FileTree.parts name)) =
        some source.toUTF8 ∧
      t.respond input (longOption Setting.filename.name (some name) :: args) timings =
        t'.respond source.toUTF8 args timings := by
  cases hload : (t.read name).bind decodeText with
  | error fault =>
    left
    refine ⟨fault, ?_⟩
    rw [FileTree.respond, CommandLine.respond, interpret_cons_filename ho hin name]
    simp only [Origin.load, FileTree.content, hload, Except.mapError]
  | ok source =>
    right
    obtain ⟨bytes, hread, hdecode⟩ := bind_eq_ok_iff.1 hload
    obtain rfl := decodeText_eq_ok_iff.1 hdecode
    exact ⟨source, lookup_of_read hread, respond_filename ho hin hread⟩

/-- **A file is found under its path.**  Its source is answered as it would be as the standard
input. -/
theorem respond_of_isFile (ho : interpret args = .ok o) (hin : o.origin = .standardInput)
    (hfile : t.IsFile path source.toUTF8) (hne : path ≠ []) (hparts : ∀ part ∈ path, IsPart part)
    (hlength : ("/".intercalate ("" :: path)).utf8ByteSize ≤ maxNameLength) :
    t.respond input
        (longOption Setting.filename.name (some ("/".intercalate ("" :: path))) :: args) timings =
      t'.respond source.toUTF8 args timings :=
  respond_filename ho hin (hfile.read_absolute hne hparts hlength)

end FileTree

end FrameLang.CommandLine

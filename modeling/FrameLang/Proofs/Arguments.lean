import FrameLang.CommandLine.Arguments
import Mathlib.Data.List.TakeWhile

/-!
# What the arguments spell

A command line is a row of requests, each spelled by one or two of its arguments.

* `Spells rs args`: the arguments spell the requests.
* `Arguments.form_longOption`, `Arguments.eq_longOption_of_form`: a long option is told by its form.
* `Arguments.exists_spells_of_read`: arguments that can be read spell requests.
* `Spells.read_eq`: reading is adding the requests one by one.
-/

namespace FrameLang.CommandLine

/-- What is asked for by one or two arguments. -/
inductive Request
  | source (text : String)
  | switch (switch : Switch)
  | setting (setting : Setting) (value : String)
  | verbose

/-- What does not look like an option. -/
def IsPlain (argument : String) : Prop := argument = "-" ∨ argument.toList.head? ≠ some '-'

def longOption (name : String) : Option String → String
  | none => "--" ++ name
  | some value => "--" ++ name ++ "=" ++ value

/-- The arguments spell the requests. -/
inductive Spells : List Request → List String → Prop
  | nil : Spells [] []
  | source {rs : List Request} {args : List String} {text : String} (htext : IsPlain text)
      (hrest : Spells rs args) : Spells (.source text :: rs) (text :: args)
  | switch {rs : List Request} {args : List String} (s : Switch) (hrest : Spells rs args) :
      Spells (.switch s :: rs) (longOption s.name none :: args)
  | joined {rs : List Request} {args : List String} (s : Setting) (value : String)
      (hrest : Spells rs args) :
      Spells (.setting s value :: rs) (longOption s.name (some value) :: args)
  | apart {rs : List Request} {args : List String} (s : Setting) {value : String}
      (hvalue : IsPlain value) (hrest : Spells rs args) :
      Spells (.setting s value :: rs) (longOption s.name none :: value :: args)
  | verbose {rs : List Request} {args : List String} (hrest : Spells rs args) :
      Spells (.verbose :: rs) (longOption "verbose" none :: args)
  | letters {rs : List Request} {args : List String} (n : Nat) (hrest : Spells rs args) :
      Spells (.verbose :: rs) (String.ofList ('-' :: List.replicate (n + 1) 'v') :: args)
  | separator (texts : List String) : Spells (texts.map .source) ("--" :: texts)

variable {a b : Arguments} {rs : List Request} {args : List String} {argument name : String}
  {value? : Option String}

theorem bind_eq_ok_iff {ε α β : Type} {x : Except ε α} {f : α → Except ε β} {b : β} :
    (x >>= f) = .ok b ↔ ∃ a, x = .ok a ∧ f a = .ok b := by
  constructor
  · intro h
    cases x with
    | error e => cases h
    | ok a => exact ⟨a, rfl, h⟩
  · rintro ⟨a, rfl, h⟩
    exact h

theorem mapError_eq_ok_iff {ε ε' α : Type} {f : ε → ε'} {x : Except ε α} {a : α} :
    x.mapError f = .ok a ↔ x = .ok a := by
  cases x with
  | error e => simp [Except.mapError]
  | ok a' => simp [Except.mapError]

/-! ## The forms of arguments -/

namespace Arguments

theorem isValue_iff : isValue argument = true ↔ IsPlain argument := by
  rw [isValue, Bool.or_eq_true, decide_eq_true_iff, decide_eq_true_iff, IsPlain]

theorem form_of_isPlain (h : IsPlain argument) : form argument = .source := by
  rcases h with rfl | h
  · rfl
  · unfold form
    split
    case h_1 heq => exact absurd (by rw [heq]; rfl) h
    case h_2 heq => exact absurd (by rw [heq]; rfl) h
    case h_3 heq => exact absurd (by rw [heq]; rfl) h
    case h_4 => rfl

theorem isPlain_of_form (h : form argument = .source) : IsPlain argument := by
  unfold form at h
  split at h
  case h_1 => cases h
  case h_2 => cases h
  case h_3 => cases h
  case h_4 hnone htwo hone =>
    -- What starts with a dash and has no other form is the dash alone.
    by_cases hhead : argument.toList.head? = some '-'
    · obtain ⟨cs, hcs⟩ := List.head?_eq_some_iff.1 hhead
      cases cs with
      | nil => exact .inl (String.toList_inj.1 hcs)
      | cons c cs => exact absurd hcs (hone c cs)
    · exact .inr hhead

theorem toList_longOption (name : String) (value? : Option String) :
    (longOption name value?).toList =
      '-' :: '-' :: (name.toList ++ value?.elim [] ('=' :: ·.toList)) := by
  cases value? <;> simp [longOption]

theorem form_of_dashes {cs : List Char} (hne : cs ≠ []) (h : argument.toList = '-' :: '-' :: cs) :
    form argument = .long (String.ofList (cs.takeWhile (· ≠ '=')))
      (match cs.dropWhile (· ≠ '=') with
        | _ :: value => some (String.ofList value)
        | [] => none) := by
  obtain ⟨c, cs, rfl⟩ := List.exists_cons_of_ne_nil hne
  unfold form
  rw [h]
  rfl

/-- The name of a long option ends at the first equals sign. -/
theorem form_longOption (hne : name ≠ "") (heq : '=' ∉ name.toList) (value? : Option String) :
    form (longOption name value?) = .long name value? := by
  have hall : ∀ c ∈ name.toList, decide (c ≠ '=') = true := fun c hc =>
    decide_eq_true fun hc' => heq (hc' ▸ hc)
  have hnil : name.toList ≠ [] := mt String.toList_eq_nil_iff.1 hne
  rw [form_of_dashes (List.append_ne_nil_of_left_ne_nil hnil _) (toList_longOption name value?),
    List.takeWhile_append_of_pos hall, List.dropWhile_append_of_pos hall]
  cases value? <;> simp

theorem eq_longOption_of_form (h : form argument = .long name value?) :
    argument = longOption name value? := by
  unfold form at h
  split at h
  case h_1 => cases h
  case h_2 cs _ hcs =>
    obtain ⟨rfl, hvalue⟩ := Form.long.inj h
    have hsplit := List.takeWhile_append_dropWhile (p := fun c => decide (c ≠ '=')) (l := cs)
    rw [← String.toList_inj, hcs, toList_longOption, String.toList_ofList]
    split at hvalue
    case h_1 c rest hdrop =>
      -- The first character that is dropped is the equals sign.
      have hc : decide (c ≠ '=') = false := by
        have hhead := List.head?_dropWhile_not (fun c => decide (c ≠ '=')) cs
        rwa [hdrop] at hhead
      obtain rfl : c = '=' := not_not.1 (of_decide_eq_false hc)
      rw [← hvalue, Option.elim_some, String.toList_ofList, ← hdrop, hsplit]
    case h_2 hdrop =>
      rw [← hvalue, Option.elim_none, ← hdrop, hsplit]
  case h_3 => cases h
  case h_4 => cases h

theorem eq_dashes_of_form (h : form argument = .separator) : argument = "--" := by
  unfold form at h
  split at h
  case h_1 hchars => exact String.toList_inj.1 hchars
  case h_2 => cases h
  case h_3 => cases h
  case h_4 => cases h

theorem form_letters (n : Nat) :
    form (String.ofList ('-' :: List.replicate (n + 1) 'v')) =
      .short (List.replicate (n + 1) 'v') := by
  unfold form
  rw [String.toList_ofList, List.replicate_succ]
  rfl

theorem toList_of_form_short {letters : List Char} (h : form argument = .short letters) :
    argument.toList = '-' :: letters ∧ letters ≠ [] := by
  unfold form at h
  split at h
  case h_1 => cases h
  case h_2 => cases h
  case h_3 c cs _ _ hcs =>
    cases h
    exact ⟨hcs, List.cons_ne_nil c cs⟩
  case h_4 => cases h

theorem readLetters_eq_ok_iff {letters : List Char} :
    readLetters argument letters = .ok () ↔ ∃ n, letters = List.replicate n 'v' := by
  constructor
  · intro h
    fun_induction readLetters argument letters with
    | case1 => exact ⟨0, rfl⟩
    | case2 letters ih =>
      obtain ⟨n, rfl⟩ := ih h
      exact ⟨n + 1, rfl⟩
    | case3 => cases h
    | case4 => cases h
    | case5 => cases h
  · rintro ⟨n, rfl⟩
    induction n with
    | zero => rfl
    | succ n ih => exact ih

end Arguments

theorem Switch.ofName?_eq_some_iff {s : Switch} : Switch.ofName? name = some s ↔ name = s.name := by
  constructor
  · intro h
    have hs := List.find?_some h
    exact (of_decide_eq_true hs).symm
  · rintro rfl
    cases s <;> rfl

theorem Setting.ofName?_eq_some_iff {s : Setting} :
    Setting.ofName? name = some s ↔ name = s.name := by
  constructor
  · intro h
    have hs := List.find?_some h
    exact (of_decide_eq_true hs).symm
  · rintro rfl
    cases s <;> rfl

/-! ## Reading as adding requests -/

namespace Arguments

def add (a : Arguments) : Request → Except Interruption Arguments
  | .source text => a.addSource text
  | .switch s => a.addSwitch s
  | .setting s value => a.addSetting s value
  | .verbose => .ok a

theorem readLong_eq_ok_iff : a.readLong argument name value? = .ok b ↔
    value? = none ∧ ((∃ s : Switch, name = s.name ∧ a.addSwitch s = .ok b) ∨
      name = "verbose" ∧ a = b) := by
  constructor
  · intro h
    unfold readLong at h
    dsimp only at h
    split at h
    case h_1 => cases h
    case h_2 => cases h
    case h_3 result hknown =>
      refine ⟨rfl, ?_⟩
      split at hknown
      case h_1 s hs =>
        exact .inl ⟨s, Switch.ofName?_eq_some_iff.1 hs, (Option.some.inj hknown).trans h⟩
      case h_2 => exact .inr ⟨rfl, Except.ok.inj ((Option.some.inj hknown).trans h)⟩
      case h_3 => cases (Option.some.inj hknown).trans h
      case h_4 => cases (Option.some.inj hknown).trans h
      case h_5 => cases hknown
  · rintro ⟨rfl, ⟨s, rfl, h⟩ | ⟨rfl, rfl⟩⟩
    · simpa only [readLong, Switch.ofName?_eq_some_iff.2 rfl] using h
    · rfl

theorem exists_spells_of_read (h : a.read args = .ok b) : ∃ rs, Spells rs args := by
  fun_induction Arguments.read a args with
  | case1 a => exact ⟨[], .nil⟩
  | case2 a argument rest hform =>
    rw [eq_dashes_of_form hform]
    exact ⟨_, .separator rest⟩
  | case3 a argument rest hform ih =>
    obtain ⟨next, -, hb⟩ := bind_eq_ok_iff.1 h
    obtain ⟨rs, hrs⟩ := ih next hb
    exact ⟨_, .source (isPlain_of_form hform) hrs⟩
  | case4 a argument rest letters hform ih =>
    obtain ⟨⟨⟩, hletters, hb⟩ := bind_eq_ok_iff.1 h
    obtain ⟨rs, hrs⟩ := ih hb
    obtain ⟨n, rfl⟩ := readLetters_eq_ok_iff.1 hletters
    obtain ⟨hchars, hne⟩ := toList_of_form_short hform
    cases n with
    | zero => exact absurd rfl hne
    | succ n =>
      rw [← String.ofList_toList (s := argument), hchars]
      exact ⟨_, .letters n hrs⟩
  | case5 a argument rest name setting value hname hform ih =>
    obtain ⟨next, -, hb⟩ := bind_eq_ok_iff.1 h
    obtain ⟨rs, hrs⟩ := ih next hb
    rw [eq_longOption_of_form hform, Setting.ofName?_eq_some_iff.1 hname]
    exact ⟨_, .joined setting value hrs⟩
  | case6 a argument name setting hname value rest hvalue hform ih =>
    obtain ⟨next, -, hb⟩ := bind_eq_ok_iff.1 h
    obtain ⟨rs, hrs⟩ := ih next hb
    rw [eq_longOption_of_form hform, Setting.ofName?_eq_some_iff.1 hname]
    exact ⟨_, .apart setting (isValue_iff.1 hvalue) hrs⟩
  | case7 => cases h
  | case8 => cases h
  | case9 a argument rest name value? hform hname ih =>
    obtain ⟨next, hnext, hb⟩ := bind_eq_ok_iff.1 h
    obtain ⟨rs, hrs⟩ := ih next hb
    rw [eq_longOption_of_form hform]
    obtain ⟨rfl, ⟨s, rfl, -⟩ | ⟨rfl, rfl⟩⟩ := readLong_eq_ok_iff.1 hnext
    · exact ⟨_, .switch s hrs⟩
    · exact ⟨_, .verbose hrs⟩

end Arguments

open Arguments

theorem Switch.form_longOption (s : Switch) (value? : Option String) :
    form (longOption s.name value?) = .long s.name value? := by
  cases s <;> exact Arguments.form_longOption (by decide) (by decide) value?

theorem Setting.form_longOption (s : Setting) (value? : Option String) :
    form (longOption s.name value?) = .long s.name value? := by
  cases s <;> exact Arguments.form_longOption (by decide) (by decide) value?

theorem Spells.read_eq (h : Spells rs args) (a : Arguments) : a.read args = rs.foldlM add a := by
  induction h generalizing a with
  | nil => rfl
  | source htext hrest ih =>
    simp only [Arguments.read, form_of_isPlain htext, ih, List.foldlM_cons, add]
  | switch s hrest ih =>
    have hnone : Setting.ofName? s.name = none := by cases s <;> rfl
    have hlong : ∀ argument, a.readLong argument s.name none = a.addSwitch s := by
      intro argument
      simp only [readLong, Switch.ofName?_eq_some_iff.2 rfl]
    simp only [Arguments.read, s.form_longOption, hnone, hlong, ih, List.foldlM_cons, add]
  | joined s value hrest ih =>
    simp only [Arguments.read, s.form_longOption, Setting.ofName?_eq_some_iff.2 rfl, ih,
      List.foldlM_cons, add]
  | apart s hvalue hrest ih =>
    simp only [Arguments.read, s.form_longOption, Setting.ofName?_eq_some_iff.2 rfl,
      isValue_iff.2 hvalue, if_true, ih, List.foldlM_cons, add]
  | verbose hrest ih =>
    exact ih a
  | letters n hrest ih =>
    simp only [Arguments.read, form_letters, readLetters_eq_ok_iff.2 ⟨n + 1, rfl⟩, ih,
      List.foldlM_cons, add]
    rfl
  | separator texts =>
    rw [List.foldlM_map]
    rfl

end FrameLang.CommandLine

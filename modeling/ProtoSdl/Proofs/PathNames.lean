import Mathlib.Data.List.Chain
import Mathlib.Data.List.Infix
import ProtoSdl.Name.TypeName

/-! Names of types and the paths they are formed from. Where every segment is in camel case already,
a name is the words of its path, each after an underscore; so it is the name of another path only
if that has the same words. -/
namespace ProtoSdl.Name

/-! ### Letters and their case -/

theorem isUpper_eq (c : Char) : c.isUpper = decide (65 ≤ c.val ∧ c.val ≤ 90) := rfl

theorem isLower_eq (c : Char) : c.isLower = (decide (97 ≤ c.val) && decide (c.val ≤ 122)) := rfl

theorem isAlpha_of_isUpper {c : Char} (h : c.isUpper = true) : c.isAlpha = true :=
  Bool.or_eq_true_iff.mpr (.inl h)

theorem isAlpha_of_isLower {c : Char} (h : c.isLower = true) : c.isAlpha = true :=
  Bool.or_eq_true_iff.mpr (.inr h)

theorem isLower_of_isUpper {c : Char} (h : c.isUpper = true) : c.isLower = false := by
  grind [isUpper_eq, isLower_eq]

theorem isDigit_of_isAlpha {c : Char} (h : c.isAlpha = true) : c.isDigit = false := by
  rcases Bool.or_eq_true_iff.mp h with hupper | hlower
  · grind [isUpper_eq, Char.isDigit]
  · grind [isLower_eq, Char.isDigit]

private theorem val_toUpper {c : Char} (h : 'a'.val ≤ c.val ∧ c.val ≤ 'z'.val) :
    c.toUpper.val = c.val + ('A'.val - 'a'.val) := by
  obtain ⟨_, hcapital⟩ : ∃ hvalid, c.toUpper = ⟨c.val + ('A'.val - 'a'.val), hvalid⟩ :=
    ⟨_, dif_pos h⟩
  rw [hcapital]

private theorem val_toLower {c : Char} (h : 'A'.val ≤ c.val ∧ c.val ≤ 'Z'.val) :
    c.toLower.val = c.val + ('a'.val - 'A'.val) := by
  obtain ⟨_, hsmall⟩ : ∃ hvalid, c.toLower = ⟨c.val + ('a'.val - 'A'.val), hvalid⟩ :=
    ⟨_, dif_pos h⟩
  rw [hsmall]

/-- A lower-case letter becomes a capital, from which it comes back; other characters stay. -/
theorem toUpper_cases (c : Char) :
    (c.isLower = true ∧ c.toUpper.isUpper = true ∧ c.toUpper.toLower = c) ∨
      (c.isLower = false ∧ c.toUpper = c) := by
  by_cases h : 'a'.val ≤ c.val ∧ c.val ≤ 'z'.val
  · have hcapital := val_toUpper h
    have hrange : 'A'.val ≤ c.toUpper.val ∧ c.toUpper.val ≤ 'Z'.val := by grind
    have hback := val_toLower hrange
    exact .inl ⟨by grind [isLower_eq], decide_eq_true hrange, Char.ext (by grind)⟩
  · exact .inr ⟨by grind [isLower_eq], dif_neg h⟩

/-- A capital becomes a lower-case letter, from which it comes back; other characters stay. -/
theorem toLower_cases (c : Char) :
    (c.isUpper = true ∧ c.toLower.isLower = true ∧ c.toLower.toUpper = c) ∨
      (c.isUpper = false ∧ c.toLower = c) := by
  by_cases h : 'A'.val ≤ c.val ∧ c.val ≤ 'Z'.val
  · have hsmall := val_toLower h
    have hrange : 'a'.val ≤ c.toLower.val ∧ c.toLower.val ≤ 'z'.val := by grind
    have hback := val_toUpper hrange
    exact .inl ⟨decide_eq_true h, by grind [isLower_eq], Char.ext (by grind)⟩
  · exact .inr ⟨decide_eq_false h, dif_neg h⟩

theorem toUpper_eq_self {c : Char} (h : c.isLower = false) : c.toUpper = c := by
  rcases toUpper_cases c with ⟨hlower, -⟩ | ⟨-, hsame⟩
  · simp [h] at hlower
  · exact hsame

theorem toLower_eq_self {c : Char} (h : c.isUpper = false) : c.toLower = c := by
  rcases toLower_cases c with ⟨hupper, -⟩ | ⟨-, hsame⟩
  · simp [h] at hupper
  · exact hsame

theorem isUpper_toUpper {c : Char} (h : c.isAlpha = true) : c.toUpper.isUpper = true := by
  rcases toUpper_cases c with ⟨-, hupper, -⟩ | ⟨hlower, hsame⟩
  · exact hupper
  · rw [hsame]
    exact (Bool.or_eq_true_iff.mp h).resolve_right (by simp [hlower])

@[simp] theorem isLower_toUpper (c : Char) : c.toUpper.isLower = false := by
  rcases toUpper_cases c with ⟨-, hupper, -⟩ | ⟨hlower, hsame⟩
  · exact isLower_of_isUpper hupper
  · rw [hsame, hlower]

@[simp] theorem isUpper_toLower (c : Char) : c.toLower.isUpper = false := by
  rcases toLower_cases c with ⟨-, hlower, -⟩ | ⟨hupper, hsame⟩
  · exact Bool.eq_false_iff.mpr fun hupper => by simp [isLower_of_isUpper hupper] at hlower
  · rw [hsame, hupper]

/-! ### Camel case -/

/-- Whether a character may stand after another one in camel case. A lower-case letter goes on with
a word, and no word goes on after an underscore or a digit. -/
def Follows (before c : Char) : Prop := c.isLower = true → before ≠ '_' ∧ before.isDigit = false

private theorem camelTail_eq_self {before : Char} {cs : List Char}
    (h : (before :: cs).IsChain Follows) :
    camelTail (!before.isDigit) cs = cs := by
  induction cs generalizing before with
  | nil => rfl
  | cons c cs ih =>
    obtain ⟨hc, hchain⟩ := List.isChain_cons_cons.mp h
    have hrest := ih hchain
    by_cases hlower : c.isLower = true
    · have hdigit : c.isDigit = false := isDigit_of_isAlpha (isAlpha_of_isLower hlower)
      rw [hdigit, Bool.not_false] at hrest
      rw [camelTail, (hc hlower).2, hlower, hrest]
      rfl
    · have hkept : (c = '_' && cs.head?.any Char.isLower) = false := by
        cases cs with
        | nil => simp
        | cons next cs =>
          obtain ⟨hnext, -⟩ := List.isChain_cons_cons.mp hchain
          by_contra hdropped
          simp only [Bool.not_eq_false, Bool.and_eq_true, decide_eq_true_eq, List.head?_cons,
            Option.any_some] at hdropped
          exact (hnext hdropped.2).1 hdropped.1
      rw [camelTail, toUpper_eq_self (Bool.eq_false_iff.mpr hlower), hkept]
      cases hdigit : c.isDigit <;> rw [hdigit] at hrest <;> simpa [hlower] using hrest

/-- A text in camel case is its own camel case. -/
theorem camelCase_eq_self {cs : List Char} (hfirst : ∀ c ∈ cs.head?, c ≠ '_' ∧ c.isLower = false)
    (h : cs.IsChain Follows) : camelCase cs = cs := by
  cases cs with
  | nil => rfl
  | cons c cs =>
    obtain ⟨hunderscore, hlower⟩ := hfirst c rfl
    have hrest := camelTail_eq_self h
    have htail : camelCase (c :: cs) = camelTail false (c :: cs) := by
      rw [camelCase]
      exact fun _ hc => hunderscore (List.cons.inj hc).1
    rw [htail, camelTail, toUpper_eq_self hlower]
    cases hdigit : c.isDigit <;> rw [hdigit] at hrest <;> simpa [hunderscore] using hrest

/-! ### Words of a path -/

/-- A segment in the style of type names: a capital, then letters and digits, and no lower-case
letter right after a digit. -/
def IsStyled (segment : String) : Prop :=
  segment.toList.head?.any Char.isUpper = true ∧ segment.toList.all Char.isAlphanum = true ∧
    segment.toList.IsChain fun before c => before.isDigit = true → c.isLower = false

instance (segment : String) : Decidable (IsStyled segment) :=
  inferInstanceAs (Decidable (_ ∧ _ ∧ _))

def withoutEntry (segment : String) : String :=
  if "Entry".toList <:+ segment.toList then
    String.ofList (segment.toList.take (segment.toList.length - "Entry".length))
  else segment

namespace TypePath

/-- The words of a path: its segments, where the last one of a map loses the word `Entry`, and the
marks of maps and inputs. -/
def words (path : TypePath) : List String :=
  (if path.isMap then
    path.segments.dropLast ++ (path.segments.getLast?.map withoutEntry).toList ++ ["Map"]
  else path.segments) ++
    if path.isInput then ["Input"] else []

end TypePath

theorem withoutEntry_append {segment : String} {rest : List Char}
    (h : segment.toList = rest ++ "Entry".toList) : withoutEntry segment = String.ofList rest := by
  rw [withoutEntry, if_pos ⟨rest, h.symm⟩, h, List.length_append]
  exact congrArg String.ofList (List.take_left' rfl)

theorem start_withoutEntry (segment : String) :
    (withoutEntry segment).toList <+: segment.toList := by
  unfold withoutEntry
  split
  · rw [String.toList_ofList]
    exact List.take_prefix _ _
  · exact List.prefix_rfl

private theorem dropEnd_entry (segment : String) :
    Text.dropEnd "Entry" segment = withoutEntry segment := by
  by_cases h : "Entry".toList <:+ segment.toList
  · obtain ⟨rest, hrest⟩ := h
    rw [Text.dropEnd_append hrest.symm, withoutEntry_append hrest.symm]
  · rw [Text.dropEnd_of_not_suffix h, withoutEntry, if_neg h]

private theorem dropEntry_eq (segments : List String) : dropEntry segments =
    segments.dropLast ++ (segments.getLast?.map withoutEntry).toList := by
  fun_induction dropEntry segments with
  | case1 => rfl
  | case2 last => simp [dropEnd_entry]
  | case3 segment segments hne ih =>
    cases segments with
    | nil => exact absurd rfl hne
    | cons second segments => simp [ih]

/-- A name goes on with the words of its path, in camel case and each after an underscore. -/
theorem TypePath.extension_eq (path : TypePath) :
    path.extension = path.words.flatMap fun word => '_' :: camelCase word.toList := by
  have hmap : ["Map"].flatMap (fun word => '_' :: camelCase word.toList) = "_Map".toList := by
    decide
  have hinput : ["Input"].flatMap (fun word => '_' :: camelCase word.toList) = "_Input".toList := by
    decide
  unfold extension words
  rw [dropEntry_eq]
  cases path.isMap <;> cases path.isInput <;>
    simp only [List.flatMap_append, List.append_nil, hmap, hinput, if_true, Bool.false_eq_true,
      if_false]

/-- What a styled segment begins with is in camel case, and one word of a name. -/
theorem IsStyled.camelCase_eq {segment : String} (h : IsStyled segment) {cs : List Char}
    (hcs : cs <+: segment.toList) : camelCase cs = cs ∧ '_' ∉ cs := by
  obtain ⟨hfirst, hplain, hchain⟩ := h
  obtain ⟨rest, hrest⟩ := hcs
  rw [← hrest] at hfirst hplain hchain
  have hnone : '_' ∉ cs := by
    intro hm
    simpa using List.all_eq_true.mp hplain '_' (List.mem_append_left _ hm)
  refine ⟨camelCase_eq_self (fun c hc => ?_) ?_, hnone⟩
  · have hupper : c.isUpper = true := by
      simpa [List.head?_append, Option.mem_def.mp hc] using hfirst
    exact ⟨fun heq => hnone (heq ▸ List.mem_of_mem_head? hc),
      isLower_of_isUpper hupper⟩
  · refine hchain.left_of_append.imp_of_mem_imp fun before c hbefore _ hfollows hlower => ?_
    refine ⟨fun heq => hnone (heq ▸ hbefore), Bool.eq_false_iff.mpr fun hdigit => ?_⟩
    simp [hfollows hdigit] at hlower

/-- The words of a path are what its segments begin with, and the marks. -/
theorem TypePath.start_of_word {path : TypePath} {word : String} (h : word ∈ path.words) :
    (∃ segment ∈ path.segments, word.toList <+: segment.toList) ∨ word ∈ ["Map", "Input"] := by
  unfold words at h
  rcases List.mem_append.mp h with h | h
  · split at h
    · simp only [List.mem_append, Option.mem_toList, Option.map_eq_some_iff,
        List.mem_singleton] at h
      rcases h with (h | ⟨last, hlast, rfl⟩) | rfl
      · exact .inl ⟨word, List.mem_of_mem_dropLast h, List.prefix_rfl⟩
      · exact .inl ⟨last, List.mem_of_getLast? hlast, start_withoutEntry last⟩
      · exact .inr (by simp)
    · exact .inl ⟨word, h, List.prefix_rfl⟩
  · split at h
    · exact .inr (List.mem_cons_of_mem _ h)
    · simp at h

/-- The words of a styled path are in camel case and hold no underscore. -/
theorem TypePath.camelCase_of_styled {path : TypePath}
    (h : ∀ segment ∈ path.segments, IsStyled segment) {word : String} (hword : word ∈ path.words) :
    camelCase word.toList = word.toList ∧ '_' ∉ word.toList := by
  rcases start_of_word hword with ⟨segment, hsegment, hstart⟩ | hmark
  · exact (h segment hsegment).camelCase_eq hstart
  · have hmarks : ∀ mark ∈ ["Map", "Input"], IsStyled mark := by decide
    exact (hmarks word hmark).camelCase_eq List.prefix_rfl

/-- The words of a styled path stand in its names as they are. -/
theorem TypePath.extension_of_styled {path : TypePath}
    (h : ∀ segment ∈ path.segments, IsStyled segment) :
    path.extension = (path.words.map String.toList).flatMap ('_' :: ·) := by
  rw [extension_eq, List.flatMap_map]
  refine List.flatMap_congr fun word hword => ?_
  rw [(camelCase_of_styled h hword).1]

/-- Names of styled paths on one stem are the same exactly where the words of the paths are. So
different paths of messages that are no map entries never share the name of an object. -/
theorem styled_names_meet_iff_words_do (space package : String) {a b : TypePath}
    (ha : ∀ segment ∈ a.segments, IsStyled segment)
    (hb : ∀ segment ∈ b.segments, IsStyled segment) :
    (typeName "" (stem space package) a = typeName "" (stem space package) b ↔
      a.words = b.words) ∧
    (a.isMap = false → b.isMap = false → a.isInput = false → b.isInput = false →
      a.segments ≠ b.segments →
        typeName "" (stem space package) a ≠ typeName "" (stem space package) b) := by
  have hplain : ∀ {path : TypePath}, (∀ segment ∈ path.segments, IsStyled segment) →
      ∀ word ∈ path.words.map String.toList, '_' ∉ word := by
    intro path hpath word hword
    obtain ⟨text, htext, rfl⟩ := List.mem_map.mp hword
    exact (TypePath.camelCase_of_styled hpath htext).2
  have hiff : typeName "" (stem space package) a = typeName "" (stem space package) b ↔
      a.words = b.words := by
    rw [typeName_untrimmed, typeName_untrimmed, TypePath.extension_of_styled ha,
      TypePath.extension_of_styled hb]
    constructor
    · intro h
      have hchars := List.append_cancel_left (String.ofList_inj.mp h)
      have hwords := Text.eq_of_flatMap_cons_eq (hplain ha) (hplain hb) hchars
      exact List.map_injective_iff.mpr (fun _ _ heq => String.toList_inj.mp heq) hwords
    · intro h
      rw [h]
  refine ⟨hiff, fun hmap hmap' hinput hinput' hne heq => hne ?_⟩
  have hwords := hiff.mp heq
  simpa [TypePath.words, hmap, hmap', hinput, hinput'] using hwords

/-- The input of a map entry has the name of the input of a message called `Map`. -/
theorem labels_meet_nested_map :
    (∀ segment ∈ ["Bag", "LabelsEntry"], IsStyled segment) ∧
      (∀ segment ∈ ["Bag", "Labels", "Map"], IsStyled segment) ∧
      typeName "" (stem "" "acme.v1") ⟨["Bag", "LabelsEntry"], true, true⟩ =
        typeName "" (stem "" "acme.v1") ⟨["Bag", "Labels", "Map"], false, true⟩ :=
  ⟨by decide, by decide,
    (styled_names_meet_iff_words_do "" "acme.v1" (by decide) (by decide)).1.mpr (by decide)⟩

end ProtoSdl.Name

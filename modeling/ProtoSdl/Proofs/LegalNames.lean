import ProtoSdl.Name.Words
import ProtoSdl.Proofs.MemberTexts
import ProtoSdl.Proofs.PathNames

/-! Which names can be written in a schema. Identifiers have the form of names, and casing keeps
to the characters of names; what it can spoil is the first one. -/
namespace ProtoSdl.Name

open Schema (IsName isNameText isNameStart isNameChar)

/-! ### Characters of names -/

theorem isNameChar_of_isAlpha {c : Char} (h : c.isAlpha = true) : isNameChar c = true := by
  simp [isNameChar, Char.isAlphanum, h]

theorem toNat_lt_of_isNameChar {c : Char} (h : isNameChar c = true) : c.toNat < 0x80 := by
  by_cases hunderscore : c = '_'
  · subst hunderscore
    decide
  · have halphanum : c.isAlphanum = true := by simpa [isNameChar, hunderscore] using h
    have hle : c.val ≤ 122 := by
      rcases Bool.or_eq_true_iff.mp halphanum with halpha | hdigit
      · rcases Bool.or_eq_true_iff.mp halpha with hupper | hlower
        · grind [isUpper_eq]
        · grind [isLower_eq]
      · grind [Char.isDigit]
    exact Nat.lt_of_le_of_lt (UInt32.le_iff_toNat_le.mp hle) (by decide)

theorem isNameChar_toUpper {c : Char} (h : isNameChar c = true) : isNameChar c.toUpper = true := by
  rcases toUpper_cases c with ⟨-, hupper, -⟩ | ⟨-, hsame⟩
  · exact isNameChar_of_isAlpha (isAlpha_of_isUpper hupper)
  · rwa [hsame]

theorem isNameChar_toLower {c : Char} (h : isNameChar c = true) : isNameChar c.toLower = true := by
  rcases toLower_cases c with ⟨-, hlower, -⟩ | ⟨-, hsame⟩
  · exact isNameChar_of_isAlpha (isAlpha_of_isLower hlower)
  · rwa [hsame]

/-- Characters of names are a name if the first of them may begin one. -/
theorem isNameText_eq {cs : List Char} (h : ∀ c ∈ cs, isNameChar c = true) :
    isNameText cs = cs.head?.any isNameStart := by
  cases cs with
  | nil => rfl
  | cons c cs =>
    have hall : cs.all isNameChar = true :=
      List.all_eq_true.mpr fun d hd => h d (List.mem_cons_of_mem _ hd)
    simp [isNameText, hall]

/-! ### Names of types -/

private theorem isNameChar_camelTail (inWord : Bool) {cs : List Char}
    (h : ∀ c ∈ cs, isNameChar c = true) : ∀ c ∈ camelTail inWord cs, isNameChar c = true := by
  induction cs generalizing inWord with
  | nil => simp [camelTail]
  | cons d cs ih =>
    have hd := h d List.mem_cons_self
    have htail := fun inWord => ih inWord fun c hc => h c (List.mem_cons_of_mem _ hc)
    rw [camelTail]
    split
    · exact List.forall_mem_cons.mpr ⟨hd, htail true⟩
    · split
      · exact htail false
      · split
        · exact List.forall_mem_cons.mpr ⟨hd, htail false⟩
        · exact List.forall_mem_cons.mpr ⟨isNameChar_toUpper hd, htail true⟩

theorem isNameChar_camelCase {cs : List Char} (h : ∀ c ∈ cs, isNameChar c = true) :
    ∀ c ∈ camelCase cs, isNameChar c = true := by
  unfold camelCase
  split
  · exact List.forall_mem_cons.mpr
      ⟨rfl, isNameChar_camelTail false fun c hc => h c (List.mem_cons_of_mem _ hc)⟩
  · exact isNameChar_camelTail false h

/-- The camel case of a name begins with a capital. -/
theorem isUpper_head_camelCase {cs : List Char} (h : isNameText cs = true) :
    ∃ first rest, camelCase cs = first :: rest ∧ first.isUpper = true := by
  cases cs with
  | nil => contradiction
  | cons c cs =>
    by_cases hunderscore : c = '_'
    · subst hunderscore
      exact ⟨'X', _, rfl, rfl⟩
    · have hstart : isNameStart c = true := by
        simp only [isNameText, Bool.and_eq_true] at h
        exact h.1
      have halpha : c.isAlpha = true := by simpa [isNameStart, hunderscore] using hstart
      refine ⟨c.toUpper, camelTail true cs, ?_, ?_⟩
      · rw [camelCase, camelTail]
        · simp [hunderscore, isDigit_of_isAlpha halpha]
        · exact fun _ hc => hunderscore (List.cons.inj hc).1
      · exact isUpper_toUpper halpha

/-- The start of a name is a name, unless it is empty. -/
theorem isNameText_of_append {cs ds : List Char} (h : isNameText (cs ++ ds) = true)
    (hne : cs ≠ []) : isNameText cs = true := by
  obtain ⟨c, cs, rfl⟩ := List.exists_cons_of_ne_nil hne
  simp only [List.cons_append, isNameText, List.all_append, Bool.and_eq_true] at h ⊢
  exact ⟨h.1, h.2.1⟩

private theorem isNameText_append {cs ds : List Char} (h : isNameText cs = true)
    (hd : ∀ d ∈ ds, isNameChar d = true) : isNameText (cs ++ ds) = true := by
  cases cs with
  | nil => contradiction
  | cons c cs =>
    simp only [List.cons_append, isNameText, List.all_append, Bool.and_eq_true] at h ⊢
    exact ⟨h.1, h.2, List.all_eq_true.mpr hd⟩

/-- Identifiers joined by underscores are an identifier. -/
theorem isNameText_intercalate {parts : List String} (h : ∀ part ∈ parts, IsName part)
    (hne : parts ≠ []) : isNameText (['_'].intercalate (parts.map String.toList)) = true := by
  obtain ⟨part, parts, rfl⟩ := List.exists_cons_of_ne_nil hne
  obtain ⟨hpart, hparts⟩ := List.forall_mem_cons.mp h
  rw [List.map_cons, Text.intercalate_cons_eq]
  refine isNameText_append hpart fun c hc => ?_
  obtain ⟨piece, hpiece, hc⟩ := List.mem_flatMap.mp hc
  obtain ⟨other, hother, rfl⟩ := List.mem_map.mp hpiece
  rcases List.mem_cons.mp hc with rfl | hc
  · rfl
  · exact (hparts other hother).isNameChar hc

private theorem packageStem_of_names {parts : List String} (h : ∀ part ∈ parts, IsName part)
    (hne : parts ≠ []) : packageStem (".".intercalate parts) =
      camelCase (['_'].intercalate (parts.map String.toList)) := by
  have hsplit : Text.splitChars '.' (".".intercalate parts).toList = parts.map String.toList :=
    Text.splitChars_toList_intercalate rfl hne fun part hpart =>
      (h part hpart).not_mem (by decide)
  have hpackage : ".".intercalate parts ≠ "" := by
    intro hempty
    rw [hempty] at hsplit
    obtain ⟨part, parts, rfl⟩ := List.exists_cons_of_ne_nil hne
    have hnil := (List.cons.inj hsplit).1
    exact (h part List.mem_cons_self).ne_empty (String.toList_eq_nil_iff.mp hnil.symm)
  rw [packageStem, if_neg hpackage, camelCaseJoined, hsplit]

/-- What follows the stem in the name of a path of identifiers can stand in a name. -/
theorem TypePath.isNameChar_extension {path : TypePath}
    (h : ∀ segment ∈ path.segments, IsName segment) :
    ∀ c ∈ path.extension, isNameChar c = true := by
  intro c hc
  rw [extension_eq] at hc
  obtain ⟨word, hword, hc⟩ := List.mem_flatMap.mp hc
  rcases List.mem_cons.mp hc with rfl | hc
  · rfl
  · refine isNameChar_camelCase (fun d hd => ?_) c hc
    rcases start_of_word hword with ⟨segment, hsegment, hstart⟩ | hmark
    · exact (h segment hsegment).isNameChar (hstart.mem hd)
    · have hmarks : ∀ mark ∈ ["Map", "Input"], IsName mark := by decide
      exact (hmarks word hmark).isNameChar hd

private theorem eq_entry_of_withoutEntry {segment : String} (hne : segment ≠ "")
    (h : withoutEntry segment = "") : segment = "Entry" := by
  by_cases hsuffix : "Entry".toList <:+ segment.toList
  · obtain ⟨rest, hrest⟩ := hsuffix
    rw [withoutEntry_append hrest.symm, String.ofList_eq_empty_iff] at h
    rw [h, List.nil_append] at hrest
    exact (String.toList_inj.mp hrest).symm
  · rw [withoutEntry, if_neg hsuffix] at h
    contradiction

theorem TypePath.head?_words {path : TypePath} {segment : String} {segments : List String}
    (h : path.segments = segment :: segments) : path.words.head? =
      some (if path.isMap = true ∧ segments = [] then withoutEntry segment else segment) := by
  unfold words
  rw [h]
  cases path.isMap <;> cases segments <;> simp

/-- The first word of a path of identifiers is an identifier, unless it is the bare word `Entry` of
a map. -/
theorem TypePath.exists_first_word {path : TypePath} (hne : path.segments ≠ [])
    (h : ∀ segment ∈ path.segments, IsName segment)
    (hentry : ¬ (path.isMap = true ∧ path.segments = ["Entry"])) :
    ∃ first rest, path.words = first :: rest ∧ IsName first := by
  obtain ⟨segment, segments, hsegments⟩ := List.exists_cons_of_ne_nil hne
  have hsegment : IsName segment := h segment (by simp [hsegments])
  obtain ⟨rest, hrest⟩ := List.head?_eq_some_iff.mp (head?_words hsegments)
  refine ⟨_, rest, hrest, ?_⟩
  split
  · rename_i hlast
    have hfull : withoutEntry segment ≠ "" := by
      intro hempty
      apply hentry
      rw [hsegments, hlast.2, eq_entry_of_withoutEntry hsegment.ne_empty hempty]
      exact ⟨hlast.1, rfl⟩
    obtain ⟨more, hmore⟩ := start_withoutEntry segment
    unfold IsName at hsegment ⊢
    rw [← hmore] at hsegment
    exact isNameText_of_append hsegment (mt String.toList_eq_nil_iff.mp hfull)
  · exact hsegment

private theorem ne_underscore_of_isUpper {c : Char} (h : c.isUpper = true) : '_' ≠ c := by
  rintro rfl
  contradiction

/-- Type names are legal: on a package of identifiers a path of identifiers gives a name, and one
that begins with two underscores only for a map that has no name but `Entry` and no package. -/
theorem type_names_are_legal {parts : List String} (hparts : ∀ part ∈ parts, IsName part)
    {path : TypePath} (hne : path.segments ≠ [])
    (hpath : ∀ segment ∈ path.segments, IsName segment) :
    IsName (typeName "" (stem "" (".".intercalate parts)) path) ∧
      ("__".toList <+: (typeName "" (stem "" (".".intercalate parts)) path).toList ↔
        parts = [] ∧ path.isMap = true ∧ path.segments = ["Entry"]) := by
  have hextension := TypePath.isNameChar_extension hpath
  have hreserved : "__".toList = ['_', '_'] := rfl
  unfold IsName
  rw [typeName_untrimmed, String.toList_ofList, stem, if_pos rfl, hreserved]
  by_cases hnil : parts = []
  · subst hnil
    have hempty : packageStem (".".intercalate []) = [] := rfl
    rw [hempty, List.nil_append, isNameText_eq hextension]
    by_cases hentry : path.isMap = true ∧ path.segments = ["Entry"]
    · obtain ⟨segments, isMap, isInput⟩ := path
      obtain ⟨rfl, rfl⟩ := hentry
      cases isInput <;> decide
    · obtain ⟨word, words, hwords, hword⟩ := TypePath.exists_first_word hne hpath hentry
      obtain ⟨first, rest, hcased, hupper⟩ := isUpper_head_camelCase hword
      have hcons : path.extension = '_' :: first :: (rest ++
          words.flatMap fun word => '_' :: camelCase word.toList) := by
        rw [TypePath.extension_eq, hwords, List.flatMap_cons, hcased]
        rfl
      simp [hcons, List.cons_prefix_cons, ne_underscore_of_isUpper hupper, hentry, isNameStart]
  · have hname := isNameText_intercalate hparts hnil
    obtain ⟨first, rest, hcased, hupper⟩ := isUpper_head_camelCase hname
    have hstem := packageStem_of_names hparts hnil
    have hchars : ∀ c ∈ packageStem (".".intercalate parts) ++ path.extension,
        isNameChar c = true := by
      rw [hstem]
      exact List.forall_mem_append.mpr ⟨isNameChar_camelCase fun c hc =>
        Schema.isNameChar_of_isNameText hname hc, hextension⟩
    rw [isNameText_eq hchars, hstem, hcased]
    simp [List.cons_prefix_cons, ne_underscore_of_isUpper hupper, hnil, isNameStart,
      isAlpha_of_isUpper hupper]

theorem underscored_entry_is_legal :
    (∀ part ∈ ["_", "v1__"], IsName part) ∧ (∀ segment ∈ ["__", "_1Entry"], IsName segment) ∧
      IsName (typeName "" (stem "" (".".intercalate ["_", "v1__"]))
        ⟨["__", "_1Entry"], true, false⟩) ∧
      ¬ "__".toList <+: (typeName "" (stem "" (".".intercalate ["_", "v1__"]))
        ⟨["__", "_1Entry"], true, false⟩).toList := by
  have hparts : ∀ part ∈ ["_", "v1__"], IsName part := by decide
  have hsegments : ∀ segment ∈ ["__", "_1Entry"], IsName segment := by decide
  have hlegal := @type_names_are_legal _ hparts ⟨_, true, false⟩ (by simp) hsegments
  exact ⟨hparts, hsegments, hlegal.1, fun hstart => by simpa using hlegal.2.mp hstart⟩

/-! ### Names of fields and methods -/

theorem flatMap_lower {cs : List Char} (h : ∀ c ∈ cs, isNameChar c = true) :
    cs.flatMap Text.lower = cs.map Char.toLower :=
  Text.flatMap_lower_ascii fun c hc => toNat_lt_of_isNameChar (h c hc)

private theorem isNameChar_capitalWord {word : List Char} (h : ∀ c ∈ word, isNameChar c = true) :
    ∀ c ∈ capitalWord word, isNameChar c = true := by
  unfold capitalWord
  split
  · cases word with
    | nil => simp [upperFirst]
    | cons c cs =>
      obtain ⟨hc, hcs⟩ := List.forall_mem_cons.mp h
      rw [upperFirst, Text.upper_ascii (toNat_lt_of_isNameChar hc)]
      exact List.forall_mem_cons.mpr ⟨isNameChar_toUpper hc, hcs⟩
  · exact h

theorem openingWord_map_toLower (cs : List Char) :
    openingWord (cs.map Char.toLower) = cs.map Char.toLower := by
  cases cs with
  | nil => rfl
  | cons c cs => simp [openingWord]

private theorem isNameStart_toLower (c : Char) : isNameStart c.toLower = isNameStart c := by
  rcases toLower_cases c with ⟨hupper, hlower, -⟩ | ⟨-, hsame⟩
  · simp [isNameStart, isAlpha_of_isUpper hupper, isAlpha_of_isLower hlower]
  · rw [hsame]

section Joined

variable {pieces : List (List Char)} (hchars : ∀ piece ∈ pieces, ∀ c ∈ piece, isNameChar c = true)

include hchars

theorem isNameChar_joinLowerCamel :
    ∀ c ∈ joinLowerCamel (pieces.map (·.flatMap Text.lower)), isNameChar c = true := by
  have hlowered : ∀ piece ∈ pieces, ∀ c ∈ piece.map Char.toLower, isNameChar c = true := by
    intro piece hpiece c hc
    obtain ⟨d, hd, rfl⟩ := List.mem_map.mp hc
    exact isNameChar_toLower (hchars piece hpiece d hd)
  cases pieces with
  | nil => simp [joinLowerCamel]
  | cons piece pieces =>
    intro c hc
    rw [List.map_cons, joinLowerCamel, flatMap_lower (hchars _ List.mem_cons_self),
      openingWord_map_toLower] at hc
    rcases List.mem_append.mp hc with hc | hc
    · exact hlowered piece List.mem_cons_self c hc
    · obtain ⟨word, hword, hc⟩ := List.mem_flatMap.mp hc
      obtain ⟨own, hown, rfl⟩ := List.mem_map.mp hword
      rw [flatMap_lower (hchars _ (List.mem_cons_of_mem _ hown))] at hc
      exact isNameChar_capitalWord (hlowered own (List.mem_cons_of_mem _ hown)) c hc

/-- Pieces of a name, joined in lower camel case, begin as they did, but in lower case. -/
theorem head?_joinLowerCamel (hne : ∀ piece ∈ pieces, piece ≠ []) :
    (joinLowerCamel (pieces.map (·.flatMap Text.lower))).head? =
      pieces.flatten.head?.map Char.toLower := by
  cases pieces with
  | nil => rfl
  | cons piece pieces =>
    obtain ⟨c, cs, rfl⟩ := List.exists_cons_of_ne_nil (hne piece List.mem_cons_self)
    rw [List.map_cons, joinLowerCamel, flatMap_lower (hchars _ List.mem_cons_self),
      openingWord_map_toLower]
    rfl

end Joined

theorem ne_nil_of_mem_cutAtCapitals {name piece : List Char} (h : piece ∈ cutAtCapitals name) :
    piece ≠ [] := by
  induction name generalizing piece with
  | nil => simp [cutAtCapitals] at h
  | cons c cs ih =>
    rw [cutAtCapitals] at h
    split at h
    · simp_all
    · rename_i first pieces hpieces
      rw [hpieces] at ih
      split at h
      · rcases List.mem_cons.mp h with rfl | h
        · simp
        · exact ih h
      · rcases List.mem_cons.mp h with rfl | h
        · simp
        · exact ih (List.mem_cons_of_mem _ h)

/-- Characters of names, the first of them lowered, are a name if it may begin one. -/
theorem isNameText_of_head? {cs : List Char} (h : ∀ c ∈ cs, isNameChar c = true)
    {first : Option Char} (hfirst : cs.head? = first.map Char.toLower) :
    isNameText cs = first.any isNameStart := by
  rw [isNameText_eq h, hfirst]
  cases first with
  | none => rfl
  | some c => exact isNameStart_toLower c

section Cut

variable {name : List Char} (h : ∀ c ∈ name, isNameChar c = true)

include h

/-- Cutting at capitals keeps the first character. -/
theorem capitalToLowerCamel_spec :
    (∀ c ∈ capitalToLowerCamel name, isNameChar c = true) ∧
      (capitalToLowerCamel name).head? = name.head?.map Char.toLower := by
  have hchars : ∀ piece ∈ cutAtCapitals name, ∀ c ∈ piece, isNameChar c = true :=
    fun piece hpiece c hc => h c (mem_of_mem_cutAtCapitals hpiece hc)
  refine ⟨isNameChar_joinLowerCamel hchars, ?_⟩
  rw [capitalToLowerCamel, capitalWords,
    head?_joinLowerCamel hchars fun _ hpiece => ne_nil_of_mem_cutAtCapitals hpiece,
    flatten_cutAtCapitals]

/-- Cutting at underscores loses those in front. -/
theorem underscoreToLowerCamel_spec :
    (∀ c ∈ underscoreToLowerCamel name, isNameChar c = true) ∧
      (underscoreToLowerCamel name).head? = (name.find? (· ≠ '_')).map Char.toLower := by
  have hchars : ∀ piece ∈ (Text.splitChars '_' name).filter (· ≠ []), ∀ c ∈ piece,
      isNameChar c = true := fun piece hpiece c hc =>
    h c (Text.mem_of_mem_splitChars (List.mem_of_mem_filter hpiece) hc)
  refine ⟨isNameChar_joinLowerCamel hchars, ?_⟩
  rw [underscoreToLowerCamel, underscoreWords, head?_joinLowerCamel hchars fun _ hpiece => by
      simpa using List.of_mem_filter hpiece, List.flatten_filter_ne_nil, Text.flatten_splitChars,
    List.head?_filter]

end Cut

private theorem isDigit_toLower (c : Char) : c.toLower.isDigit = c.isDigit := by
  rcases toLower_cases c with ⟨hupper, hlower, -⟩ | ⟨-, hsame⟩
  · have hletter : c.isAlpha = true := isAlpha_of_isUpper hupper
    have hsmall : c.toLower.isAlpha = true := isAlpha_of_isLower hlower
    rw [isDigit_of_isAlpha hletter, isDigit_of_isAlpha hsmall]
  · rw [hsame]

/-- What becomes of an identifier as the name of a method and of a field. Cutting at capitals keeps
its first character, and so the name is legal. Cutting at underscores loses those in front: the name
is legal exactly where a letter follows them, it is empty where nothing follows, and it begins with
a digit where a digit does. -/
theorem lower_camel_names_are_legal_iff {name : String} (h : IsName name) :
    IsName (String.ofList (capitalToLowerCamel name.toList)) ∧
    (IsName (String.ofList (underscoreToLowerCamel name.toList)) ↔
      (name.toList.find? (· ≠ '_')).any Char.isAlpha = true) ∧
    (underscoreToLowerCamel name.toList = [] ↔ ∀ c ∈ name.toList, c = '_') ∧
    ((underscoreToLowerCamel name.toList).head?.any Char.isDigit =
      (name.toList.find? (· ≠ '_')).any Char.isDigit) := by
  have hchars : ∀ c ∈ name.toList, isNameChar c = true := fun c hc => h.isNameChar hc
  obtain ⟨hcapital, hfirst⟩ := capitalToLowerCamel_spec hchars
  obtain ⟨hunderscore, hrest⟩ := underscoreToLowerCamel_spec hchars
  unfold IsName
  rw [String.toList_ofList, String.toList_ofList, isNameText_of_head? hcapital hfirst,
    isNameText_of_head? hunderscore hrest]
  refine ⟨?_, ?_, ?_, ?_⟩
  · rw [← isNameText_eq hchars]
    exact h
  · cases hfind : name.toList.find? (· ≠ '_') with
    | none => rfl
    | some c =>
      have hc := List.find?_some hfind
      simp_all [isNameStart]
  · rw [← List.head?_eq_none_iff, hrest, Option.map_eq_none_iff, List.find?_eq_none]
    simp
  · rw [hrest, Option.any_map]
    simp [isDigit_toLower]

theorem ordered_name_is_legal :
    IsName "__order_2" ∧ IsName (String.ofList (capitalToLowerCamel "__order_2".toList)) ∧
      IsName (String.ofList (underscoreToLowerCamel "__order_2".toList)) :=
  have h : IsName "__order_2" := by decide
  ⟨h, (lower_camel_names_are_legal_iff h).1,
    (lower_camel_names_are_legal_iff h).2.1.mpr (by decide)⟩

/-- Identifiers that become no name, or one with a digit in front. -/
theorem underscored_digit_is_not_legal :
    (IsName "_" ∧ underscoreToLowerCamel "_".toList = []) ∧
      (IsName "_1" ∧ underscoreToLowerCamel "_1".toList = ['1']) ∧
      ¬ ∀ name, IsName name → IsName (String.ofList (underscoreToLowerCamel name.toList)) ∧
        IsName (String.ofList (capitalToLowerCamel name.toList)) := by
  refine ⟨by decide, by decide, fun hlegal => ?_⟩
  have hdigit : ¬ IsName (String.ofList (underscoreToLowerCamel "_1".toList)) := by decide
  exact hdigit (hlegal "_1" (by decide)).1

end ProtoSdl.Name

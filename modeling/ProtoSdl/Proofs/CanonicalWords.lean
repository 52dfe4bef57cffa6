import Mathlib.Data.Set.Operations
import ProtoSdl.Proofs.LegalNames

/-! Words read back from the names they were joined to. A canonical word is a lower-case letter
followed by lower-case letters and digits. It holds neither an underscore nor a capital, so that the
joints of a joined name are the only places to cut it at. -/
namespace ProtoSdl.Name

open Schema (isNameChar)

/-- A word of a canonical name: a lower-case letter, then lower-case letters and digits. -/
def IsWord (word : List Char) : Prop :=
  word.head?.any Char.isLower = true ∧ word.all (fun c => c.isLower || c.isDigit) = true

instance (word : List Char) : Decidable (IsWord word) :=
  inferInstanceAs (Decidable (_ ∧ _))

/-- A canonical name: words joined by single underscores. -/
def IsCanonical (name : List Char) : Prop :=
  ∃ words, (∀ word ∈ words, IsWord word) ∧ name = ['_'].intercalate words

namespace IsWord

variable {word : List Char} (h : IsWord word)

include h

theorem isLower_or_isDigit {c : Char} (hc : c ∈ word) : c.isLower = true ∨ c.isDigit = true := by
  simpa using List.all_eq_true.mp h.2 c hc

theorem isUpper_eq_false {c : Char} (hc : c ∈ word) : c.isUpper = false := by
  rcases h.isLower_or_isDigit hc with hlower | hdigit
  · grind [isUpper_eq, isLower_eq]
  · grind [isUpper_eq, Char.isDigit]

theorem isNameChar_of_mem {c : Char} (hc : c ∈ word) : isNameChar c = true := by
  rcases h.isLower_or_isDigit hc with hlower | hdigit
  · exact isNameChar_of_isAlpha (isAlpha_of_isLower hlower)
  · simp [isNameChar, Char.isAlphanum, hdigit]

private theorem underscore_not_mem : '_' ∉ word := by
  intro hc
  simpa using h.isLower_or_isDigit hc

theorem ne_nil : word ≠ [] := by
  rintro rfl
  simpa using h.1

/-- A word is in lower case already. -/
theorem flatMap_lower_eq : word.flatMap Text.lower = word := by
  rw [flatMap_lower fun c hc => h.isNameChar_of_mem hc]
  refine (List.map_congr_left fun c hc => ?_).trans (List.map_id word)
  exact toLower_eq_self (h.isUpper_eq_false hc)

private theorem openingWord_eq : openingWord word = word := by
  obtain ⟨c, cs, rfl⟩ := List.exists_cons_of_ne_nil h.ne_nil
  simp [openingWord, h.isUpper_eq_false List.mem_cons_self]

/-- A word that follows another begins with its only capital. -/
theorem exists_capitalWord : ∃ first rest, capitalWord word = first :: rest ∧
    first.isUpper = true ∧ (∀ c ∈ rest, c.isUpper = false) ∧
      (capitalWord word).flatMap Text.lower = word := by
  obtain ⟨c, cs, rfl⟩ := List.exists_cons_of_ne_nil h.ne_nil
  have hlower : c.isLower = true := by simpa using h.1
  have hname := h.isNameChar_of_mem List.mem_cons_self
  have hcapital : capitalWord (c :: cs) = c.toUpper :: cs := by
    simp [capitalWord, hlower, upperFirst, Text.upper_ascii (toNat_lt_of_isNameChar hname)]
  have hsame : c.toUpper.toLower = c.toLower := by
    rcases toUpper_cases c with ⟨-, -, hback⟩ | ⟨-, hsame⟩
    · rw [hback, toLower_eq_self (h.isUpper_eq_false List.mem_cons_self)]
    · rw [hsame]
  have hback : Text.lower c.toUpper = Text.lower c := by
    rw [Text.lower_ascii (toNat_lt_of_isNameChar (isNameChar_toUpper hname)),
      Text.lower_ascii (toNat_lt_of_isNameChar hname), hsame]
  refine ⟨c.toUpper, cs, hcapital, ?_, fun d hd => ?_, ?_⟩
  · exact isUpper_toUpper (isAlpha_of_isLower hlower)
  · exact h.isUpper_eq_false (List.mem_cons_of_mem _ hd)
  · rw [hcapital, List.flatMap_cons, hback, ← List.flatMap_cons, h.flatMap_lower_eq]

end IsWord

/-! ### Cutting joined words -/

/-- The first piece of a name begins as the name does. -/
theorem head?_of_cutAtCapitals {name piece : List Char} {pieces : List (List Char)}
    (h : cutAtCapitals name = piece :: pieces) : piece.head? = name.head? := by
  have hpiece : piece ≠ [] := ne_nil_of_mem_cutAtCapitals (h ▸ List.mem_cons_self)
  rw [← flatten_cutAtCapitals name, h, List.flatten_cons, List.head?_append_of_ne_nil _ hpiece]

/-- A piece goes on to the next capital. -/
theorem cutAtCapitals_append (first : Char) {cs rest : List Char}
    (hplain : ∀ c ∈ cs, c.isUpper = false) (hrest : ∀ c ∈ rest.head?, c.isUpper = true) :
    cutAtCapitals (first :: cs ++ rest) = (first :: cs) :: cutAtCapitals rest := by
  induction cs generalizing first with
  | nil =>
    rw [List.singleton_append, cutAtCapitals]
    cases hpieces : cutAtCapitals rest with
    | nil => rfl
    | cons piece pieces =>
      have hhead := head?_of_cutAtCapitals hpieces
      have hne : piece ≠ [] := ne_nil_of_mem_cutAtCapitals (hpieces ▸ List.mem_cons_self)
      obtain ⟨c, cs, rfl⟩ := List.exists_cons_of_ne_nil hne
      have hupper : (c :: cs).head?.any Char.isUpper = true := hrest c hhead.symm
      simp only [hupper, if_true]
  | cons c cs ih =>
    have hcut := ih c fun d hd => hplain d (List.mem_cons_of_mem _ hd)
    have hc : (c :: cs).head?.any Char.isUpper = false := hplain c List.mem_cons_self
    rw [List.cons_append, cutAtCapitals, hcut]
    simp only [hc, Bool.false_eq_true, if_false]

section Words

variable {words : List (List Char)} (h : ∀ word ∈ words, IsWord word)

include h

private theorem underscoreWords_intercalate :
    underscoreWords (['_'].intercalate words) = words := by
  by_cases hnil : words = []
  · subst hnil
    rfl
  · have hfull : words.filter (· ≠ []) = words :=
      List.filter_eq_self.mpr fun word hword => by simpa using (h word hword).ne_nil
    rw [underscoreWords, Text.splitChars_joined hnil fun word hword =>
      (h word hword).underscore_not_mem, hfull]
    exact (List.map_congr_left fun word hword => (h word hword).flatMap_lower_eq).trans
      (List.map_id words)

theorem isUpper_head_joinUpperCamel : ∀ c ∈ (joinUpperCamel words).head?, c.isUpper = true := by
  cases words with
  | nil => simp [joinUpperCamel]
  | cons word words =>
    obtain ⟨first, rest, hcapital, hupper, -, -⟩ := (h word List.mem_cons_self).exists_capitalWord
    intro c hc
    rw [joinUpperCamel, List.flatMap_cons, hcapital] at hc
    cases hc
    exact hupper

private theorem cutAtCapitals_joinUpperCamel :
    cutAtCapitals (joinUpperCamel words) = words.map capitalWord := by
  induction words with
  | nil => rfl
  | cons word words ih =>
    obtain ⟨hword, hwords⟩ := List.forall_mem_cons.mp h
    obtain ⟨first, rest, hcapital, -, hplain, -⟩ := hword.exists_capitalWord
    have hcut := cutAtCapitals_append first hplain (isUpper_head_joinUpperCamel hwords)
    rw [List.map_cons, ← ih hwords, hcapital, ← hcut, ← hcapital]
    rfl

theorem capitalWords_joinUpperCamel : capitalWords (joinUpperCamel words) = words := by
  rw [capitalWords, cutAtCapitals_joinUpperCamel h, List.map_map]
  refine (List.map_congr_left fun word hword => ?_).trans (List.map_id words)
  obtain ⟨-, -, -, -, -, hback⟩ := (h word hword).exists_capitalWord
  exact hback

private theorem capitalWords_joinLowerCamel : capitalWords (joinLowerCamel words) = words := by
  cases words with
  | nil => rfl
  | cons word words =>
    obtain ⟨hword, hwords⟩ := List.forall_mem_cons.mp h
    have hrest := capitalWords_joinUpperCamel hwords
    obtain ⟨c, cs, rfl⟩ := List.exists_cons_of_ne_nil hword.ne_nil
    have hcut := cutAtCapitals_append c
      (fun d hd => hword.isUpper_eq_false (List.mem_cons_of_mem _ hd))
      (isUpper_head_joinUpperCamel hwords)
    rw [joinLowerCamel, hword.openingWord_eq, ← joinUpperCamel, capitalWords, hcut, List.map_cons,
      hword.flatMap_lower_eq, ← capitalWords, hrest]

private theorem nil_not_mem_words : [] ∉ words := fun hnil => (h [] hnil).ne_nil rfl

end Words

/-- Casing is reversible on canonical words: joined by underscores, in lower camel case or in upper
camel case, they are read back from the joined name. So canonical names that differ are told apart by
their lower camel case. -/
theorem canonical_casing_is_reversible :
    (∀ words : List (List Char), (∀ word ∈ words, IsWord word) →
      underscoreWords (['_'].intercalate words) = words ∧
      (∃ name, joinLowerCamel? words = some name ∧ capitalWords name = words) ∧
      ∃ name, joinUpperCamel? words = some name ∧ capitalWords name = words) ∧
    Set.InjOn underscoreToLowerCamel { name | IsCanonical name } := by
  constructor
  · intro words h
    refine ⟨underscoreWords_intercalate h, ⟨_, if_neg (nil_not_mem_words h), ?_⟩,
      ⟨_, if_neg (nil_not_mem_words h), ?_⟩⟩
    · exact capitalWords_joinLowerCamel h
    · exact capitalWords_joinUpperCamel h
  · rintro _ ⟨words, h, rfl⟩ _ ⟨others, hothers, rfl⟩ hsame
    have hwords : words = others := by
      rw [underscoreToLowerCamel, underscoreToLowerCamel, underscoreWords_intercalate h,
        underscoreWords_intercalate hothers] at hsame
      rw [← capitalWords_joinLowerCamel h, hsame, capitalWords_joinLowerCamel hothers]
    rw [hwords]

theorem order_line_is_reversible :
    (∀ word ∈ ["order".toList, "line2".toList], IsWord word) ∧
      underscoreWords "order_line2".toList = ["order".toList, "line2".toList] ∧
      IsCanonical "order_line2".toList ∧ IsCanonical "orderline2".toList ∧
      underscoreToLowerCamel "order_line2".toList ≠ underscoreToLowerCamel "orderline2".toList := by
  have hwords : ∀ word ∈ ["order".toList, "line2".toList], IsWord word := by decide
  have hname : IsCanonical "order_line2".toList := ⟨_, hwords, rfl⟩
  have hother : IsCanonical "orderline2".toList := ⟨["orderline2".toList], by decide, rfl⟩
  refine ⟨hwords, (canonical_casing_is_reversible.1 _ hwords).1, hname, hother, fun hsame => ?_⟩
  have hequal := canonical_casing_is_reversible.2 hname hother hsame
  exact absurd hequal (by decide)

-- A word that begins with a digit has no capital to be cut at.
example : underscoreToLowerCamel "line_2".toList = underscoreToLowerCamel "line2".toList := by
  decide

end ProtoSdl.Name

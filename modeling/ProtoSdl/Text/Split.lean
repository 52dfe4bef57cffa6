/-!
# Cutting text at a character

Text is cut as a list of characters, so that every law is an induction. A separator always
cuts: neighbouring separators leave an empty piece between them, and the pieces joined by the
separator are the text again.
-/

namespace ProtoSdl.Text

/-- The pieces between the occurrences of `sep`; there is always at least one. -/
def splitChars (sep : Char) : List Char → List (List Char)
  | [] => [[]]
  | c :: cs =>
    if c = sep then [] :: splitChars sep cs
    else match splitChars sep cs with
      | [] => [[c]]
      | piece :: pieces => (c :: piece) :: pieces

def split (sep : Char) (text : String) : List String :=
  (splitChars sep text.toList).map String.ofList

/-- What stands before the first `sep`, and what stands after it; the second part is empty
when there is no `sep`. -/
def cutChars (sep : Char) (cs : List Char) : List Char × List Char :=
  (cs.takeWhile (· ≠ sep), (cs.dropWhile (· ≠ sep)).drop 1)

def cut (sep : Char) (text : String) : String × String :=
  let (before, after) := cutChars sep text.toList
  (String.ofList before, String.ofList after)

def afterStart? {α : Type} [DecidableEq α] : List α → List α → Option (List α)
  | [], cs => some cs
  | _ :: _, [] => none
  | s :: start, c :: cs => if s = c then afterStart? start cs else none

def startsWith (start text : String) : Bool :=
  (afterStart? start.toList text.toList).isSome

/-- A text without its given start, or the text itself if it does not begin so. -/
def dropStart (start text : String) : String :=
  match afterStart? start.toList text.toList with
  | some rest => String.ofList rest
  | none => text

def dropEnd (ending text : String) : String :=
  match afterStart? ending.toList.reverse text.toList.reverse with
  | some rest => String.ofList rest.reverse
  | none => text

theorem splitChars_ne_nil (sep : Char) (cs : List Char) : splitChars sep cs ≠ [] := by
  cases cs with
  | nil => simp [splitChars]
  | cons c cs =>
    simp only [splitChars]
    split
    · simp
    · split <;> simp

/-- Joining the pieces by the separator gives the text back. -/
theorem intercalate_splitChars (sep : Char) (cs : List Char) :
    [sep].intercalate (splitChars sep cs) = cs := by
  induction cs with
  | nil => rfl
  | cons c cs ih =>
    have nonempty := splitChars_ne_nil sep cs
    rw [splitChars]
    cases pieces : splitChars sep cs with
    | nil => exact absurd pieces nonempty
    | cons piece rest =>
      rw [pieces] at ih
      by_cases h : c = sep
      · subst h
        cases rest <;> simp_all [List.intercalate, List.intersperse]
      · cases rest <;> simp_all [List.intercalate, List.intersperse]

/-- The pieces hold the text but for the separators. -/
theorem flatten_splitChars (sep : Char) (cs : List Char) :
    (splitChars sep cs).flatten = cs.filter (· ≠ sep) := by
  induction cs with
  | nil => rfl
  | cons c cs ih =>
    rw [splitChars]
    split
    · simp_all
    · cases pieces : splitChars sep cs with
      | nil => exact absurd pieces (splitChars_ne_nil sep cs)
      | cons piece rest => simp_all

theorem mem_filter_of_mem_splitChars {sep : Char} {cs piece : List Char}
    (h : piece ∈ splitChars sep cs) {c : Char} (hc : c ∈ piece) : c ∈ cs.filter (· ≠ sep) := by
  rw [← flatten_splitChars]
  exact List.mem_flatten_of_mem h hc

/-- No piece holds the separator. -/
theorem not_mem_of_mem_splitChars {sep : Char} {cs piece : List Char}
    (h : piece ∈ splitChars sep cs) : sep ∉ piece := by
  intro hsep
  simpa using (List.mem_filter.mp (mem_filter_of_mem_splitChars h hsep)).2

theorem mem_of_mem_splitChars {sep : Char} {cs piece : List Char} (h : piece ∈ splitChars sep cs)
    {c : Char} (hc : c ∈ piece) : c ∈ cs :=
  (List.mem_filter.mp (mem_filter_of_mem_splitChars h hc)).1

/-- Characters other than the separator go to the first piece of what follows them. -/
theorem splitChars_append {sep : Char} {cs rest piece : List Char} {pieces : List (List Char)}
    (h : sep ∉ cs) (hr : splitChars sep rest = piece :: pieces) :
    splitChars sep (cs ++ rest) = (cs ++ piece) :: pieces := by
  induction cs with
  | nil => exact hr
  | cons c cs ih =>
    have hc : c ≠ sep := fun heq => h (by simp [heq])
    have ht : sep ∉ cs := fun hm => h (List.mem_cons_of_mem _ hm)
    simp [splitChars, hc, ih ht]

/-- A text without the separator is one piece. -/
theorem splitChars_of_not_mem {sep : Char} {cs : List Char} (h : sep ∉ cs) :
    splitChars sep cs = [cs] := by
  have hnil : splitChars sep [] = [[]] := rfl
  simpa using splitChars_append h hnil

/-- The first piece ends where the separator first stands. -/
theorem splitChars_append_cons {sep : Char} {piece : List Char} (h : sep ∉ piece)
    (rest : List Char) : splitChars sep (piece ++ sep :: rest) = piece :: splitChars sep rest := by
  have hcons : splitChars sep (sep :: rest) = [] :: splitChars sep rest := by simp [splitChars]
  simpa using splitChars_append h hcons

/-- Text on both sides of a separator is cut on its own. -/
theorem splitChars_append_sep (sep : Char) (cs rest : List Char) :
    splitChars sep (cs ++ sep :: rest) = splitChars sep cs ++ splitChars sep rest := by
  induction cs with
  | nil => simp [splitChars]
  | cons c cs ih =>
    rw [List.cons_append, splitChars, splitChars, ih]
    split
    · rfl
    · cases pieces : splitChars sep cs with
      | nil => exact absurd pieces (splitChars_ne_nil sep cs)
      | cons piece pieces => rfl

/-- Joined pieces are cut at the joints and inside the pieces. -/
theorem splitChars_intercalate (sep : Char) {pieces : List (List Char)} (h : pieces ≠ []) :
    splitChars sep ([sep].intercalate pieces) = pieces.flatMap (splitChars sep) := by
  induction pieces with
  | nil => exact absurd rfl h
  | cons first pieces ih =>
    cases pieces with
    | nil => simp
    | cons second pieces =>
      rw [List.intercalate_cons_cons, List.append_assoc, List.singleton_append,
        splitChars_append_sep, ih (by simp)]
      rfl

theorem flatMap_splitChars {sep : Char} {pieces : List (List Char)}
    (h : ∀ piece ∈ pieces, sep ∉ piece) : pieces.flatMap (splitChars sep) = pieces := by
  induction pieces with
  | nil => rfl
  | cons piece pieces ih =>
    rw [List.flatMap_cons, splitChars_of_not_mem (h piece List.mem_cons_self),
      ih fun other ho => h other (List.mem_cons_of_mem _ ho)]
    rfl

/-- Pieces without the separator are got back from their joining. -/
theorem splitChars_joined {sep : Char} {pieces : List (List Char)} (hne : pieces ≠ [])
    (h : ∀ piece ∈ pieces, sep ∉ piece) : splitChars sep ([sep].intercalate pieces) = pieces := by
  rw [splitChars_intercalate sep hne, flatMap_splitChars h]

/-- `splitChars_joined` on texts. -/
theorem splitChars_toList_intercalate {sep : Char} {joint : String} {pieces : List String}
    (hjoint : joint.toList = [sep]) (hne : pieces ≠ [])
    (h : ∀ piece ∈ pieces, sep ∉ piece.toList) :
    splitChars sep (joint.intercalate pieces).toList = pieces.map String.toList := by
  rw [String.toList_intercalate, hjoint]
  apply splitChars_joined (by simpa using hne)
  intro cs hcs
  obtain ⟨piece, hpiece, rfl⟩ := List.mem_map.mp hcs
  exact h piece hpiece

theorem split_intercalate {sep : Char} {joint : String} {pieces : List String}
    (hjoint : joint.toList = [sep]) (hne : pieces ≠ [])
    (h : ∀ piece ∈ pieces, sep ∉ piece.toList) : split sep (joint.intercalate pieces) = pieces := by
  rw [split, splitChars_toList_intercalate hjoint hne h]
  simp [Function.comp_def]

/-- The pieces of a text are those that hold no separator and join to it. -/
theorem split_eq_iff {sep : Char} {joint text : String} {pieces : List String}
    (hjoint : joint.toList = [sep]) : split sep text = pieces ↔
      pieces ≠ [] ∧ (∀ piece ∈ pieces, sep ∉ piece.toList) ∧ joint.intercalate pieces = text := by
  constructor
  · rintro rfl
    refine ⟨?_, ?_, ?_⟩
    · simpa [split] using splitChars_ne_nil sep text.toList
    · intro piece hpiece
      obtain ⟨cs, hcs, rfl⟩ := List.mem_map.mp hpiece
      rw [String.toList_ofList]
      exact not_mem_of_mem_splitChars hcs
    · have hback : (split sep text).map String.toList = splitChars sep text.toList := by
        simp [split, Function.comp_def]
      rw [← String.toList_inj, String.toList_intercalate, hjoint, hback, intercalate_splitChars]
  · rintro ⟨hne, hplain, rfl⟩
    exact split_intercalate hjoint hne hplain

/-- There is one piece more than there are separators. -/
theorem length_splitChars (sep : Char) (cs : List Char) :
    (splitChars sep cs).length = cs.count sep + 1 := by
  induction cs with
  | nil => rfl
  | cons c cs ih =>
    rw [splitChars]
    split
    · rename_i h
      rw [List.length_cons, ih, h, List.count_cons_self]
    · rename_i h
      rw [List.count_cons_of_ne h, ← ih]
      cases pieces : splitChars sep cs with
      | nil => exact absurd pieces (splitChars_ne_nil sep cs)
      | cons piece pieces => rfl

theorem length_split (sep : Char) (text : String) :
    (split sep text).length = text.toList.count sep + 1 := by
  rw [split, List.length_map, length_splitChars]

theorem intercalate_cons_eq (sep : Char) (first : List Char) (pieces : List (List Char)) :
    [sep].intercalate (first :: pieces) = first ++ pieces.flatMap (sep :: ·) := by
  induction pieces generalizing first with
  | nil => simp
  | cons second pieces ih =>
    rw [List.intercalate_cons_cons, ih]
    simp

/-- Pieces without the separator, each after one, can be told apart. -/
theorem eq_of_flatMap_cons_eq {sep : Char} {pieces others : List (List Char)}
    (hp : ∀ piece ∈ pieces, sep ∉ piece) (ho : ∀ other ∈ others, sep ∉ other)
    (h : pieces.flatMap (sep :: ·) = others.flatMap (sep :: ·)) : pieces = others := by
  have hsplit : ∀ list : List (List Char), (∀ piece ∈ list, sep ∉ piece) →
      splitChars sep (list.flatMap (sep :: ·)) = [] :: list := by
    intro list hlist
    have hjoined := splitChars_joined (List.cons_ne_nil [] list)
      (List.forall_mem_cons.mpr ⟨List.not_mem_nil, hlist⟩)
    rwa [intercalate_cons_eq, List.nil_append] at hjoined
  have hpieces := hsplit pieces hp
  rw [h, hsplit others ho] at hpieces
  exact (List.cons.inj hpieces).2.symm

theorem mem_of_mem_intercalate {sep : List Char} {pieces : List (List Char)} {c : Char}
    (h : c ∈ sep.intercalate pieces) : c ∈ sep ∨ ∃ piece ∈ pieces, c ∈ piece := by
  induction pieces with
  | nil => simp at h
  | cons piece pieces ih =>
    cases pieces with
    | nil => exact .inr ⟨piece, by simp, by simpa using h⟩
    | cons second pieces =>
      rw [List.intercalate_cons_cons, List.append_assoc] at h
      rcases List.mem_append.mp h with h | h
      · exact .inr ⟨piece, by simp, h⟩
      · rcases List.mem_append.mp h with h | h
        · exact .inl h
        · exact (ih h).imp_right fun ⟨other, ho, hc⟩ => ⟨other, List.mem_cons_of_mem _ ho, hc⟩

theorem cutChars_append_cons {sep : Char} {piece : List Char} (h : sep ∉ piece)
    (rest : List Char) : cutChars sep (piece ++ sep :: rest) = (piece, rest) := by
  have hall : ∀ c ∈ piece, (c ≠ sep : Bool) = true := by
    intro c hc
    simp only [decide_eq_true_eq]
    rintro rfl
    exact h hc
  unfold cutChars
  rw [List.takeWhile_append_of_pos hall, List.dropWhile_append_of_pos hall]
  simp

theorem afterStart?_eq_some_iff {α : Type} [DecidableEq α] {start cs rest : List α} :
    afterStart? start cs = some rest ↔ cs = start ++ rest := by
  induction start generalizing cs with
  | nil => simp [afterStart?]
  | cons s start ih =>
    cases cs with
    | nil => simp [afterStart?]
    | cons c cs =>
      by_cases h : s = c
      · simp [afterStart?, h, ih]
      · simp [afterStart?, h, Ne.symm h]

theorem dropEnd_append {ending text : String} {rest : List Char}
    (h : text.toList = rest ++ ending.toList) : dropEnd ending text = String.ofList rest := by
  have hrest : afterStart? ending.toList.reverse text.toList.reverse = some rest.reverse := by
    rw [afterStart?_eq_some_iff, h, List.reverse_append]
  rw [dropEnd, hrest]
  simp

theorem dropEnd_of_not_suffix {ending text : String} (h : ¬ ending.toList <:+ text.toList) :
    dropEnd ending text = text := by
  unfold dropEnd
  split
  · rename_i rest hrest
    rw [afterStart?_eq_some_iff, List.reverse_eq_iff, List.reverse_append,
      List.reverse_reverse] at hrest
    exact absurd ⟨rest.reverse, hrest.symm⟩ h
  · rfl

end ProtoSdl.Text

import ProtoSdl.Schema.Printer

/-! Descriptions read back from the lines they are printed on. Escaping leaves no three quotes at
the start of a line, so the closing line of a block string is the first that looks like one,
whatever the text inside says. -/
namespace ProtoSdl.Schema

open Text (splitChars isBlank isBlankText)

/-- Takes back what `escapeQuotes` added. -/
def unescapeQuotes : List Char → List Char
  | '\\' :: '"' :: '"' :: '"' :: rest => '"' :: '"' :: '"' :: unescapeQuotes rest
  | c :: rest => c :: unescapeQuotes rest
  | [] => []

/-- The line that opens and closes a block string, apart from its indentation. -/
def fence : List Char := ['"', '"', '"']

theorem head_of_escapeQuotes {cs rest : List Char} (h : escapeQuotes cs = '"' :: rest) :
    ∃ tail, cs = '"' :: tail ∧ rest = escapeQuotes tail := by
  fun_cases escapeQuotes cs with
  | case1 tail => simp [escapeQuotes] at h
  | case2 c tail hc =>
    simp only [escapeQuotes, List.cons.injEq] at h
    exact ⟨tail, by rw [h.1], h.2.symm⟩
  | case3 => simp [escapeQuotes] at h

theorem escapeQuotes_ne_fence_append (cs rest : List Char) : escapeQuotes cs ≠ fence ++ rest := by
  intro h
  -- three quotes in a row come from three quotes in a row, and those were escaped
  obtain ⟨first, rfl, hfirst⟩ := head_of_escapeQuotes h
  obtain ⟨second, rfl, hsecond⟩ := head_of_escapeQuotes hfirst.symm
  obtain ⟨third, rfl, -⟩ := head_of_escapeQuotes hsecond.symm
  simp [escapeQuotes, fence] at h

private theorem unescapeQuotes_cons {c : Char} {rest : List Char}
    (h : ∀ tail, rest ≠ fence ++ tail) : unescapeQuotes (c :: rest) = c :: unescapeQuotes rest := by
  rw [unescapeQuotes.eq_def]
  split
  · rename_i tail heq
    obtain ⟨-, rfl⟩ := List.cons.inj heq
    exact absurd rfl (h tail)
  · rename_i heq
    obtain ⟨rfl, rfl⟩ := List.cons.inj heq
    rfl
  · contradiction

private theorem unescapeQuotes_escapeQuotes (cs : List Char) :
    unescapeQuotes (escapeQuotes cs) = cs := by
  fun_induction escapeQuotes cs with
  | case1 rest ih => rw [unescapeQuotes, ih]
  | case2 c rest _ ih =>
    rw [unescapeQuotes_cons fun tail => escapeQuotes_ne_fence_append rest tail, ih]
  | case3 => rfl

theorem mem_escapeQuotes {cs : List Char} {c : Char} (h : c ∈ cs) : c ∈ escapeQuotes cs := by
  fun_induction escapeQuotes cs with
  | case1 rest ih =>
    simp only [List.mem_cons] at h ⊢
    rcases h with h | h | h | h
    · exact .inr (.inl h)
    · exact .inr (.inl h)
    · exact .inr (.inl h)
    · exact .inr (.inr (.inr (.inr (ih h))))
  | case2 first rest _ ih =>
    rcases List.mem_cons.mp h with rfl | h
    · exact List.mem_cons_self
    · exact List.mem_cons_of_mem _ (ih h)
  | case3 => exact h

/-- A text is escaped line by line. -/
theorem splitChars_escapeQuotes (cs : List Char) :
    splitChars '\n' (escapeQuotes cs) = (splitChars '\n' cs).map escapeQuotes := by
  fun_induction escapeQuotes cs with
  | case1 rest ih =>
    cases hp : splitChars '\n' rest with
    | nil => exact absurd hp (Text.splitChars_ne_nil _ _)
    | cons piece pieces => simp [splitChars, ih, hp, escapeQuotes]
  | case2 c rest hc ih =>
    by_cases hn : c = '\n'
    · simp [splitChars, hn, ih, escapeQuotes]
    · cases hp : splitChars '\n' rest with
      | nil => exact absurd hp (Text.splitChars_ne_nil _ _)
      | cons piece pieces =>
        -- the line begins as the text does, so it is escaped no earlier
        have hline : escapeQuotes (c :: piece) = c :: escapeQuotes piece := by
          rw [escapeQuotes]
          intro tail hcq htail
          obtain ⟨more, rfl⟩ : ∃ more, rest = piece ++ more := by
            have hjoin := Text.intercalate_splitChars '\n' rest
            rw [hp] at hjoin
            cases pieces with
            | nil => exact ⟨[], by simpa using hjoin.symm⟩
            | cons second pieces =>
              rw [List.intercalate_cons_cons, List.append_assoc] at hjoin
              exact ⟨_, hjoin.symm⟩
          exact hc (tail ++ more) hcq (by simp [htail])
        simp [splitChars, hn, ih, hp, hline]
  | case3 => rfl

/-- No line of a description is white space and nothing else. -/
def ClearLines (description : String) : Prop :=
  ∀ line ∈ splitChars '\n' description.toList, line = [] ∨ ∃ c ∈ line, isBlank c = false

instance (description : String) : Decidable (ClearLines description) :=
  have (line : List Char) : Decidable (∃ c ∈ line, isBlank c = false) := List.decidableBEx _ line
  List.decidableBAll (fun line => line = [] ∨ ∃ c ∈ line, isBlank c = false) _

def printedLine (indent line : List Char) : List Char :=
  if line = [] then [] else indent ++ escapeQuotes line

def escapedLine (indent line : List Char) : List Char :=
  if line.all isBlank then [] else indent ++ escapeQuotes line

@[simp] theorem all_isBlank_escapeQuotes (cs : List Char) :
    (escapeQuotes cs).all isBlank = cs.all isBlank := by
  fun_induction escapeQuotes cs with
  | case1 rest ih => rfl
  | case2 c rest _ ih => simp [ih]
  | case3 => rfl

private theorem toList_blockLine (indent : String) (line : List Char) :
    (blockLine indent (String.ofList (escapeQuotes line))).toList =
      escapedLine indent.toList line := by
  rw [blockLine, isBlankText, String.toList_ofList, all_isBlank_escapeQuotes, escapedLine]
  split
  · rfl
  · rw [String.toList_append, String.toList_ofList]

private theorem escapedLine_eq_printedLine {line : List Char}
    (h : line = [] ∨ ∃ c ∈ line, isBlank c = false) (indent : List Char) :
    escapedLine indent line = printedLine indent line := by
  rcases h with rfl | ⟨c, hc, hblank⟩
  · rfl
  · have hne : line ≠ [] := List.ne_nil_of_mem hc
    have hall : line.all isBlank = false := List.all_eq_false.mpr ⟨c, hc, by simp [hblank]⟩
    simp [escapedLine, printedLine, hall, hne]

private theorem printedLine_ne_fence (indent line : List Char) :
    printedLine indent line ≠ indent ++ fence := by
  unfold printedLine
  split
  · simp [fence]
  · intro h
    have hfence := List.append_cancel_left h
    exact escapeQuotes_ne_fence_append line [] (by simpa using hfence)

private theorem unescapeQuotes_printedLine (indent line : List Char) :
    unescapeQuotes ((printedLine indent line).drop indent.length) = line := by
  unfold printedLine
  split
  · simp_all [unescapeQuotes]
  · simp [unescapeQuotes_escapeQuotes]

theorem descriptionLines_escaped {description : String} (hne : description ≠ "") (indent : String) :
    (descriptionLines indent description).map String.toList =
      (indent.toList ++ fence) ::
        ((splitChars '\n' description.toList).map (escapedLine indent.toList) ++
          [indent.toList ++ fence]) := by
  have hfence : (indent ++ "\"\"\"").toList = indent.toList ++ fence := String.toList_append
  rw [descriptionLines, if_neg hne, Text.split, String.toList_ofList, splitChars_escapeQuotes]
  simp [hfence, toList_blockLine, Function.comp_def]

private theorem descriptionLines_toList {indent description : String} (hne : description ≠ "")
    (hclear : ClearLines description) :
    (descriptionLines indent description).map String.toList =
      (indent.toList ++ fence) ::
        ((splitChars '\n' description.toList).map (printedLine indent.toList) ++
          [indent.toList ++ fence]) := by
  have hlines : (splitChars '\n' description.toList).map (escapedLine indent.toList) =
      (splitChars '\n' description.toList).map (printedLine indent.toList) :=
    List.map_congr_left fun line hl => escapedLine_eq_printedLine (hclear line hl) _
  rw [descriptionLines_escaped hne, hlines]

/-- A line with the description that stands in front of it. -/
structure Described where
  description : String
  line : List Char
  deriving DecidableEq

/-- Where a reader of lines stands: at a line that has a description, or inside a block string with
an indentation, after some lines of it. -/
inductive Reading
  | line (description : List Char)
  | block (indent : List Char) (before : List (List Char))

/-- The indentation of a line that opens a block string. -/
def opening? (line : List Char) : Option (List Char) :=
  [[], memberIndent.toList].find? fun indent => line = indent ++ fence

def describedLines : Reading → List (List Char) → List Described
  | _, [] => []
  | .line description, line :: lines =>
    match opening? line with
    | some indent => describedLines (.block indent []) lines
    | none => ⟨String.ofList description, line⟩ :: describedLines (.line []) lines
  | .block indent before, line :: lines =>
    if line = indent ++ fence then describedLines (.line (['\n'].intercalate before)) lines
    else
      describedLines (.block indent (before ++ [unescapeQuotes (line.drop indent.length)])) lines

private theorem describedLines_block (indent : List Char) (before lines rest : List (List Char)) :
    describedLines (.block indent before)
        (lines.map (printedLine indent) ++ (indent ++ fence) :: rest) =
      describedLines (.line (['\n'].intercalate (before ++ lines))) rest := by
  induction lines generalizing before with
  | nil => simp [describedLines]
  | cons line lines ih =>
    rw [List.map_cons, List.cons_append, describedLines, if_neg (printedLine_ne_fence indent line),
      unescapeQuotes_printedLine, ih, List.append_assoc, List.singleton_append]

/-- A line is read with the description printed in front of it. -/
theorem describedLines_described {indent description : String} {line : List Char}
    (hindent : indent = "" ∨ indent = memberIndent) (hclear : ClearLines description)
    (hline : opening? line = none) (rest : List (List Char)) :
    describedLines (.line []) ((descriptionLines indent description).map String.toList ++
        line :: rest) =
      ⟨description, line⟩ :: describedLines (.line []) rest := by
  by_cases hne : description = ""
  · subst hne
    simp [descriptionLines, describedLines, hline]
  · have hopen : opening? (indent.toList ++ fence) = some indent.toList := by
      rcases hindent with rfl | rfl <;> decide
    rw [descriptionLines_toList hne hclear, List.cons_append, describedLines, hopen]
    simp only [List.append_assoc, List.cons_append, List.nil_append]
    rw [describedLines_block, List.nil_append, Text.intercalate_splitChars, describedLines, hline]
    simp [String.ofList_toList]

end ProtoSdl.Schema

import Mathlib.Data.List.DropRight
import ProtoSdl.Comment
import ProtoSdl.Options.Document
import ProtoSdl.Proofs.BlockStrings

/-! Block strings read by the rules of the schema language. A reader knows neither where a block
string was printed nor how far its lines were indented: it scans for the closing quotes, takes off
the indentation that the lines have in common and drops the blank lines at both ends. -/
namespace ProtoSdl.Schema

open Text (splitChars isBlank isBlankText)

/-! ### Reading -/

def isSpacing (c : Char) : Bool := c = ' ' || c = '\t'

/-- What an opened block string holds, and what follows the quotes that close it. Quotes after a
backslash do not close it and stand for quotes. -/
def scanBlock? : List Char → Option (List Char × List Char)
  | '\\' :: '"' :: '"' :: '"' :: rest => (scanBlock? rest).map (Prod.map (fence ++ ·) id)
  | '"' :: '"' :: '"' :: rest => some ([], rest)
  | c :: rest => (scanBlock? rest).map (Prod.map (c :: ·) id)
  | [] => none

def indentation (line : List Char) : Nat := (line.takeWhile isSpacing).length

/-- The least indentation of the lines that are more than white space. -/
def commonIndentation (lines : List (List Char)) : Nat :=
  ((lines.filter fun line => !line.all isSpacing).map indentation).min?.getD 0

/-- The lines of a block string as they are meant. The first one begins at the opening quotes and
has no indentation to lose. -/
def meantLines : List (List Char) → List (List Char)
  | [] => []
  | first :: lines =>
    ((first :: lines.map (·.drop (commonIndentation lines))).dropWhile (·.all isSpacing)).rdropWhile
      (·.all isSpacing)

def blockValue (content : List Char) : String :=
  String.ofList (['\n'].intercalate (meantLines (splitChars '\n' (Options.unifyLineEnds content))))

/-- The value of the block string at the start of a text, and what follows it. -/
def readBlockString? (cs : List Char) : Option (String × List Char) :=
  (Text.afterStart? fence (cs.dropWhile isSpacing)).bind fun opened =>
    (scanBlock? opened).map (Prod.map blockValue id)

/-! ### Scanning what was escaped -/

private theorem escapeQuotes_cons_of_ne {c : Char} (h : c ≠ '"') (cs : List Char) :
    escapeQuotes (c :: cs) = c :: escapeQuotes cs := by
  rw [escapeQuotes]
  intro rest hc
  exact absurd hc h

theorem escapeQuotes_append {cs : List Char} (h : '"' ∉ cs) (ds : List Char) :
    escapeQuotes (cs ++ ds) = cs ++ escapeQuotes ds := by
  induction cs with
  | nil => rfl
  | cons c cs ih =>
    simp only [List.mem_cons, not_or] at h
    rw [List.cons_append, escapeQuotes_cons_of_ne (Ne.symm h.1), ih h.2, List.cons_append]

/-- A text that neither takes part in the quotes behind it nor escapes them. -/
def EndsOpen (cs : List Char) : Prop := ∀ c ∈ cs.getLast?, c ≠ '"' ∧ c ≠ '\\'

theorem EndsOpen.tail {c : Char} {cs : List Char} (h : EndsOpen (c :: cs)) : EndsOpen cs := by
  intro d hd
  apply h d
  rw [List.getLast?_cons, Option.mem_def.mp hd]
  rfl

/-- A quote at the start of an escaped text was there before it was escaped, with more behind it. -/
theorem EndsOpen.of_quote {cs after rest : List Char} (hopen : EndsOpen cs) (hne : cs ≠ [])
    (h : escapeQuotes cs ++ after = '"' :: rest) :
    ∃ tail, cs = '"' :: tail ∧ tail ≠ [] ∧ EndsOpen tail ∧ escapeQuotes tail ++ after = rest := by
  cases hcs : escapeQuotes cs with
  | nil =>
    obtain ⟨c, hc⟩ := List.exists_mem_of_ne_nil cs hne
    have hm := mem_escapeQuotes hc
    simp [hcs] at hm
  | cons d ds =>
    rw [hcs] at h
    obtain ⟨rfl, hrest⟩ := List.cons.inj h
    obtain ⟨tail, rfl, rfl⟩ := head_of_escapeQuotes hcs
    refine ⟨tail, rfl, ?_, hopen.tail, hrest⟩
    rintro rfl
    exact (hopen '"' rfl).1 rfl

private theorem scanBlock?_cons {c : Char} {cs : List Char}
    (hquote : c = '"' → ∀ rest, cs ≠ '"' :: '"' :: rest)
    (hescape : c = '\\' → ∀ rest, cs ≠ fence ++ rest) :
    scanBlock? (c :: cs) = (scanBlock? cs).map (Prod.map (c :: ·) id) := by
  rw [scanBlock?.eq_def]
  split
  · rename_i rest heq
    obtain ⟨hc, hcs⟩ := List.cons.inj heq
    exact absurd hcs (hescape hc rest)
  · rename_i rest heq
    obtain ⟨hc, hcs⟩ := List.cons.inj heq
    exact absurd hcs (hquote hc rest)
  · rename_i heq
    obtain ⟨rfl, rfl⟩ := List.cons.inj heq
    rfl
  · contradiction

/-- Scanning takes escapes back and stops at the first quotes that were not part of the text. -/
theorem scanBlock?_escapeQuotes {cs : List Char} (hopen : EndsOpen cs) (rest : List Char) :
    scanBlock? (escapeQuotes cs ++ (fence ++ rest)) = some (cs, rest) := by
  fun_induction escapeQuotes cs with
  | case1 tail ih =>
    have htail := ih hopen.tail.tail.tail
    simp only [List.cons_append, scanBlock?, htail]
    rfl
  | case2 c tail hc ih =>
    rw [List.cons_append, scanBlock?_cons, ih hopen.tail]
    · rfl
    · -- two quotes after a quote would have been escaped with it
      rintro rfl more heq
      have hne : tail ≠ [] := by
        rintro rfl
        exact (hopen '"' rfl).1 rfl
      obtain ⟨second, rfl, hsecond, hopen', heq⟩ := hopen.tail.of_quote hne heq
      obtain ⟨third, rfl, -⟩ := hopen'.of_quote hsecond heq
      exact hc third rfl rfl
    · -- a backslash of the text stands before three quotes only if these are escaped again
      rintro rfl more heq
      have hne : tail ≠ [] := by
        rintro rfl
        exact (hopen '\\' rfl).2 rfl
      obtain ⟨second, rfl, hsecond, hopen', heq'⟩ := hopen.tail.of_quote hne heq
      obtain ⟨third, rfl, hthird, hopen'', heq''⟩ := hopen'.of_quote hsecond heq'
      obtain ⟨fourth, rfl, -⟩ := hopen''.of_quote hthird heq''
      simp [escapeQuotes, fence] at heq
  | case3 => rfl

/-! ### Lines of a description -/

def innerLine (indent line : List Char) : List Char :=
  if line.all isBlank then [] else indent ++ line

/-- The lines between the opening and the closing quotes: the rest of the opening line, those of the
description, and the indentation of the closing line. -/
def innerLines (indent description : List Char) : List (List Char) :=
  [] :: (splitChars '\n' description).map (innerLine indent) ++ [indent]

def clearBlankLines (description : String) : String :=
  "\n".intercalate
    ((Text.split '\n' description).map fun line => if isBlankText line then "" else line)

/-- Lines are escaped one by one. -/
theorem escapeQuotes_intercalate {lines : List (List Char)} (hne : lines ≠ [])
    (h : ∀ line ∈ lines, '\n' ∉ line) :
    escapeQuotes (['\n'].intercalate lines) = ['\n'].intercalate (lines.map escapeQuotes) := by
  rw [← Text.intercalate_splitChars '\n' (escapeQuotes _), splitChars_escapeQuotes,
    Text.splitChars_joined hne h]

section Lines

variable {indent : String} (hindent : ∀ c ∈ indent.toList, c = ' ')

include hindent

theorem not_mem_indent {c : Char} (hc : c ≠ ' ') : c ∉ indent.toList :=
  fun hm => hc (hindent c hm)

private theorem escapedLine_eq (line : List Char) :
    escapedLine indent.toList line = escapeQuotes (innerLine indent.toList line) := by
  have hquote := not_mem_indent hindent (by decide : '"' ≠ ' ')
  unfold escapedLine innerLine
  split
  · rfl
  · rw [escapeQuotes_append hquote]

theorem not_mem_innerLines {c : Char} {description : List Char} (hc : c ≠ ' ')
    (h : ∀ line ∈ splitChars '\n' description, c ∉ line) :
    ∀ line ∈ innerLines indent.toList description, c ∉ line := by
  have hnot := not_mem_indent hindent hc
  intro line hline
  simp only [innerLines, List.cons_append, List.mem_cons, List.mem_append, List.mem_map,
    List.not_mem_nil, or_false] at hline
  rcases hline with rfl | ⟨own, hown, rfl⟩ | rfl
  · simp
  · unfold innerLine
    split
    · simp
    · simp [hnot, h own hown]
  · exact hnot

/-- The text of a block string: its inner lines, joined and escaped, between quotes. -/
theorem intercalate_descriptionLines {description : String} (hne : description ≠ "") :
    ("\n".intercalate (descriptionLines indent description)).toList =
      indent.toList ++ (fence ++ (escapeQuotes
        (['\n'].intercalate (innerLines indent.toList description.toList)) ++ fence)) := by
  have hquote := not_mem_indent hindent (by decide : '"' ≠ ' ')
  have hindented : escapeQuotes indent.toList = indent.toList := by
    simpa [escapeQuotes] using escapeQuotes_append hquote []
  have hlines : (splitChars '\n' description.toList).map (escapedLine indent.toList) =
      ((splitChars '\n' description.toList).map (innerLine indent.toList)).map escapeQuotes := by
    rw [List.map_map]
    exact List.map_congr_left fun line _ => escapedLine_eq hindent line
  have hnewline : "\n".toList = ['\n'] := rfl
  rw [escapeQuotes_intercalate (by simp [innerLines]) (not_mem_innerLines hindent (by decide)
      fun line hl => Text.not_mem_of_mem_splitChars hl),
    String.toList_intercalate, hnewline, descriptionLines_escaped hne, hlines, innerLines,
    List.cons_append, List.map_cons, List.map_append, Text.intercalate_cons_eq,
    Text.intercalate_cons_eq]
  simp [escapeQuotes, hindented, List.flatMap_append]

end Lines

/-! ### Taking the indentation off -/

theorem isBlank_of_isSpacing {c : Char} (h : isSpacing c = true) : isBlank c = true := by
  simp only [isSpacing, Bool.or_eq_true, decide_eq_true_eq] at h
  rcases h with rfl | rfl <;> decide

private theorem commonIndentation_eq {lines : List (List Char)} {n : Nat}
    (hmem : ∃ line ∈ lines, line.all isSpacing = false ∧ indentation line = n)
    (hle : ∀ line ∈ lines, line.all isSpacing = false → n ≤ indentation line) :
    commonIndentation lines = n := by
  have hmin : ((lines.filter fun line => !line.all isSpacing).map indentation).min? = some n := by
    rw [List.min?_eq_some_iff]
    simp only [List.mem_map, List.mem_filter, Bool.not_eq_true']
    constructor
    · obtain ⟨line, hline, hfull, hn⟩ := hmem
      exact ⟨line, ⟨hline, hfull⟩, hn⟩
    · rintro m ⟨line, ⟨hline, hfull⟩, rfl⟩
      exact hle line hline hfull
  rw [commonIndentation, hmin]
  rfl

theorem all_isSpacing_innerLine (indent line : List Char) :
    (innerLine indent line).all isSpacing = line.all isBlank := by
  cases hblank : line.all isBlank with
  | true => simp [innerLine, hblank]
  | false =>
    obtain ⟨c, hc, hnot⟩ := List.all_eq_false.mp hblank
    rw [innerLine, hblank, if_neg Bool.false_ne_true, List.all_eq_false]
    exact ⟨c, List.mem_append_right _ hc, fun hspacing => hnot (isBlank_of_isSpacing hspacing)⟩

section Indentation

variable {indent : List Char} (hindent : ∀ c ∈ indent, c = ' ')

include hindent

theorem isSpacing_indent : ∀ c ∈ indent, isSpacing c = true := by
  intro c hc
  rw [hindent c hc]
  rfl

private theorem indentation_append (line : List Char) :
    indentation (indent ++ line) = indent.length + indentation line := by
  rw [indentation, List.takeWhile_append_of_pos (isSpacing_indent hindent), List.length_append,
    indentation]

/-- The first line of a trimmed description has the given indentation and no other, and no line has
less. -/
theorem commonIndentation_innerLine {c : Char} (hc : isBlank c = false) (first : List Char)
    (lines : List (List Char)) :
    commonIndentation (((c :: first) :: lines).map (innerLine indent) ++ [indent]) =
      indent.length := by
  apply commonIndentation_eq
  · have hspacing : isSpacing c = false :=
      Bool.eq_false_iff.mpr fun h => Bool.eq_false_iff.mp hc (isBlank_of_isSpacing h)
    have hown : indentation (c :: first) = 0 := by simp [indentation, hspacing]
    refine ⟨innerLine indent (c :: first), by simp, ?_, ?_⟩
    · simp [all_isSpacing_innerLine, hc]
    · simp [innerLine, hc, indentation_append hindent, hown]
  · intro line hline hfull
    rcases List.mem_append.mp hline with hline | hline
    · obtain ⟨own, -, rfl⟩ := List.mem_map.mp hline
      rw [all_isSpacing_innerLine] at hfull
      rw [innerLine, hfull, if_neg Bool.false_ne_true, indentation_append hindent]
      omega
    · rw [List.mem_singleton.mp hline, List.all_eq_true.mpr (isSpacing_indent hindent)] at hfull
      contradiction

/-- A block string is read up to the first quotes that are not part of its content. -/
theorem readBlockString?_escaped {content : List Char} (hopen : EndsOpen content)
    (rest : List Char) :
    readBlockString? (indent ++ (fence ++ (escapeQuotes content ++ (fence ++ rest)))) =
      some (blockValue content, rest) := by
  have hskip : (indent ++ (fence ++ (escapeQuotes content ++ (fence ++ rest)))).dropWhile
      isSpacing = fence ++ (escapeQuotes content ++ (fence ++ rest)) := by
    rw [List.dropWhile_append_of_pos (isSpacing_indent hindent)]
    rfl
  rw [readBlockString?, hskip, Text.afterStart?_eq_some_iff.mpr rfl, Option.bind_some,
    scanBlock?_escapeQuotes hopen]
  rfl

end Indentation

private theorem drop_innerLine (indent line : List Char) :
    (innerLine indent line).drop indent.length = innerLine [] line := by
  unfold innerLine
  split
  · exact List.drop_nil
  · simp

/-- Begins and ends with something else than white space. -/
structure IsTrimmed (cs : List Char) : Prop where
  nonempty : cs ≠ []
  first : ∀ c ∈ cs.head?, isBlank c = false
  last : ∀ c ∈ cs.getLast?, isBlank c = false

theorem IsTrimmed.exists_cons {text : List Char} (h : IsTrimmed text) :
    ∃ c cs, text = c :: cs ∧ isBlank c = false := by
  obtain ⟨c, cs, rfl⟩ := List.exists_cons_of_ne_nil h.nonempty
  exact ⟨c, cs, rfl, h.first c rfl⟩

theorem IsTrimmed.exists_concat {text : List Char} (h : IsTrimmed text) :
    ∃ cs c, text = cs ++ [c] ∧ isBlank c = false :=
  ⟨_, _, (List.dropLast_concat_getLast h.nonempty).symm,
    h.last _ (List.getLast?_eq_some_getLast h.nonempty)⟩

private theorem exists_first_line {c : Char} (hc : isBlank c = false) (cs : List Char) :
    ∃ first lines, splitChars '\n' (c :: cs) = (c :: first) :: lines := by
  have hne : c ≠ '\n' := by
    rintro rfl
    contradiction
  cases hlines : splitChars '\n' cs with
  | nil => exact absurd hlines (Text.splitChars_ne_nil _ _)
  | cons first lines => exact ⟨first, lines, by simp [splitChars, hne, hlines]⟩

private theorem exists_last_line {c : Char} (hc : isBlank c = false) (cs : List Char) :
    ∃ lines last, splitChars '\n' (cs ++ [c]) = lines ++ [last ++ [c]] := by
  have hne : '\n' ≠ c := by
    rintro rfl
    contradiction
  induction cs with
  | nil => exact ⟨[], [], Text.splitChars_of_not_mem (by simpa using hne)⟩
  | cons d cs ih =>
    obtain ⟨lines, last, hlines⟩ := ih
    rw [List.cons_append, splitChars, hlines]
    split
    · exact ⟨[] :: lines, last, rfl⟩
    · cases lines with
      | nil => exact ⟨[], d :: last, rfl⟩
      | cons line lines => exact ⟨(d :: line) :: lines, last, rfl⟩

/-- The blank lines at the ends of a block string are those of its quotes. -/
theorem meantLines_innerLines {indent : List Char} (hindent : ∀ c ∈ indent, c = ' ')
    {description : List Char} (h : IsTrimmed description) :
    meantLines (innerLines indent description) =
      (splitChars '\n' description).map (innerLine []) := by
  obtain ⟨c, cs, hfirst, hc⟩ := h.exists_cons
  obtain ⟨front, d, hlast, hd⟩ := h.exists_concat
  obtain ⟨first, lines, hlines⟩ := exists_first_line hc cs
  obtain ⟨above, last, habove⟩ := exists_last_line hd front
  rw [← hfirst] at hlines
  rw [← hlast] at habove
  have hcommon := commonIndentation_innerLine hindent hc first lines
  rw [← hlines] at hcommon
  have hshifted : ((splitChars '\n' description).map (innerLine indent) ++ [indent]).map
      (·.drop indent.length) = (splitChars '\n' description).map (innerLine []) ++ [[]] := by
    simp [drop_innerLine, Function.comp_def]
  have hfull : (innerLine [] (c :: first)).all isSpacing = false := by
    simp [all_isSpacing_innerLine, hc]
  have hfull' : (innerLine [] (last ++ [d])).all isSpacing = false := by
    simp [all_isSpacing_innerLine, hd]
  rw [innerLines, List.cons_append, meantLines, hcommon, hshifted]
  calc
    _ = (((splitChars '\n' description).map (innerLine [])) ++ [[]]).rdropWhile
        (·.all isSpacing) := by
      rw [List.dropWhile_cons_of_pos rfl, hlines, List.map_cons, List.cons_append,
        List.dropWhile_cons_of_neg (by simp [hfull])]
    _ = ((splitChars '\n' description).map (innerLine [])).rdropWhile
        (·.all isSpacing) := List.rdropWhile_concat_pos _ _ _ rfl
    _ = _ := by
      rw [habove, List.map_append, List.map_singleton]
      exact List.rdropWhile_concat_neg _ _ _ (by simp [hfull'])

private theorem unifyLineEnds_of_not_mem {cs : List Char} (h : '\r' ∉ cs) :
    Options.unifyLineEnds cs = cs := by
  induction cs with
  | nil => rfl
  | cons c cs ih =>
    simp only [List.mem_cons, not_or] at h
    rw [Options.unifyLineEnds, ih h.2]
    · exact fun _ hc _ => absurd hc.symm h.1
    · exact fun hc => absurd hc.symm h.1

private theorem endsOpen_intercalate_innerLines {indent : List Char}
    (hindent : ∀ c ∈ indent, c = ' ')
    (description : List Char) :
    EndsOpen (['\n'].intercalate (innerLines indent description)) := by
  intro c hc
  have hlast : ['\n'].intercalate (innerLines indent description) =
      ((splitChars '\n' description).map (innerLine indent)).flatMap ('\n' :: ·) ++
        '\n' :: indent := by
    rw [innerLines, List.cons_append, Text.intercalate_cons_eq, List.flatMap_append]
    simp
  rw [hlast, List.getLast?_append_cons] at hc
  rcases List.mem_cons.mp (List.mem_of_getLast? hc) with rfl | hc
  · decide
  · rw [hindent c hc]
    decide

/-- The value of what was printed between the quotes. -/
theorem blockValue_innerLines {indent description : String} (hindent : ∀ c ∈ indent.toList, c = ' ')
    (h : IsTrimmed description.toList) (hreturn : '\r' ∉ description.toList) :
    blockValue (['\n'].intercalate (innerLines indent.toList description.toList)) =
      clearBlankLines description := by
  have hlines : ∀ line ∈ innerLines indent.toList description.toList, '\n' ∉ line :=
    not_mem_innerLines hindent (by decide) fun line hl => Text.not_mem_of_mem_splitChars hl
  have hreturns : ∀ line ∈ innerLines indent.toList description.toList, '\r' ∉ line :=
    not_mem_innerLines hindent (by decide) fun line hl hm =>
      hreturn (Text.mem_of_mem_splitChars hl hm)
  have hcontent : '\r' ∉ ['\n'].intercalate (innerLines indent.toList description.toList) := by
    intro hm
    rcases Text.mem_of_mem_intercalate hm with hm | ⟨line, hl, hm⟩
    · simp at hm
    · exact hreturns line hl hm
  have hclear : ∀ line : List Char, (if isBlankText (String.ofList line) then ""
      else String.ofList line).toList = innerLine [] line := by
    intro line
    rw [isBlankText, String.toList_ofList, innerLine]
    split
    · rfl
    · exact String.toList_ofList
  rw [blockValue, unifyLineEnds_of_not_mem hcontent,
    Text.splitChars_joined (by simp [innerLines]) hlines, meantLines_innerLines hindent h,
    clearBlankLines, Text.split]
  apply String.toList_inj.mp
  rw [String.toList_ofList, String.toList_intercalate, List.map_map, List.map_map]
  simp [Function.comp_def, hclear]

/-! ### Comments -/

private theorem isTrimmed_stripChars {cs : List Char} (h : Text.stripChars cs ≠ []) :
    IsTrimmed (Text.stripChars cs) := by
  refine ⟨h, fun c hc => ?_, fun c hc => ?_⟩
  · -- what is cut off at the end leaves the first character
    obtain ⟨rest, hrest⟩ := List.head?_eq_some_iff.mp hc
    obtain ⟨more, hmore⟩ := List.rdropWhile_prefix isBlank (cs.dropWhile isBlank)
    have hcons : cs.dropWhile isBlank = c :: (rest ++ more) := by
      rw [← hmore, ← List.cons_append, ← hrest]
      rfl
    have hfirst := List.head_dropWhile_not isBlank (l := cs) (by simp [hcons])
    simpa [hcons] using hfirst
  · have hlast := List.rdropWhile_last_not isBlank (cs.dropWhile isBlank) h
    rw [List.getLast?_eq_some_getLast h, Option.mem_some_iff] at hc
    subst hc
    exact Bool.eq_false_iff.mpr hlast

theorem IsTrimmed.append {cs ds : List Char} (hc : IsTrimmed cs) (hd : IsTrimmed ds)
    (between : List Char) : IsTrimmed (cs ++ (between ++ ds)) := by
  obtain ⟨c, rest, rfl, hfirst⟩ := hc.exists_cons
  obtain ⟨front, d, rfl, hlast⟩ := hd.exists_concat
  refine ⟨by simp, by simpa using hfirst, ?_⟩
  rw [← List.append_assoc, ← List.append_assoc, List.getLast?_concat]
  simpa using hlast

/-- A comment that is not empty has white space at neither end. -/
theorem isTrimmed_combine {leading trailing : String} (h : Comment.combine leading trailing ≠ "") :
    IsTrimmed (Comment.combine leading trailing).toList := by
  have hstrip : ∀ text : String, Text.strip text ≠ "" → IsTrimmed (Text.strip text).toList := by
    intro text hne
    rw [Text.strip, String.toList_ofList]
    apply isTrimmed_stripChars
    intro hnil
    exact hne (by rw [Text.strip, hnil])
  unfold Comment.combine at h ⊢
  by_cases hl : Text.strip (Comment.format leading) = "" <;>
    by_cases ht : Text.strip (Comment.format trailing) = ""
  · simp [hl, ht] at h
  · simpa [hl, ht, String.toList_intercalate] using hstrip _ ht
  · simpa [hl, ht, String.toList_intercalate] using hstrip _ hl
  · simpa [hl, ht, String.toList_intercalate] using (hstrip _ hl).append (hstrip _ ht) ['\n', '\n']

/-- Documentation survives the block string: a reader that knows the rules of block strings, and
nothing of how one was printed, finds its end and gets the description back, but for white space on
lines that hold nothing else. Comments are such descriptions. -/
theorem block_strings_keep_descriptions :
    (∀ (indent description : String) (rest : List Char), (∀ c ∈ indent.toList, c = ' ') →
      IsTrimmed description.toList → '\r' ∉ description.toList →
        readBlockString? (("\n".intercalate (descriptionLines indent description)).toList ++ rest) =
          some (clearBlankLines description, rest)) ∧
    ∀ leading trailing : String, Comment.combine leading trailing ≠ "" →
      IsTrimmed (Comment.combine leading trailing).toList := by
  refine ⟨fun indent description rest hindent h hreturn => ?_, fun _ _ => isTrimmed_combine⟩
  have hne : description ≠ "" := fun heq => h.nonempty (by rw [heq]; rfl)
  have hopen := endsOpen_intercalate_innerLines hindent description.toList
  rw [intercalate_descriptionLines hindent hne]
  simp only [List.append_assoc]
  rw [readBlockString?_escaped hindent hopen, blockValue_innerLines hindent h hreturn]

/-- Quotes in a row, a backslash before them, a blank line, and a last line of quotes. -/
def quotedDescription : String := "Say \"\"\"\"hi\\\"\"\"\n \t\n  - twice\n\"\""

theorem quotedDescription_is_kept :
    IsTrimmed quotedDescription.toList ∧
      readBlockString? (("\n".intercalate
          (descriptionLines memberIndent quotedDescription)).toList ++ ['"']) =
        some ("Say \"\"\"\"hi\\\"\"\"\n\n  - twice\n\"\"", ['"']) := by
  have hindent : ∀ c ∈ memberIndent.toList, c = ' ' := by simp [memberIndent]
  have htrimmed : IsTrimmed quotedDescription.toList := by
    refine ⟨by decide, ?_, ?_⟩
    · rintro _ ⟨⟩
      decide
    · rintro _ ⟨⟩
      decide
  have hclear : clearBlankLines quotedDescription =
      "Say \"\"\"\"hi\\\"\"\"\n\n  - twice\n\"\"" := by decide
  refine ⟨htrimmed, ?_⟩
  rw [block_strings_keep_descriptions.1 memberIndent quotedDescription ['"'] hindent htrimmed
    (by decide), hclear]

end ProtoSdl.Schema

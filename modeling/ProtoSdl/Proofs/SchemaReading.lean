import ProtoSdl.Proofs.MemberTexts

/-! A schema read back from its text. The lines are first paired with the descriptions in front of
them and then cut at the empty ones, one group for each declaration, so nothing that a description
says is taken for a part of the schema. -/
namespace ProtoSdl.Schema

open Text (splitChars)

/-- The characters that stand between the names of a schema. -/
def marks : List Char := ['[', ']', '!', ':', ' ', '(', ')', ',', '@', '=', '|', '\x7b', '\x7d']

/-- A text of names and marks. Such a text has no line end and no quote. -/
def Marked (cs : List Char) : Prop := ∀ c ∈ cs, isNameChar c = true ∨ c ∈ marks

instance (cs : List Char) : Decidable (Marked cs) :=
  List.decidableBAll (fun c => isNameChar c = true ∨ c ∈ marks) cs

theorem marked_append {cs rest : List Char} : Marked (cs ++ rest) ↔ Marked cs ∧ Marked rest := by
  simp only [Marked, List.mem_append, or_imp, forall_and]

theorem Marked.not_mem {cs : List Char} (h : Marked cs) {c : Char}
    (hc : ¬ (isNameChar c = true ∨ c ∈ marks)) : c ∉ cs := fun hm => hc (h c hm)

theorem IsName.marked {text : String} (h : IsName text) : Marked text.toList :=
  fun _ hc => .inl (h.isNameChar hc)

theorem marked_intercalate {sep : List Char} {pieces : List (List Char)} (hsep : Marked sep)
    (h : ∀ piece ∈ pieces, Marked piece) : Marked (sep.intercalate pieces) := by
  intro c hc
  rcases Text.mem_of_mem_intercalate hc with hc | ⟨piece, hp, hc⟩
  · exact hsep c hc
  · exact h piece hp c hc

theorem marked_apply {name : TypeName} (hn : name.IsName) (modifiers : Modifiers) :
    Marked (modifiers.apply name).toList := by
  have hname := hn.eq_text.2.marked
  have hmark : ∀ isSet, Marked (markText isSet) := by decide
  rw [apply_toList]
  split
  · have hopen : Marked ['['] := by decide
    have hclose : Marked [']'] := by decide
    exact marked_append.mpr ⟨hopen, marked_append.mpr ⟨hname, marked_append.mpr
      ⟨hmark modifiers.nonNull, marked_append.mpr ⟨hclose, hmark modifiers.nonNullList⟩⟩⟩⟩
  · exact marked_append.mpr ⟨hname, hmark modifiers.nonNull⟩

private theorem marked_argument {argument : Argument} (h : argument.Plain) :
    Marked argument.text.toList := by
  have hcolon : Marked [':', ' '] := by decide
  rw [argument_toList h]
  exact marked_append.mpr ⟨h.name.marked,
    marked_append.mpr ⟨hcolon, marked_apply h.typeName argument.modifiers⟩⟩

private theorem marked_argumentsText {arguments : List Argument}
    (h : ∀ argument ∈ arguments, argument.Plain) : Marked (argumentsText arguments).toList := by
  cases arguments with
  | nil => decide
  | cons first others =>
    have hlist : Marked ([',', ' '].intercalate ((first :: others).map (·.text.toList))) := by
      apply marked_intercalate (by decide)
      intro piece hp
      obtain ⟨argument, ha, rfl⟩ := List.mem_map.mp hp
      exact marked_argument (h argument ha)
    have hopen : Marked ['('] := by decide
    rw [argumentsText_toList]
    exact marked_append.mpr ⟨hopen, marked_append.mpr ⟨hlist, by decide⟩⟩

theorem marked_directivesText {directives : List String}
    (h : ∀ directive ∈ directives, IsName directive) :
    Marked (directivesText directives).toList := by
  induction directives with
  | nil => decide
  | cons directive directives ih =>
    have hat : Marked [' ', '@'] := by decide
    have hrest := ih fun other ho => h other (List.mem_cons_of_mem _ ho)
    rw [directivesText_cons]
    exact marked_append.mpr ⟨hat, marked_append.mpr
      ⟨(h directive List.mem_cons_self).marked, hrest⟩⟩

private theorem marked_field {field : Field} (h : field.Plain) : Marked field.text.toList := by
  have hcolon : Marked [':', ' '] := by decide
  have htype : Marked field.typeText := marked_append.mpr
    ⟨marked_apply h.typeName field.modifiers, marked_directivesText h.directives⟩
  rw [field_toList]
  exact marked_append.mpr ⟨h.name.marked, marked_append.mpr
    ⟨marked_argumentsText h.arguments, marked_append.mpr ⟨hcolon, htype⟩⟩⟩

private theorem marked_value {value : EnumValue} (h : value.Plain) : Marked value.text.toList := by
  rw [EnumValue.text, String.toList_append]
  exact marked_append.mpr ⟨h.name.marked, marked_directivesText h.directives⟩

namespace Declaration

/-- The first line of a declaration, without the brace that opens its members. -/
def head : Declaration → String
  | scalar s => "scalar " ++ s.name
  | composite c => c.form.keyword ++ " " ++ c.name.written
  | enum e => "enum " ++ e.name.written
  | union u => "union " ++ u.name.written ++ " = " ++ " | ".intercalate (u.members.map (·.written))

def members : Declaration → List (String × String)
  | scalar _ => []
  | composite c => c.fields.map fun field => (field.description, field.text)
  | enum e => e.values.map fun value => (value.description, value.text)
  | union _ => []

theorem bodyLines_eq (declaration : Declaration) : declaration.bodyLines =
    block declaration.head (declaration.members.map fun part => member part.1 part.2) := by
  cases declaration <;> simp [bodyLines, head, members, block, Function.comp_def]

/-- All names are names of the schema language, no argument has a default, and no line of a
description is white space and nothing else. -/
def Plain : Declaration → Prop
  | scalar s => IsName s.name ∧ ClearLines s.description
  | composite c => c.name.IsName ∧ (∀ field ∈ c.fields, field.Plain) ∧ ClearLines c.description
  | enum e => e.name.IsName ∧ (∀ value ∈ e.values, value.Plain) ∧ ClearLines e.description
  | union u => u.name.IsName ∧ (∀ name ∈ u.members, name.IsName) ∧ ClearLines u.description

instance : (declaration : Declaration) → Decidable declaration.Plain
  | scalar _ => inferInstanceAs (Decidable (_ ∧ _))
  | composite _ => inferInstanceAs (Decidable (_ ∧ (∀ field ∈ _, _) ∧ _))
  | enum _ => inferInstanceAs (Decidable (_ ∧ (∀ value ∈ _, _) ∧ _))
  | union _ => inferInstanceAs (Decidable (_ ∧ (∀ name ∈ _, _) ∧ _))

variable {declaration : Declaration}

theorem Plain.description (h : declaration.Plain) : ClearLines declaration.description := by
  cases declaration with
  | scalar s => exact h.2
  | composite c => exact h.2.2
  | enum e => exact h.2.2
  | union u => exact h.2.2

theorem Plain.marked_head (h : declaration.Plain) : Marked declaration.head.toList := by
  cases declaration with
  | scalar s =>
    rw [head, String.toList_append]
    exact marked_append.mpr ⟨by decide, h.1.marked⟩
  | composite c =>
    have hkeyword : Marked c.form.keyword.toList := by cases c.form <;> decide
    rw [head, String.toList_append, String.toList_append]
    exact marked_append.mpr ⟨marked_append.mpr ⟨hkeyword, by decide⟩, h.1.eq_text.2.marked⟩
  | enum e =>
    rw [head, String.toList_append]
    exact marked_append.mpr ⟨by decide, h.1.eq_text.2.marked⟩
  | union u =>
    have hmembers : Marked (" | ".intercalate (u.members.map (·.written))).toList := by
      rw [String.toList_intercalate]
      apply marked_intercalate (by decide)
      simp only [List.map_map, List.mem_map, Function.comp_apply]
      rintro _ ⟨name, hname, rfl⟩
      exact (h.2.1 name hname).eq_text.2.marked
    simp only [head, String.toList_append]
    exact marked_append.mpr ⟨marked_append.mpr ⟨marked_append.mpr
      ⟨by decide, h.1.eq_text.2.marked⟩, by decide⟩, hmembers⟩

/-- What `Plain` says about a member, of whichever kind. -/
theorem Plain.member (h : declaration.Plain) {part : String × String}
    (hp : part ∈ declaration.members) : ClearLines part.1 ∧ Marked part.2.toList := by
  cases declaration with
  | scalar s => simp [members] at hp
  | composite c =>
    obtain ⟨field, hfield, rfl⟩ := List.mem_map.mp hp
    exact ⟨(h.2.1 field hfield).description, marked_field (h.2.1 field hfield)⟩
  | enum e =>
    obtain ⟨value, hvalue, rfl⟩ := List.mem_map.mp hp
    exact ⟨(h.2.1 value hvalue).description, marked_value (h.2.1 value hvalue)⟩
  | union u => simp [members] at hp

def memberLine (part : String × String) : Described := ⟨part.1, (memberIndent ++ part.2).toList⟩

/-- The lines of a declaration that stand outside block strings. -/
def described (declaration : Declaration) : List Described :=
  if declaration.members.isEmpty then [⟨declaration.description, declaration.head.toList⟩]
  else
    ⟨declaration.description, (declaration.head ++ " \x7b").toList⟩ ::
      declaration.members.map memberLine ++ [⟨"", "\x7d".toList⟩]

end Declaration

private theorem opening?_eq_none {line : List Char} (h : '"' ∉ line) : opening? line = none := by
  simp only [opening?, List.find?_eq_none, decide_eq_true_eq]
  rintro indent - rfl
  exact h (by simp [fence])

/-- A marked line is read with the description printed in front of it. -/
theorem describedLines_marked {indent description : String} {line : List Char}
    (hindent : indent = "" ∨ indent = memberIndent) (hclear : ClearLines description)
    (hline : Marked line) (rest : List (List Char)) :
    describedLines (.line []) ((descriptionLines indent description).map String.toList ++
        line :: rest) =
      ⟨description, line⟩ :: describedLines (.line []) rest :=
  describedLines_described hindent hclear (opening?_eq_none (hline.not_mem (by decide))) rest

private theorem describedLines_members {parts : List (String × String)}
    (h : ∀ part ∈ parts, ClearLines part.1 ∧ Marked part.2.toList) (rest : List (List Char)) :
    describedLines (.line [])
        ((parts.map fun part => member part.1 part.2).flatten.map String.toList ++ rest) =
      parts.map Declaration.memberLine ++ describedLines (.line []) rest := by
  induction parts with
  | nil => rfl
  | cons part parts ih =>
    have hpart := h part List.mem_cons_self
    have hline : Marked (memberIndent ++ part.2).toList := by
      rw [String.toList_append]
      exact marked_append.mpr ⟨by decide, hpart.2⟩
    have hrest := ih fun other ho => h other (List.mem_cons_of_mem _ ho)
    simp only [List.map_cons, List.flatten_cons, List.map_append, member, List.append_assoc,
      List.cons_append, List.nil_append]
    rw [describedLines_marked (.inr rfl) hpart.1 hline]
    exact congrArg _ hrest

/-- A declaration is read with all its descriptions, whatever follows it. -/
theorem describedLines_declaration {declaration : Declaration} (h : declaration.Plain)
    (rest : List (List Char)) :
    describedLines (.line []) (declaration.lines.map String.toList ++ rest) =
      declaration.described ++ describedLines (.line []) rest := by
  have hhead := h.marked_head
  rw [Declaration.lines, Declaration.bodyLines_eq, List.map_append, List.append_assoc,
    Declaration.described, block, List.isEmpty_map]
  split
  · exact describedLines_marked (.inl rfl) h.description hhead rest
  · have hopen : Marked (declaration.head ++ " \x7b").toList := by
      rw [String.toList_append]
      exact marked_append.mpr ⟨hhead, by decide⟩
    have hclose : describedLines (.line []) ("\x7d".toList :: rest) =
        ⟨"", "\x7d".toList⟩ :: describedLines (.line []) rest := rfl
    simp only [List.map_cons, List.map_append, List.cons_append, List.append_assoc, List.map_nil,
      List.nil_append]
    rw [describedLines_marked (.inl rfl) h.description hopen,
      describedLines_members (fun part hp => h.member hp), hclose]

theorem descriptionLines_not_mem {indent description line : String} (hi : '\n' ∉ indent.toList)
    (hl : line ∈ descriptionLines indent description) : '\n' ∉ line.toList := by
  have hfence : '\n' ∉ (indent ++ "\"\"\"").toList := by
    rw [String.toList_append, List.mem_append]
    exact not_or.mpr ⟨hi, by decide⟩
  by_cases hne : description = ""
  · simp [descriptionLines, hne] at hl
  · simp only [descriptionLines, if_neg hne, Text.split, List.mem_append, List.mem_cons,
      List.mem_map, List.not_mem_nil, or_false] at hl
    rcases hl with (rfl | ⟨_, ⟨piece, hpiece, rfl⟩, rfl⟩) | rfl
    · exact hfence
    · unfold blockLine
      split
      · simp
      · rw [String.toList_append, String.toList_ofList, List.mem_append]
        exact not_or.mpr ⟨hi, Text.not_mem_of_mem_splitChars hpiece⟩
    · exact hfence

private theorem member_not_mem {part : String × String} (h : Marked part.2.toList) {line : String}
    (hl : line ∈ member part.1 part.2) : '\n' ∉ line.toList := by
  rcases List.mem_append.mp hl with hl | hl
  · exact descriptionLines_not_mem (by decide) hl
  · rw [List.mem_singleton.mp hl, String.toList_append, List.mem_append]
    exact not_or.mpr ⟨by decide, h.not_mem (by decide)⟩

theorem Declaration.Plain.lines_not_mem {declaration : Declaration} (h : declaration.Plain)
    {line : String} (hl : line ∈ declaration.lines) : '\n' ∉ line.toList := by
  have hhead : '\n' ∉ declaration.head.toList := h.marked_head.not_mem (by decide)
  rw [Declaration.lines, bodyLines_eq, block] at hl
  rcases List.mem_append.mp hl with hl | hl
  · exact descriptionLines_not_mem (by decide) hl
  · split at hl
    · rw [List.mem_singleton.mp hl]
      exact hhead
    · simp only [List.mem_append, List.mem_cons, List.mem_flatten, List.mem_map,
        List.not_mem_nil, or_false] at hl
      rcases hl with (rfl | ⟨_, ⟨part, hpart, rfl⟩, hl⟩) | rfl
      · rw [String.toList_append, List.mem_append]
        exact not_or.mpr ⟨hhead, by decide⟩
      · exact member_not_mem (h.member hpart).2 hl
      · decide

/-- Lines in front of a line end are read as they are, whatever follows it. -/
theorem splitChars_lines {line : List Char} {lines : List (List Char)}
    (h : ∀ other ∈ line :: lines, '\n' ∉ other) (rest : List Char) :
    splitChars '\n' (['\n'].intercalate (line :: lines) ++ '\n' :: rest) =
      line :: lines ++ splitChars '\n' rest := by
  induction lines generalizing line with
  | nil =>
    rw [List.intercalate_singleton, Text.splitChars_append_cons (h line List.mem_cons_self)]
    rfl
  | cons second lines ih =>
    have hrest := ih fun other ho => h other (List.mem_cons_of_mem _ ho)
    rw [List.intercalate_cons_cons, List.append_assoc, List.append_assoc, List.singleton_append,
      Text.splitChars_append_cons (h line List.mem_cons_self), hrest]
    rfl

theorem Declaration.lines_ne_nil (declaration : Declaration) : declaration.lines ≠ [] := by
  rw [Declaration.lines, bodyLines_eq, block]
  split <;> simp

theorem Declaration.Plain.splitChars_text {declaration : Declaration} (h : declaration.Plain)
    (rest : List Char) : splitChars '\n' (declaration.text.toList ++ '\n' :: rest) =
      declaration.lines.map String.toList ++ splitChars '\n' rest := by
  obtain ⟨line, lines, hlines⟩ := List.exists_cons_of_ne_nil declaration.lines_ne_nil
  have hfree : ∀ other ∈ line.toList :: lines.map String.toList, '\n' ∉ other := by
    rw [← List.map_cons, ← hlines]
    intro other ho
    obtain ⟨text, ht, rfl⟩ := List.mem_map.mp ho
    exact h.lines_not_mem ht
  have hnewline : "\n".toList = ['\n'] := rfl
  rw [Declaration.text, String.toList_intercalate, hnewline, hlines, List.map_cons,
    splitChars_lines hfree]

/-- The lines of a schema: those of each declaration, and an empty one after each. -/
theorem splitChars_schemaText {first : Declaration} {others : List Declaration}
    (h : ∀ declaration ∈ first :: others, declaration.Plain) :
    splitChars '\n' (schemaText (first :: others)).toList =
      (first :: others).flatMap fun declaration => declaration.lines.map String.toList ++ [[]] := by
  rw [schemaText, List.isEmpty_cons, if_neg Bool.false_ne_true, String.toList_append,
    String.toList_intercalate, List.map_map]
  change splitChars '\n' (['\n', '\n'].intercalate _ ++ ['\n']) = _
  induction others generalizing first with
  | nil =>
    have hfirst := (h first List.mem_cons_self).splitChars_text []
    simpa [splitChars] using hfirst
  | cons second others ih =>
    have hrest := ih fun declaration hd => h declaration (List.mem_cons_of_mem _ hd)
    have hfirst := (h first List.mem_cons_self).splitChars_text
    simp only [List.map_cons, Function.comp_apply, List.intercalate_cons_cons, List.append_assoc,
      List.cons_append, List.nil_append, List.flatMap_cons] at hrest ⊢
    rw [hfirst, splitChars, if_pos rfl, hrest]

/-- The lines of a schema outside block strings: those of each declaration, with an empty one after
each. -/
theorem describedLines_schema {declarations : List Declaration}
    (h : ∀ declaration ∈ declarations, declaration.Plain) :
    describedLines (.line []) (declarations.flatMap fun declaration =>
        declaration.lines.map String.toList ++ [[]]) =
      declarations.flatMap fun declaration => declaration.described ++ [⟨"", []⟩] := by
  induction declarations with
  | nil => rfl
  | cons declaration declarations ih =>
    have hrest := ih fun other ho => h other (List.mem_cons_of_mem _ ho)
    have hempty : ∀ rest, describedLines (.line []) ([] :: rest) =
        ⟨"", []⟩ :: describedLines (.line []) rest := fun rest => rfl
    rw [List.flatMap_cons, List.append_assoc,
      describedLines_declaration (h declaration List.mem_cons_self), List.singleton_append, hempty,
      hrest, List.flatMap_cons, List.append_assoc, List.singleton_append]

def words (line : List Char) : List String := (splitChars ' ' line).map String.ofList

theorem words_append_cons {word : String} (h : ' ' ∉ word.toList) (rest : List Char) :
    words (word.toList ++ ' ' :: rest) = word :: words rest := by
  rw [words, Text.splitChars_append_cons h, List.map_cons, String.ofList_toList]
  rfl

theorem words_of_not_mem {word : String} (h : ' ' ∉ word.toList) : words word.toList = [word] := by
  rw [words, Text.splitChars_of_not_mem h, List.map_singleton, String.ofList_toList]

def readMembers (words : List String) : List TypeName :=
  (words.filter fun word => word ≠ "" ∧ word ≠ "|").map .text

def readFields (parts : List Described) : Option (List Field) :=
  parts.mapM fun part => readField part.description (part.line.drop memberIndent.length)

def readValues (parts : List Described) : List EnumValue :=
  parts.map fun part => readValue part.description (part.line.drop memberIndent.length)

def readDeclaration : List Described → Option Declaration
  | [] => none
  | first :: others =>
    let description := first.description
    let composite (form : Form) (name : String) : Option Declaration :=
      (readFields others.dropLast).map fun fields => .composite { form, name, fields, description }
    match words first.line with
    | "scalar" :: name :: _ => some (.scalar { name, description })
    | "union" :: name :: "=" :: members =>
      some (.union { name, members := readMembers members, description })
    | "enum" :: name :: _ =>
      some (.enum { name, values := readValues others.dropLast, description })
    | "type" :: name :: _ => composite .object name
    | "input" :: name :: _ => composite .input name
    | "extend" :: "type" :: name :: _ => composite .extension name
    | _ => none

private theorem readMembers_cons {name : TypeName} (h : name.IsName) (rest : List String) :
    readMembers (name.written :: rest) = name :: readMembers rest := by
  have hbar : name.written ≠ "|" := by
    intro heq
    have hnot := h.eq_text.2.not_mem (c := '|') (by decide)
    exact hnot (by simp [heq])
  rw [readMembers, List.filter_cons_of_pos (by simp [h.eq_text.2.ne_empty, hbar]),
    List.map_cons, ← h.eq_text.1]
  rfl

private theorem readMembers_words {names : List TypeName} (h : ∀ name ∈ names, name.IsName) :
    readMembers (words (" | ".intercalate (names.map (·.written))).toList) = names := by
  have hsep : " | ".toList = [' ', '|', ' '] := rfl
  have hbar : ∀ rest, words ('|' :: ' ' :: rest) = "|" :: words rest := fun rest =>
    words_append_cons (show ' ' ∉ "|".toList by decide) rest
  have hskip : ∀ rest, readMembers ("|" :: rest) = readMembers rest := fun rest => rfl
  rw [String.toList_intercalate, hsep]
  induction names with
  | nil => decide
  | cons first others ih =>
    have hfirst := h first List.mem_cons_self
    have hword := hfirst.eq_text.2.not_mem (c := ' ') (by decide)
    have hrest := ih fun name hn => h name (List.mem_cons_of_mem _ hn)
    cases others with
    | nil =>
      rw [List.map_singleton, List.map_singleton, List.intercalate_singleton,
        words_of_not_mem hword, readMembers_cons hfirst]
      rfl
    | cons second others =>
      simp only [List.map_cons, List.intercalate_cons_cons, List.append_assoc, List.cons_append,
        List.nil_append] at hrest ⊢
      rw [words_append_cons hword, hbar, readMembers_cons hfirst, hskip, hrest]

private theorem readFields_members {fields : List Field} (h : ∀ field ∈ fields, field.Plain) :
    readFields ((fields.map fun field => (field.description, field.text)).map
      Declaration.memberLine) = some fields := by
  rw [readFields, List.map_map]
  apply mapM_read
  intro field hfield
  simp only [Function.comp_apply, Declaration.memberLine, String.toList_append]
  exact readField_text (h field hfield)

private theorem readValues_members {values : List EnumValue} (h : ∀ value ∈ values, value.Plain) :
    readValues ((values.map fun value => (value.description, value.text)).map
      Declaration.memberLine) = values := by
  rw [readValues, List.map_map, List.map_map]
  refine (List.map_congr_left fun value hvalue => ?_).trans (List.map_id values)
  simp only [Function.comp_apply, Declaration.memberLine, String.toList_append]
  exact readValue_text (h value hvalue)

/-- The head of a declaration stands on its first line, and its members between that line and the
last. -/
theorem Declaration.described_eq (declaration : Declaration) :
    ∃ opening ∈ [[], [' ', '\x7b']], ∃ others,
      declaration.described =
        ⟨declaration.description, declaration.head.toList ++ opening⟩ :: others ∧
      others.dropLast = declaration.members.map memberLine := by
  rw [described]
  split
  · rename_i hempty
    refine ⟨[], by simp, [], by simp, ?_⟩
    rw [List.isEmpty_iff.mp hempty]
    rfl
  · exact ⟨[' ', '\x7b'], by simp, _, by rw [String.toList_append]; rfl, List.dropLast_concat⟩

private theorem words_name {name : String} (h : IsName name) {opening : List Char}
    (ho : opening ∈ [[], [' ', '\x7b']]) :
    ∃ rest, words (name.toList ++ opening) = name :: rest := by
  have hword := h.not_mem (c := ' ') (by decide)
  simp only [List.mem_cons, List.not_mem_nil, or_false] at ho
  rcases ho with rfl | rfl
  · exact ⟨[], by rw [List.append_nil, words_of_not_mem hword]⟩
  · exact ⟨_, words_append_cons hword _⟩

theorem words_keyword (keyword : String) (h : ' ' ∉ keyword.toList) (rest : List Char) :
    words ((keyword ++ " ").toList ++ rest) = keyword :: words rest := by
  have hblank : " ".toList = [' '] := rfl
  rw [String.toList_append, hblank, List.append_assoc, List.singleton_append, words_append_cons h]

def Form.words : Form → List String
  | object => ["type"]
  | extension => ["extend", "type"]
  | input => ["input"]

private theorem words_form (form : Form) (rest : List Char) :
    words ((form.keyword ++ " ").toList ++ rest) = form.words ++ words rest := by
  cases form with
  | object => exact words_keyword "type" (by decide) rest
  | extension =>
    have htype := words_keyword "type" (by decide) rest
    exact (words_keyword "extend" (by decide) _).trans (congrArg _ htype)
  | input => exact words_keyword "input" (by decide) rest

private theorem readDeclaration_described {declaration : Declaration} (h : declaration.Plain) :
    readDeclaration declaration.described = some declaration := by
  obtain ⟨opening, hopening, others, heq, hothers⟩ := declaration.described_eq
  cases declaration with
  | scalar s =>
    obtain ⟨rest, hrest⟩ := words_name h.1 hopening
    have hwords : words (("scalar " ++ s.name).toList ++ opening) = "scalar" :: s.name :: rest := by
      rw [String.toList_append, List.append_assoc, ← hrest]
      exact words_keyword "scalar" (by decide) _
    rw [heq, readDeclaration]
    simp only [Declaration.head, hwords]
    rfl
  | composite c =>
    obtain ⟨form, name, fields, description⟩ := c
    obtain ⟨htext, hname⟩ := h.1.eq_text
    obtain ⟨rest, hrest⟩ := words_name hname hopening
    have hfields := readFields_members h.2.1
    have hwords : words ((form.keyword ++ " " ++ name.written).toList ++ opening) =
        form.words ++ name.written :: rest := by
      rw [String.toList_append, List.append_assoc, words_form, hrest]
    rw [heq, readDeclaration]
    simp only [hothers, Declaration.members, Declaration.description, Declaration.head, hwords,
      hfields]
    cases form <;>
      simp only [Form.words, List.cons_append, List.nil_append, Option.map_some, ← htext]
  | enum e =>
    obtain ⟨htext, hname⟩ := h.1.eq_text
    obtain ⟨rest, hrest⟩ := words_name hname hopening
    have hvalues := readValues_members h.2.1
    have hwords : words (("enum " ++ e.name.written).toList ++ opening) =
        "enum" :: e.name.written :: rest := by
      rw [String.toList_append, List.append_assoc, ← hrest]
      exact words_keyword "enum" (by decide) _
    rw [heq, readDeclaration]
    simp only [hothers, Declaration.members, Declaration.description, Declaration.head, hwords,
      hvalues, ← htext]
  | union u =>
    obtain ⟨htext, hname⟩ := h.1.eq_text
    have hmembers := readMembers_words h.2.1
    have hwords : words (Declaration.head (.union u)).toList = "union" :: u.name.written :: "=" ::
        words (" | ".intercalate (u.members.map (·.written))).toList := by
      have hequals : ∀ rest, words (" = ".toList.drop 1 ++ rest) = "=" :: words rest := fun rest =>
        words_keyword "=" (by decide) rest
      have hafter := words_append_cons (hname.not_mem (c := ' ') (by decide))
      simp only [Declaration.head, String.toList_append, List.append_assoc]
      rw [← hequals, ← hafter]
      exact words_keyword "union" (by decide) _
    change readDeclaration [⟨u.description, (Declaration.head (.union u)).toList⟩] = _
    simp only [readDeclaration, hwords, hmembers, ← htext]

def readSchema (text : String) : Option (List Declaration) :=
  if text = "" then some []
  else
    let lines := describedLines (.line []) (splitChars '\n' text.toList)
    ((lines.splitOnP fun line => line.line.isEmpty).dropLast).mapM readDeclaration

theorem Declaration.described_line_ne_nil {declaration : Declaration} {line : Described}
    (hl : line ∈ declaration.described) : line.line ≠ [] := by
  have hhead : declaration.head.toList ≠ [] := by
    cases declaration with
    | scalar s => simp [head]
    | composite c => cases hform : c.form <;> simp [head, hform, Form.keyword]
    | enum e => simp [head]
    | union u => simp [head]
  rw [described] at hl
  split at hl
  · rw [List.mem_singleton.mp hl]
    exact hhead
  · simp only [List.mem_append, List.mem_cons, List.mem_map, List.not_mem_nil, or_false] at hl
    rcases hl with (rfl | ⟨part, -, rfl⟩) | rfl
    · simp [String.toList_append]
    · simp [memberLine, memberIndent, String.toList_append]
    · decide

/-- The groups between the empty lines are the declarations. -/
theorem splitOnP_schema (declarations : List Declaration) :
    (declarations.flatMap fun declaration => declaration.described ++ [⟨"", []⟩]).splitOnP
        (fun line => line.line.isEmpty) =
      declarations.map (·.described) ++ [[]] := by
  induction declarations with
  | nil => rfl
  | cons declaration declarations ih =>
    have hlines : ∀ line ∈ declaration.described, line.line.isEmpty = false := by
      intro line hl
      exact List.isEmpty_eq_false_iff.mpr (Declaration.described_line_ne_nil hl)
    rw [List.flatMap_cons, List.append_assoc, List.singleton_append,
      List.splitOnP_append_cons_of_forall_mem hlines _ rfl, ih, List.map_cons, List.cons_append]

private theorem readSchema_schemaText {declarations : List Declaration}
    (h : ∀ declaration ∈ declarations, declaration.Plain) :
    readSchema (schemaText declarations) = some declarations := by
  cases declarations with
  | nil => rfl
  | cons first others =>
    have hne : schemaText (first :: others) ≠ "" := by
      simp [schemaText]
    rw [readSchema, if_neg hne]
    simp only [splitChars_schemaText h, describedLines_schema h, splitOnP_schema,
      List.dropLast_concat]
    exact mapM_read fun declaration hd => readDeclaration_described (h declaration hd)

/-- Printing loses nothing: the declarations of a schema can be read back from its text, so schemas
with the same text are the same. -/
theorem schemaText_injective (declarations others : List Declaration)
    (h : ∀ declaration ∈ declarations, declaration.Plain)
    (ho : ∀ declaration ∈ others, declaration.Plain) :
    readSchema (schemaText declarations) = some declarations ∧
      (schemaText declarations = schemaText others → declarations = others) := by
  have hread := readSchema_schemaText h
  refine ⟨hread, fun heq => ?_⟩
  rw [heq, readSchema_schemaText ho] at hread
  exact (Option.some.inj hread).symm

/-- Declarations whose descriptions look like other declarations, with quotes and backslashes. -/
def quotedDeclarations : List Declaration :=
  [.scalar
    { name := "Time"
      description := "\x7d\n\ntype Time \x7b\n  \\\"\"\"\"at\\\n\n  at: Int!\n\x7d" },
   .composite
    { form := .extension
      name := "Query"
      fields :=
        [{ name := "shop", typeName := "Shop"
           modifiers := { list := true, nonNull := true, nonNullList := true }
           arguments := [{ name := "id", typeName := "Int", modifiers := { nonNull := true } },
             { name := "at", typeName := "Time" }]
           directives := ["deprecated", "cached"]
           description := "\"\"\"\n\n\"\"\"" },
         { name := "time", typeName := "Time" }] },
   .union { name := "Found", members := ["Shop", "Query"], description := "\nunion Found = Shop" },
   .enum { name := "Kind" }]

theorem quotedDeclarations_injective :
    readSchema (schemaText quotedDeclarations) = some quotedDeclarations ∧
      schemaText quotedDeclarations ≠ schemaText quotedDeclarations.reverse := by
  have hplain : ∀ declaration ∈ quotedDeclarations, declaration.Plain := by decide
  have hreverse : ∀ declaration ∈ quotedDeclarations.reverse, declaration.Plain := by decide
  have hmain := schemaText_injective quotedDeclarations quotedDeclarations.reverse hplain hreverse
  exact ⟨hmain.1, fun heq => absurd (hmain.2 heq) (by decide)⟩

end ProtoSdl.Schema

import ProtoSdl.Proofs.BlockStrings

/-! The texts of fields and enum values read back. A name ends at the first character that no name
holds, and every mark that follows one is such a character, so each part of a member says itself
where it ends. -/
namespace ProtoSdl.Schema

open Text (splitChars)

def isNameStart (c : Char) : Bool := c = '_' || c.isAlpha

def isNameChar (c : Char) : Bool := c = '_' || c.isAlphanum

def isNameText : List Char → Bool
  | [] => false
  | first :: rest => isNameStart first && rest.all isNameChar

/-- A name of the schema language: letters, digits and underscores, with no digit in front. -/
def IsName (text : String) : Prop := isNameText text.toList = true

instance (text : String) : Decidable (IsName text) := inferInstanceAs (Decidable (_ = true))

private theorem isNameChar_of_isNameStart {c : Char} (h : isNameStart c = true) :
    isNameChar c = true := by
  simp only [isNameStart, Bool.or_eq_true, decide_eq_true_eq] at h
  rcases h with hu | ha
  · simp [isNameChar, hu]
  · simp [isNameChar, Char.isAlphanum, ha]

theorem isNameChar_of_isNameText {cs : List Char} (h : isNameText cs = true) {c : Char}
    (hc : c ∈ cs) : isNameChar c = true := by
  cases cs with
  | nil => contradiction
  | cons first rest =>
    simp only [isNameText, Bool.and_eq_true, List.all_eq_true] at h
    rcases List.mem_cons.mp hc with rfl | hc
    · exact isNameChar_of_isNameStart h.1
    · exact h.2 c hc

theorem IsName.isNameChar {text : String} (h : IsName text) {c : Char} (hc : c ∈ text.toList) :
    isNameChar c = true :=
  isNameChar_of_isNameText h hc

theorem IsName.not_mem {text : String} (h : IsName text) {c : Char}
    (hc : Schema.isNameChar c = false) : c ∉ text.toList := by
  intro hm
  rw [h.isNameChar hm] at hc
  contradiction

theorem IsName.ne_empty {text : String} (h : IsName text) : text ≠ "" := by
  rintro rfl
  simp [IsName, isNameText] at h

def TypeName.IsName : TypeName → Prop
  | text value => Schema.IsName value
  | list _ => False

instance : (name : TypeName) → Decidable name.IsName
  | .text value => inferInstanceAs (Decidable (IsName value))
  | .list _ => inferInstanceAs (Decidable False)

theorem TypeName.IsName.eq_text {name : TypeName} (h : name.IsName) :
    name = .text name.written ∧ Schema.IsName name.written := by
  cases name with
  | text value => exact ⟨rfl, h⟩
  | list items => exact h.elim

def cutName (cs : List Char) : String × List Char :=
  (String.ofList (cs.takeWhile isNameChar), cs.dropWhile isNameChar)

theorem cutName_append {name : String} (h : IsName name) {rest : List Char}
    (hr : ∀ c ∈ rest.head?, isNameChar c = false) :
    cutName (name.toList ++ rest) = (name, rest) := by
  have hall : ∀ c ∈ name.toList, isNameChar c = true := fun c hc => h.isNameChar hc
  unfold cutName
  rw [List.takeWhile_append_of_pos hall, List.dropWhile_append_of_pos hall]
  cases rest with
  | nil => simp [String.ofList_toList]
  | cons c rest =>
    have hc : isNameChar c = false := hr c (by simp)
    simp [hc, String.ofList_toList]

/-- Whether a text goes on with the mark of a value that is never null, and what follows. -/
def cutMark : List Char → Bool × List Char
  | '!' :: rest => (true, rest)
  | rest => (false, rest)

def markText (isSet : Bool) : List Char := if isSet then ['!'] else []

private theorem cutMark_append {isSet : Bool} {rest : List Char} (h : rest.head? ≠ some '!') :
    cutMark (markText isSet ++ rest) = (isSet, rest) := by
  cases isSet with
  | true => rfl
  | false =>
    unfold markText cutMark
    split
    · rename_i heq
      rw [if_neg Bool.false_ne_true, List.nil_append] at heq
      simp [heq] at h
    · rfl

def readType : List Char → Option ((TypeName × Modifiers) × List Char)
  | '[' :: cs =>
    let (name, cs) := cutName cs
    let (nonNull, cs) := cutMark cs
    match cs with
    | ']' :: cs =>
      let (nonNullList, cs) := cutMark cs
      some ((.text name, { nonNull, list := true, nonNullList }), cs)
    | _ => none
  | cs =>
    let (name, cs) := cutName cs
    let (nonNull, cs) := cutMark cs
    some ((.text name, { nonNull }), cs)

/-- Only a list can be marked as a list that is never null. -/
def Modifiers.Coherent (modifiers : Modifiers) : Prop :=
  modifiers.nonNullList = true → modifiers.list = true

instance (modifiers : Modifiers) : Decidable modifiers.Coherent :=
  inferInstanceAs (Decidable (_ → _))

theorem apply_toList (modifiers : Modifiers) (name : TypeName) :
    (modifiers.apply name).toList =
      if modifiers.list then
        '[' :: (name.written.toList ++ (markText modifiers.nonNull ++
          ']' :: markText modifiers.nonNullList))
      else name.written.toList ++ markText modifiers.nonNull := by
  obtain ⟨nonNull, list, nonNullList⟩ := modifiers
  cases nonNull <;> cases list <;> cases nonNullList <;>
    simp [Modifiers.apply, markText, String.toList_append]

theorem readType_apply {modifiers : Modifiers} {name : TypeName} (hn : name.IsName)
    (hm : modifiers.Coherent) {rest : List Char}
    (hr : ∀ c ∈ rest.head?, isNameChar c = false ∧ c ≠ '!') :
    readType ((modifiers.apply name).toList ++ rest) = some ((name, modifiers), rest) := by
  obtain ⟨nonNull, list, nonNullList⟩ := modifiers
  obtain ⟨htext, hname⟩ := hn.eq_text
  have hrest : rest.head? ≠ some '!' := fun heq => (hr '!' heq).2 rfl
  rw [apply_toList]
  cases list with
  | true =>
    have hmark : cutMark (markText nonNull ++ ']' :: (markText nonNullList ++ rest)) =
        (nonNull, ']' :: (markText nonNullList ++ rest)) := cutMark_append (by simp)
    have hcut : cutName (name.written.toList ++
        (markText nonNull ++ ']' :: (markText nonNullList ++ rest))) =
        (name.written, markText nonNull ++ ']' :: (markText nonNullList ++ rest)) :=
      cutName_append hname (by cases nonNull <;> simp [markText] <;> decide)
    simp only [if_true, List.cons_append, List.append_assoc, readType, hcut, hmark,
      cutMark_append hrest, ← htext]
  | false =>
    have hlist : nonNullList = false := by
      cases nonNullList with
      | true => exact absurd (hm rfl) (by simp)
      | false => rfl
    have hcut : cutName (name.written.toList ++ (markText nonNull ++ rest)) =
        (name.written, markText nonNull ++ rest) := by
      apply cutName_append hname
      cases nonNull with
      | true => simp [markText]; decide
      | false => exact fun c hc => (hr c hc).1
    obtain ⟨first, tail, hfirst⟩ := List.exists_cons_of_ne_nil
      (fun hnil => hname.ne_empty (String.toList_inj.mp hnil))
    have hbracket : first ≠ '[' := by
      rintro rfl
      exact hname.not_mem (by decide) (hfirst ▸ List.mem_cons_self)
    have hread : readType (name.written.toList ++ (markText nonNull ++ rest)) =
        some ((.text name.written, { nonNull }), rest) := by
      unfold readType
      split
      · rename_i heq
        rw [hfirst] at heq
        exact absurd (List.cons.inj heq).1 hbracket
      · simp only [hcut, cutMark_append hrest]
    simp only [Bool.false_eq_true, if_false, List.append_assoc]
    rw [hread, ← htext, hlist]

structure Argument.Plain (argument : Argument) : Prop where
  name : IsName argument.name
  typeName : argument.typeName.IsName
  modifiers : argument.modifiers.Coherent
  default : argument.default = ""

structure Field.Plain (field : Field) : Prop where
  name : IsName field.name
  typeName : field.typeName.IsName
  modifiers : field.modifiers.Coherent
  arguments : ∀ argument ∈ field.arguments, argument.Plain
  directives : ∀ directive ∈ field.directives, IsName directive
  description : ClearLines field.description

structure EnumValue.Plain (value : EnumValue) : Prop where
  name : IsName value.name
  directives : ∀ directive ∈ value.directives, IsName directive
  description : ClearLines value.description

instance (argument : Argument) : Decidable argument.Plain :=
  decidable_of_iff (IsName argument.name ∧ argument.typeName.IsName ∧
      argument.modifiers.Coherent ∧ argument.default = "")
    ⟨fun ⟨hn, ht, hm, hd⟩ => ⟨hn, ht, hm, hd⟩, fun ⟨hn, ht, hm, hd⟩ => ⟨hn, ht, hm, hd⟩⟩

instance (field : Field) : Decidable field.Plain :=
  decidable_of_iff (IsName field.name ∧ field.typeName.IsName ∧ field.modifiers.Coherent ∧
      (∀ argument ∈ field.arguments, argument.Plain) ∧
      (∀ directive ∈ field.directives, IsName directive) ∧ ClearLines field.description)
    ⟨fun ⟨hn, ht, hm, ha, hd, hc⟩ => ⟨hn, ht, hm, ha, hd, hc⟩,
      fun ⟨hn, ht, hm, ha, hd, hc⟩ => ⟨hn, ht, hm, ha, hd, hc⟩⟩

instance (value : EnumValue) : Decidable value.Plain :=
  decidable_of_iff (IsName value.name ∧ (∀ directive ∈ value.directives, IsName directive) ∧
      ClearLines value.description)
    ⟨fun ⟨hn, hd, hc⟩ => ⟨hn, hd, hc⟩, fun ⟨hn, hd, hc⟩ => ⟨hn, hd, hc⟩⟩

def readArgument (cs : List Char) : Option Argument :=
  match cutName cs with
  | (name, ':' :: ' ' :: cs) =>
    match readType cs with
    | some ((typeName, modifiers), []) => some { name, typeName, modifiers }
    | _ => none
  | _ => none

theorem argument_toList {argument : Argument} (h : argument.Plain) :
    argument.text.toList = argument.name.toList ++
      ':' :: ' ' :: (argument.modifiers.apply argument.typeName).toList := by
  simp [Argument.text, h.default, String.toList_append]

private theorem readArgument_text {argument : Argument} (h : argument.Plain) :
    readArgument argument.text.toList = some argument := by
  have hcut : cutName (argument.name.toList ++
      ':' :: ' ' :: (argument.modifiers.apply argument.typeName).toList) =
      (argument.name, ':' :: ' ' :: (argument.modifiers.apply argument.typeName).toList) :=
    cutName_append h.name (by simp; decide)
  have htype : readType ((argument.modifiers.apply argument.typeName).toList ++ []) =
      some ((argument.typeName, argument.modifiers), []) :=
    readType_apply h.typeName h.modifiers (by simp)
  rw [List.append_nil] at htype
  have hdefault := h.default
  obtain ⟨name, typeName, modifiers, default⟩ := argument
  subst hdefault
  rw [argument_toList h, readArgument, hcut]
  simp only [htype]

private theorem apply_not_mem {modifiers : Modifiers} {name : TypeName} (hn : name.IsName)
    {c : Char}
    (hc : isNameChar c = false) (hm : c ∉ ['[', ']', '!']) :
    c ∉ (modifiers.apply name).toList := by
  have hname := hn.eq_text.2.not_mem hc
  simp only [List.mem_cons, List.not_mem_nil, or_false, not_or] at hm
  obtain ⟨hopen, hclose, hmark⟩ := hm
  obtain ⟨nonNull, list, nonNullList⟩ := modifiers
  rw [apply_toList]
  cases nonNull <;> cases list <;> cases nonNullList <;>
    simp [markText, hname, hopen, hclose, hmark]

private theorem argument_not_mem {argument : Argument} (h : argument.Plain) {c : Char}
    (hc : isNameChar c = false) (hm : c ∉ ['[', ']', '!', ':', ' ']) :
    c ∉ argument.text.toList := by
  have hname := h.name.not_mem hc
  have htype : c ∉ (argument.modifiers.apply argument.typeName).toList := by
    apply apply_not_mem h.typeName hc
    simp only [List.mem_cons, not_or] at hm ⊢
    exact ⟨hm.1, hm.2.1, hm.2.2.1, by simp⟩
  simp only [List.mem_cons, not_or] at hm
  rw [argument_toList h]
  simp [hname, htype, hm.2.2.2.1, hm.2.2.2.2.1]

private theorem splitChars_spaced {piece : List Char} {pieces : List (List Char)}
    (h : ∀ part ∈ piece :: pieces, ',' ∉ part) :
    splitChars ',' ([',', ' '].intercalate (piece :: pieces)) =
      piece :: pieces.map fun part => ' ' :: part := by
  induction pieces generalizing piece with
  | nil =>
    rw [List.intercalate_singleton]
    exact Text.splitChars_of_not_mem (h piece (by simp))
  | cons second pieces ih =>
    have hrest := ih fun part hp => h part (List.mem_cons_of_mem _ hp)
    have hblank : splitChars ',' ([' '] ++ [',', ' '].intercalate (second :: pieces)) =
        ([' '] ++ second) :: pieces.map fun part => ' ' :: part :=
      Text.splitChars_append (by decide) hrest
    rw [List.intercalate_cons_cons, List.append_assoc, List.cons_append,
      Text.splitChars_append_cons (h piece (by simp)), hblank]
    rfl

/-- Reading undoes printing item by item. -/
theorem mapM_read {α β : Type} {read : β → Option α} {print : α → β} {items : List α}
    (h : ∀ item ∈ items, read (print item) = some item) :
    (items.map print).mapM read = some items := by
  induction items with
  | nil => rfl
  | cons item items ih =>
    rw [List.map_cons, List.mapM_cons, h item List.mem_cons_self,
      ih fun other ho => h other (List.mem_cons_of_mem _ ho)]
    rfl

def readArguments : List Char → Option (List Argument × List Char)
  | '(' :: cs =>
    let (inside, rest) := Text.cutChars ')' cs
    (((splitChars ',' inside).map fun piece => piece.dropWhile (· = ' ')).mapM readArgument).map
      (·, rest)
  | cs => some ([], cs)

private theorem argument_dropWhile {argument : Argument} (h : argument.Plain) :
    argument.text.toList.dropWhile (· = ' ') = argument.text.toList := by
  obtain ⟨first, tail, hfirst⟩ := List.exists_cons_of_ne_nil
    (fun hnil => h.name.ne_empty (String.toList_inj.mp hnil))
  have hblank : first ≠ ' ' := by
    rintro rfl
    exact h.name.not_mem (by decide) (hfirst ▸ List.mem_cons_self)
  rw [argument_toList h, hfirst, List.cons_append, List.dropWhile_cons]
  simp [hblank]

theorem argumentsText_toList (first : Argument) (others : List Argument) :
    (argumentsText (first :: others)).toList =
      '(' :: ([',', ' '].intercalate ((first :: others).map (·.text.toList)) ++ [')']) := by
  simp [argumentsText, String.toList_append, String.toList_intercalate, Function.comp_def]

private theorem readArguments_text {arguments : List Argument}
    (h : ∀ argument ∈ arguments, argument.Plain)
    {rest : List Char} (hr : rest.head? ≠ some '(') :
    readArguments ((argumentsText arguments).toList ++ rest) = some (arguments, rest) := by
  cases arguments with
  | nil =>
    change readArguments rest = _
    unfold readArguments
    split
    · simp at hr
    · rfl
  | cons first others =>
    have hcomma : ∀ part ∈ (first :: others).map (·.text.toList), ',' ∉ part := by
      intro part hp
      obtain ⟨argument, ha, rfl⟩ := List.mem_map.mp hp
      exact argument_not_mem (h argument ha) (by decide) (by decide)
    have hclose : ')' ∉ [',', ' '].intercalate ((first :: others).map (·.text.toList)) := by
      intro hm
      rcases Text.mem_of_mem_intercalate hm with hm | ⟨part, hp, hm⟩
      · revert hm
        decide
      · obtain ⟨argument, ha, rfl⟩ := List.mem_map.mp hp
        exact argument_not_mem (h argument ha) (by decide) (by decide) hm
    have hpieces : (splitChars ',' ([',', ' '].intercalate
        ((first :: others).map (·.text.toList)))).map (fun piece => piece.dropWhile (· = ' ')) =
        (first :: others).map (·.text.toList) := by
      rw [List.map_cons] at hcomma ⊢
      rw [splitChars_spaced hcomma, List.map_cons, argument_dropWhile (h first (by simp)),
        List.map_map, List.map_map]
      congr 1
      apply List.map_congr_left
      intro argument ha
      exact argument_dropWhile (h argument (List.mem_cons_of_mem _ ha))
    rw [argumentsText_toList, List.cons_append, List.append_assoc, List.singleton_append,
      readArguments, Text.cutChars_append_cons hclose]
    simp only [hpieces, mapM_read fun argument ha => readArgument_text (h argument ha)]
    rfl

def readDirectives (cs : List Char) : List String :=
  ((splitChars ' ' cs).drop 1).map fun word => String.ofList (word.drop 1)

theorem directivesText_cons (directive : String) (directives : List String) :
    (directivesText (directive :: directives)).toList =
      ' ' :: ('@' :: directive.toList ++ (directivesText directives).toList) := by
  simp [directivesText, String.toList_append]

private theorem splitChars_directivesText {directives : List String}
    (h : ∀ directive ∈ directives, IsName directive) :
    splitChars ' ' (directivesText directives).toList =
      [] :: directives.map fun directive => '@' :: directive.toList := by
  induction directives with
  | nil => rfl
  | cons directive directives ih =>
    have hrest := ih fun other ho => h other (List.mem_cons_of_mem _ ho)
    have hword : ' ' ∉ '@' :: directive.toList := by
      have hblank := (h directive List.mem_cons_self).not_mem (c := ' ') (by decide)
      simp [hblank]
    rw [directivesText_cons, splitChars, if_pos rfl, Text.splitChars_append hword hrest,
      List.append_nil, List.map_cons]

theorem readDirectives_text {directives : List String}
    (h : ∀ directive ∈ directives, IsName directive) :
    readDirectives (directivesText directives).toList = directives := by
  rw [readDirectives, splitChars_directivesText h, List.drop_one, List.tail_cons, List.map_map]
  simp [Function.comp_def, String.ofList_toList]

theorem directivesText_head {directives : List String} {c : Char}
    (h : c ∈ (directivesText directives).toList.head?) : c = ' ' := by
  cases directives with
  | nil => simp [directivesText] at h
  | cons directive directives => simpa [directivesText_cons, eq_comm] using h

def readField (description : String) (cs : List Char) : Option Field :=
  let (name, cs) := cutName cs
  match readArguments cs with
  | some (arguments, ':' :: ' ' :: cs) =>
    (readType cs).map fun ((typeName, modifiers), cs) =>
      { name, typeName, modifiers, arguments, directives := readDirectives cs, description }
  | _ => none

/-- What follows the name and the arguments of a field. -/
def Field.typeText (field : Field) : List Char :=
  (field.modifiers.apply field.typeName).toList ++ (directivesText field.directives).toList

theorem field_toList (field : Field) : field.text.toList = field.name.toList ++
    ((argumentsText field.arguments).toList ++ ':' :: ' ' :: field.typeText) := by
  simp [Field.text, Field.typeText, String.toList_append]

theorem readField_text {field : Field} (h : field.Plain) :
    readField field.description field.text.toList = some field := by
  have hcut : cutName field.text.toList =
      (field.name, (argumentsText field.arguments).toList ++ ':' :: ' ' :: field.typeText) := by
    rw [field_toList]
    apply cutName_append h.name
    cases field.arguments with
    | nil => simp [argumentsText]; decide
    | cons first others => simp [argumentsText_toList]; decide
  have htype : readType field.typeText =
      some ((field.typeName, field.modifiers), (directivesText field.directives).toList) := by
    apply readType_apply h.typeName h.modifiers
    intro c hc
    rw [directivesText_head hc]
    decide
  have harguments : readArguments ((argumentsText field.arguments).toList ++
      ':' :: ' ' :: field.typeText) = some (field.arguments, ':' :: ' ' :: field.typeText) :=
    readArguments_text h.arguments (by simp)
  simp only [readField, hcut, harguments, htype, Option.map_some,
    readDirectives_text h.directives]

def readValue (description : String) (cs : List Char) : EnumValue :=
  let (name, cs) := cutName cs
  { name, directives := readDirectives cs, description }

theorem readValue_text {value : EnumValue} (h : value.Plain) :
    readValue value.description value.text.toList = value := by
  have hcut : cutName value.text.toList =
      (value.name, (directivesText value.directives).toList) := by
    rw [EnumValue.text, String.toList_append]
    apply cutName_append h.name
    intro c hc
    rw [directivesText_head hc]
    decide
  simp only [readValue, hcut, readDirectives_text h.directives]

end ProtoSdl.Schema

import ProtoSdl.Proofs.DocumentKeys
import ProtoSdl.Proofs.MisusedOptions

/-! Documents of options and the index they are read into. A document is accepted by its shape
alone, and the index tells of each declaration what the document gives for it. -/
namespace ProtoSdl

open Outcome

/-- The value at the end of a path of keys through objects. -/
def Json.at? : List String → Json → Option Json
  | [], value => some value
  | key :: path, .object entries => (Json.entry? key entries).bind (at? path)
  | _ :: _, _ => none

theorem Json.at?_key (key : String) (entries : List (String × Json)) :
    (Json.object entries).at? [key] = entry? key entries :=
  Option.bind_fun_some _

theorem Json.at?_of_not_isSet {value : Json} (h : value.isSet = false) (key : String)
    (path : List String) : value.at? (key :: path) = none := by
  cases value with
  | object entries =>
    cases entries with
    | nil => rfl
    | cons => simp [isSet] at h
  | _ => rfl

namespace Options

/-- An entry: an object that has no keys but those of its section's entries. -/
def IsEntry (place : Section) (value : Json) : Prop :=
  ∃ values, value = .object values ∧ ∀ key ∈ values.map (·.1), key ∈ place.entryKeys

/-- A section: a value that is not set, or an object of entries. -/
def IsSection (place : Section) (value : Json) : Prop :=
  value.isSet = false ∨
    ∃ entries, value = .object entries ∧ ∀ entry ∈ entries, IsEntry place entry.2

/-- A document: an object of sections under their keys. -/
def IsDocument (document : Json) : Prop :=
  ∃ sections, document = .object sections ∧
    ∀ part ∈ sections, ∃ place : Section, place.key = part.1 ∧ IsSection place part.2

/-- Every look-up gives the values that the document has for it, and defaults for the rest. -/
structure Index.Answers (index : Index) (document : Json) : Prop where
  file (name : String) : index.file name =
    { nameSpace := (document.at? ["files", name, "namespace"]).getD (.text "") }
  field (name : String) : index.field name =
    { foreignKey := (document.at? ["fields", name, "foreign_key"]).getD (.text "") }
  enumValue (name : String) : index.enumValue name =
    { name := (document.at? ["enum_values", name, "name"]).getD (.text "")
      skip := (document.at? ["enum_values", name, "skip"]).getD (.bool false)
      deprecated := (document.at? ["enum_values", name, "deprecated"]).getD (.bool false) }
  service (name : String) : index.service name =
    { skip := (document.at? ["services", name, "skip"]).getD (.bool false) }
  method (name : String) : index.method name =
    { operation := (document.at? ["methods", name, "operation"]).getD (.text "")
      skip := (document.at? ["methods", name, "skip"]).getD (.bool false)
      loadOne := (document.at? ["methods", name, "load_one"]).getD (.text "")
      loadMany := (document.at? ["methods", name, "load_many"]).getD (.text "") }

/-! ### Entries -/

private theorem entryFault?_eq_none_iff {place : Section} {keys : List String} :
    entryFault? place keys = none ↔ ∀ key ∈ keys, key ∈ place.entryKeys := by
  have hself : "self" ∉ place.entryKeys := by cases place <;> decide
  rw [entryFault?, List.findSome?_eq_none_iff]
  refine forall₂_congr fun key _ => ?_
  by_cases hkey : key = "self"
  · simp [hkey, hself]
  · simp [hkey]

theorem entryValues_eq_ok_iff {place : Section} {identity : String} {value : Json}
    {values : List (String × Json)} : entryValues place identity value = .ok values ↔
      value = .object values ∧ ∀ key ∈ values.map (·.1), key ∈ place.entryKeys := by
  cases value with
  | object entries =>
    rw [entryValues]
    cases hfault : entryFault? place (entries.map (·.1)) with
    | none =>
      have hkeys := entryFault?_eq_none_iff.mp hfault
      constructor
      · intro h
        cases h
        exact ⟨rfl, hkeys⟩
      · rintro ⟨hvalues, -⟩
        cases hvalues
        rfl
    | some fault =>
      constructor
      · intro h
        cases h
      · rintro ⟨hvalues, hkeys⟩
        cases hvalues
        cases hfault.symm.trans (entryFault?_eq_none_iff.mpr hkeys)
  | _ => simp [entryValues]

/-! ### Sections -/

section Sections

variable {sections entries : List (String × Json)} {place : Section}

private theorem sectionEntries_of_object
    (h : Json.entry? place.key sections = some (.object entries)) :
    sectionEntries sections place = .ok entries := by
  rw [sectionEntries, h]
  cases entries <;> rfl

/-- The entries of a section are those of its object, or none where its value is not set. -/
theorem sectionEntries_cases (h : sectionEntries sections place = .ok entries) :
    Json.entry? place.key sections = some (.object entries) ∨
      entries = [] ∧ ∀ value ∈ Json.entry? place.key sections, value.isSet = false := by
  unfold sectionEntries at h
  split at h
  · rename_i hnone
    cases h
    exact .inr ⟨rfl, by simp [hnone]⟩
  · rename_i value hvalue
    split at h
    · split at h
      · cases h
        exact .inl hvalue
      · cases h
    · rename_i hset
      cases h
      refine .inr ⟨rfl, fun other hother => ?_⟩
      cases hvalue.symm.trans hother
      exact Bool.eq_false_iff.mpr hset

private theorem at?_section (h : sectionEntries sections place = .ok entries) (identity : String)
    (path : List String) : (Json.object sections).at? (place.key :: identity :: path) =
      (Json.object entries).at? (identity :: path) := by
  rcases sectionEntries_cases h with hobject | ⟨rfl, hunset⟩
  · rw [Json.at?, hobject]
    rfl
  · rw [Json.at?]
    cases hvalue : Json.entry? place.key sections with
    | none => rfl
    | some value => exact Json.at?_of_not_isSet (hunset value hvalue) identity path

private theorem nodup_sectionEntries (h : sectionEntries sections place = .ok entries)
    (hapart : (Json.object sections).KeysApart) : (entries.map (·.1)).Nodup := by
  rcases sectionEntries_cases h with hobject | ⟨rfl, -⟩
  · cases hapart with
    | object hkeys hsections =>
      have hsection := hsections _ ((Json.entry?_eq_some_iff hkeys).mp hobject)
      cases hsection with
      | object hentries _ => exact hentries
  · exact List.nodup_nil

private theorem exists_sectionEntries
    (h : ∀ value ∈ Json.entry? place.key sections, IsSection place value) :
    ∃ entries, sectionEntries sections place = .ok entries ∧
      ∀ entry ∈ entries, IsEntry place entry.2 := by
  cases hvalue : Json.entry? place.key sections with
  | none => exact ⟨[], by rw [sectionEntries, hvalue], by simp⟩
  | some value =>
    rcases h value hvalue with hunset | ⟨entries, rfl, hentries⟩
    · exact ⟨[], by simp [sectionEntries, hvalue, hunset], by simp⟩
    · exact ⟨entries, sectionEntries_of_object hvalue, hentries⟩

/-- A section is read if its value is one. -/
theorem exists_readSection_iff {α : Type} {note : List (String × Json) → α} :
    (∃ table, readSection sections place note = .ok table) ↔
      ∀ value ∈ Json.entry? place.key sections, IsSection place value := by
  constructor
  · rintro ⟨table, h⟩ value hvalue
    obtain ⟨entries, hentries, h⟩ := bind_eq_ok.mp h
    obtain ⟨notes, hnotes, -⟩ := bind_eq_ok.mp h
    rcases sectionEntries_cases hentries with hobject | ⟨-, hunset⟩
    · cases hobject.symm.trans hvalue
      refine .inr ⟨entries, rfl, fun entry hentry => ?_⟩
      obtain ⟨result, -, hresult⟩ := exists_of_mem_mapM hnotes hentry
      obtain ⟨values, hvalues, -⟩ := bind_eq_ok.mp hresult
      exact ⟨values, entryValues_eq_ok_iff.mp hvalues⟩
    · exact .inl (hunset value hvalue)
  · intro h
    obtain ⟨entries, hentries, hgood⟩ := exists_sectionEntries h
    have hread : ∀ entry ∈ entries, ∃ result,
        (do return (entry.1, note (← entryValues place entry.1 entry.2))) = Except.ok result := by
      intro entry hentry
      obtain ⟨values, hvalues⟩ := hgood entry hentry
      exact ⟨_, bind_eq_ok.mpr ⟨values, entryValues_eq_ok_iff.mpr hvalues, rfl⟩⟩
    obtain ⟨notes, hnotes⟩ := exists_mapM_ok hread
    exact ⟨_, bind_eq_ok.mpr ⟨entries, hentries, bind_eq_ok.mpr ⟨notes, hnotes, rfl⟩⟩⟩

/-- A table has the note of every entry under its identity, and no other. -/
theorem get?_readSection {α : Type} {note : List (String × Json) → α} {table : Table α}
    (h : readSection sections place note = .ok table)
    (hentries : sectionEntries sections place = .ok entries) (hnodup : (entries.map (·.1)).Nodup)
    (identity : String) : Json.entry? identity entries = none ∧ table.get? identity = none ∨
      ∃ values, Json.entry? identity entries = some (.object values) ∧
        table.get? identity = some (note values) := by
  obtain ⟨own, hown, h⟩ := bind_eq_ok.mp h
  cases hentries.symm.trans hown
  obtain ⟨notes, hnotes, h⟩ := bind_eq_ok.mp h
  cases h
  have hkeys : notes.map (·.1) = entries.map (·.1) := by
    refine map_results hnotes _ _ fun entry result hread => ?_
    obtain ⟨values, -, h⟩ := bind_eq_ok.mp hread
    cases h
    rfl
  have htable : (Table.ofList notes).entries = notes := Table.entries_ofList (hkeys ▸ hnodup)
  have hnames : (Table.ofList notes).keys = entries.map (·.1) := by rw [Table.keys, htable, hkeys]
  cases hentry : Json.entry? identity entries with
  | none =>
    rw [Json.entry?_eq_get?, Table.get?_eq_none_iff] at hentry
    exact .inl ⟨rfl, Table.get?_eq_none_iff.mpr (hnames ▸ hentry)⟩
  | some value =>
    have hmem := (Json.entry?_eq_some_iff hnodup).mp hentry
    obtain ⟨result, hresult, hread⟩ := exists_of_mem_mapM hnotes hmem
    obtain ⟨values, hvalues, h⟩ := bind_eq_ok.mp hread
    cases h
    obtain ⟨rfl, -⟩ := entryValues_eq_ok_iff.mp hvalues
    rw [← htable] at hresult
    exact .inr ⟨values, rfl, (Table.get?_eq_some_iff (hnames ▸ hnodup)).mpr hresult⟩

/-- What a section's table tells of a declaration is what the section gives for it. -/
theorem getD_readSection {α : Type} {note : List (String × Json) → α} {table : Table α}
    (h : readSection sections place note = .ok table) (hapart : (Json.object sections).KeysApart)
    (identity : String) : ∃ values, (table.get? identity).getD (note []) = note values ∧
      ∀ key default, valueOr key default values =
        ((Json.object sections).at? [place.key, identity, key]).getD default := by
  obtain ⟨entries, hentries, -⟩ := bind_eq_ok.mp h
  have hat : ∀ key, (Json.object sections).at? [place.key, identity, key] =
      (Json.entry? identity entries).bind (Json.at? [key]) := fun key => at?_section hentries _ _
  rcases get?_readSection h hentries (nodup_sectionEntries hentries hapart) identity with
    ⟨hentry, hnone⟩ | ⟨values, hentry, hfound⟩
  · refine ⟨[], by rw [hnone]; rfl, fun key default => ?_⟩
    rw [hat, hentry]
    rfl
  · refine ⟨values, by rw [hfound]; rfl, fun key default => ?_⟩
    rw [hat, hentry, Option.bind_some, Json.at?_key]
    rfl

end Sections

/-! ### Documents -/

private theorem isSectionName_text {name : String} :
    isSectionName (.text name) = true ↔ ∃ place : Section, place.key = name := by
  rw [isSectionName, List.any_eq_true]
  constructor
  · rintro ⟨place, -, hkey⟩
    exact ⟨place, of_decide_eq_true hkey⟩
  · rintro ⟨place, hkey⟩
    exact ⟨place, by cases place <;> decide, decide_eq_true hkey⟩

private theorem checkSections_eq_ok {names : List Json} :
    checkSections names = .ok () ↔ ∀ name ∈ names, isSectionName name = true := by
  have hempty : (distinctNames (names.filter (!isSectionName ·))).isEmpty = true ↔
      ∀ name ∈ names, isSectionName name = true := by
    cases hunknown : names.filter (!isSectionName ·) with
    | nil => simpa [distinctNames] using hunknown
    | cons name others =>
      have hname : name ∈ names.filter (!isSectionName ·) := by simp [hunknown]
      refine iff_of_false (by simp [distinctNames]) fun hall => ?_
      simpa [hall name (List.mem_of_mem_filter hname)] using List.of_mem_filter hname
  unfold checkSections
  simp only
  split
  · rename_i hnone
    exact iff_of_true rfl (hempty.mp hnone)
  · rename_i hsome
    refine iff_of_false (fun h => ?_) (mt hempty.mpr hsome)
    split at h <;> cases h

def FileNote.ofValues (values : List (String × Json)) : FileNote :=
  { nameSpace := valueOr "namespace" (.text "") values }

def FieldNote.ofValues (values : List (String × Json)) : FieldNote :=
  { foreignKey := valueOr "foreign_key" (.text "") values }

def EnumValueNote.ofValues (values : List (String × Json)) : EnumValueNote :=
  { name := valueOr "name" (.text "") values
    skip := valueOr "skip" (.bool false) values
    deprecated := valueOr "deprecated" (.bool false) values }

def ServiceNote.ofValues (values : List (String × Json)) : ServiceNote :=
  { skip := valueOr "skip" (.bool false) values }

def MethodNote.ofValues (values : List (String × Json)) : MethodNote :=
  { operation := valueOr "operation" (.text "") values
    skip := valueOr "skip" (.bool false) values
    loadOne := valueOr "load_one" (.text "") values
    loadMany := valueOr "load_many" (.text "") values }

theorem ofDocument_object {sections : List (String × Json)} {index : Index} :
    Index.ofDocument (.object sections) = .ok index ↔
      (∀ part ∈ sections, ∃ place : Section, place.key = part.1) ∧
      readSection sections .files FileNote.ofValues = .ok index.files ∧
      readSection sections .fields FieldNote.ofValues = .ok index.fields ∧
      readSection sections .enumValues EnumValueNote.ofValues = .ok index.enumValues ∧
      readSection sections .services ServiceNote.ofValues = .ok index.services ∧
      readSection sections .methods MethodNote.ofValues = .ok index.methods := by
  have hcheck : checkSections (sections.map fun entry => .text entry.1) = .ok () ↔
      ∀ part ∈ sections, ∃ place : Section, place.key = part.1 := by
    rw [checkSections_eq_ok, List.forall_mem_map]
    exact forall₂_congr fun part _ => isSectionName_text
  constructor
  · intro h
    obtain ⟨names, hnames, h⟩ := bind_eq_ok.mp h
    cases hnames
    obtain ⟨⟨⟩, hnames, h⟩ := bind_eq_ok.mp h
    obtain ⟨files, hfiles, h⟩ := bind_eq_ok.mp h
    obtain ⟨fields, hfields, h⟩ := bind_eq_ok.mp h
    obtain ⟨enumValues, henumValues, h⟩ := bind_eq_ok.mp h
    obtain ⟨services, hservices, h⟩ := bind_eq_ok.mp h
    obtain ⟨methods, hmethods, h⟩ := bind_eq_ok.mp h
    cases h
    exact ⟨hcheck.mp hnames, hfiles, hfields, henumValues, hservices, hmethods⟩
  · rintro ⟨hnames, hfiles, hfields, henumValues, hservices, hmethods⟩
    refine bind_eq_ok.mpr ⟨_, rfl, bind_eq_ok.mpr ⟨(), hcheck.mpr hnames, ?_⟩⟩
    refine bind_eq_ok.mpr ⟨_, hfiles, bind_eq_ok.mpr ⟨_, hfields, ?_⟩⟩
    refine bind_eq_ok.mpr ⟨_, henumValues, bind_eq_ok.mpr ⟨_, hservices, ?_⟩⟩
    exact bind_eq_ok.mpr ⟨_, hmethods, rfl⟩

private theorem answers_of_ofDocument {sections : List (String × Json)} {index : Index}
    (h : Index.ofDocument (.object sections) = .ok index)
    (hapart : (Json.object sections).KeysApart) : index.Answers (.object sections) := by
  obtain ⟨-, hfiles, hfields, henumValues, hservices, hmethods⟩ := ofDocument_object.mp h
  constructor
  · intro name
    obtain ⟨values, hnote, hvalues⟩ := getD_readSection hfiles hapart name
    refine hnote.trans ?_
    simp only [FileNote.ofValues, hvalues]
    rfl
  · intro name
    obtain ⟨values, hnote, hvalues⟩ := getD_readSection hfields hapart name
    refine hnote.trans ?_
    simp only [FieldNote.ofValues, hvalues]
    rfl
  · intro name
    obtain ⟨values, hnote, hvalues⟩ := getD_readSection henumValues hapart name
    refine hnote.trans ?_
    simp only [EnumValueNote.ofValues, hvalues]
    rfl
  · intro name
    obtain ⟨values, hnote, hvalues⟩ := getD_readSection hservices hapart name
    refine hnote.trans ?_
    simp only [ServiceNote.ofValues, hvalues]
    rfl
  · intro name
    obtain ⟨values, hnote, hvalues⟩ := getD_readSection hmethods hapart name
    refine hnote.trans ?_
    simp only [MethodNote.ofValues, hvalues]
    rfl

theorem Section.key_injective : Function.Injective Section.key := by
  intro a b
  cases a <;> cases b <;> simp [key]

private theorem isDocument_object {sections : List (String × Json)}
    (hkeys : (sections.map (·.1)).Nodup) : IsDocument (.object sections) ↔
      (∀ part ∈ sections, ∃ place : Section, place.key = part.1) ∧
      ∀ place : Section, ∀ value ∈ Json.entry? place.key sections, IsSection place value := by
  constructor
  · rintro ⟨own, hown, h⟩
    cases hown
    refine ⟨fun part hpart => (h part hpart).imp fun _ hplace => hplace.1, ?_⟩
    intro place value hvalue
    obtain ⟨other, hkey, hsection⟩ := h _ ((Json.entry?_eq_some_iff hkeys).mp hvalue)
    rwa [Section.key_injective hkey] at hsection
  · rintro ⟨hknown, hgood⟩
    refine ⟨sections, rfl, fun part hpart => ?_⟩
    obtain ⟨place, hkey⟩ := hknown part hpart
    refine ⟨place, hkey, hgood place part.2 ((Json.entry?_eq_some_iff hkeys).mpr ?_)⟩
    rwa [hkey]

private theorem exists_ofDocument_iff {sections : List (String × Json)} :
    (∃ index, Index.ofDocument (.object sections) = .ok index) ↔
      (∀ part ∈ sections, ∃ place : Section, place.key = part.1) ∧
      ∀ place : Section, ∀ value ∈ Json.entry? place.key sections, IsSection place value := by
  constructor
  · rintro ⟨index, h⟩
    obtain ⟨hknown, hfiles, hfields, henumValues, hservices, hmethods⟩ := ofDocument_object.mp h
    refine ⟨hknown, fun place => ?_⟩
    cases place with
    | files => exact exists_readSection_iff.mp ⟨_, hfiles⟩
    | fields => exact exists_readSection_iff.mp ⟨_, hfields⟩
    | enumValues => exact exists_readSection_iff.mp ⟨_, henumValues⟩
    | services => exact exists_readSection_iff.mp ⟨_, hservices⟩
    | methods => exact exists_readSection_iff.mp ⟨_, hmethods⟩
  · rintro ⟨hknown, hgood⟩
    obtain ⟨files, hfiles⟩ := exists_readSection_iff.mpr (hgood .files)
    obtain ⟨fields, hfields⟩ := exists_readSection_iff.mpr (hgood .fields)
    obtain ⟨enumValues, henumValues⟩ := exists_readSection_iff.mpr (hgood .enumValues)
    obtain ⟨services, hservices⟩ := exists_readSection_iff.mpr (hgood .services)
    obtain ⟨methods, hmethods⟩ := exists_readSection_iff.mpr (hgood .methods)
    exact ⟨⟨files, fields, enumValues, services, methods⟩,
      ofDocument_object.mpr ⟨hknown, hfiles, hfields, henumValues, hservices, hmethods⟩⟩

/-- Documents of options are accepted exactly by their shape, and the index that is read answers every
look-up with what the document gives. The keys of a document are apart, as of all that is read from
a text. -/
theorem documents_are_read_by_shape {document : Json} (hapart : document.KeysApart) :
    ((∃ index, Index.ofDocument document = .ok index) ↔ IsDocument document) ∧
      ∀ index, Index.ofDocument document = .ok index → index.Answers document := by
  by_cases hobject : ∃ sections, document = .object sections
  · obtain ⟨sections, rfl⟩ := hobject
    refine ⟨?_, fun index h => answers_of_ofDocument h hapart⟩
    cases hapart with
    | object hkeys _ => rw [exists_ofDocument_iff, isDocument_object hkeys]
  · constructor
    · refine iff_of_false ?_ ?_
      · rintro ⟨index, h⟩
        exact hobject (isObject_of_ofDocument h)
      · rintro ⟨sections, h, -⟩
        exact hobject ⟨sections, h⟩
    · intro index h
      exact absurd (isObject_of_ofDocument h) hobject

/-- A document with a section that is not set, and with an unusual value in another. -/
def parcelDocument : Json :=
  .object [("files", .null),
    ("methods", .object [(".Parcels.Send", .object [("skip", .int 1)])])]

def parcelOptions : String :=
  "\x7b\"files\": null, \"methods\": \x7b\".Parcels.Send\": \x7b\"skip\": 1\x7d\x7d\x7d"

theorem parcel_document_is_read :
    parcelDocument.KeysApart ∧ IsDocument parcelDocument ∧
      ∃ index, Index.ofDocument parcelDocument = .ok index ∧
        index.file "parcel.proto" = {} ∧ index.method ".Parcels.Send" = { skip := .int 1 } ∧
        index.method ".Parcels.Track" = {} := by
  have htext : Json.ofText parcelOptions = .ok parcelDocument :=
    eq_ok_of_toOption (by decide +kernel)
  have hapart := Json.keysApart_of_ofText htext
  have hsend : IsEntry .methods (.object [("skip", .int 1)]) := ⟨_, rfl, by decide⟩
  have hdocument : IsDocument parcelDocument := by
    refine ⟨_, rfl, List.forall_mem_cons.mpr ⟨⟨.files, rfl, .inl rfl⟩, ?_⟩⟩
    refine List.forall_mem_singleton.mpr ⟨.methods, rfl, .inr ⟨_, rfl, ?_⟩⟩
    exact List.forall_mem_singleton.mpr hsend
  obtain ⟨index, hindex⟩ := (documents_are_read_by_shape hapart).1.mpr hdocument
  have hanswers := (documents_are_read_by_shape hapart).2 index hindex
  exact ⟨hapart, hdocument, index, hindex, hanswers.file _, hanswers.method _, hanswers.method _⟩

end Options

end ProtoSdl

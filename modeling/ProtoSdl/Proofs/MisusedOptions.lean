import ProtoSdl.Options.Document
import ProtoSdl.Proofs.Defects
import ProtoSdl.Proofs.OneofMembers
import ProtoSdl.Proofs.StrayComments

/-! Options of a kind that their use does not allow. A document and its sections must be objects and
a foreign key or a loader must be a text; a value of another kind has no diagnostic. In a well-formed
file only such a value, or a comment whose path stops short, is to blame for a defect. -/
namespace ProtoSdl

open Outcome

namespace Options

/-- A value that is given and is no text. -/
def Untextual (value : Json) : Prop :=
  value.isSet = true ∧ isText value = false

theorem not_untextual_of_isText {value : Json} (h : isText value = true) : ¬ Untextual value :=
  fun hbad => Bool.false_ne_true (hbad.2.symm.trans h)

theorem readText_blames {α : Type} (read : String → Except Error (Option α)) (value : Json) :
    Blames (readText read value) (Untextual value) := by
  unfold readText
  split
  · rename_i hset
    split
    · refine (Blames.mapError (by simp [Fault.options]) _).congr ?_
      simp [Untextual, isText]
    · rename_i hnone
      refine Blames.error ⟨hset, ?_⟩ _
      cases value with
      | text text => exact absurd rfl (hnone text)
      | _ => rfl
  · rename_i hset
    exact Blames.ok (fun h => hset h.1) none

section Documents

variable {sections : List (String × Json)}

/-- A section that is given and is no object. -/
def MisusedSection (sections : List (String × Json)) (place : Section) : Prop :=
  ∃ value, Json.entry? place.key sections = some value ∧ value.isSet = true ∧
    ∀ entries, value ≠ .object entries

private theorem sectionEntries_blames (sections : List (String × Json)) (place : Section) :
    Blames (sectionEntries sections place) (MisusedSection sections place) := by
  unfold sectionEntries MisusedSection
  cases Json.entry? place.key sections with
  | none => exact Blames.ok (by simp) []
  | some value =>
    simp only [Option.some.injEq, exists_eq_left']
    split
    · rename_i hset
      split
      · exact Blames.ok (by simp) _
      · rename_i hnone
        exact Blames.error ⟨hset, hnone⟩ _
    · rename_i hset
      exact Blames.ok (fun h => hset h.1) []

private theorem entryValues_ne_defect (place : Section) (identity : String) (value : Json)
    (defect : Defect) : entryValues place identity value ≠ .error (.defect defect) := by
  unfold entryValues
  split
  · split <;> simp [Fault.options]
  · simp [Fault.options]

private theorem readSection_blames {α : Type} (sections : List (String × Json)) (place : Section)
    (note : List (String × Json) → α) :
    Blames (readSection sections place note) (MisusedSection sections place) := by
  refine (sectionEntries_blames sections place).bind_left fun entries _ => ?_
  refine Blames.bind_left ?_ fun notes _ => Blames.ok not_false _
  refine Blames.of_no_defect fun defect h => ?_
  obtain ⟨entry, -, h⟩ := fault_of_mapM h
  rcases bind_eq_error.mp h with h | ⟨values, -, h⟩
  · exact entryValues_ne_defect place entry.1 entry.2 defect h
  · cases h

private theorem distinctNames_subset (names : List Json) : distinctNames names ⊆ names := by
  induction names with
  | nil => exact List.Subset.refl _
  | cons name names ih =>
    exact List.cons_subset_cons _ (List.Subset.trans (List.filter_subset_self _) ih)

private theorem checkSections_ne_defect {names : List Json} (h : names.all isText = true)
    (defect : Defect) : checkSections names ≠ .error (.defect defect) := by
  have hunknown : ∀ name ∈ distinctNames (names.filter (!isSectionName ·)), isText name = true :=
    fun name hm => List.all_eq_true.mp h name
      (List.mem_of_mem_filter (distinctNames_subset _ hm))
  unfold checkSections
  simp only
  split
  · simp
  · split
    · simp [Fault.options]
    · rename_i hnot
      simp [areSortable, List.all_eq_true.mpr hunknown] at hnot

/-- A document that is no object, or has a section that is none. -/
inductive MisusedDocument : Json → Prop
  | document {document : Json} (h : ∀ sections, document ≠ .object sections) :
      MisusedDocument document
  | part {sections : List (String × Json)} {place : Section} (h : MisusedSection sections place) :
      MisusedDocument (.object sections)

private theorem misusedDocument_object : MisusedDocument (.object sections) ↔
    ∃ place, MisusedSection sections place := by
  constructor
  · intro h
    cases h with
    | document h => exact absurd rfl (h sections)
    | part h => exact ⟨_, h⟩
  · rintro ⟨place, h⟩
    exact .part h

theorem isObject_of_ofDocument {document : Json} {index : Index}
    (h : Index.ofDocument document = .ok index) : ∃ sections, document = .object sections := by
  obtain ⟨names, -, h⟩ := bind_eq_ok.mp h
  obtain ⟨-, -, h⟩ := bind_eq_ok.mp h
  cases document with
  | object sections => exact ⟨sections, rfl⟩
  | _ => cases h

private theorem exists_misusedSection : (∃ place, MisusedSection sections place) ↔
    MisusedSection sections .files ∨ MisusedSection sections .fields ∨
      MisusedSection sections .enumValues ∨ MisusedSection sections .services ∨
      MisusedSection sections .methods := by
  constructor
  · rintro ⟨place, h⟩
    cases place <;> simp [h]
  · rintro (h | h | h | h | h) <;> exact ⟨_, h⟩

private theorem ofDocument_blames (document : Json) :
    Blames (Index.ofDocument document) (MisusedDocument document) := by
  by_cases hobject : ∃ sections, document = .object sections
  · obtain ⟨sections, rfl⟩ := hobject
    have hnames : (sections.map fun entry => Json.text entry.1).all isText = true := by
      simp [isText]
    refine Blames.bind_right (Blames.ok not_false _) fun names hname => ?_
    cases hname
    refine Blames.bind_right (Blames.of_no_defect (checkSections_ne_defect hnames)) fun _ _ => ?_
    rw [misusedDocument_object, exists_misusedSection]
    exact (readSection_blames ..).bind_or fun _ _ => (readSection_blames ..).bind_or fun _ _ =>
      (readSection_blames ..).bind_or fun _ _ => (readSection_blames ..).bind_or fun _ _ =>
      (readSection_blames ..).bind_left fun _ _ => Blames.ok not_false _
  · refine ⟨fun _ _ => .document fun sections h => hobject ⟨sections, h⟩, fun _ index h => ?_⟩
    exact hobject (isObject_of_ofDocument h)

def isLimit : Json.SyntaxCause → Bool
  | .tooManyDigits | .deepList | .deepObject => true
  | _ => false

def unified (text : String) : String :=
  String.ofList (unifyLineEnds text.toList)

/-- An options file that is no text, has a path that no file can have, goes beyond the limits of the
reader or holds a misused document. -/
inductive MisusedFile (limit : Option Nat) : Except ReadError String → Prop
  | notText : MisusedFile limit (.error .notText)
  | path {cause : PathError} (h : cause.fault = .nulCharacter) :
      MisusedFile limit (.error (.path cause))
  | limit {text : String} {error : Json.SyntaxError}
      (h : Json.ofText (unified text) limit = .error error) (hl : isLimit error.cause = true) :
      MisusedFile limit (.ok text)
  | document {text : String} {document : Json} (h : Json.ofText (unified text) limit = .ok document)
      (hm : MisusedDocument document) : MisusedFile limit (.ok text)

/-- An options file that is not a document with half of a surrogate pair in one of its strings. -/
def IsWhole (limit : Option Nat) (content : Except ReadError String) : Prop :=
  ∀ text error, content = .ok text → Json.ofText (unified text) limit = .error error →
    error.cause ≠ .loneSurrogate

variable {limit : Option Nat}

private theorem isLimit_of_syntaxFault {path : String} {error : Json.SyntaxError} {defect : Defect}
    (hcause : error.cause ≠ .loneSurrogate) (h : syntaxFault path error = .defect defect) :
    isLimit error.cause = true := by
  unfold syntaxFault at h
  cases hc : error.cause with
  | tooManyDigits => rfl
  | deepList => rfl
  | deepObject => rfl
  | loneSurrogate => exact absurd hc hcause
  | _ => simp [hc, Fault.options] at h

private theorem misusedFile_of_readFault {path : String} {error : ReadError} {defect : Defect}
    (h : readFault path error = .defect defect) : MisusedFile limit (.error error) := by
  cases error with
  | notText => exact .notText
  | path cause =>
    by_cases hnul : cause.fault = .nulCharacter
    · exact .path hnul
    · simp [readFault, hnul, Fault.options] at h

private theorem misusedFile_ok {text : String} {document : Json}
    (h : Json.ofText (unified text) limit = .ok document) :
    MisusedFile limit (.ok text) ↔ MisusedDocument document := by
  constructor
  · intro hm
    cases hm with
    | limit hother => cases h.symm.trans hother
    | document hother hm =>
      cases h.symm.trans hother
      exact hm
  · exact .document h

theorem ofContent_ok {path : String} (hpath : path ≠ "") (text : String) :
    Index.ofContent path (.ok text) limit =
      (Json.ofText (unified text) limit).mapError (syntaxFault path) >>= Index.ofDocument := by
  unfold Index.ofContent
  simp only [hpath, if_false]
  rfl

theorem ofContent_blames (path : String) {content : Except ReadError String}
    (hwhole : path ≠ "" → IsWhole limit content) :
    Blames (Index.ofContent path content limit) (path ≠ "" ∧ MisusedFile limit content) := by
  by_cases hpath : path = ""
  · simp only [Index.ofContent, hpath, if_true]
    exact Blames.ok (by simp) _
  rw [and_iff_right hpath]
  cases content with
  | error error =>
    simp only [Index.ofContent, hpath, if_false]
    refine ⟨fun defect h => misusedFile_of_readFault (Except.error.inj h), fun _ _ h => ?_⟩
    cases h
  | ok text =>
    rw [ofContent_ok hpath]
    cases hsource : Json.ofText (unified text) limit with
    | error error =>
      have hcause := hwhole hpath text error rfl hsource
      refine ⟨fun defect h => .limit hsource (isLimit_of_syntaxFault hcause (Except.error.inj h)),
        fun _ _ h => ?_⟩
      cases h
    | ok document =>
      rw [misusedFile_ok hsource]
      exact ofDocument_blames document

end Documents

end Options

namespace Source

/-- The index of a member of a oneof is the position of one of the given oneofs. -/
def PlacedAmong (oneofs : List String) (field : Descriptor.Field) : Prop :=
  field.isMember = true → ∀ index ∈ field.oneofIndex, 0 ≤ index ∧ index < oneofs.length

instance (oneofs : List String) (field : Descriptor.Field) :
    Decidable (PlacedAmong oneofs field) :=
  inferInstanceAs (Decidable (_ → ∀ index ∈ field.oneofIndex, _))

/-- What a protobuf compiler makes sure of: the members of oneofs name a oneof of their message by
its position, and the indexes in the paths of comments are in range. -/
structure WellFormed (file : Descriptor.File) : Prop where
  members : ∀ site ∈ fileMessageSites file, ∀ field ∈ site.message.fields,
    PlacedAmong site.message.oneofs field
  paths : ∀ location ∈ file.locations, (Tree.file file).inRange location.path = true

/-- The members of oneofs in well-formed files count forward. -/
theorem Wrapped.countsForward {index : Options.Index} {described : List Descriptor.File}
    {files : List File} (hw : Wrapped index described files)
    (h : ∀ file ∈ described, WellFormed file) {message : Message}
    (hm : message ∈ allMessages files) : message.CountsForward := by
  obtain ⟨source, hread⟩ := hw.readFrom hm
  obtain ⟨honeofs, hfields⟩ := hread.fields
  obtain ⟨file, position, site, -, -, hfile, hsite, rfl, -⟩ := hread
  have hwell := h file (List.fst_mem_of_mem_zipIdx hfile)
  have hforward : site.message.CountsForward := fun field hf hmember index hindex =>
    (hwell.members site hsite field hf hmember index hindex).1
  exact Message.Reads.countsForward ⟨honeofs, hfields, hforward⟩

variable {index : Options.Index} {file : Descriptor.File}

def CutComment (file : Descriptor.File) : Prop :=
  ∃ location ∈ file.locations, location.isCommented = true ∧
    (Tree.file file).stopsShort location.path = true

private theorem ofFile_blames (h : WellFormed file) :
    Blames ((Notes.ofFile file).mapError Fault.defect) (CutComment file) := by
  by_cases hcut : CutComment file
  · rw [show Notes.ofFile file = .error .indexOutOfRange from
      Notes.ofLocations_of_stopsShort h.paths hcut]
    exact Blames.error hcut _
  · have hfollowable : Notes.Followable file file.locations := fun location hl =>
      ⟨h.paths location hl, fun hc => Bool.eq_false_iff.mpr fun hs => hcut ⟨location, hl, hc, hs⟩⟩
    obtain ⟨notes, hnotes⟩ := Notes.exists_ofLocations hfollowable []
    rw [show Notes.ofFile file = .ok notes from hnotes]
    exact Blames.ok hcut notes

/-- The fields and methods of a file with a foreign key or a loader that is no text. -/
inductive MisusedReference (index : Options.Index) (file : Descriptor.File) : Prop
  | foreignKey {site : MessageSite} {field : Descriptor.Field} (hs : site ∈ fileMessageSites file)
      (hf : field ∈ site.message.fields)
      (h : Options.Untextual (index.field
        (Descriptor.qualifiedName file.package site.path ++ "." ++ field.name)).foreignKey)
  | loadOne {service : Descriptor.Service} {method : Descriptor.Method}
      (hs : service ∈ file.services) (hm : method ∈ service.methods)
      (h : Options.Untextual (index.method
        (Descriptor.qualifiedName file.package [service.name] ++ "." ++ method.name)).loadOne)
  | loadMany {service : Descriptor.Service} {method : Descriptor.Method}
      (hs : service ∈ file.services) (hm : method ∈ service.methods)
      (h : Options.Untextual (index.method
        (Descriptor.qualifiedName file.package [service.name] ++ "." ++ method.name)).loadMany)

private theorem exists_membership? {oneofs : List String} {field : Descriptor.Field}
    (h : PlacedAmong oneofs field) :
    ∃ membership, membership? oneofs field = .ok membership := by
  unfold membership?
  split
  · exact ⟨_, rfl⟩
  · rename_i hoptional
    split
    · exact ⟨_, rfl⟩
    · rename_i written hwritten
      obtain ⟨hlow, hhigh⟩ :=
        h (by simp [Descriptor.Field.isMember, hwritten, hoptional]) written hwritten
      have hposition : Descriptor.position? oneofs.length written = some written.toNat := by
        rw [Descriptor.position?, if_pos hlow, if_pos (by omega)]
      rw [hposition]
      exact ⟨_, rfl⟩

theorem Field.ofDescriptor_blames (parent : String) (field : Descriptor.Field)
    (membership : Option Membership) : Blames (Field.ofDescriptor index parent field membership)
      (Options.Untextual (index.field (parent ++ "." ++ field.name)).foreignKey) :=
  (Options.readText_blames _ _).bind_left fun _ _ => Blames.ok not_false _

theorem Message.ofSite_blames {home : Home} {site : MessageSite}
    (h : ∀ field ∈ site.message.fields, PlacedAmong site.message.oneofs field) :
    Blames (Message.ofSite index home site) (∃ field ∈ site.message.fields,
      Options.Untextual (index.field
        (Descriptor.qualifiedName home.package site.path ++ "." ++ field.name)).foreignKey) := by
  obtain ⟨memberships, hmemberships⟩ :=
    exists_mapM_ok fun field hf => exists_membership? (h field hf)
  have hfields : (site.message.fields.zip memberships).map Prod.fst = site.message.fields :=
    List.map_fst_zip (Nat.le_of_eq (mapM_eq_ok.mp hmemberships).length_eq)
  unfold Message.ofSite
  simp only [hmemberships]
  refine Blames.bind_right (Blames.ok not_false _) fun _ heq => ?_
  cases heq
  refine Blames.bind_left ?_ fun fields _ => Blames.ok not_false _
  refine (Blames.mapM fun item _ => Field.ofDescriptor_blames _ item.1 item.2).congr ?_
  nth_rewrite 2 [← hfields]
  simp only [List.mem_map, exists_exists_and_eq_and]

theorem Method.ofDescriptor_blames (service : String) (method : Descriptor.Method) :
    Blames (Method.ofDescriptor index service method)
      (Options.Untextual (index.method (service ++ "." ++ method.name)).loadOne ∨
        Options.Untextual (index.method (service ++ "." ++ method.name)).loadMany) :=
  (Options.readText_blames _ _).bind_or fun _ _ =>
    (Options.readText_blames _ _).bind_left fun _ _ => Blames.ok not_false _

theorem Service.ofDescriptor_blames (home : Home) (service : Descriptor.Service) :
    Blames (Service.ofDescriptor index home service) (∃ method ∈ service.methods,
      Options.Untextual (index.method
        (Descriptor.qualifiedName home.package [service.name] ++ "." ++ method.name)).loadOne ∨
      Options.Untextual (index.method
        (Descriptor.qualifiedName home.package [service.name] ++ "." ++ method.name)).loadMany) :=
  (Blames.mapM fun method _ => Method.ofDescriptor_blames _ method).bind_left fun _ _ =>
    Blames.ok not_false _

theorem File.ofDescriptor_blames (h : WellFormed file) (position : Nat) :
    Blames (File.ofDescriptor index position file)
      (MisusedReference index file ∨ CutComment file) := by
  refine Blames.congr
    (Blames.bind_or (Blames.mapM fun service _ => Service.ofDescriptor_blames _ service)
      fun _ _ => Blames.bind_or
        (Blames.mapM fun site hs => Message.ofSite_blames (h.members site hs))
        fun _ _ => (ofFile_blames h).bind_left fun _ _ => Blames.ok not_false _) ?_
  constructor
  · rintro (⟨service, hs, method, hm, hbad | hbad⟩ | ⟨site, hs, field, hf, hbad⟩ | hcut)
    · exact .inl (.loadOne hs hm hbad)
    · exact .inl (.loadMany hs hm hbad)
    · exact .inl (.foreignKey hs hf hbad)
    · exact .inr hcut
  · rintro (hbad | hcut)
    · cases hbad with
      | foreignKey hs hf hbad => exact .inr (.inl ⟨_, hs, _, hf, hbad⟩)
      | loadOne hs hm hbad => exact .inl ⟨_, hs, _, hm, .inl hbad⟩
      | loadMany hs hm hbad => exact .inl ⟨_, hs, _, hm, .inr hbad⟩
    · exact .inr (.inr hcut)

end Source

namespace Mapping

/-- What keeps described files from being read, though they are well formed: a reference that is no
text, or a comment whose path stops short. -/
def Unreadable (index : Options.Index) (described : List Descriptor.File) : Prop :=
  ∃ file ∈ described, Source.MisusedReference index file ∨ Source.CutComment file

theorem Catalog.ofDescriptors_blames {index : Options.Index} {described : List Descriptor.File}
    (h : ∀ file ∈ described, Source.WellFormed file) :
    Blames (Catalog.ofDescriptors index described) (Unreadable index described) := by
  refine Blames.bind_left ?_ fun _ _ => Blames.ok not_false _
  have hwell : ∀ item ∈ described.zipIdx, Source.WellFormed item.1 := fun item hi =>
    h item.1 (List.fst_mem_of_mem_zipIdx hi)
  refine (Blames.mapM fun item hi =>
    Source.File.ofDescriptor_blames (hwell item hi) item.2).congr ?_
  have hfiles : described.zipIdx.map Prod.fst = described := List.zipIdx_map_fst 0 described
  rw [Unreadable]
  nth_rewrite 2 [← hfiles]
  simp only [List.mem_map, exists_exists_and_eq_and]

end Mapping

end ProtoSdl

import Mathlib.Data.List.Count
import Mathlib.Data.List.Perm.Subperm
import ProtoSdl.Proofs.DeclaredNames
import ProtoSdl.Proofs.FileOrder

/-! Where names can be told apart as they are spelled, no two declarations have one name, and none
has that of a built-in scalar. Where they cannot, names run into each other. -/
namespace ProtoSdl.Mapping

open Source (WellSpelled allMessages)

/-- The scalars that stand for types of fields are named neither like a built-in scalar nor like a
type of a package. -/
def ScalarsApart (settings : Settings) (files : List Source.File) : Prop :=
  ∀ message ∈ allMessages files, ∀ field ∈ message.fields,
    ∀ scalar ∈ customScalar? settings field.typeName,
      (∀ builtIn : Schema.BuiltIn, scalar ≠ builtIn.name) ∧
        ∀ file ∈ files, ¬ Name.packageStem file.home.package ++ ['_'] <+: scalar.toList

def messageLabels (files : List Source.File) : List Label :=
  (allMessages files).flatMap fun message => objectLabels message ++ inputLabels message

private theorem nodup_messageLabels {files : List Source.File} (hd : Source.Distinct files)
    (hmembers : ∀ message ∈ allMessages files, ∀ oneof ∈ message.choices, oneof.members.Nodup) :
    (messageLabels files).Nodup := by
  refine nodup_flatMap_of_key hd.messageNames (fun message hm => ?_) fun a b label ha hb => ?_
  · refine List.nodup_append.mpr ⟨nodup_objectLabels (hmembers message hm),
      nodup_inputLabels message, ?_⟩
    rintro label hl _ hl' rfl
    exact (objectLabels_spec hl).2 (inputLabels_spec hl').2
  · have hnode : ∀ message, label ∈ objectLabels message ++ inputLabels message →
        messageOf? label.node = some message := fun message hl =>
      (List.mem_append.mp hl).elim (fun hl => (objectLabels_spec hl).1)
        fun hl => (inputLabels_spec hl).1
    rw [Option.some.inj ((hnode a ha).symm.trans (hnode b hb))]

section Clashes

variable {settings : Settings} {index : Options.Index} {described : List Descriptor.File}
  {files : List Source.File} {mapping : Mapping} (hw : Source.Wrapped index described files)
  (hd : Source.Distinct files) (hmode : settings.inputMode = .all)
  (h : ofCatalog settings (Catalog.ofFiles files) = .ok mapping)

include hw hd hmode h

/-- Where all messages have inputs, the types of a message are all declared. -/
theorem labels_of_message {message : Source.Message} (hm : message ∈ allMessages files) :
    objectLabels message ++ inputLabels message ⊆ mapping.labels := by
  have hb := ofCatalog_built h
  have hlabels : ∀ mode, message.fullName ∈ (mapping.bodies mode).keys →
      ∃ body ∈ (mapping.bodies mode).values, body.message = message := by
    intro mode hkey
    obtain ⟨body, hbody⟩ := Table.mem_keys_iff.mp hkey
    obtain ⟨other, ho, hname, hof⟩ := hb.body_of_get? hbody
    have hsound := (Body.ofMessage_ok (hw.placed other ho) hof).1
    exact ⟨body, Table.mem_values_of_get? hbody,
      hsound.message.trans (hd.message_unique ho hm hname)⟩
  intro label hl
  rcases List.mem_append.mp hl with hl | hl
  · obtain ⟨body, hbody, -⟩ := hb.exists_object hd hm
    obtain ⟨body, hvalue, rfl⟩ := hlabels .object (Table.mem_keys_iff.mpr ⟨body, hbody⟩)
    exact List.mem_append_left _ (List.mem_append_left _ (List.mem_append_left _
      (List.mem_flatMap.mpr ⟨body, hvalue, hl⟩)))
  · have hkey := inputOf?_isSome.mp (hb.inputs_of_all hmode hm)
    obtain ⟨body, hvalue, rfl⟩ := hlabels .input hkey
    exact List.mem_append_left _ (List.mem_append_left _ (List.mem_append_right _
      (List.mem_flatMap.mpr ⟨body, hvalue, hl⟩)))

/-- A name is declared as often as messages have types of that name, and as often as it is that of a
custom scalar. -/
theorem count_le_declaredNames (htrim : settings.trim = "")
    (hspace : ∀ file ∈ files, file.home.nameSpace.isSet = false)
    (hmembers : ∀ message ∈ allMessages files, ∀ oneof ∈ message.choices, oneof.members.Nodup)
    (name : String) :
    ((messageLabels files).map Label.text).count name + mapping.scalars.count name ≤
      mapping.declaredNames.count (.text name) := by
  have hsub : messageLabels files ⊆ mapping.labels := by
    intro label hl
    obtain ⟨message, hm, hl⟩ := List.mem_flatMap.mp hl
    exact labels_of_message hw hd hmode h hm hl
  have hlabels : ((messageLabels files).map Label.text).count name ≤
      (mapping.labels.map Label.text).count name := by
    simp only [List.count_eq_countP, List.countP_map]
    exact ((nodup_messageLabels hd hmembers).subperm hsub).countP_le _
  have htext : Function.Injective Schema.TypeName.text := fun _ _ => Schema.TypeName.text.inj
  have hnames : mapping.labels.map (fun label => Schema.TypeName.text label.text) =
      (mapping.labels.map Label.text).map .text := by rw [List.map_map]; rfl
  rw [declaredNames_eq hw h htrim hspace, List.count_append, hnames,
    List.count_map_of_injective _ _ htext, List.count_map_of_injective _ _ htext]
  exact Nat.add_le_add_right hlabels _

end Clashes

section Samples

/-- A file with nested types, a map, a oneof, an enum, a service and a scalar of its own. -/
def atlas : List Descriptor.File :=
  [{ name := "atlas.proto"
     package := "atlas.v1"
     messages := [
       { name := "Place"
         fields := [
           { name := "tags", kind := .message, typeName := ".atlas.v1.Place.TagsEntry"
             label := .repeated },
           { name := "point", kind := .message, typeName := ".atlas.v1.Place.Point"
             oneofIndex := some 0 },
           { name := "street_1", kind := .string, oneofIndex := some 0 },
           { name := "seen", kind := .message, typeName := ".google.protobuf.Timestamp" }]
         nested := [
           { name := "Point", fields := [{ name := "x" }, { name := "y" }] },
           { name := "TagsEntry"
             fields := [{ name := "key", kind := .string }, { name := "value", kind := .string }]
             isMapEntry := true }]
         enums := [{ name := "Rank", values := [{ name := "CITY" }, { name := "TOWN" }] }]
         oneofs := ["where_it_is"] }]
     services := [
       { name := "Places"
         methods := [
           { name := "Find", input := ".atlas.v1.Place", output := ".atlas.v1.Place" }] }] },
   { name := "timestamp.proto"
     package := "google.protobuf"
     messages := [{ name := "Timestamp", fields := [{ name := "seconds", kind := .int64 }] }] }]

def atlasSources : List Source.File :=
  ((atlas.zipIdx.mapM fun (file, position) =>
    Source.File.ofDescriptor {} position file).toOption).getD []

def atlasSettings : Settings := { timestamp := some "DateTime", inputMode := .all }

/-- Files in which names run into each other: through an underscore, through case, between a oneof
and a type beside it, through the marks of maps and inputs, and through custom scalars. -/
def clashing : List Descriptor.File :=
  [{ name := "clashing.proto"
     package := "p"
     messages := [
       { name := "Foo_Bar" },
       { name := "Foo", nested := [{ name := "Bar" }] },
       { name := "box" },
       { name := "Box" },
       { name := "Pick"
         fields := [{ name := "a", kind := .string, oneofIndex := some 0 }]
         nested := [{ name := "Choice" }]
         oneofs := ["choice"] },
       { name := "Bag"
         fields := [
           { name := "labels", kind := .message, typeName := ".p.Bag.LabelsEntry"
             label := .repeated }]
         nested := [
           { name := "LabelsEntry"
             fields := [{ name := "key", kind := .string }, { name := "value", kind := .string }]
             isMapEntry := true },
           { name := "Labels", nested := [{ name := "Map" }] }] },
       { name := "Form", nested := [{ name := "Input" }] },
       { name := "Case"
         fields := [{ name := "input", kind := .string, oneofIndex := some 0 }]
         oneofs := ["kind"] },
       { name := "Event"
         fields := [
           { name := "start", kind := .message, typeName := ".google.protobuf.Timestamp" },
           { name := "length", kind := .message, typeName := ".google.protobuf.Duration" }] }] },
   { name := "wellknown.proto"
     package := "google.protobuf"
     messages := [{ name := "Timestamp" }, { name := "Duration" }] }]

def clashingSources : List Source.File :=
  ((clashing.zipIdx.mapM fun (file, position) =>
    Source.File.ofDescriptor {} position file).toOption).getD []

def clashingSettings : Settings :=
  { timestamp := some "Int", duration := some "P_Event", inputMode := .all }

end Samples

/-- No two declarations have one name, and none has that of a built-in scalar, if the names in the
files can be told apart as they are spelled and the custom scalars stand apart from all others. -/
theorem declared_names_are_distinct (settings : Settings) (index : Options.Index)
    (described : List Descriptor.File) (files : List Source.File) (mapping : Mapping)
    (hw : Source.Wrapped index described files) (htrim : settings.trim = "")
    (hspace : ∀ file ∈ files, file.home.nameSpace.isSet = false) (hspelled : WellSpelled files)
    (hscalars : ScalarsApart settings files)
    (h : ofDescriptors settings index described = .ok mapping) :
    mapping.declaredNames.Nodup ∧
      ∀ builtIn : Schema.BuiltIn, .text builtIn.name ∉ mapping.declaredNames := by
  rw [ofDescriptors_eq hw] at h
  have happart : ∀ scalar ∈ mapping.scalars, (∀ builtIn : Schema.BuiltIn, scalar ≠ builtIn.name) ∧
      ∀ file ∈ files, ¬ Name.packageStem file.home.package ++ ['_'] <+: scalar.toList := by
    intro scalar hs
    obtain ⟨message, hm, field, hf, hcustom⟩ := of_mem_scalars hw h hs
    exact hscalars message hm field hf scalar hcustom
  rw [declaredNames_eq hw h htrim hspace]
  constructor
  · refine List.nodup_append.mpr ⟨?_, ?_, ?_⟩
    · refine (nodup_labels hw h hspelled).map_on fun a ha b hb htext => ?_
      obtain ⟨hnode, hfits⟩ := of_mem_labels hw h ha
      obtain ⟨hnode', hfits'⟩ := of_mem_labels hw h hb
      exact Label.eq_of_text hw hspelled hnode hnode' hfits hfits' (by simpa using htext)
    · refine (Dependency.nodup_firstOccurrences _).map fun a b heq => ?_
      simpa using heq
    · -- a label begins with the stem of a package, a scalar does not
      intro name hname other hother heq
      obtain ⟨label, hl, rfl⟩ := List.mem_map.mp hname
      obtain ⟨scalar, hs, rfl⟩ := List.mem_map.mp hother
      obtain ⟨file, hf, hstem⟩ := stem_of_mem_labels hw h hl
      rw [Schema.TypeName.text.inj heq] at hstem
      exact (happart scalar hs).2 file hf hstem
  · intro builtIn hin
    rcases List.mem_append.mp hin with hin | hin
    · obtain ⟨label, hl, heq⟩ := List.mem_map.mp hin
      obtain ⟨file, -, hstem⟩ := stem_of_mem_labels hw h hl
      rw [Schema.TypeName.text.inj heq] at hstem
      have hunderscore : '_' ∈ builtIn.name.toList := hstem.subset (by simp)
      cases builtIn <;> simp [Schema.BuiltIn.name] at hunderscore
    · obtain ⟨scalar, hs, heq⟩ := List.mem_map.mp hin
      exact (happart scalar hs).1 builtIn (Schema.TypeName.text.inj heq)

theorem atlas_names_are_distinct :
    (∀ file ∈ atlasSources, file.home.nameSpace.isSet = false) ∧ WellSpelled atlasSources ∧
    ScalarsApart atlasSettings atlasSources ∧
    ∃ mapping, ofDescriptors atlasSettings {} atlas = .ok mapping ∧
      mapping.declaredNames.Nodup ∧
      ∀ builtIn : Schema.BuiltIn, .text builtIn.name ∉ mapping.declaredNames := by
  have hw : Source.Wrapped {} atlas atlasSources := rfl
  have hd : Source.Distinct atlasSources := by constructor <;> decide
  have hspace : ∀ file ∈ atlasSources, file.home.nameSpace.isSet = false := by decide
  have hspelled : WellSpelled atlasSources := by
    refine ⟨⟨?_, ?_, ?_⟩, ?_, ?_, ?_⟩ <;> decide
  have hnames : ∀ message ∈ allMessages atlasSources, ∀ field ∈ message.fields,
      ∀ scalar ∈ customScalar? atlasSettings field.typeName, scalar = "DateTime" := by decide
  have hscalars : ScalarsApart atlasSettings atlasSources := by
    intro message hm field hf scalar hscalar
    rw [hnames message hm field hf scalar hscalar]
    exact ⟨fun builtIn => by cases builtIn <;> decide, by decide⟩
  have hmappable : Mappable atlasSettings atlasSources := by decide
  obtain ⟨mapping, hmapping⟩ := (exists_mapping_iff hd hw.placed).mpr hmappable
  have h := (ofDescriptors_eq hw).trans hmapping
  exact ⟨hspace, hspelled, hscalars, mapping, h, declared_names_are_distinct atlasSettings {} atlas
    atlasSources mapping hw rfl hspace hspelled hscalars h⟩

/-- Names that are spelled alike, hold an underscore or read like a mark run into each other, and so
do custom scalars with other names, although all qualified names differ. -/
theorem spelled_names_clash : Source.DistinctNames clashing ∧
    (∀ message ∈ allMessages clashingSources,
      ((message.fields.map (message.memberName ·.name)) ++
        message.oneofNames.map message.memberName ++ message.nested ++ message.enums).Nodup) ∧
    ∃ mapping, ofDescriptors clashingSettings {} clashing = .ok mapping ∧
      (∀ name ∈ ["P_Foo_Bar", "P_Box", "P_Pick_Choice", "P_Bag_Labels_Map", "P_Form_Input",
          "P_Case_Kind_Input"], 2 ≤ mapping.declaredNames.count (.text name)) ∧
      2 ≤ mapping.declaredNames.count (.text "P_Event") ∧
      .text Schema.BuiltIn.int.name ∈ mapping.declaredNames := by
  have hw : Source.Wrapped {} clashing clashingSources := rfl
  have hnames : Source.DistinctNames clashing := by constructor <;> decide
  have hd := hw.distinct hnames
  have hmappable : Mappable clashingSettings clashingSources := by decide
  obtain ⟨mapping, h⟩ := (exists_mapping_iff hd hw.placed).mpr hmappable
  have hcount := count_le_declaredNames hw hd rfl h rfl (by decide) (by decide)
  -- the scalars are found in the body of the message that uses them
  have hevent : ∃ message ∈ allMessages clashingSources,
      (Body.ofMessage clashingSettings (Catalog.ofFiles clashingSources) message).toOption.map
        (·.customScalars clashingSettings) = some ["Int", "P_Event"] := by decide
  have hscalars : ∀ scalar ∈ ["Int", "P_Event"], 0 < mapping.scalars.count scalar := by
    obtain ⟨message, hm, hcustom⟩ := hevent
    have hb := ofCatalog_built h
    obtain ⟨body, hbody, hof⟩ := hb.exists_object hd hm
    rw [hof] at hcustom
    have hbodyScalars : body.customScalars clashingSettings = ["Int", "P_Event"] :=
      Option.some.inj hcustom
    intro scalar hs
    refine List.count_pos_iff.mpr (Dependency.mem_firstOccurrences.mpr (List.mem_flatMap.mpr
      ⟨body, Table.mem_values_of_get? hbody, ?_⟩))
    rwa [hb.settings_eq, hbodyScalars]
  have htwice : ∀ name ∈ ["P_Foo_Bar", "P_Box", "P_Pick_Choice", "P_Bag_Labels_Map",
      "P_Form_Input", "P_Case_Kind_Input"],
      2 ≤ ((messageLabels clashingSources).map Label.text).count name := by decide
  have honce : ((messageLabels clashingSources).map Label.text).count "P_Event" = 1 := by decide
  refine ⟨hnames, by decide, mapping, (ofDescriptors_eq hw).trans h, fun name hname => ?_, ?_, ?_⟩
  · have hlabels := htwice name hname
    have hle := hcount name
    omega
  · have hscalar := hscalars "P_Event" (by decide)
    have hle := hcount "P_Event"
    omega
  · have hscalar := hscalars "Int" (by decide)
    have hle := hcount "Int"
    have hpos : 0 < mapping.declaredNames.count (.text "Int") := by omega
    exact List.count_pos_iff.mp hpos

end ProtoSdl.Mapping

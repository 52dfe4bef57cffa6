import ProtoSdl.Mapping.Catalog
import ProtoSdl.Proofs.SourceFiles
import ProtoSdl.Proofs.Tables

/-! The catalog of files without repeated names. Its tables list the declarations of the files in
order, and a look-up finds exactly the declaration of its name. -/
namespace ProtoSdl

/-- The options that are names are texts. -/
structure Options.Index.WellTyped (index : Options.Index) : Prop where
  nameSpace : ∀ name, isText (index.file name).nameSpace = true
  valueName : ∀ name, isText (index.enumValue name).name = true
  operation : ∀ name, isText (index.method name).operation = true

namespace Source

def allMessages (files : List File) : List Message :=
  files.flatMap (·.messages)

def allEnums (files : List File) : List Enum :=
  files.flatMap (·.enums)

def allServices (files : List File) : List Service :=
  files.flatMap (·.services)

/-- No two files have one name, and no two messages, enums or services have one qualified name. -/
structure Distinct (files : List File) : Prop where
  fileNames : (files.map (·.home.name)).Nodup
  messageNames : ((allMessages files).map (·.fullName)).Nodup
  enumNames : ((allEnums files).map (·.fullName)).Nodup
  serviceNames : ((allServices files).map (·.fullName)).Nodup

theorem Distinct.message_unique {files : List File} (hd : Distinct files) {a b : Message}
    (ha : a ∈ allMessages files) (hb : b ∈ allMessages files) (h : a.fullName = b.fullName) :
    a = b :=
  List.inj_on_of_nodup_map hd.messageNames ha hb h

section Wrapped

variable {index : Options.Index} {described : List Descriptor.File} {files : List File}

theorem Wrapped.placed (h : Wrapped index described files) :
    ∀ message ∈ allMessages files, message.Placed := by
  intro message hm
  obtain ⟨file, hf, hin⟩ := List.mem_flatMap.mp hm
  exact ((h.coherent hf).messages message hin).2

theorem Wrapped.message_nameSpace (h : Wrapped index described files) {message : Message}
    (hm : message ∈ allMessages files) :
    message.home.nameSpace = (index.file message.home.name).nameSpace := by
  obtain ⟨file, hf, hin⟩ := List.mem_flatMap.mp hm
  rw [((h.coherent hf).messages message hin).1, (h.coherent hf).nameSpace]

theorem Wrapped.enum_spec (h : Wrapped index described files) {enum : Enum}
    (he : enum ∈ allEnums files) :
    enum.home.nameSpace = (index.file enum.home.name).nameSpace ∧ ∀ value ∈ enum.values,
      (∃ name, value.displayName = .text name) ∨
        ∃ name, value.displayName = (index.enumValue name).name := by
  obtain ⟨file, hf, hin⟩ := List.mem_flatMap.mp he
  obtain ⟨hhome, hvalues⟩ := (h.coherent hf).enums enum hin
  exact ⟨by rw [hhome, (h.coherent hf).nameSpace], hvalues⟩

theorem Wrapped.service_spec (h : Wrapped index described files) {service : Service}
    (hs : service ∈ allServices files) :
    service.home.nameSpace = (index.file service.home.name).nameSpace ∧
      ∀ method ∈ service.methods,
        method.operation = (index.method (service.methodName method)).operation := by
  obtain ⟨file, hf, hin⟩ := List.mem_flatMap.mp hs
  obtain ⟨hhome, hmethods⟩ := (h.coherent hf).services service hin
  exact ⟨by rw [hhome, (h.coherent hf).nameSpace], hmethods⟩

end Wrapped

section Shop

/-- Files to try results on: two messages that refer to each other, a oneof, a key, a message with
a scalar of its own and a service. -/
def shop : List Descriptor.File :=
  [{ name := "shop.proto"
     package := "shop"
     messages := [
       { name := "Order"
         fields := [
           { name := "lines", kind := .message, typeName := ".shop.Line", label := .repeated },
           { name := "card", kind := .enum, typeName := ".shop.Card", oneofIndex := some 0 },
           { name := "voucher", kind := .string, oneofIndex := some 0 }]
         oneofs := ["payment"] },
       { name := "Line"
         fields := [
           { name := "order", kind := .message, typeName := ".shop.Order" },
           { name := "shelf_id", kind := .int64 },
           { name := "sold", kind := .message, typeName := ".google.protobuf.Timestamp" }] },
       { name := "Shelf", fields := [{ name := "row", kind := .string }] }]
     enums := [{ name := "Card", values := [{ name := "DEBIT" }, { name := "CREDIT" }] }]
     services := [
       { name := "Orders"
         methods := [{ name := "Find", input := ".shop.Order", output := ".shop.Line" }] }] },
   { name := "timestamp.proto"
     package := "google.protobuf"
     messages := [{ name := "Timestamp", fields := [{ name := "seconds", kind := .int64 }] }] }]

def shopIndex : Options.Index :=
  { fields := Table.ofList [(".shop.Line.shelf_id", { foreignKey := .text "shop.Shelf:shelf" })] }

def shopSources : List File :=
  ((shop.zipIdx.mapM fun (file, position) =>
    File.ofDescriptor shopIndex position file).toOption).getD []

def shopSettings : Settings :=
  { timestamp := some "DateTime", rootPrefix := some "" }

theorem shop_wrapped : Wrapped shopIndex shop shopSources := rfl

theorem shop_distinct : Distinct shopSources := by
  constructor <;> decide

theorem shop_countsForward : ∀ message ∈ allMessages shopSources, message.CountsForward := by
  decide

theorem shopIndex_wellTyped : shopIndex.WellTyped :=
  ⟨fun _ => rfl, fun _ => rfl, fun _ => rfl⟩

theorem noOptions_wellTyped : Options.Index.WellTyped {} :=
  ⟨fun _ => rfl, fun _ => rfl, fun _ => rfl⟩

end Shop

end Source

namespace Mapping.Catalog

open Source (allMessages allEnums allServices)

private theorem foldl_add (files : List Source.File) (catalog : Catalog) :
    files.foldl add catalog =
      { files := files.foldl (fun table file => table.insert file.home.name file) catalog.files
        messages := (allMessages files).foldl (fun table m => table.insert m.fullName m)
          catalog.messages
        enums := (allEnums files).foldl (fun table e => table.insert e.fullName e)
          catalog.enums } := by
  induction files generalizing catalog with
  | nil => rfl
  | cons file files ih => simp [ih, add, allMessages, allEnums, List.foldl_append]

variable {files : List Source.File}

/-- Whatever a catalog finds is declared in the files, also if names are repeated. -/
theorem of_get?_messages {name : String} {message : Source.Message}
    (h : (ofFiles files).messages.get? name = some message) :
    message ∈ allMessages files ∧ message.fullName = name := by
  rw [ofFiles, foldl_add] at h
  rcases Table.of_get?_foldl_insert h with hnone | ⟨_, hm, hname, rfl⟩
  · simp at hnone
  · exact ⟨hm, hname⟩

theorem get?_of_message {catalog : Catalog} {referrer name : String} {message : Source.Message}
    (h : catalog.message referrer name = .ok message) :
    catalog.messages.get? name = some message := by
  unfold Catalog.message at h
  split at h
  · cases h
    assumption
  · cases h

theorem get?_of_enum {catalog : Catalog} {referrer name : String} {enum : Source.Enum}
    (h : catalog.enum referrer name = .ok enum) : catalog.enums.get? name = some enum := by
  unfold Catalog.enum at h
  split at h
  · cases h
    assumption
  · cases h

theorem of_message_eq_ok {referrer name : String} {message : Source.Message}
    (h : (ofFiles files).message referrer name = .ok message) :
    message ∈ allMessages files ∧ message.fullName = name :=
  of_get?_messages (get?_of_message h)

theorem of_get?_enums {name : String} {enum : Source.Enum}
    (h : (ofFiles files).enums.get? name = some enum) :
    enum ∈ allEnums files ∧ enum.fullName = name := by
  rw [ofFiles, foldl_add] at h
  rcases Table.of_get?_foldl_insert h with hnone | ⟨_, he, hname, rfl⟩
  · simp at hnone
  · exact ⟨he, hname⟩

theorem of_enum_eq_ok {referrer name : String} {enum : Source.Enum}
    (h : (ofFiles files).enum referrer name = .ok enum) :
    enum ∈ allEnums files ∧ enum.fullName = name :=
  of_get?_enums (get?_of_enum h)

/-- An enum stands under its name, and once. -/
theorem of_mem_entries_enums {entry : String × Source.Enum}
    (h : entry ∈ (ofFiles files).enums.entries) :
    entry.2 ∈ allEnums files ∧ entry.2.fullName = entry.1 := by
  rw [ofFiles, foldl_add] at h
  obtain ⟨enum, he, hname, rfl⟩ := Table.of_mem_entries_foldl_insert h
  exact ⟨he, hname⟩

theorem nodup_keys_enums (files : List Source.File) : (ofFiles files).enums.keys.Nodup := by
  rw [ofFiles, foldl_add]
  exact Table.nodup_keys_foldl_insert List.nodup_nil

/-- A message stands under its name, and once. -/
theorem of_mem_entries_messages {entry : String × Source.Message}
    (h : entry ∈ (ofFiles files).messages.entries) :
    entry.2 ∈ allMessages files ∧ entry.2.fullName = entry.1 := by
  rw [ofFiles, foldl_add] at h
  obtain ⟨message, hm, hname, rfl⟩ := Table.of_mem_entries_foldl_insert h
  exact ⟨hm, hname⟩

theorem nodup_keys_messages (files : List Source.File) : (ofFiles files).messages.keys.Nodup := by
  rw [ofFiles, foldl_add]
  exact Table.nodup_keys_foldl_insert List.nodup_nil

theorem names_messages (files : List Source.File) :
    (ofFiles files).messages.values.map (·.fullName) = (ofFiles files).messages.keys := by
  rw [Table.values, Table.keys, List.map_map]
  exact List.map_congr_left fun entry hentry => (of_mem_entries_messages hentry).2

theorem of_mem_services {service : Source.Service} (h : service ∈ (ofFiles files).services) :
    service ∈ allServices files ∧ service.skip.isSet = false := by
  rw [services, ofFiles, foldl_add] at h
  obtain ⟨hin, hskip⟩ := List.mem_filter.mp h
  obtain ⟨file, hvalue, hs⟩ := List.mem_flatMap.mp hin
  obtain ⟨entry, hentry, rfl⟩ := List.mem_map.mp hvalue
  obtain ⟨file, hf, -, hfile⟩ := Table.of_mem_entries_foldl_insert hentry
  exact ⟨List.mem_flatMap.mpr ⟨file, hf, hfile ▸ hs⟩, by simpa using hskip⟩

theorem mem_keys_messages {name : String} : name ∈ (ofFiles files).messages.keys ↔
    ∃ message ∈ allMessages files, message.fullName = name := by
  rw [ofFiles, foldl_add]
  exact Table.mem_keys_foldl_insert.trans (or_iff_right (by simp [Table.keys]))

private theorem mem_keys_enums {name : String} : name ∈ (ofFiles files).enums.keys ↔
    ∃ enum ∈ allEnums files, enum.fullName = name := by
  rw [ofFiles, foldl_add]
  exact Table.mem_keys_foldl_insert.trans (or_iff_right (by simp [Table.keys]))

private theorem entries_of_distinct {α : Type} (key : α → String) {items : List α}
    (hn : (items.map key).Nodup) :
    (items.foldl (fun table item => table.insert (key item) item) ({} : Table α)).entries =
      items.map fun item => (key item, item) := by
  simpa using Table.entries_foldl_insert key id items {} hn (by simp [Table.keys])

theorem entries_files (hd : Source.Distinct files) :
    (ofFiles files).files.entries = files.map fun file => (file.home.name, file) := by
  rw [ofFiles, foldl_add]
  exact entries_of_distinct (fun file : Source.File => file.home.name) hd.fileNames

theorem entries_messages (hd : Source.Distinct files) :
    (ofFiles files).messages.entries = (allMessages files).map fun m => (m.fullName, m) := by
  rw [ofFiles, foldl_add]
  exact entries_of_distinct Source.Message.fullName hd.messageNames

theorem entries_enums (hd : Source.Distinct files) :
    (ofFiles files).enums.entries = (allEnums files).map fun e => (e.fullName, e) := by
  rw [ofFiles, foldl_add]
  exact entries_of_distinct Source.Enum.fullName hd.enumNames

private theorem get?_of_entries {α : Type} (key : α → String) {items : List α} {table : Table α}
    (hn : (items.map key).Nodup) (he : table.entries = items.map fun item => (key item, item))
    {name : String} {item : α} : table.get? name = some item ↔ item ∈ items ∧ key item = name := by
  have hk : table.keys.Nodup := by simpa [Table.keys, he, Function.comp_def] using hn
  rw [Table.get?_eq_some_iff hk, he, List.mem_map]
  constructor
  · rintro ⟨other, ho, heq⟩
    obtain ⟨rfl, rfl⟩ := Prod.mk.inj heq
    exact ⟨ho, rfl⟩
  · rintro ⟨hi, rfl⟩
    exact ⟨item, hi, rfl⟩

theorem get?_files (hd : Source.Distinct files) {name : String} {file : Source.File} :
    (ofFiles files).files.get? name = some file ↔ file ∈ files ∧ file.home.name = name :=
  get?_of_entries (fun file : Source.File => file.home.name) hd.fileNames (entries_files hd)

theorem get?_messages (hd : Source.Distinct files) {name : String} {message : Source.Message} :
    (ofFiles files).messages.get? name = some message ↔
      message ∈ allMessages files ∧ message.fullName = name :=
  get?_of_entries Source.Message.fullName hd.messageNames (entries_messages hd)

theorem get?_enums (hd : Source.Distinct files) {name : String} {enum : Source.Enum} :
    (ofFiles files).enums.get? name = some enum ↔ enum ∈ allEnums files ∧ enum.fullName = name :=
  get?_of_entries Source.Enum.fullName hd.enumNames (entries_enums hd)

theorem messages_values (hd : Source.Distinct files) :
    (ofFiles files).messages.values = allMessages files := by
  simp [Table.values, entries_messages hd, Function.comp_def]

theorem enums_values (hd : Source.Distinct files) :
    (ofFiles files).enums.values = allEnums files := by
  simp [Table.values, entries_enums hd, Function.comp_def]

theorem services_ofFiles (hd : Source.Distinct files) :
    (ofFiles files).services = (allServices files).filter (!·.skip.isSet) := by
  simp [services, Table.values, entries_files hd, allServices, Function.comp_def]

theorem message_eq_ok (hd : Source.Distinct files) {referrer name : String}
    {message : Source.Message} : (ofFiles files).message referrer name = .ok message ↔
      message ∈ allMessages files ∧ message.fullName = name := by
  rw [← get?_messages hd, Catalog.message]
  cases (ofFiles files).messages.get? name <;> simp

/-- A look-up of a message fails where no message has the name. -/
theorem message_eq_error {referrer name : String} {fault : Fault} :
    (ofFiles files).message referrer name = .error fault ↔
      fault = .mapping (.unknownMessage referrer name) ∧
        ∀ message ∈ allMessages files, message.fullName ≠ name := by
  have hnone : (ofFiles files).messages.get? name = none ↔
      ∀ message ∈ allMessages files, message.fullName ≠ name := by
    rw [Table.get?_eq_none_iff, mem_keys_messages]
    simp
  rw [← hnone, Catalog.message]
  cases (ofFiles files).messages.get? name <;> simp [eq_comm]

/-- A look-up of an enum fails where no enum has the name. -/
theorem enum_eq_error {referrer name : String} {fault : Fault} :
    (ofFiles files).enum referrer name = .error fault ↔
      fault = .mapping (.unknownEnum referrer name) ∧
        ∀ enum ∈ allEnums files, enum.fullName ≠ name := by
  have hnone : (ofFiles files).enums.get? name = none ↔
      ∀ enum ∈ allEnums files, enum.fullName ≠ name := by
    rw [Table.get?_eq_none_iff, mem_keys_enums]
    simp
  rw [← hnone, Catalog.enum]
  cases (ofFiles files).enums.get? name <;> simp [eq_comm]

theorem ofDescriptors_eq {index : Options.Index} {described : List Descriptor.File}
    (h : Source.Wrapped index described files) :
    ofDescriptors index described = .ok (ofFiles files) :=
  Outcome.bind_eq_ok.mpr ⟨files, h, rfl⟩

/-- A catalog is that of files that were read. -/
theorem exists_wrapped {index : Options.Index} {described : List Descriptor.File}
    {catalog : Catalog} (h : ofDescriptors index described = .ok catalog) :
    ∃ files, Source.Wrapped index described files ∧ catalog = ofFiles files := by
  obtain ⟨files, hw, h⟩ := Outcome.bind_eq_ok.mp h
  cases h
  exact ⟨files, hw, rfl⟩

end Mapping.Catalog

end ProtoSdl

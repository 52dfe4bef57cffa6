import ProtoSdl.Proofs.FieldMarks

/-! The objects of map entries. The values in an entry are there, so its fields are not null, also
where the same fields were optional in another message. What an entry shows besides its values
follows the rules of all messages: the object that a key refers to, the field of a oneof and the
placeholder of an entry without fields can be null. -/
namespace ProtoSdl.Mapping

open Outcome

/-- The field holds a message only in a list or as an entry of a map. -/
def NoSingleMessage (catalog : Catalog) (field : Source.Field) : Prop :=
  field.kind = .message → field.label = .repeated ∨ EntryTyped catalog field

section Rows

variable {mapping : Mapping} {message : Source.Message} {types : MessageTypes}

/-- The value of an entry is not null. -/
theorem FieldMarked.nonNull_of_entry {field : Source.Field} {declared : Schema.Field}
    (h : FieldMarked mapping message .object field declared)
    (hnull : mapping.settings.nullWrappers = false) (hmap : message.isMap = true)
    (hf : NoSingleMessage mapping.catalog field) : declared.modifiers.nonNull = true := by
  refine h.nonNull.mpr ⟨fun hunwrapped => ?_, ?_⟩
  · rw [Unwrapped, hnull] at hunwrapped
    cases hunwrapped.1
  · by_cases hkind : field.kind = .message
    · exact (hf hkind).imp_right .inl
    · exact .inr (.inr ⟨rfl, hkind, fun hoptional => by simp [hmap] at hoptional⟩)

/-- The object that a key refers to is not null exactly if the key is in a list. -/
theorem Row.Shows.companion_nonNull {row : Row} (h : row.Shows mapping message types)
    {field : Source.Field} (hslot : row.slot = .field field) {companion : Schema.Field}
    (hc : row.companion = some companion) :
    field.foreignKey ≠ none ∧ (companion.modifiers.nonNull = true ↔ field.label = .repeated) := by
  cases h with
  | plain => cases hc
  | oneof => cases hc
  | key _ _ hkey _ =>
    cases hslot
    cases hc
    refine ⟨by simp [hkey], ?_⟩
    split
    · rename_i hlabel
      simp [hlabel]
    · rename_i hlabel
      simp [hlabel, Schema.Modifiers.nullable]

theorem slots_eq_nil {message : Source.Message} :
    message.slots = [] ↔ message.fields = [] := by
  rw [← List.isEmpty_iff, message.slots_isEmpty, List.isEmpty_iff]

/-- Each slot has a row in the object, with its fields. -/
theorem MessageMarked.exists_row (h : MessageMarked mapping message types) {slot : Source.Slot}
    (hs : slot ∈ message.slots) : ∃ row : Row, row.slot = slot ∧ row.Shows mapping message types ∧
      SlotMarked mapping message .object slot row.shown ∧ row.fields ⊆ types.object.fields := by
  obtain ⟨rows, hslots, hfields, hrows⟩ := h.object
  rw [← hslots] at hs
  obtain ⟨row, hrow, rfl⟩ := List.mem_map.mp hs
  obtain ⟨hshows, hmarked⟩ := hrows row hrow
  refine ⟨row, rfl, hshows, hmarked, fun declared hd => ?_⟩
  have hin := List.mem_flatMap.mpr ⟨row, hrow, hd⟩
  rw [hfields, orPlaceholder, if_neg]
  · exact hin
  · simpa using List.ne_nil_of_mem hin

/-- What the object of a message with fields has is in the row of a slot. -/
theorem MessageMarked.exists_slot (h : MessageMarked mapping message types)
    (hsome : message.fields ≠ []) {declared : Schema.Field} (hd : declared ∈ types.object.fields) :
    ∃ row : Row, row.slot ∈ message.slots ∧ row.Shows mapping message types ∧
      SlotMarked mapping message .object row.slot row.shown ∧ declared ∈ row.fields := by
  obtain ⟨rows, hslots, hfields, hrows⟩ := h.object
  have hne : ¬ (rows.flatMap Row.fields).isEmpty = true := by
    intro hempty
    rw [List.isEmpty_iff, List.flatMap_eq_nil_iff] at hempty
    obtain ⟨slot, hslot⟩ := List.exists_mem_of_ne_nil _ (mt slots_eq_nil.mp hsome)
    rw [← hslots] at hslot
    obtain ⟨row, hrow, -⟩ := List.mem_map.mp hslot
    exact List.cons_ne_nil _ _ (hempty row hrow)
  rw [hfields, orPlaceholder, if_neg hne] at hd
  obtain ⟨row, hrow, hin⟩ := List.mem_flatMap.mp hd
  exact ⟨row, hslots ▸ List.mem_map_of_mem hrow, (hrows row hrow).1, (hrows row hrow).2, hin⟩

/-- An entry shows nothing that can be null if it has fields, none of them in a oneof or of a single
message, and keys in lists only. -/
theorem MessageMarked.nonNull_of_entry (h : MessageMarked mapping message types)
    (hnull : mapping.settings.nullWrappers = false) (hmap : message.isMap = true)
    (hsingle : ∀ field ∈ message.fields, NoSingleMessage mapping.catalog field)
    (hsome : message.fields ≠ []) (hplain : ∀ field ∈ message.fields,
      field.membership = none ∧ (field.foreignKey ≠ none → field.label = .repeated))
    {declared : Schema.Field} (hd : declared ∈ types.object.fields) :
    declared.modifiers.nonNull = true := by
  obtain ⟨row, hslot, hshows, hmarked, hin⟩ := h.exists_slot hsome hd
  cases heq : row.slot with
  | oneof place comments =>
    rw [heq] at hslot
    obtain ⟨member, hmember, hplace⟩ := Source.member_of_oneof_mem_slotsFrom hslot
    rw [(hplain member hmember).1] at hplace
    cases hplace
  | field field =>
    rw [heq] at hslot hmarked
    have hf := (Source.Message.field_mem_slots.mp hslot).1
    rcases List.mem_cons.mp hin with rfl | hcompanion
    · exact FieldMarked.nonNull_of_entry hmarked hnull hmap (hsingle field hf)
    · obtain ⟨hkeyed, hiff⟩ := hshows.companion_nonNull heq (Option.mem_toList.mp hcompanion)
      exact hiff.mpr ((hplain field hf).2 hkeyed)

/-- An object free of null is that of a message with fields, none of them in a oneof, and with keys
in lists only. -/
theorem MessageMarked.fields_of_nonNull (h : MessageMarked mapping message types)
    (hall : ∀ declared ∈ types.object.fields, declared.modifiers.nonNull = true) :
    message.fields ≠ [] ∧ ∀ field ∈ message.fields, field.membership = none ∧
      (field.foreignKey ≠ none → field.label = .repeated) := by
  refine ⟨fun hnil => ?_, fun field hf => ?_⟩
  · obtain ⟨rows, hslots, hfields, -⟩ := h.object
    rw [slots_eq_nil.mpr hnil, List.map_eq_nil_iff] at hslots
    have hplaceholder : types.object.fields = [placeholder] := by rw [hfields, hslots]; rfl
    have hset := hall placeholder (hplaceholder ▸ List.mem_cons_self)
    cases hset
  · cases hplace : field.membership with
    | some place =>
      obtain ⟨first, text, hslot, -⟩ : ∃ first text, .oneof first text ∈ message.slots ∧
          first.written = place.written :=
        Source.exists_oneof_mem_slotsFrom hf hplace List.not_mem_nil
      obtain ⟨row, -, -, hmarked, hsub⟩ := h.exists_row hslot
      have hset := hall row.shown (hsub List.mem_cons_self)
      rw [show row.shown.modifiers = .nullable from hmarked] at hset
      cases hset
    | none =>
      refine ⟨rfl, fun hkey => ?_⟩
      obtain ⟨row, hslot, hshows, -, hsub⟩ :=
        h.exists_row (Source.Message.field_mem_slots.mpr ⟨hf, hplace⟩)
      have hsome := hshows.companion_isSome
      rw [hslot, hasKey, Option.isSome_iff_ne_none.mpr hkey, Option.isSome_iff_exists] at hsome
      obtain ⟨companion, hcompanion⟩ := hsome
      refine (hshows.companion_nonNull hslot hcompanion).2.mp (hall companion (hsub ?_))
      exact List.mem_cons_of_mem _ (Option.mem_toList.mpr hcompanion)

end Rows

theorem Built.exists_marked {settings : Settings} {index : Options.Index}
    {described : List Descriptor.File} {files : List Source.File} {mapping : Mapping}
    (hb : Built settings (Catalog.ofFiles files) mapping)
    (hw : Source.Wrapped index described files) {name : String} {message : Source.Message}
    (hm : mapping.catalog.messages.get? name = some message) :
    ∃ types, mapping.messageTypes? name = some types ∧ MessageMarked mapping message types := by
  have hp := hw.placed message (Catalog.of_get?_messages (hb.catalog_eq ▸ hm)).1
  obtain ⟨body, -, hof, htypes⟩ := hb.exists_types hm
  exact ⟨_, htypes, hb.marked_types hp hof _⟩

/-- In the object of a map entry every field of a value is not null, except for one that holds a
single message. Without such values the whole object is free of null exactly if the entry has
fields, none of them in a oneof, and keys in lists only. -/
theorem map_entries_are_not_null (settings : Settings) (index : Options.Index)
    (described : List Descriptor.File) (mapping : Mapping)
    (h : ofDescriptors settings index described = .ok mapping)
    (hnull : settings.nullWrappers = false) (name : String) (message : Source.Message)
    (hm : mapping.catalog.messages.get? name = some message) (hmap : message.isMap = true) :
    ∃ types, mapping.messageTypes? name = some types ∧
      (∃ rows : List Row, rows.map (·.slot) = message.slots ∧
        types.object.fields = orPlaceholder (rows.flatMap Row.fields) ∧
        ∀ row ∈ rows, row.Shows mapping message types ∧
          ∀ field, row.slot = .field field → NoSingleMessage mapping.catalog field →
            row.shown.modifiers.nonNull = true) ∧
      ((∀ field ∈ message.fields, NoSingleMessage mapping.catalog field) →
        ((∀ declared ∈ types.object.fields, declared.modifiers.nonNull = true) ↔
          message.fields ≠ [] ∧ ∀ field ∈ message.fields, field.membership = none ∧
            (field.foreignKey ≠ none → field.label = .repeated))) := by
  obtain ⟨files, hw, -⟩ := exists_wrapped h
  have hb := ofDescriptors_built hw h
  obtain ⟨types, htypes, hmarked⟩ := hb.exists_marked hw hm
  rw [← hb.settings_eq] at hnull
  obtain ⟨rows, hslots, hfields, hrows⟩ := hmarked.object
  refine ⟨types, htypes, ⟨rows, hslots, hfields, fun row hrow => ⟨(hrows row hrow).1, ?_⟩⟩, ?_⟩
  · intro field hslot hsingle
    have hvalue := (hrows row hrow).2
    rw [hslot] at hvalue
    exact FieldMarked.nonNull_of_entry hvalue hnull hmap hsingle
  · intro hsingle
    refine ⟨hmarked.fields_of_nonNull, ?_⟩
    rintro ⟨hsome, hplain⟩ declared hd
    exact hmarked.nonNull_of_entry hnull hmap hsingle hsome hplain hd

/-- A map entry is mapped to an object with a field that can be null. -/
def EntryShowsNull (mapping : Mapping) (name : String) : Prop :=
  ∃ message types, mapping.catalog.messages.get? name = some message ∧ message.isMap = true ∧
    mapping.messageTypes? name = some types ∧
    ∃ declared ∈ types.object.fields, declared.modifiers.nonNull = false

theorem Built.entryShowsNull {settings : Settings} {index : Options.Index}
    {described : List Descriptor.File} {files : List Source.File} {mapping : Mapping}
    (hb : Built settings (Catalog.ofFiles files) mapping)
    (hw : Source.Wrapped index described files) {name : String} {message : Source.Message}
    (hm : (Catalog.ofFiles files).messages.get? name = some message) (hmap : message.isMap = true)
    (hnull : ∀ types, MessageMarked mapping message types →
      ¬ ∀ declared ∈ types.object.fields, declared.modifiers.nonNull = true) :
    EntryShowsNull mapping name := by
  rw [← hb.catalog_eq] at hm
  obtain ⟨types, htypes, hmarked⟩ := hb.exists_marked hw hm
  refine ⟨message, types, hm, hmap, htypes, ?_⟩
  simpa using hnull types hmarked

section Ledger

/-- Accounts with maps of all sorts: plain notes, whose entries say that their values are optional,
and entries with another account, with a key, with a oneof and with nothing. -/
def ledger : List Descriptor.File :=
  [{ name := "ledger.proto"
     syntaxName := "proto2"
     messages := [
       { name := "Account"
         fields := [{ name := "notes", kind := .message, typeName := ".Account.NotesEntry",
                      label := .repeated }]
         nested := [
           { name := "NotesEntry"
             fields := [{ name := "key", kind := .string }, { name := "value", kind := .int64 }]
             isMapEntry := true },
           { name := "PartnersEntry"
             fields := [
               { name := "key", kind := .string },
               { name := "value", kind := .message, typeName := ".Account" }]
             isMapEntry := true },
           { name := "OwnersEntry"
             fields := [{ name := "key", kind := .string }, { name := "value", kind := .int64 }]
             isMapEntry := true },
           { name := "SplitsEntry"
             fields := [{ name := "value", kind := .int64, oneofIndex := some 0 }]
             oneofs := ["part"]
             isMapEntry := true },
           { name := "BlanksEntry", isMapEntry := true }] }] }]

def ledgerIndex : Options.Index :=
  { fields := Table.ofList [
      (".Account.OwnersEntry.value", { foreignKey := .text "Account:owner" })] }

def ledgerSources : List Source.File :=
  ((ledger.zipIdx.mapM fun (file, position) =>
    Source.File.ofDescriptor ledgerIndex position file).toOption).getD []

theorem ledger_wrapped : Source.Wrapped ledgerIndex ledger ledgerSources := rfl

private theorem ledger_distinct : Source.Distinct ledgerSources := by
  constructor <;> decide

theorem ledger_mapped : ∃ mapping, ofDescriptors {} ledgerIndex ledger = .ok mapping := by
  rw [ofDescriptors_eq ledger_wrapped, exists_mapping_iff ledger_distinct ledger_wrapped.placed]
  decide

/-- The entries of notes show no null, although their fields were declared optional. -/
theorem ledger_notes_are_not_null : ∃ mapping message types,
    ofDescriptors {} ledgerIndex ledger = .ok mapping ∧
    mapping.catalog.messages.get? ".Account.NotesEntry" = some message ∧
    message.isMap = true ∧ message.fields.map (·.name) = ["key", "value"] ∧
    (∀ field ∈ message.fields, DeclaredOptional message field) ∧
    mapping.messageTypes? ".Account.NotesEntry" = some types ∧ types.object.fields ≠ [] ∧
    ∀ declared ∈ types.object.fields, declared.modifiers.nonNull = true := by
  obtain ⟨mapping, hmapping⟩ := ledger_mapped
  have hb := ofDescriptors_built ledger_wrapped hmapping
  obtain ⟨message, hm, hmap, hnames, hoptional, hkinds, hplain⟩ : ∃ message,
      (Catalog.ofFiles ledgerSources).messages.get? ".Account.NotesEntry" = some message ∧
      message.isMap = true ∧ message.fields.map (·.name) = ["key", "value"] ∧
      (∀ field ∈ message.fields, message.home.syntaxName = "proto2" ∧ field.label = .optional) ∧
      (∀ field ∈ message.fields, field.kind ≠ .message) ∧
      ∀ field ∈ message.fields, field.membership = none ∧ field.foreignKey = none :=
    ⟨_, rfl, rfl, rfl, by decide, by decide, by decide⟩
  rw [← hb.catalog_eq] at hm
  obtain ⟨types, htypes, ⟨rows, -, hfields, -⟩, hiff⟩ :=
    map_entries_are_not_null _ _ _ mapping hmapping rfl _ message hm hmap
  refine ⟨mapping, message, types, hmapping, hm, hmap, hnames,
    fun field hf => .inr (hoptional field hf), htypes, ?_, ?_⟩
  · rw [hfields, orPlaceholder]
    split <;> simp_all
  · refine (hiff fun field hf hkind => (hkinds field hf hkind).elim).mpr ⟨?_, fun field hf => ?_⟩
    · intro hnil
      simp [hnil] at hnames
    · exact ⟨(hplain field hf).1, fun hkey => (hkey (hplain field hf).2).elim⟩

/-- Null can be shown by an entry with another account for its value, with a key, with a oneof, and
with nothing. -/
theorem ledger_entries_show_null : ∃ mapping,
    ofDescriptors {} ledgerIndex ledger = .ok mapping ∧ mapping.settings.nullWrappers = false ∧
    ∀ name ∈ [".Account.PartnersEntry", ".Account.OwnersEntry", ".Account.SplitsEntry",
      ".Account.BlanksEntry"], EntryShowsNull mapping name := by
  obtain ⟨mapping, hmapping⟩ := ledger_mapped
  have hb := ofDescriptors_built ledger_wrapped hmapping
  have hrefused : ∀ {name : String}, (∃ message,
      (Catalog.ofFiles ledgerSources).messages.get? name = some message ∧ message.isMap = true ∧
      ¬ (message.fields ≠ [] ∧ ∀ field ∈ message.fields, field.membership = none ∧
        (field.foreignKey ≠ none → field.label = .repeated))) → EntryShowsNull mapping name := by
    rintro name ⟨message, hm, hmap, hfields⟩
    exact hb.entryShowsNull ledger_wrapped hm hmap fun types hmarked =>
      mt hmarked.fields_of_nonNull hfields
  refine ⟨mapping, hmapping, by rw [hb.settings_eq], ?_⟩
  simp only [List.forall_mem_cons, List.not_mem_nil, false_implies, implies_true, and_true]
  refine ⟨?_, hrefused ⟨_, rfl, rfl, by decide⟩, hrefused ⟨_, rfl, rfl, by decide⟩,
    hrefused ⟨_, rfl, rfl, by decide⟩⟩
  obtain ⟨message, hm, hmap, field, hf, hplain, hkind, hlabel, htype⟩ : ∃ message,
      (Catalog.ofFiles ledgerSources).messages.get? ".Account.PartnersEntry" = some message ∧
      message.isMap = true ∧ ∃ field ∈ message.fields, field.membership = none ∧
        field.kind = .message ∧ field.label ≠ .repeated ∧ field.typeName = ".Account" :=
    ⟨_, rfl, rfl, by decide⟩
  refine hb.entryShowsNull ledger_wrapped hm hmap fun types hmarked hall => ?_
  obtain ⟨row, -, -, hvalue, hsub⟩ :=
    hmarked.exists_row (Source.Message.field_mem_slots.mpr ⟨hf, hplain⟩)
  obtain ⟨-, hrepeated | ⟨-, target, htarget, hentry⟩ | ⟨-, hother, -⟩⟩ :=
    hvalue.nonNull.mp (hall row.shown (hsub List.mem_cons_self))
  · exact hlabel hrepeated
  · rw [hb.catalog_eq, htype] at htarget
    cases htarget
    cases hentry
  · exact hother hkind

end Ledger

end ProtoSdl.Mapping

import ProtoSdl.Proofs.MessageShapes

/-! The marks on the fields of a schema. A field that stands for one of the source has marks that
its label, its kind and the side of the schema determine; a scalar in the place of its type changes
none, and a wrapper that is unwrapped loses one. Where only lists hold entries of maps, no input
asks for a single value, so each of them can be left empty. -/
namespace ProtoSdl

/-- A value that is neither null nor left out is asked for. -/
def Schema.Modifiers.isRequired (modifiers : Modifiers) : Bool :=
  if modifiers.list then modifiers.nonNullList else modifiers.nonNull

def Schema.Composite.marks (composite : Composite) : List Modifiers :=
  composite.fields.map (·.modifiers)

/-- The value without any fields can be given for an input. -/
def Schema.Composite.AcceptsEmpty (input : Composite) : Prop :=
  ∀ field ∈ input.fields, field.modifiers.isRequired = false

namespace Mapping

open Outcome

def wrapperNames : List String :=
  ["DoubleValue", "FloatValue", "Int64Value", "UInt64Value", "Int32Value", "UInt32Value",
    "BoolValue", "StringValue", "BytesValue"].map (".google.protobuf." ++ ·)

def Unwrapped (settings : Settings) (field : Source.Field) : Prop :=
  settings.nullWrappers = true ∧ field.typeName ∈ wrapperNames

/-- The field was declared optional, in the words of either version. -/
def DeclaredOptional (message : Source.Message) (field : Source.Field) : Prop :=
  field.proto3Optional = true ∨ message.home.syntaxName = "proto2" ∧ field.label = .optional

def EntryTyped (catalog : Catalog) (field : Source.Field) : Prop :=
  field.kind = .message ∧
    ∃ target, catalog.messages.get? field.typeName = some target ∧ target.isMap = true

/-- The marks that a field of a message has on one side of the schema. -/
structure FieldMarked (mapping : Mapping) (message : Source.Message) (mode : Mode)
    (field : Source.Field) (declared : Schema.Field) : Prop where
  list : declared.modifiers.list = true ↔ field.label = .repeated
  nonNullList : declared.modifiers.nonNullList = true ↔ field.label = .repeated ∧ mode = .object
  nonNull : declared.modifiers.nonNull = true ↔ ¬ Unwrapped mapping.settings field ∧
    (field.label = .repeated ∨ EntryTyped mapping.catalog field ∨
      mode = .object ∧ field.kind ≠ .message ∧
        ¬ (DeclaredOptional message field ∧ message.isMap = false))

section Fields

variable {settings : Settings} {catalog : Catalog} {message : Source.Message}
  {field : Source.Field} {typed : TypedField}

private theorem wrapped?_isSome :
    (wrapped? settings field.typeName).isSome = true ↔ Unwrapped settings field := by
  have hnames : (wrappers settings.longType).map (·.1) = wrapperNames := rfl
  unfold wrapped? Unwrapped
  rw [← hnames]
  cases settings.nullWrappers with
  | false => simp
  | true => simp [List.find?_isSome]

private theorem isExplicitlyOptional_iff :
    field.isExplicitlyOptional message.home = true ↔ DeclaredOptional message field := by
  simp [Source.Field.isExplicitlyOptional, Source.Home.hasOptionalFields, DeclaredOptional]

/-- When a single value is never null. -/
theorem isRequired_iff (h : TypedField.ofField settings catalog message field = .ok typed)
    (mode : Mode) : typed.isRequired mode message = true ↔
      EntryTyped catalog field ∨ mode = .object ∧ field.kind ≠ .message ∧
        ¬ (DeclaredOptional message field ∧ message.isMap = false) := by
  have hvalue : (mode = .object && !(field.isExplicitlyOptional message.home && !message.isMap)) =
      true ↔ mode = .object ∧ ¬ (DeclaredOptional message field ∧ message.isMap = false) := by
    rw [← isExplicitlyOptional_iff]
    cases field.isExplicitlyOptional message.home <;> cases message.isMap <;> simp
  obtain ⟨scalar, hscalar, rfl⟩ | ⟨enum, hkind, -, rfl⟩ | ⟨target, hkind, hget, rfl⟩ :=
    TypedField.ofField_cases h
  · have hkind := (builtIn?_eq_some hscalar).2.1
    simpa [TypedField.isRequired, EntryTyped, hkind] using hvalue
  · simpa [TypedField.isRequired, EntryTyped, hkind] using hvalue
  · simp [TypedField.isRequired, EntryTyped, hkind, hget]

/-- The marks on a field are those that the field asks for. -/
theorem fieldMarked_declare {mapping : Mapping}
    (h : TypedField.ofField mapping.settings mapping.catalog message field = .ok typed)
    (mode : Mode) :
    FieldMarked mapping message mode field (typed.declare mapping.naming mode message) := by
  have hrequired := isRequired_iff h mode
  obtain ⟨rfl, -⟩ := TypedField.ofField_field h
  have hwrapped : (wrapped? mapping.naming.settings typed.field.typeName).isSome = true ↔
      Unwrapped mapping.settings typed.field := wrapped?_isSome
  have hlabel : typed.field.isRepeated = true ↔ typed.field.label = .repeated := by
    simp [Source.Field.isRepeated]
  have hmarks : (typed.modifiers mode message).nonNull = true ↔
      typed.field.label = .repeated ∨ typed.isRequired mode message = true := by
    unfold TypedField.modifiers
    by_cases hr : typed.field.isRepeated = true
    · simp [hr, hlabel.mp hr]
    · simp [hr, mt hlabel.mpr hr]
  have hlist : (typed.modifiers mode message).nonNullList = true ↔
      typed.field.label = .repeated ∧ mode = .object := by
    unfold TypedField.modifiers
    by_cases hr : typed.field.isRepeated = true
    · simp [hr, hlabel.mp hr]
    · simp [hr, mt hlabel.mpr hr]
  refine ⟨?_, ?_, ?_⟩
  · rw [declare_list, hlabel]
  · rw [declare_modifiers]
    split <;> exact hlist
  · rw [declare_modifiers, ← hwrapped, ← hrequired, ← hmarks]
    split
    · rename_i hsome
      simp [hsome]
    · rename_i hnone
      simp [hnone]

end Fields

/-- The marks of what a slot gives to a type: those of its field, and none for a oneof. -/
def SlotMarked (mapping : Mapping) (message : Source.Message) (mode : Mode) :
    Source.Slot → Schema.Field → Prop
  | .field field, declared => FieldMarked mapping message mode field declared
  | .oneof _ _, declared => declared.modifiers = .nullable

/-- The marks in the types of a oneof: of each member in the object that wraps it, behind the name
of the member, and in the input. -/
structure OneofMarked (mapping : Mapping) (message : Source.Message) (oneof : Source.Oneof)
    (types : OneofTypes) : Prop where
  objects : List.Forall₂ (fun member object => ∃ shown,
    object.fields = [discriminator, shown] ∧ FieldMarked mapping message .object member shown)
    oneof.members types.objects
  input : ∀ input, types.input = some input →
    List.Forall₂ (FieldMarked mapping message .input) oneof.members input.fields

/-- The marks in the types of a message: of each slot in the object and in the input, and of each
member of a oneof. -/
structure MessageMarked (mapping : Mapping) (message : Source.Message)
    (types : MessageTypes) : Prop where
  object : ∃ rows : List Row, rows.map (·.slot) = message.slots ∧
    types.object.fields = orPlaceholder (rows.flatMap Row.fields) ∧
    ∀ row ∈ rows, row.Shows mapping message types ∧
      SlotMarked mapping message .object row.slot row.shown
  input : ∀ input, types.input = some input → ∃ given, input.fields = orPlaceholder given ∧
    List.Forall₂ (SlotMarked mapping message .input) message.slots given
  oneofs : List.Forall₂ (OneofMarked mapping message) message.choices types.oneofs

section Messages

variable {settings : Settings} {files : List Source.File} {mapping : Mapping} {name : String}
  {message : Source.Message} {body : Body}

private theorem slotMarked_memberField
    (hformed : Formation mapping.settings mapping.catalog message body) {slot : Source.Slot}
    {member : Member}
    (h : Member.ofSlot mapping.settings mapping.catalog message slot = .ok member) (mode : Mode) :
    SlotMarked mapping message mode slot (body.memberField mapping.naming mode member) := by
  obtain ⟨field, typed, companion, rfl, rfl, htyped, -⟩ | ⟨place, comments, rfl, rfl⟩ :=
    Member.ofSlot_cases h
  · simp only [Body.memberField, hformed.message_eq]
    exact fieldMarked_declare htyped mode
  · rfl

private theorem oneofMarked_choice
    (hformed : Formation mapping.settings mapping.catalog message body)
    {oneof : Source.Oneof} {choice : Choice}
    (h : Choice.ofOneof mapping.settings mapping.catalog message oneof = .ok choice)
    (hasInput : Bool) :
    OneofMarked mapping message oneof (body.oneofTypes mapping.naming hasInput choice) := by
  have hmembers := Choice.members_of_ofOneof h
  refine ⟨List.forall₂_map_right_iff.mpr (hmembers.imp fun field typed htyped => ?_),
    fun input hinput => ?_⟩
  · rw [← hformed.message_eq] at htyped ⊢
    exact ⟨_, rfl, fieldMarked_declare htyped .object⟩
  · obtain ⟨-, rfl⟩ := Body.input_oneofTypes.mp hinput
    refine List.forall₂_map_right_iff.mpr (hmembers.imp fun field typed htyped => ?_)
    rw [← hformed.message_eq] at htyped ⊢
    exact fieldMarked_declare htyped .input

theorem Built.marked_types (h : Built settings (Catalog.ofFiles files) mapping)
    (hp : message.Placed)
    (hof : Body.ofMessage mapping.settings mapping.catalog message = .ok body)
    (hasInput : Bool) : MessageMarked mapping message (body.types mapping.naming hasInput) := by
  have hformed := formation_of_ofMessage hof
  refine ⟨⟨body.rows mapping.naming message, slots_rows hformed _, ?_, ?_⟩, ?_, ?_⟩
  · rw [fields_rows hformed]
    exact fields_eq_orPlaceholder mapping.naming .object body
  · intro row hrow
    obtain ⟨pair, hpair, rfl⟩ := List.mem_map.mp hrow
    exact ⟨h.shows_row hp hof hasInput hpair,
      slotMarked_memberField hformed (ofSlot_of_mem_zip hformed hpair) .object⟩
  · intro input hinput
    obtain ⟨-, rfl⟩ := Body.input_types.mp hinput
    refine ⟨body.members.map (body.memberField mapping.naming .input), ?_, ?_⟩
    · rw [← flatMap_memberFields_input]
      exact fields_eq_orPlaceholder mapping.naming .input body
    · exact List.forall₂_map_right_iff.mpr (hformed.members.imp fun slot member hslot =>
        slotMarked_memberField hformed hslot .input)
  · exact List.forall₂_map_right_iff.mpr (hformed.choices.imp fun oneof choice hchoice =>
      oneofMarked_choice hformed hchoice hasInput)

end Messages

section Scalars

variable (timestamp duration struct : Option String)

/-- A mapping with other scalars for the messages that can have some. -/
def withScalars (mapping : Mapping) : Mapping :=
  { mapping with settings := { mapping.settings with timestamp, duration, struct } }

variable {timestamp duration struct}

theorem build_withScalars {mapping next : Mapping} {mode : Mode} {names : List String}
    (h : mapping.build mode names = .ok next) :
    (mapping.withScalars timestamp duration struct).build mode names =
      .ok (next.withScalars timestamp duration struct) := by
  obtain ⟨after, hrun, h⟩ := bind_eq_ok.mp h
  cases mode with
  | object =>
    cases h
    exact bind_eq_ok.mpr ⟨after, hrun, rfl⟩
  | input =>
    cases h
    exact bind_eq_ok.mpr ⟨after, hrun, rfl⟩

private theorem foldlM_addService_withScalars {services : List Source.Service}
    {mapping result : Mapping}
    (h : services.foldlM addService mapping = .ok result) :
    services.foldlM addService (mapping.withScalars timestamp duration struct) =
      .ok (result.withScalars timestamp duration struct) := by
  induction services generalizing mapping with
  | nil =>
    cases h
    rfl
  | cons service services ih =>
    obtain ⟨next, hnext, h⟩ := bind_eq_ok.mp h
    obtain ⟨plan, hplan, hnext⟩ := bind_eq_ok.mp hnext
    obtain ⟨built, hbuilt, hadded⟩ := bind_eq_ok.mp hnext
    cases hadded
    exact bind_eq_ok.mpr ⟨_, bind_eq_ok.mpr ⟨plan, hplan,
      bind_eq_ok.mpr ⟨_, build_withScalars hbuilt, rfl⟩⟩, ih h⟩

/-- The scalars in place of messages change nothing but the settings of a mapping. -/
theorem ofDescriptors_withScalars {settings : Settings} {index : Options.Index}
    {described : List Descriptor.File} {mapping : Mapping}
    (h : ofDescriptors settings index described = .ok mapping) :
    ofDescriptors { settings with timestamp, duration, struct } index described =
      .ok (mapping.withScalars timestamp duration struct) := by
  obtain ⟨catalog, hcatalog, h⟩ := bind_eq_ok.mp h
  obtain ⟨checks, hchecks, h⟩ := bind_eq_ok.mp h
  obtain ⟨named, hnamed, h⟩ := bind_eq_ok.mp h
  obtain ⟨withObjects, hobjects, h⟩ := bind_eq_ok.mp h
  obtain ⟨names, hnames, h⟩ := bind_eq_ok.mp h
  obtain ⟨withInputs, hinputs, h⟩ := bind_eq_ok.mp h
  exact bind_eq_ok.mpr ⟨catalog, hcatalog, bind_eq_ok.mpr ⟨checks, hchecks,
    bind_eq_ok.mpr ⟨named, hnamed, bind_eq_ok.mpr ⟨_, build_withScalars hobjects,
      bind_eq_ok.mpr ⟨names, hnames, bind_eq_ok.mpr ⟨_, build_withScalars hinputs,
        foldlM_addService_withScalars h⟩⟩⟩⟩⟩⟩

private theorem fields_marks {naming naming' : Naming}
    (hw : ∀ name, wrapped? naming'.settings name = wrapped? naming.settings name) (mode : Mode)
    (body : Body) : (body.fields naming' mode).map (·.modifiers) =
      (body.fields naming mode).map (·.modifiers) := by
  unfold Body.fields
  split
  · rfl
  · rw [List.map_flatMap, List.map_flatMap]
    congr 1
    funext member
    cases member with
    | oneof place comments => rfl
    | plain typed companion =>
      cases mode <;> cases companion <;>
        simp [Body.memberFields, declare_modifiers, hw, Companion.declare]

/-- The scalars in place of messages change no mark in the types of a message. -/
theorem composites_marks {naming naming' : Naming}
    (hw : ∀ name, wrapped? naming'.settings name = wrapped? naming.settings name) (body : Body)
    (hasInput : Bool) : (body.types naming' hasInput).composites.map (·.marks) =
      (body.types naming hasInput).composites.map (·.marks) := by
  have hobject : (body.object naming').marks = (body.object naming).marks :=
    fields_marks hw .object body
  have hinput : (body.input naming').marks = (body.input naming).marks :=
    fields_marks hw .input body
  have hwrappers : ∀ choice : Choice, (body.choiceWrappers naming' choice).map (·.marks) =
      (body.choiceWrappers naming choice).map (·.marks) := by
    intro choice
    simp [Body.choiceWrappers, Body.wrapper, Schema.Composite.marks, declare_modifiers, hw]
  have hchoice : ∀ choice : Choice, (body.choiceInput naming' choice).marks =
      (body.choiceInput naming choice).marks := by
    intro choice
    simp [Body.choiceInput, Schema.Composite.marks, declare_modifiers, hw]
  cases hasInput <;>
    simp [MessageTypes.composites, Body.types, Body.oneofTypes, hobject, hinput, hwrappers, hchoice,
      List.map_flatMap, List.flatMap_map]

variable (timestamp duration struct) in
private theorem messageTypes?_marks (mapping : Mapping) (name : String) :
    ((mapping.withScalars timestamp duration struct).messageTypes? name).map
        (·.composites.map (·.marks)) =
      (mapping.messageTypes? name).map (·.composites.map (·.marks)) := by
  have hw : ∀ typeName, wrapped? (mapping.withScalars timestamp duration struct).naming.settings
      typeName = wrapped? mapping.naming.settings typeName := fun _ => rfl
  rw [messageTypes?, messageTypes?, Option.map_map, Option.map_map]
  refine congrArg (fun view => (mapping.objects.get? name).map view) (funext fun body => ?_)
  exact composites_marks hw body _

end Scalars

section Inputs

variable {mapping : Mapping} {message : Source.Message}

/-- A value of an input that is not null is a list, where only lists hold entries of maps. -/
theorem FieldMarked.optional {field : Source.Field} {declared : Schema.Field}
    (h : FieldMarked mapping message .input field declared)
    (hentry : EntryTyped mapping.catalog field → field.label = .repeated) :
    (declared.modifiers.nonNull = true → declared.modifiers.list = true) ∧
      declared.modifiers.isRequired = false := by
  have hlist : declared.modifiers.nonNull = true → declared.modifiers.list = true := by
    intro hset
    obtain ⟨-, hlabel | hmap | ⟨hmode, -⟩⟩ := h.nonNull.mp hset
    · exact h.list.mpr hlabel
    · exact h.list.mpr (hentry hmap)
    · cases hmode
  have hwhole : declared.modifiers.nonNullList = false := by
    rw [Bool.eq_false_iff, ne_eq, h.nonNullList]
    rintro ⟨-, hmode⟩
    cases hmode
  refine ⟨hlist, ?_⟩
  unfold Schema.Modifiers.isRequired
  split
  · exact hwhole
  · rename_i hsingle
    exact Bool.eq_false_iff.mpr (mt hlist hsingle)

theorem MessageMarked.optional {types : MessageTypes} (h : MessageMarked mapping message types)
    (hentry : ∀ field ∈ message.fields, EntryTyped mapping.catalog field →
      field.label = .repeated) {input : Schema.Composite} (hinput : input ∈ types.inputs)
    {declared : Schema.Field} (hm : declared ∈ input.fields) :
    (declared.modifiers.nonNull = true → declared.modifiers.list = true) ∧
      declared.modifiers.isRequired = false := by
  rcases List.mem_append.mp hinput with hinput | hinput
  · obtain ⟨given, hfields, hslots⟩ := h.input input (Option.mem_toList.mp hinput)
    rw [hfields, orPlaceholder] at hm
    split at hm
    · obtain rfl := List.mem_singleton.mp hm
      simp [placeholder, Schema.Modifiers.isRequired]
    · obtain ⟨slot, hslot, hmarked⟩ := exists_related (List.Forall₂.flip hslots) hm
      cases slot with
      | field field =>
        have hin := (Source.Message.field_mem_slots.mp hslot).1
        exact FieldMarked.optional hmarked (hentry field hin)
      | oneof place comments =>
        have hnullable : declared.modifiers = .nullable := hmarked
        simp [hnullable, Schema.Modifiers.nullable, Schema.Modifiers.isRequired]
  · obtain ⟨oneofTypes, htypes, hinput⟩ := List.mem_filterMap.mp hinput
    obtain ⟨oneof, honeof, hmarked⟩ := exists_related (List.Forall₂.flip h.oneofs) htypes
    obtain ⟨member, hmember, hfield⟩ :=
      exists_related (List.Forall₂.flip (hmarked.input input hinput)) hm
    have hin := (Source.Message.mem_members_iff (List.mem_of_mem_filter honeof)).mp hmember
    exact hfield.optional (hentry member hin.1)

end Inputs

/-- The marks on the fields of a mapping are those that the source asks for, and no scalar in the
place of a message changes any. Where only lists hold entries of maps, no field of an input is a
single value that is not null, and every input accepts the empty value. -/
theorem marks_follow_the_source (settings : Settings) (index : Options.Index)
    (described : List Descriptor.File) (mapping : Mapping)
    (h : ofDescriptors settings index described = .ok mapping) :
    (∀ name message, mapping.catalog.messages.get? name = some message →
      ∃ types, mapping.messageTypes? name = some types ∧ MessageMarked mapping message types) ∧
    (∀ timestamp duration struct, ∃ other,
      ofDescriptors { settings with timestamp, duration, struct } index described = .ok other ∧
      ∀ name, (other.messageTypes? name).map (·.composites.map (·.marks)) =
        (mapping.messageTypes? name).map (·.composites.map (·.marks))) ∧
    ((∀ name message, mapping.catalog.messages.get? name = some message →
        ∀ field ∈ message.fields, EntryTyped mapping.catalog field → field.label = .repeated) →
      ∀ name types, mapping.messageTypes? name = some types → ∀ input ∈ types.inputs,
        (∀ field ∈ input.fields, ¬ (field.modifiers.nonNull = true ∧
          field.modifiers.list = false)) ∧ input.AcceptsEmpty) := by
  obtain ⟨files, hw, -⟩ := exists_wrapped h
  have hb := ofDescriptors_built hw h
  have hmarked : ∀ name message, mapping.catalog.messages.get? name = some message →
      ∃ types, mapping.messageTypes? name = some types ∧ MessageMarked mapping message types := by
    intro name message hm
    have hp := hw.placed message (Catalog.of_get?_messages (hb.catalog_eq ▸ hm)).1
    obtain ⟨body, -, hof, htypes⟩ := hb.exists_types hm
    exact ⟨_, htypes, hb.marked_types hp hof _⟩
  refine ⟨hmarked, fun timestamp duration struct => ?_, fun hentries name types htypes => ?_⟩
  · exact ⟨_, ofDescriptors_withScalars h, messageTypes?_marks timestamp duration struct mapping⟩
  · obtain ⟨message, hm⟩ := hb.exists_message htypes
    obtain ⟨found, hfound, hmessage⟩ := hmarked name message hm
    cases htypes.symm.trans hfound
    intro input hinput
    refine ⟨?_, fun field hf => (hmessage.optional (hentries name message hm) hinput hf).2⟩
    rintro field hf ⟨hset, hsingle⟩
    have hlist := (hmessage.optional (hentries name message hm) hinput hf).1 hset
    rw [hsingle] at hlist
    cases hlist

/-- Orders and lines of the shop hold each other, and still an empty order can be given. -/
theorem shop_order_accepts_empty : ∃ mapping types input,
    ofDescriptors shopWithInputs Source.shopIndex Source.shop = .ok mapping ∧
    mapping.messageTypes? ".shop.Order" = some types ∧ types.input = some input ∧
    input.AcceptsEmpty := by
  obtain ⟨mapping, hmapping⟩ := shopWithInputs_mapped
  have hknown : KnownMessage Source.shopSources ".shop.Order" := by decide
  have hplain : ∀ message ∈ Source.allMessages Source.shopSources, message.isMap = false := by
    decide
  obtain ⟨message, types, input, hm, htypes, hinput⟩ := shopWithInputs_types hmapping hknown
  have hin : input ∈ types.inputs := List.mem_append_left _ (Option.mem_toList.mpr hinput)
  refine ⟨mapping, types, input, hmapping, htypes, hinput,
    ((marks_follow_the_source _ _ _ mapping hmapping).2.2 ?_ _ types htypes input hin).2⟩
  rintro name source - field - ⟨-, target, htarget, hentry⟩
  rw [(ofDescriptors_built Source.shop_wrapped hmapping).catalog_eq] at htarget
  rw [hplain target (Catalog.of_get?_messages htarget).1] at hentry
  cases hentry

end Mapping

end ProtoSdl

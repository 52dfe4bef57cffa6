import ProtoSdl.Proofs.MemoizedBuilding
import ProtoSdl.Proofs.OneofMembers

/-! What the oneofs of a message are declared as, against the fields that refer to them. The fields
of an object and of an input come in parts, one for each plain field and one for each oneof with
members; the part of a oneof is one field, of the type that the oneof is declared as. -/
namespace ProtoSdl.Mapping

open Outcome Dependency

/-- What gives fields to the types of a message: a plain field, with the object that its key refers
to, or a oneof. -/
inductive Part (α : Type)
  | field (typed : TypedField) (companion : Option Companion)
  | oneof (choice : α)

namespace Part

variable {α β : Type}

def typed? : Part α → Option TypedField
  | field typed _ => some typed
  | oneof _ => none

def oneof? : Part α → Option α
  | field _ _ => none
  | oneof choice => some choice

def map (f : α → β) : Part α → Part β
  | field typed companion => field typed companion
  | oneof choice => oneof (f choice)

def shown (naming : Naming) (message : Source.Message) : Part OneofTypes → List Schema.Field
  | field typed companion => typed.declare naming .object message ::
      (companion.map (·.declare naming typed.field)).toList
  | oneof types =>
    [{ name := naming.settings.fieldName types.name
       typeName := types.union.name
       modifiers := .nullable
       description := types.union.description }]

def given (naming : Naming) (message : Source.Message) : Part OneofTypes → List Schema.Field
  | field typed _ => [typed.declare naming .input message]
  | oneof types => types.input.toList.map fun input =>
    { name := naming.settings.fieldName types.name
      typeName := input.name
      modifiers := .nullable
      description := types.union.description }

end Part

/-- The fields of a type, which has one at least. -/
def orPlaceholder (fields : List Schema.Field) : List Schema.Field :=
  if fields.isEmpty then [placeholder] else fields

/-- The message of a type has neither a scalar of its own nor one that it wraps. -/
structure Unaltered (settings : Settings) (typeName : String) : Prop where
  custom : customScalar? settings typeName = none
  wrapped : wrapped? settings typeName = none

/-- The type of a field on one side of the schema, as its kind, the name of its type and the
settings ask for. -/
inductive TypedBy (mapping : Mapping) (mode : Mode) (kind : Descriptor.FieldKind)
    (typeName : String) : Schema.TypeName → Prop
  | custom {scalar : String} (h : customScalar? mapping.settings typeName = some scalar) :
      TypedBy mapping mode kind typeName scalar
  | wrapped {scalar : Schema.BuiltIn} (hcustom : customScalar? mapping.settings typeName = none)
      (h : wrapped? mapping.settings typeName = some scalar) :
      TypedBy mapping mode kind typeName scalar.name
  | builtIn {scalar : Schema.BuiltIn} (hplain : Unaltered mapping.settings typeName)
      (h : builtIn? mapping.settings.longType kind = some scalar) :
      TypedBy mapping mode kind typeName scalar.name
  | enum {enum : Source.Enum} (hplain : Unaltered mapping.settings typeName)
      (hkind : kind = .enum) (h : mapping.catalog.enums.get? typeName = some enum) :
      TypedBy mapping mode kind typeName (mapping.naming.enum enum)
  | object {target : Source.Message} (hplain : Unaltered mapping.settings typeName)
      (hmode : mode = .object) (hkind : kind = .message)
      (h : mapping.catalog.messages.get? typeName = some target) :
      TypedBy mapping mode kind typeName (mapping.naming.object target)
  | input {target : Source.Message} (hplain : Unaltered mapping.settings typeName)
      (hmode : mode = .input) (hkind : kind = .message)
      (h : mapping.catalog.messages.get? typeName = some target) :
      TypedBy mapping mode kind typeName (mapping.naming.input target)

/-- A field of a schema type stands for a field of a message, given by its name, its kind and the
name of its type. -/
structure Represents (mapping : Mapping) (mode : Mode) (name : String)
    (kind : Descriptor.FieldKind) (typeName : String) (shown : Schema.Field) : Prop where
  name : shown.name = mapping.settings.fieldName name
  type : TypedBy mapping mode kind typeName shown.typeName

/-- A described field of a message, read and with what its type refers to; on both sides of the
schema it is declared as the description asks for. -/
structure TypedAs (mapping : Mapping) (message : Source.Message) (described : Descriptor.Field)
    (typed : TypedField) : Prop where
  mirrors : Source.Field.Mirrors described typed.field
  resolved : TypedField.ofField mapping.settings mapping.catalog message typed.field = .ok typed
  shown : ∀ mode, Represents mapping mode described.name described.kind described.typeName
    (typed.declare mapping.naming mode message)

def MapTyped (catalog : Catalog) (described : Descriptor.Field) : Prop :=
  described.kind = .message ∧
    ∃ target, catalog.messages.get? described.typeName = some target ∧ target.isMap = true

/-- A oneof is declared with the given members: a union of objects that show one member each, next to
the name of it, and an input that holds them side by side. -/
structure OneofTypes.Hold (mapping : Mapping) (message : Source.Message)
    (members : List Descriptor.Field) (types : OneofTypes) : Prop where
  union : types.union.members = types.objects.map (·.name)
  objects : List.Forall₂ (fun member object => ∃ typed, TypedAs mapping message member typed ∧
    object.fields = [{ name := "case", typeName := "String", modifiers := { nonNull := true } },
      typed.declare mapping.naming .object message]) members types.objects
  input : ∀ input, types.input = some input →
    List.Forall₂ (fun member field => ∃ typed, TypedAs mapping message member typed ∧
      field = typed.declare mapping.naming .input message ∧
      (member.label ≠ .repeated → ¬ MapTyped mapping.catalog member →
        field.modifiers = .nullable)) members input.fields
  names : ∀ input, types.input = some input → input.fields.map (fun field => some field.name) =
    types.objects.map fun object => (object.fields[1]?).map (·.name)

section Members

variable {mapping : Mapping} {message : Source.Message}

/-- A field refers to a scalar, or to the enum or the message that its type names. -/
theorem TypedField.ofField_cases {settings : Settings} {catalog : Catalog} {field : Source.Field}
    {typed : TypedField} (h : TypedField.ofField settings catalog message field = .ok typed) :
    (∃ scalar, builtIn? settings.longType field.kind = some scalar ∧
      typed = ⟨field, .builtIn scalar⟩) ∨
    (∃ enum, field.kind = .enum ∧ catalog.enums.get? field.typeName = some enum ∧
      typed = ⟨field, .enum enum⟩) ∨
    ∃ target, field.kind = .message ∧ catalog.messages.get? field.typeName = some target ∧
      typed = ⟨field, .message target⟩ := by
  unfold TypedField.ofField at h
  split at h
  · rename_i scalar hscalar
    cases h
    exact .inl ⟨scalar, hscalar, rfl⟩
  · split at h
    · rename_i hkind
      obtain ⟨enum, henum, h⟩ := bind_eq_ok.mp h
      cases h
      exact .inr (.inl ⟨enum, hkind, Catalog.get?_of_enum henum, rfl⟩)
    · rename_i hkind
      obtain ⟨target, htarget, h⟩ := bind_eq_ok.mp h
      cases h
      exact .inr (.inr ⟨target, hkind, Catalog.get?_of_message htarget, rfl⟩)
    · cases h

theorem TypedField.ofField_field {settings : Settings} {catalog : Catalog} {field : Source.Field}
    {typed : TypedField} (h : TypedField.ofField settings catalog message field = .ok typed) :
    typed.field = field ∧ ∀ target, typed.referent = .message target →
      field.kind = .message ∧ catalog.messages.get? field.typeName = some target := by
  rcases TypedField.ofField_cases h with ⟨_, -, rfl⟩ | ⟨_, -, -, rfl⟩ | ⟨found, hkind, hfound, rfl⟩
  · exact ⟨rfl, by simp⟩
  · exact ⟨rfl, by simp⟩
  · refine ⟨rfl, fun target htarget => ⟨hkind, ?_⟩⟩
    cases htarget
    exact hfound

/-- A field that was typed is declared with its own name and type. -/
theorem represents_declare {field : Source.Field} {typed : TypedField}
    (h : TypedField.ofField mapping.settings mapping.catalog message field = .ok typed)
    (mode : Mode) : Represents mapping mode field.name field.kind field.typeName
      (typed.declare mapping.naming mode message) := by
  obtain ⟨rfl, -⟩ := TypedField.ofField_field h
  refine ⟨rfl, ?_⟩
  rw [declare_typeName]
  cases hcustom : customScalar? mapping.naming.settings typed.field.typeName with
  | some scalar => exact .custom hcustom
  | none =>
    cases hwrapped : wrapped? mapping.naming.settings typed.field.typeName with
    | some scalar => exact .wrapped hcustom hwrapped
    | none =>
      have hplain : Unaltered mapping.settings typed.field.typeName := ⟨hcustom, hwrapped⟩
      obtain ⟨scalar, hscalar, heq⟩ | ⟨enum, hkind, hget, heq⟩ | ⟨target, hkind, hget, heq⟩ :=
        TypedField.ofField_cases h
      · rw [heq] at hplain hscalar ⊢
        exact .builtIn hplain hscalar
      · rw [heq] at hplain hkind hget ⊢
        exact .enum hplain hkind hget
      · rw [heq] at hplain hkind hget ⊢
        cases mode with
        | object => exact .object hplain rfl hkind hget
        | input => exact .input hplain rfl hkind hget

theorem typedAs_of_mirrors {described : Descriptor.Field} {field : Source.Field}
    {typed : TypedField} (hmirrors : Source.Field.Mirrors described field)
    (h : TypedField.ofField mapping.settings mapping.catalog message field = .ok typed) :
    TypedAs mapping message described typed := by
  obtain ⟨rfl, -⟩ := TypedField.ofField_field h
  refine ⟨hmirrors, h, fun mode => ?_⟩
  rw [← hmirrors.name, ← hmirrors.kind, ← hmirrors.typeName]
  exact represents_declare h mode

/-- A single value in an input may be left out, unless it is the entry of a map. -/
theorem modifiers_nullable {member : Descriptor.Field} {typed : TypedField}
    (h : TypedAs mapping message member typed) (hlabel : member.label ≠ .repeated)
    (hmap : ¬ MapTyped mapping.catalog member) (naming : Naming) :
    (typed.declare naming .input message).modifiers = .nullable := by
  obtain ⟨hmirrors, hof, -⟩ := h
  have hsingle : typed.field.isRepeated = false := by
    simpa [Source.Field.isRepeated, hmirrors.label] using hlabel
  have hrequired : typed.isRequired .input message = false := by
    unfold TypedField.isRequired
    split
    · rename_i target htarget
      obtain ⟨hkind, hget⟩ := (TypedField.ofField_field hof).2 target htarget
      rw [hmirrors.kind] at hkind
      rw [hmirrors.typeName] at hget
      simpa using fun hentry => hmap ⟨hkind, target, hget, hentry⟩
    · simp
  have hmarks : typed.modifiers .input message = .nullable := by
    simp [TypedField.modifiers, hsingle, hrequired, Schema.Modifiers.nullable]
  unfold TypedField.declare
  simp only [hmarks]
  split
  · rfl
  · split <;> rfl

/-- The members of a oneof that was formed are its fields in their order. -/
theorem Choice.members_of_ofOneof {settings : Settings} {catalog : Catalog} {oneof : Source.Oneof}
    {choice : Choice} (h : Choice.ofOneof settings catalog message oneof = .ok choice) :
    List.Forall₂ (fun field typed => TypedField.ofField settings catalog message field = .ok typed)
      oneof.members choice.members := by
  unfold Choice.ofOneof at h
  split at h
  · cases h
  · obtain ⟨members, hmembers, h⟩ := bind_eq_ok.mp h
    cases h
    exact mapM_eq_ok.mp hmembers

/-- A oneof that was formed holds the members it was described with. -/
theorem hold_oneofTypes {source : Descriptor.Message} {body : Body} {oneof : Source.Oneof}
    {choice : Choice} (hreads : message.Reads source) (hbody : body.message = message)
    (ho : oneof ∈ message.choices)
    (h : Choice.ofOneof mapping.settings mapping.catalog message oneof = .ok choice)
    (hasInput : Bool) :
    (body.oneofTypes mapping.naming hasInput choice).Hold mapping message
      (source.oneofMembers oneof.position) := by
  have hmembers : List.Forall₂ (TypedAs mapping message) (source.oneofMembers oneof.position)
      choice.members := by
    have htyped := Choice.members_of_ofOneof h
    rw [(Source.Message.mem_oneofs.mp (List.mem_of_mem_filter ho)).2] at htyped
    refine (related_trans (hreads.members _) htyped).imp ?_
    rintro member typed ⟨field, ⟨hmirrors, -⟩, hof⟩
    exact typedAs_of_mirrors hmirrors hof
  have hinput : ∀ input, (body.oneofTypes mapping.naming hasInput choice).input = some input →
      input = body.choiceInput mapping.naming choice := by
    intro input hinput
    simp only [Body.oneofTypes, Option.ite_none_right_eq_some, Option.some.injEq] at hinput
    exact hinput.2.symm
  refine ⟨rfl, ?_, ?_, ?_⟩
  · refine List.forall₂_map_right_iff.mpr (hmembers.imp fun member typed htyped => ?_)
    exact ⟨typed, htyped, by rw [← hbody]; rfl⟩
  · intro input hi
    rw [hinput input hi]
    refine List.forall₂_map_right_iff.mpr (hmembers.imp fun member typed htyped => ?_)
    rw [hbody]
    exact ⟨typed, htyped, rfl, fun hlabel hmap => modifiers_nullable htyped hlabel hmap _⟩
  · intro input hi
    rw [hinput input hi]
    simp [Body.choiceInput, Body.oneofTypes, Body.choiceWrappers, Body.wrapper, TypedField.declare]

end Members

section Parts

variable {settings : Settings} {catalog : Catalog} {message : Source.Message} {body : Body}

inductive Stands (choices : List Choice) : Member → Part Choice → Prop
  | field (typed : TypedField) (companion : Option Companion) :
      Stands choices (.plain typed companion) (.field typed companion)
  | oneof {place : Source.Membership} {choice : Choice} (hc : choice ∈ choices)
      (hname : choice.oneof.name = place.oneof)
      (hposition : choice.oneof.position = place.position) :
      Stands choices (.oneof place choice.comments) (.oneof choice)

theorem slot_of_slotComments? {position : Nat} {slots : List Source.Slot} {comments : String}
    (h : slotComments? position slots = some comments) :
    ∃ place : Source.Membership, .oneof place comments ∈ slots ∧ place.written = position := by
  induction slots with
  | nil => cases h
  | cons slot slots ih =>
    cases slot with
    | field field =>
      obtain ⟨place, hm, hw⟩ := ih h
      exact ⟨place, List.mem_cons_of_mem _ hm, hw⟩
    | oneof place text =>
      rw [slotComments?] at h
      split at h
      · rename_i hw
        cases h
        exact ⟨place, List.mem_cons_self, hw⟩
      · obtain ⟨other, hm, hw⟩ := ih h
        exact ⟨other, List.mem_cons_of_mem _ hm, hw⟩

/-- A oneof has the comments of its slot. -/
theorem comments_of_ofOneof {oneof : Source.Oneof} {choice : Choice}
    (h : Choice.ofOneof settings catalog message oneof = .ok choice) :
    choice.oneof = oneof ∧ choice.comments = message.oneofComment oneof.position := by
  unfold Choice.ofOneof at h
  split at h
  · cases h
  · rename_i comments hcomments
    obtain ⟨members, -, h⟩ := bind_eq_ok.mp h
    cases h
    obtain ⟨place, hslot, hwritten⟩ := slot_of_slotComments? hcomments
    exact ⟨rfl, by rw [Source.oneof_comments_of_mem_slotsFrom hslot, hwritten]⟩

/-- A body as it was formed: its members from the slots, its choices from the oneofs. -/
structure Formation (settings : Settings) (catalog : Catalog) (message : Source.Message)
    (body : Body) : Prop where
  message_eq : body.message = message
  members : List.Forall₂ (fun slot member => Member.ofSlot settings catalog message slot =
    .ok member) message.slots body.members
  choices : List.Forall₂ (fun oneof choice => Choice.ofOneof settings catalog message oneof =
    .ok choice) message.choices body.choices

theorem formation_of_ofMessage (h : Body.ofMessage settings catalog message = .ok body) :
    Formation settings catalog message body := by
  obtain ⟨members, hmembers, h⟩ := bind_eq_ok.mp h
  obtain ⟨choices, hchoices, h⟩ := bind_eq_ok.mp h
  cases h
  exact ⟨rfl, mapM_eq_ok.mp hmembers, mapM_eq_ok.mp hchoices⟩

/-- A member of a body comes from a plain field, with the object that its key refers to, or stands
for the same oneof as its slot. -/
theorem Member.ofSlot_cases {slot : Source.Slot} {member : Member}
    (h : Member.ofSlot settings catalog message slot = .ok member) :
    (∃ field typed companion, slot = .field field ∧ member = .plain typed companion ∧
      TypedField.ofField settings catalog message field = .ok typed ∧
      Companion.ofField? catalog message field = .ok companion) ∨
    ∃ place comments, slot = .oneof place comments ∧ member = .oneof place comments := by
  cases slot with
  | field field =>
    obtain ⟨typed, htyped, h⟩ := bind_eq_ok.mp h
    obtain ⟨companion, hcompanion, h⟩ := bind_eq_ok.mp h
    cases h
    exact .inl ⟨field, typed, companion, rfl, rfl, htyped, hcompanion⟩
  | oneof place comments =>
    cases h
    exact .inr ⟨place, comments, rfl, rfl⟩

namespace Formation

variable {source : Descriptor.Message}

variable {parts : List (Part Choice)}

/-- Slots and parts of oneofs stand for the same positions. -/
theorem places (h : Formation settings catalog message body)
    (hparts : List.Forall₂ (Stands body.choices) body.members parts) :
    List.Forall₂ (fun place choice => choice ∈ body.choices ∧
      choice.oneof.position = place.position)
      (message.slots.filterMap Source.Slot.place?) (parts.filterMap Part.oneof?) := by
  refine List.rel_filterMap ?_ (related_trans h.members hparts)
  rintro slot part ⟨member, hof, hstands⟩
  obtain ⟨_, _, _, rfl, rfl, -⟩ | ⟨_, _, rfl, rfl⟩ := Member.ofSlot_cases hof
  · cases hstands
    exact .none
  · cases hstands with
    | oneof hc hname hposition => exact .some ⟨hc, hposition⟩

/-- The parts of plain fields come from the plain fields in their order. -/
theorem plainFields (h : Formation settings catalog message body)
    (hparts : List.Forall₂ (Stands body.choices) body.members parts) :
    List.Forall₂ (fun field typed => TypedField.ofField settings catalog message field = .ok typed)
      (message.slots.filterMap Source.Slot.field?) (parts.filterMap Part.typed?) := by
  refine List.rel_filterMap ?_ (related_trans h.members hparts)
  rintro slot part ⟨member, hof, hstands⟩
  obtain ⟨_, _, _, rfl, rfl, htyped, -⟩ | ⟨_, _, rfl, rfl⟩ := Member.ofSlot_cases hof
  · cases hstands
    exact .some htyped
  · cases hstands
    exact .none

private theorem nodup_positions (h : Formation settings catalog message body) :
    (body.choices.map (·.oneof.position)).Nodup := by
  have heq : body.choices.map (·.oneof.position) = message.choices.map (·.position) := by
    refine map_related h.choices _ _ fun oneof choice hof => ?_
    rw [(comments_of_ofOneof hof).1]
  rw [heq]
  exact message.nodup_positions

/-- The oneofs with members are declared in their order, each with its members. -/
theorem declared {mapping : Mapping}
    (h : Formation mapping.settings mapping.catalog message body) (hreads : message.Reads source)
    (hasInput : Bool) :
    List.Forall₂ (fun oneof types => types.name = oneof.1 ∧
      types.Hold mapping message (source.oneofMembers oneof.2)) source.filledOneofs
      (body.choices.map (body.oneofTypes mapping.naming hasInput)) := by
  rw [← hreads.choices, List.forall₂_map_left_iff, List.forall₂_map_right_iff]
  have hchoices := (List.forall₂_and_left _ _).mpr ⟨fun oneof ho => ho, h.choices⟩
  refine hchoices.imp fun oneof choice hrel => ⟨?_, ?_⟩
  · exact congrArg Source.Oneof.name (comments_of_ofOneof hrel.2).1
  · exact hold_oneofTypes hreads h.message_eq hrel.1 hrel.2 hasInput

/-- The plain parts are the plain fields in their order. -/
theorem typed {mapping : Mapping} (h : Formation mapping.settings mapping.catalog message body)
    (hreads : message.Reads source)
    (hparts : List.Forall₂ (Stands body.choices) body.members parts) :
    List.Forall₂ (TypedAs mapping message) source.plainFields (parts.filterMap Part.typed?) := by
  have hplain := h.plainFields hparts
  rw [message.plain_slots] at hplain
  refine (related_trans hreads.plainFields hplain).imp ?_
  rintro described typed ⟨field, ⟨hmirrors, -⟩, hof⟩
  exact typedAs_of_mirrors hmirrors hof

end Formation

private theorem memberFields_ne_nil (naming : Naming) (mode : Mode) (body : Body)
    (member : Member) :
    body.memberFields naming mode member ≠ [] := by
  cases member <;> simp [Body.memberFields]

theorem fields_eq_orPlaceholder (naming : Naming) (mode : Mode) (body : Body) :
    body.fields naming mode =
      orPlaceholder (body.members.flatMap (body.memberFields naming mode)) := by
  unfold Body.fields orPlaceholder
  cases body.members with
  | nil => rfl
  | cons member members => simp [memberFields_ne_nil]

theorem flatMap_related {α β γ : Type} {R : α → β → Prop} {f : α → List γ} {g : β → List γ}
    {items : List α} {others : List β} (h : List.Forall₂ R items others)
    (hfg : ∀ item other, R item other → f item = g other) : items.flatMap f = others.flatMap g := by
  induction h with
  | nil => rfl
  | cons hrel _ ih => rw [List.flatMap_cons, List.flatMap_cons, hfg _ _ hrel, ih]

variable {parts : List (Part Choice)}

end Parts

section Mapped

variable {settings : Settings} {files : List Source.File} {mapping : Mapping}

/-- Every message that a look-up finds has an object, also if names are repeated. -/
theorem Built.exists_body (h : Built settings (Catalog.ofFiles files) mapping) {name : String}
    {message : Source.Message} (hm : mapping.catalog.messages.get? name = some message) :
    ∃ body, mapping.objects.get? name = some body ∧
      Body.ofMessage mapping.settings mapping.catalog message = .ok body := by
  have hkey : name ∈ (Catalog.ofFiles files).messages.keys := by
    rw [← h.catalog_eq]
    exact Table.mem_keys_iff.mpr ⟨message, hm⟩
  have horder : name ∈ mapping.order := h.mem_order.mpr (Catalog.mem_keys_messages.mp hkey)
  obtain ⟨body, hbody⟩ := Table.mem_keys_iff.mp (h.objects.mem_keys horder hkey)
  refine ⟨body, hbody, ?_⟩
  rcases h.objects.visited name body hbody with hnone | ⟨-, hvisit, -⟩
  · simp at hnone
  · obtain ⟨found, hfound, hof⟩ := bind_eq_ok.mp hvisit
    rw [← h.catalog_eq, Catalog.message, hm] at hfound
    cases hfound
    rw [h.settings_eq, h.catalog_eq]
    exact hof

end Mapped

section Parcel

/-- A message whose oneofs alternate, next to an optional field with a oneof of its own. -/
def parcelMessage : Descriptor.Message :=
  { name := "Parcel"
    fields := [
      { name := "street", kind := .string, oneofIndex := some 1 },
      { name := "grams", kind := .int32, oneofIndex := some 0 },
      { name := "note", kind := .string, oneofIndex := some 2, proto3Optional := true },
      { name := "locker", kind := .int32, oneofIndex := some 1 },
      { name := "crates", kind := .int32, oneofIndex := some 0 }]
    oneofs := ["size", "target", "_note"] }

end Parcel

end ProtoSdl.Mapping

import ProtoSdl.Proofs.DeclaredOneofs
import ProtoSdl.Proofs.FileOrder

/-! The object and the input of a message side by side. Both are made from the slots of the message.
The object has a field for each slot, and behind the field of a slot with a key one more; without
those its fields make pairs with the fields of the input, and the types of a pair are one scalar or
enum, or the two types of one message or of one oneof. -/
namespace ProtoSdl.Mapping

open Outcome

/-- What a slot gives to the object of its message: a field, and one for a key. -/
structure Row where
  slot : Source.Slot
  shown : Schema.Field
  companion : Option Schema.Field

def Row.fields (row : Row) : List Schema.Field :=
  row.shown :: row.companion.toList

/-- The fields of a row are those of its slot, in a message that is declared as `own`. A key is
shown as the object it refers to. -/
inductive Row.Shows (mapping : Mapping) (message : Source.Message) (own : MessageTypes) :
    Row → Prop
  | plain {field : Source.Field} {typed : TypedField}
      (htyped : TypedField.ofField mapping.settings mapping.catalog message field = .ok typed)
      (hshown : Represents mapping .object field.name field.kind field.typeName
        (typed.declare mapping.naming .object message))
      (hkey : field.foreignKey = none) :
      Shows mapping message own ⟨.field field, typed.declare mapping.naming .object message, none⟩
  | key {field : Source.Field} {typed : TypedField} {key : Options.ForeignKey}
      {target : MessageTypes}
      (htyped : TypedField.ofField mapping.settings mapping.catalog message field = .ok typed)
      (hshown : Represents mapping .object field.name field.kind field.typeName
        (typed.declare mapping.naming .object message))
      (hkey : field.foreignKey = some key)
      (htarget : mapping.messageTypes? key.target = some target) :
      Shows mapping message own ⟨.field field, typed.declare mapping.naming .object message, some
        { name := mapping.settings.fieldName key.fieldName
          typeName := target.object.name
          modifiers := if field.label = .repeated then
            { nonNull := true, list := true, nonNullList := true } else .nullable }⟩
  | oneof {place : Source.Membership} {comments : String} {types : OneofTypes}
      (htypes : types ∈ own.oneofs) (hname : types.name = place.oneof) :
      Shows mapping message own ⟨.oneof place comments,
        { name := mapping.settings.fieldName place.oneof
          typeName := types.union.name
          modifiers := .nullable
          description := comments }, none⟩

def MessageTypes.composites (types : MessageTypes) : List Schema.Composite :=
  types.object :: types.input.toList ++
    types.oneofs.flatMap fun oneof => oneof.objects ++ oneof.input.toList

theorem MessageTypes.mem_composites {types : MessageTypes} {composite : Schema.Composite} :
    composite ∈ types.composites ↔ composite = types.object ∨ types.input = some composite ∨
      ∃ oneof ∈ types.oneofs, composite ∈ oneof.objects ∨ oneof.input = some composite := by
  simp [composites]

def MessageTypes.inputs (types : MessageTypes) : List Schema.Composite :=
  types.input.toList ++ types.oneofs.filterMap (·.input)

section Members

variable (naming : Naming) (mode : Mode) (body : Body)

/-- The field that a member of a body gives to a type on its own account. -/
def Body.memberField : Member → Schema.Field
  | .plain typed _ => typed.declare naming mode body.message
  | .oneof place comments =>
    { name := naming.settings.fieldName place.oneof
      typeName := body.nameOf naming (body.oneofPath mode place.oneof)
      description := comments }

/-- The field that a member of a body gives to an object for its key. -/
def Member.keyField? : Member → Option Schema.Field
  | .plain typed companion => companion.map (·.declare naming typed.field)
  | .oneof _ _ => none

private theorem memberFields_object (member : Member) : body.memberFields naming .object member =
    body.memberField naming .object member :: (member.keyField? naming).toList := by
  cases member <;> rfl

theorem flatMap_memberFields_input : body.members.flatMap (body.memberFields naming .input) =
    body.members.map (body.memberField naming .input) := by
  rw [List.map_eq_flatMap]
  congr 1
  funext member
  cases member <;> rfl

variable {body}

end Members

/-- No wrapper has a scalar of its own. -/
theorem wrapped?_of_customScalar? {settings : Settings} {typeName scalar : String}
    (h : customScalar? settings typeName = some scalar) : wrapped? settings typeName = none := by
  have hname : typeName = ".google.protobuf.Timestamp" ∨ typeName = ".google.protobuf.Duration" ∨
      typeName = ".google.protobuf.Struct" := by
    by_contra hother
    simp only [not_or] at hother
    simp [customScalar?, hother] at h
  rcases hname with rfl | rfl | rfl <;> simp [wrapped?, wrappers]

/-- The marks on a field. Only the wrappers that are unwrapped lose one, and no scalar that stands
for a type changes any. -/
theorem declare_modifiers (naming : Naming) (mode : Mode) (parent : Source.Message)
    (typed : TypedField) : (typed.declare naming mode parent).modifiers =
      if (wrapped? naming.settings typed.field.typeName).isSome then
        { typed.modifiers mode parent with nonNull := false }
      else typed.modifiers mode parent := by
  unfold TypedField.declare
  cases hcustom : customScalar? naming.settings typed.field.typeName with
  | some scalar => simp [hcustom, wrapped?_of_customScalar? hcustom]
  | none =>
    cases hwrapped : wrapped? naming.settings typed.field.typeName with
    | some scalar => simp [hcustom, hwrapped]
    | none => simp [hcustom, hwrapped]

theorem declare_list (naming : Naming) (mode : Mode) (parent : Source.Message)
    (typed : TypedField) :
    (typed.declare naming mode parent).modifiers.list = typed.field.isRepeated := by
  have hmarks : (typed.modifiers mode parent).list = typed.field.isRepeated := by
    unfold TypedField.modifiers
    cases typed.field.isRepeated <;> rfl
  rw [declare_modifiers]
  split <;> exact hmarks

theorem Companion.ofField?_cases {catalog : Catalog} {parent : Source.Message}
    {field : Source.Field} {companion : Option Companion}
    (h : Companion.ofField? catalog parent field = .ok companion) :
    (field.foreignKey = none ∧ companion = none) ∨
      ∃ key target, field.foreignKey = some key ∧
        catalog.messages.get? key.target = some target ∧ companion = some ⟨key, target⟩ := by
  unfold Companion.ofField? at h
  split at h
  · rename_i hkey
    cases h
    exact .inl ⟨hkey, rfl⟩
  · rename_i key hkey
    obtain ⟨target, htarget, h⟩ := bind_eq_ok.mp h
    cases h
    exact .inr ⟨key, target, hkey, Catalog.get?_of_message htarget, rfl⟩

namespace Built

variable {settings : Settings} {files : List Source.File} {mapping : Mapping}
  {name : String} {message : Source.Message} {body : Body}

/-- What a message that a look-up finds is declared as. -/
theorem exists_types (h : Built settings (Catalog.ofFiles files) mapping)
    (hm : mapping.catalog.messages.get? name = some message) :
    ∃ body, mapping.objects.get? name = some body ∧
      Body.ofMessage mapping.settings mapping.catalog message = .ok body ∧
      mapping.messageTypes? name =
        some (body.types mapping.naming (mapping.inputs.contains name)) := by
  obtain ⟨body, hbody, hof⟩ := h.exists_body hm
  exact ⟨body, hbody, hof, by rw [messageTypes?, hbody, Option.map_some]⟩

/-- What is declared is a message that a look-up finds. -/
theorem exists_message (h : Built settings (Catalog.ofFiles files) mapping) {types : MessageTypes}
    (ht : mapping.messageTypes? name = some types) :
    ∃ message, mapping.catalog.messages.get? name = some message := by
  obtain ⟨body, hbody, -⟩ := Option.map_eq_some_iff.mp ht
  rcases h.objects.visited name body hbody with hnone | ⟨hkey, -, -⟩
  · simp at hnone
  · rw [h.catalog_eq]
    exact Table.mem_keys_iff.mp hkey

/-- The object of a message has the name that fields refer to, and so has its input. -/
theorem types_names (h : Built settings (Catalog.ofFiles files) mapping)
    (hm : mapping.catalog.messages.get? name = some message) :
    ∃ types, mapping.messageTypes? name = some types ∧
      types.object.name = mapping.naming.object message ∧
      (mapping.inputs.contains name = true →
        ∃ input, types.input = some input ∧ input.name = mapping.naming.input message) := by
  obtain ⟨body, -, hof, htypes⟩ := h.exists_types hm
  obtain rfl := (formation_of_ofMessage hof).message_eq
  exact ⟨_, htypes, rfl, fun hin => ⟨body.input mapping.naming, by simp [Body.types, hin], rfl⟩⟩

/-- A slot of a oneof stands for a oneof that is declared. -/
theorem exists_choice (h : Built settings (Catalog.ofFiles files) mapping)
    (hp : message.Placed)
    (hof : Body.ofMessage mapping.settings mapping.catalog message = .ok body)
    {place : Source.Membership} {comments : String} (hm : .oneof place comments ∈ body.members) :
    ∃ choice ∈ body.choices, choice.oneof.name = place.oneof := by
  rw [h.catalog_eq] at hof
  exact (Body.ofMessage_ok hp hof).1.placed place comments hm

end Built

def Body.row (naming : Naming) (body : Body) (pair : Source.Slot × Member) : Row :=
  ⟨pair.1, body.memberField naming .object pair.2, pair.2.keyField? naming⟩

def Body.rows (naming : Naming) (message : Source.Message) (body : Body) : List Row :=
  (message.slots.zip body.members).map (body.row naming)

section Rows

variable {settings : Settings} {files : List Source.File} {mapping : Mapping} {name : String}
  {message : Source.Message} {body : Body}

theorem slots_rows {catalog : Catalog} (h : Formation settings catalog message body)
    (naming : Naming) : (body.rows naming message).map (·.slot) = message.slots := by
  rw [Body.rows, List.map_map]
  exact List.map_fst_zip (Nat.le_of_eq h.members.length_eq)

theorem members_zip {catalog : Catalog} (h : Formation settings catalog message body) :
    (message.slots.zip body.members).map Prod.snd = body.members :=
  List.map_snd_zip (Nat.le_of_eq h.members.length_eq.symm)

theorem fields_rows {catalog : Catalog} (h : Formation settings catalog message body)
    (naming : Naming) : (body.rows naming message).flatMap Row.fields =
      body.members.flatMap (body.memberFields naming .object) := by
  rw [Body.rows, List.flatMap_map]
  conv_rhs => rw [← members_zip h, List.flatMap_map]
  congr 1
  funext pair
  exact (memberFields_object naming body pair.2).symm

theorem ofSlot_of_mem_zip {catalog : Catalog} (h : Formation settings catalog message body)
    {pair : Source.Slot × Member} (hpair : pair ∈ message.slots.zip body.members) :
    Member.ofSlot settings catalog message pair.1 = .ok pair.2 :=
  (List.forall₂_iff_zip.mp h.members).2 hpair

namespace Built

theorem shows_row (h : Built settings (Catalog.ofFiles files) mapping) (hp : message.Placed)
    (hof : Body.ofMessage mapping.settings mapping.catalog message = .ok body) (hasInput : Bool)
    {pair : Source.Slot × Member} (hpair : pair ∈ message.slots.zip body.members) :
    (body.row mapping.naming pair).Shows mapping message (body.types mapping.naming hasInput) := by
  have hformed := formation_of_ofMessage hof
  have hmember : pair.2 ∈ body.members := (List.of_mem_zip hpair).2
  obtain ⟨slot, member⟩ := pair
  obtain ⟨field, typed, companion, rfl, rfl, htyped, hcompanion⟩ | ⟨place, comments, rfl, rfl⟩ :=
    Member.ofSlot_cases (ofSlot_of_mem_zip hformed hpair)
  · obtain ⟨rfl, -⟩ := TypedField.ofField_field htyped
    obtain ⟨hkey, rfl⟩ | ⟨key, target, hkey, htarget, rfl⟩ := Companion.ofField?_cases hcompanion
    · rw [← hformed.message_eq] at htyped ⊢
      exact .plain htyped (represents_declare htyped .object) hkey
    · obtain ⟨types, htypes, hobject, -⟩ := h.types_names htarget
      simp only [Body.row, Body.memberField, Member.keyField?, Companion.declare, Option.map_some,
        Source.Field.isRepeated, decide_eq_true_eq, hformed.message_eq, ← hobject]
      exact .key htyped (represents_declare htyped .object) hkey htypes
  · obtain ⟨choice, hc, hname⟩ := h.exists_choice hp hof hmember
    have hunion : body.nameOf mapping.naming (body.oneofPath .object place.oneof) =
        (body.oneofTypes mapping.naming hasInput choice).union.name := by
      rw [← hname]
      rfl
    simp only [Body.row, Body.memberField, Member.keyField?, hunion]
    exact .oneof (List.mem_map_of_mem hc) hname

end Built

end Rows

section Shop

def shopWithInputs : Settings := { Source.shopSettings with inputMode := .all }

theorem shopWithInputs_mapped :
    ∃ mapping, ofDescriptors shopWithInputs Source.shopIndex Source.shop = .ok mapping := by
  have hresolved : ¬ Unresolvable shopWithInputs Source.shopSources := by
    rw [unresolvable_iff Source.shop_distinct]
    decide
  exact exists_mapping Source.shop_wrapped Source.shop_distinct Source.shop_countsForward
    Source.shopIndex_wellTyped hresolved

theorem shopWithInputs_types {mapping : Mapping}
    (h : ofDescriptors shopWithInputs Source.shopIndex Source.shop = .ok mapping) {name : String}
    (hknown : KnownMessage Source.shopSources name) : ∃ message types input,
      mapping.catalog.messages.get? name = some message ∧
      mapping.messageTypes? name = some types ∧ types.input = some input := by
  have hb := ofDescriptors_built Source.shop_wrapped h
  obtain ⟨message, hm, rfl⟩ := hknown
  have hget : mapping.catalog.messages.get? message.fullName = some message := by
    rw [hb.catalog_eq]
    exact (Catalog.get?_messages Source.shop_distinct).mpr ⟨hm, rfl⟩
  have hin : mapping.inputs.contains message.fullName = true := by
    rw [contains_inputs]
    exact hb.inputs_of_all rfl hm
  obtain ⟨types, htypes, -, hinput⟩ := hb.types_names hget
  obtain ⟨input, hinput, -⟩ := hinput hin
  exact ⟨message, types, input, hget, htypes, hinput⟩

def hasKey : Source.Slot → Bool
  | .field field => field.foreignKey.isSome
  | .oneof _ _ => false

theorem Row.Shows.companion_isSome {mapping : Mapping} {message : Source.Message}
    {own : MessageTypes} {row : Row} (h : row.Shows mapping message own) :
    row.companion.isSome = hasKey row.slot := by
  cases h with
  | plain _ _ hkey => simp [hasKey, hkey]
  | key _ _ hkey => simp [hasKey, hkey]
  | oneof => rfl

end Shop

end ProtoSdl.Mapping

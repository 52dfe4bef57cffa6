import Mathlib.Data.List.Perm.Basic
import ProtoSdl.Proofs.MessageShapes

/-! The names of fields within a declaration. What a message is declared as takes its field names
from the fields of the message, its oneofs and its keys, and adds one of its own: the field of a
wrapper that tells which member is set. Where the names in the message differ, names in a
declaration are equal in two cases only: a member is shown under the name of that field, or a oneof
is addressed by two indexes, one of them from the end, and has a slot for each. -/
namespace ProtoSdl

def Schema.Composite.NamesApart (composite : Schema.Composite) : Prop :=
  (composite.fields.map (·.name)).Nodup

instance (composite : Schema.Composite) : Decidable composite.NamesApart :=
  inferInstanceAs (Decidable (List.Nodup _))

namespace Source

/-- A message whose members count forward was described with members that count forward. -/
theorem Message.ReadFrom.reads {index : Options.Index} {described : List Descriptor.File}
    {source : Descriptor.Message} {message : Message}
    (h : message.ReadFrom index described source) (hf : message.CountsForward) :
    message.Reads source := by
  obtain ⟨honeofs, hfields⟩ := h.fields
  refine ⟨honeofs, hfields, fun origin ho hmember written hwritten => ?_⟩
  obtain ⟨field, hfield, -, hof⟩ := Outcome.exists_related hfields ho
  obtain ⟨place, hplace⟩ := membership?_of_isMember hof hmember
  obtain ⟨-, hindex, -⟩ := membership?_eq_some (hplace ▸ hof)
  cases hwritten.symm.trans hindex
  exact hf field hfield place hplace

/-- The slots of oneofs are those of the oneofs with members, by their names. -/
theorem Message.Reads.perm_oneofs {source : Descriptor.Message} {message : Message}
    (h : message.Reads source) :
    ((message.slots.filterMap Slot.place?).map (·.oneof)).Perm
      (message.choices.map (·.name)) := by
  have hpositions : ((message.slots.filterMap Slot.place?).map (·.position)).Perm
      (message.choices.map (·.position)) := by
    refine (List.perm_ext_iff_of_nodup h.nodup_slots message.nodup_positions).mpr fun position => ?_
    simp only [List.mem_map]
    constructor
    · rintro ⟨place, hplace, rfl⟩
      obtain ⟨field, hf, hmember⟩ := Message.member_of_place hplace
      obtain ⟨oneof, ho, -, hposition, -⟩ := Message.exists_choice h.placed hf hmember
      exact ⟨oneof, ho, hposition⟩
    · rintro ⟨oneof, ho, rfl⟩
      exact h.exists_slot ho
  have hnames := hpositions.map fun position => (message.oneofNames[position]?).getD ""
  rw [List.map_map, List.map_map] at hnames
  refine .trans (.of_eq ?_) (hnames.trans (.of_eq ?_))
  · refine List.map_congr_left fun place hplace => ?_
    obtain ⟨field, hf, hmember⟩ := Message.member_of_place hplace
    simp [(h.place hf hmember).2]
  · refine List.map_congr_left fun oneof ho => ?_
    simp [(Message.mem_oneofs.mp (List.mem_filter.mp ho).1).1]

end Source

namespace Mapping

open Outcome

/-- The names in a message as they are shown: those of its fields, of the oneofs with members, and
of the objects that the keys of plain fields refer to. -/
def shownNames (settings : Settings) (message : Source.Message) : List String :=
  (message.fields.map (·.name) ++ message.choices.map (·.name) ++
    (message.fields.filter (·.membership = none)).filterMap
      fun field => field.foreignKey.map (·.fieldName)).map settings.fieldName

def slotName (settings : Settings) : Source.Slot → String
  | .field field => settings.fieldName field.name
  | .oneof place _ => settings.fieldName place.oneof

/-- The name of the object that the key in a slot refers to. -/
def slotKeyName? (settings : Settings) : Source.Slot → Option String
  | .field field => field.foreignKey.map fun key => settings.fieldName key.fieldName
  | .oneof _ _ => none

/-- The names that a slot gives to the object of its message. -/
def slotNames (settings : Settings) (slot : Source.Slot) : List String :=
  slotName settings slot :: (slotKeyName? settings slot).toList

section Slots

variable {settings : Settings} {message : Source.Message}

private theorem slotName_perm (settings : Settings) (slots : List Source.Slot) :
    (slots.map (slotName settings)).Perm
      (((slots.filterMap Source.Slot.field?).map (·.name) ++
        (slots.filterMap Source.Slot.place?).map (·.oneof)).map settings.fieldName) := by
  induction slots with
  | nil => exact .nil
  | cons slot slots ih =>
    cases slot with
    | field field => exact ih.cons _
    | oneof place comments =>
      refine (ih.cons (settings.fieldName place.oneof)).trans ?_
      rw [List.map_append, List.map_append]
      exact List.perm_middle.symm

private theorem slotKeyName?_eq (settings : Settings) (slots : List Source.Slot) :
    slots.filterMap (slotKeyName? settings) =
      ((slots.filterMap Source.Slot.field?).filterMap
        fun field => field.foreignKey.map (·.fieldName)).map settings.fieldName := by
  rw [List.map_filterMap, List.filterMap_filterMap]
  congr 1
  funext slot
  cases slot with
  | field field => simp [slotKeyName?, Source.Slot.field?, Function.comp_def]
  | oneof place comments => rfl

theorem slotNames_perm (settings : Settings) (slots : List Source.Slot) :
    (slots.flatMap (slotNames settings)).Perm
      (slots.map (slotName settings) ++ slots.filterMap (slotKeyName? settings)) := by
  rw [List.filterMap_eq_flatMap_toList]
  exact (List.map_append_flatMap_perm slots _ _).symm

/-- Where names differ and oneofs are counted forward, slots give different names. -/
theorem nodup_slotNames {source : Descriptor.Message} (h : message.Reads source)
    (hn : (shownNames settings message).Nodup) :
    (message.slots.flatMap (slotNames settings)).Nodup := by
  have hperm : (message.slots.flatMap (slotNames settings)).Perm
      (((message.fields.filter (·.membership = none)).map (·.name) ++
        message.choices.map (·.name) ++ (message.fields.filter (·.membership = none)).filterMap
          fun field => field.foreignKey.map (·.fieldName)).map settings.fieldName) := by
    refine (slotNames_perm settings message.slots).trans ?_
    rw [slotKeyName?_eq, message.plain_slots, List.map_append]
    refine ((slotName_perm settings message.slots).trans ?_).append_right _
    rw [message.plain_slots]
    exact (h.perm_oneofs.append_left _).map _
  refine hperm.nodup_iff.mpr (hn.sublist (List.Sublist.map _ ?_))
  exact (((List.filter_sublist.map _).append_right _).append_right _)

/-- A oneof that was resolved is addressed by its position. -/
theorem slot_of_ofOneof {catalog : Catalog} {oneof : Source.Oneof} {choice : Choice}
    (h : Choice.ofOneof settings catalog message oneof = .ok choice) :
    ∃ place comments, .oneof place comments ∈ message.slots ∧
      place.written = (oneof.position : Int) := by
  unfold Choice.ofOneof at h
  split at h
  · cases h
  · rename_i comments hcomments
    obtain ⟨place, hslot, hwritten⟩ := slot_of_slotComments? hcomments
    exact ⟨place, comments, hslot, hwritten⟩

/-- Slots with different names count their oneofs forward: a oneof that is also counted from the end
has two slots. -/
theorem countsForward_of_nodup {catalog : Catalog} {body : Body}
    (h : Formation settings catalog message body) (hp : message.Placed) (shown : Settings)
    (hn : (message.slots.map (slotName shown)).Nodup) : message.CountsForward := by
  intro field hf place hplace
  by_contra hnegative
  obtain ⟨first, text, hslot, hwritten⟩ : ∃ first text, .oneof first text ∈ message.slots ∧
      first.written = place.written :=
    Source.exists_oneof_mem_slotsFrom hf hplace List.not_mem_nil
  obtain ⟨member, hmember, hfirst⟩ := Source.member_of_oneof_mem_slotsFrom hslot
  obtain ⟨oneof, ho, hname, hposition, -⟩ := Source.Message.exists_choice hp hmember hfirst
  -- The oneof could be resolved, so some member addresses it by its position, from another slot.
  obtain ⟨choice, -, hof⟩ := exists_related h.choices ho
  obtain ⟨other, comments, hother, hforward⟩ := slot_of_ofOneof hof
  obtain ⟨member', hmember', hother'⟩ := Source.member_of_oneof_mem_slotsFrom hother
  obtain ⟨hothername, hotherplace⟩ := hp member' hmember' other hother'
  have hsame : other.position = first.position := by
    have := hotherplace (by omega)
    omega
  have honeof : other.oneof = first.oneof := by
    rw [hsame, (hp member hmember first hfirst).1] at hothername
    exact (Option.some.inj hothername).symm
  have heq := List.inj_on_of_nodup_map hn hslot hother (by rw [slotName, slotName, honeof])
  cases heq
  omega

end Slots

section Bodies

variable {settings : Settings} {catalog : Catalog} {message : Source.Message} {body : Body}

theorem nodup_orPlaceholder (fields : List Schema.Field) :
    ((orPlaceholder fields).map (·.name)).Nodup ↔ (fields.map (·.name)).Nodup := by
  cases fields with
  | nil => simp [orPlaceholder]
  | cons field fields => rfl

theorem map_name_memberFields {slot : Source.Slot} {member : Member}
    (h : Member.ofSlot settings catalog message slot = .ok member) (naming : Naming) (body : Body) :
    (body.memberFields naming .object member).map (·.name) = slotNames naming.settings slot ∧
      (body.memberFields naming .input member).map (·.name) = [slotName naming.settings slot] := by
  obtain ⟨field, typed, companion, rfl, rfl, htyped, hcompanion⟩ | ⟨place, comments, rfl, rfl⟩ :=
    Member.ofSlot_cases h
  · obtain ⟨rfl, -⟩ := TypedField.ofField_field htyped
    refine ⟨?_, rfl⟩
    obtain ⟨hkey, rfl⟩ | ⟨key, target, hkey, -, rfl⟩ := Companion.ofField?_cases hcompanion
    · simp [Body.memberFields, slotNames, slotName, slotKeyName?, hkey, TypedField.declare]
    · simp [Body.memberFields, slotNames, slotName, slotKeyName?, hkey, TypedField.declare,
        Companion.declare]
  · exact ⟨rfl, rfl⟩

private theorem namesApart_object (h : Formation settings catalog message body) (naming : Naming) :
    (body.object naming).NamesApart ↔
      (message.slots.flatMap (slotNames naming.settings)).Nodup := by
  have hnames := flatMap_related h.members fun _ _ hof =>
    (map_name_memberFields hof naming body).1.symm
  rw [hnames, ← List.map_flatMap, ← nodup_orPlaceholder, ← fields_eq_orPlaceholder]
  rfl

private theorem namesApart_input (h : Formation settings catalog message body) (naming : Naming) :
    (body.input naming).NamesApart ↔ (message.slots.map (slotName naming.settings)).Nodup := by
  have hnames := flatMap_related h.members fun _ _ hof =>
    (map_name_memberFields hof naming body).2.symm
  rw [List.map_eq_flatMap, hnames, ← List.map_flatMap, ← nodup_orPlaceholder,
    ← fields_eq_orPlaceholder]
  rfl

private theorem namesApart_wrapper (naming : Naming) (body : Body) (choice : Choice)
    (member : TypedField) :
    (body.wrapper naming choice member).NamesApart ↔
      naming.settings.fieldName member.field.name ≠ "case" := by
  have hnames : (body.wrapper naming choice member).fields.map (·.name) =
      ["case", naming.settings.fieldName member.field.name] := rfl
  rw [Schema.Composite.NamesApart, hnames, ne_comm]
  simp

private theorem namesApart_choiceInput {oneof : Source.Oneof} {choice : Choice} (naming : Naming)
    (body : Body) (ho : oneof ∈ message.oneofs)
    (h : Choice.ofOneof settings catalog message oneof = .ok choice)
    (hn : (shownNames naming.settings message).Nodup) :
    (body.choiceInput naming choice).NamesApart := by
  have hnames : (body.choiceInput naming choice).fields.map (·.name) =
      (oneof.members.map (·.name)).map naming.settings.fieldName := by
    rw [Body.choiceInput, List.map_map, List.map_map]
    refine map_related (Choice.members_of_ofOneof h) _ _ fun field typed hof => ?_
    rw [← (TypedField.ofField_field hof).1]
    rfl
  rw [Schema.Composite.NamesApart, hnames, (Source.Message.mem_oneofs.mp ho).2]
  refine hn.sublist (List.Sublist.map _ ?_)
  rw [List.append_assoc]
  exact (List.filter_sublist.map _).trans (List.sublist_append_left _ _)

/-- The names in the object and in the input differ if oneofs are counted forward. -/
theorem nodup_names_iff {source : Descriptor.Message} {index : Options.Index}
    {described : List Descriptor.File} (h : Formation settings catalog message body)
    (hread : message.ReadFrom index described source) (hp : message.Placed) {shown : Settings}
    (hn : (shownNames shown message).Nodup) :
    ((message.slots.flatMap (slotNames shown)).Nodup ↔ message.CountsForward) ∧
      ((message.slots.map (slotName shown)).Nodup ↔ message.CountsForward) := by
  have hobject := fun hf => nodup_slotNames (hread.reads hf) hn
  have hinput : (message.slots.flatMap (slotNames shown)).Nodup →
      (message.slots.map (slotName shown)).Nodup := fun hnodup =>
    ((slotNames_perm shown message.slots).nodup_iff.mp hnodup).of_append_left
  have hforward := countsForward_of_nodup h hp shown
  exact ⟨⟨fun hnodup => hforward (hinput hnodup), hobject⟩,
    ⟨hforward, fun hf => hinput (hobject hf)⟩⟩

end Bodies

structure OneofTypes.Named (settings : Settings) (oneof : Source.Oneof) (declared : OneofTypes) :
    Prop where
  objects : List.Forall₂ (fun member (object : Schema.Composite) =>
    object.NamesApart ↔ settings.fieldName member.name ≠ "case") oneof.members declared.objects
  input : ∀ input, declared.input = some input → input.NamesApart

structure MessageTypes.Named (settings : Settings) (message : Source.Message)
    (types : MessageTypes) : Prop where
  object : types.object.NamesApart ↔ message.CountsForward
  input : ∀ input, types.input = some input → (input.NamesApart ↔ message.CountsForward)
  oneofs : List.Forall₂ (OneofTypes.Named settings) message.choices types.oneofs

theorem MessageTypes.Named.composites_iff {settings : Settings} {message : Source.Message}
    {types : MessageTypes} (h : types.Named settings message) :
    (∀ composite ∈ types.composites, composite.NamesApart) ↔ message.CountsForward ∧
      ∀ oneof ∈ message.choices, ∀ member ∈ oneof.members,
        settings.fieldName member.name ≠ "case" := by
  simp only [MessageTypes.mem_composites]
  constructor
  · intro hall
    refine ⟨h.object.mp (hall _ (.inl rfl)), fun oneof ho member hmember => ?_⟩
    obtain ⟨declared, hd, hnamed⟩ := exists_related h.oneofs ho
    obtain ⟨object, hobject, hiff⟩ := exists_related hnamed.objects hmember
    exact hiff.mp (hall object (.inr (.inr ⟨declared, hd, .inl hobject⟩)))
  · rintro ⟨hforward, hcase⟩ composite (rfl | hinput | ⟨declared, hd, hobject | hinput⟩)
    · exact h.object.mpr hforward
    · exact (h.input composite hinput).mpr hforward
    · obtain ⟨oneof, ho, hnamed⟩ := exists_related h.oneofs.flip hd
      obtain ⟨member, hmember, hiff⟩ := exists_related hnamed.objects.flip hobject
      exact hiff.mpr (hcase oneof ho member hmember)
    · obtain ⟨oneof, -, hnamed⟩ := exists_related h.oneofs.flip hd
      exact hnamed.input composite hinput

private theorem named_oneofTypes {settings : Settings} {catalog : Catalog}
    {message : Source.Message}
    {oneof : Source.Oneof} {choice : Choice} (naming : Naming) (hasInput : Bool) (body : Body)
    (ho : oneof ∈ message.choices) (h : Choice.ofOneof settings catalog message oneof = .ok choice)
    (hn : (shownNames naming.settings message).Nodup) :
    (body.oneofTypes naming hasInput choice).Named naming.settings oneof := by
  constructor
  · refine List.forall₂_map_right_iff.mpr ((Choice.members_of_ofOneof h).imp ?_)
    intro member typed htyped
    rw [namesApart_wrapper, (TypedField.ofField_field htyped).1]
  · intro input hi
    obtain ⟨-, rfl⟩ := Body.input_oneofTypes.mp hi
    exact namesApart_choiceInput naming body (List.mem_filter.mp ho).1 h hn

theorem Built.exists_named {settings : Settings} {index : Options.Index}
    {described : List Descriptor.File} {files : List Source.File} {mapping : Mapping}
    (hb : Built settings (Catalog.ofFiles files) mapping)
    (hw : Source.Wrapped index described files) {name : String} {message : Source.Message}
    (hm : mapping.catalog.messages.get? name = some message)
    (hn : (shownNames mapping.settings message).Nodup) :
    ∃ types, mapping.messageTypes? name = some types ∧ types.Named mapping.settings message := by
  have hin := (Catalog.of_get?_messages (hb.catalog_eq ▸ hm)).1
  obtain ⟨source, hread⟩ := hw.readFrom hin
  obtain ⟨body, -, hof, htypes⟩ := hb.exists_types hm
  have hformed := formation_of_ofMessage hof
  obtain ⟨hobject, hinput⟩ := nodup_names_iff hformed hread (hw.placed message hin) hn
  refine ⟨_, htypes, (namesApart_object hformed mapping.naming).trans hobject, fun input hi => ?_,
    ?_⟩
  · obtain ⟨-, rfl⟩ := Body.input_types.mp hi
    exact (namesApart_input hformed mapping.naming).trans hinput
  · refine List.forall₂_map_right_iff.mpr (((List.forall₂_and_left _ _).mpr
      ⟨fun oneof ho => ho, hformed.choices⟩).imp ?_)
    rintro oneof choice ⟨ho, hchoice⟩
    exact named_oneofTypes mapping.naming _ body ho hchoice hn

/-- Where the names in a message differ, those in its object and in its input differ exactly if
oneofs are counted forward, those in a wrapper exactly if the member is not shown as `case`, and
those in the input of a oneof always. -/
theorem field_names_are_apart (settings : Settings) (index : Options.Index)
    (described : List Descriptor.File) (mapping : Mapping)
    (h : ofDescriptors settings index described = .ok mapping) (name : String)
    (message : Source.Message) (hm : mapping.catalog.messages.get? name = some message)
    (hn : (shownNames mapping.settings message).Nodup) :
    ∃ types, mapping.messageTypes? name = some types ∧ types.Named mapping.settings message ∧
      ((∀ composite ∈ types.composites, composite.NamesApart) ↔ message.CountsForward ∧
        ∀ oneof ∈ message.choices, ∀ member ∈ oneof.members,
          mapping.settings.fieldName member.name ≠ "case") := by
  obtain ⟨files, hw, -⟩ := exists_wrapped h
  obtain ⟨types, htypes, hnamed⟩ := (ofDescriptors_built hw h).exists_named hw hm hn
  exact ⟨types, htypes, hnamed, hnamed.composites_iff⟩

/-- An order of the shop and the types of its payment have no two fields of one name. -/
theorem shop_order_names_are_apart : ∃ mapping message types input,
    ofDescriptors shopWithInputs Source.shopIndex Source.shop = .ok mapping ∧
    mapping.catalog.messages.get? ".shop.Order" = some message ∧
    (shownNames mapping.settings message).Nodup ∧
    mapping.messageTypes? ".shop.Order" = some types ∧ types.input = some input ∧
    types.oneofs.map (·.objects.length) = [2] ∧
    ∀ composite ∈ types.composites, composite.NamesApart := by
  obtain ⟨mapping, hmapping⟩ := shopWithInputs_mapped
  have hb := ofDescriptors_built Source.shop_wrapped hmapping
  obtain ⟨message, types, input, hm, htypes, hinput⟩ :=
    shopWithInputs_types hmapping (show KnownMessage Source.shopSources ".shop.Order" by decide)
  obtain ⟨order, horder, hn, hforward, hcase, hlengths⟩ : ∃ order,
      (Catalog.ofFiles Source.shopSources).messages.get? ".shop.Order" = some order ∧
      (shownNames shopWithInputs order).Nodup ∧ order.CountsForward ∧
      (∀ oneof ∈ order.choices, ∀ member ∈ oneof.members,
        shopWithInputs.fieldName member.name ≠ "case") ∧
      order.choices.map (·.members.length) = [2] :=
    ⟨_, rfl, by decide, by decide, by decide, rfl⟩
  rw [← hb.catalog_eq] at horder
  cases hm.symm.trans horder
  rw [← hb.settings_eq] at hn hcase
  obtain ⟨found, hfound, hnamed, hiff⟩ :=
    field_names_are_apart _ _ _ mapping hmapping ".shop.Order" message hm hn
  cases htypes.symm.trans hfound
  refine ⟨mapping, message, types, input, hmapping, hm, hn, htypes, hinput, ?_,
    hiff.mpr ⟨hforward, hcase⟩⟩
  rw [← hlengths]
  exact map_related hnamed.oneofs _ _ fun _ _ honeof => honeof.objects.length_eq.symm

section Court

/-- A hearing with a member that is called like the field of a wrapper, and a verdict that counts
one oneof from both ends. -/
def court : List Descriptor.File :=
  [{ name := "court.proto"
     messages := [
       { name := "Hearing"
         fields := [
           { name := "case", kind := .string, oneofIndex := some 0 },
           { name := "room", kind := .int32, oneofIndex := some 0 }]
         oneofs := ["subject"] },
       { name := "Verdict"
         fields := [
           { name := "fine", kind := .int32, oneofIndex := some 0 },
           { name := "term", kind := .int32, oneofIndex := some (-1) }]
         oneofs := ["sentence"] }] }]

def courtSources : List Source.File :=
  ((court.zipIdx.mapM fun (file, position) =>
    Source.File.ofDescriptor {} position file).toOption).getD []

theorem court_wrapped : Source.Wrapped {} court courtSources := rfl

private theorem court_distinct : Source.Distinct courtSources := by
  constructor <;> decide

private theorem court_mapped : ∃ mapping, ofDescriptors {} {} court = .ok mapping := by
  rw [ofDescriptors_eq court_wrapped, exists_mapping_iff court_distinct court_wrapped.placed]
  decide

/-- The names in a hearing differ and those in a verdict as well. Yet a wrapper of a hearing has two
fields of one name, and so has the object of a verdict. -/
theorem court_names_meet : ∃ mapping hearing verdict shown stated,
    ofDescriptors {} {} court = .ok mapping ∧
    mapping.catalog.messages.get? ".Hearing" = some hearing ∧
    mapping.catalog.messages.get? ".Verdict" = some verdict ∧
    mapping.messageTypes? ".Hearing" = some shown ∧
    mapping.messageTypes? ".Verdict" = some stated ∧
    (shownNames mapping.settings hearing).Nodup ∧ hearing.CountsForward ∧
    (shownNames mapping.settings verdict).Nodup ∧
    ¬ (∀ composite ∈ shown.composites, composite.NamesApart) ∧ ¬ stated.object.NamesApart := by
  obtain ⟨mapping, hmapping⟩ := court_mapped
  have hb := ofDescriptors_built court_wrapped hmapping
  have hsettings : mapping.settings = {} := hb.settings_eq
  obtain ⟨hearing, hh, hhn, hhf, hcase⟩ : ∃ hearing,
      (Catalog.ofFiles courtSources).messages.get? ".Hearing" = some hearing ∧
      (shownNames {} hearing).Nodup ∧ hearing.CountsForward ∧
      ∃ oneof ∈ hearing.choices, ∃ member ∈ oneof.members,
        Settings.fieldName {} member.name = "case" := ⟨_, rfl, by decide, by decide, by decide⟩
  obtain ⟨verdict, hv, hvn, hvf⟩ : ∃ verdict,
      (Catalog.ofFiles courtSources).messages.get? ".Verdict" = some verdict ∧
      (shownNames {} verdict).Nodup ∧ ¬ verdict.CountsForward := ⟨_, rfl, by decide, by decide⟩
  rw [← hb.catalog_eq] at hh hv
  rw [← hsettings] at hhn hvn hcase
  obtain ⟨shown, hshown, hnamed⟩ := hb.exists_named court_wrapped hh hhn
  obtain ⟨stated, hstated, hnamed'⟩ := hb.exists_named court_wrapped hv hvn
  refine ⟨mapping, hearing, verdict, shown, stated, hmapping, hh, hv, hshown, hstated, hhn, hhf,
    hvn, fun hall => ?_, mt hnamed'.object.mp hvf⟩
  obtain ⟨oneof, ho, member, hmember, heq⟩ := hcase
  exact (hnamed.composites_iff.mp hall).2 oneof ho member hmember heq

end Court

end Mapping

end ProtoSdl

import ProtoSdl.Mapping.FieldType
import ProtoSdl.Proofs.Catalogs

/-! When the body of a message can be formed, and what it holds then. A body fails on a field that
names nothing known; one that is formed refers to declarations of the files alone, and has a choice
for every oneof with members. -/
namespace ProtoSdl.Mapping

open Outcome
open Source (allMessages allEnums)

variable {settings : Settings} {files : List Source.File}

def KnownMessage (files : List Source.File) (name : String) : Prop :=
  ∃ message ∈ allMessages files, message.fullName = name

def KnownEnum (files : List Source.File) (name : String) : Prop :=
  ∃ enum ∈ allEnums files, enum.fullName = name

instance (name : String) : Decidable (KnownMessage files name) :=
  inferInstanceAs (Decidable (∃ message ∈ allMessages files, message.fullName = name))

instance (name : String) : Decidable (KnownEnum files name) :=
  inferInstanceAs (Decidable (∃ enum ∈ allEnums files, enum.fullName = name))

theorem not_known_of_message_error {referrer name : String}
    {fault : Fault} (h : (Catalog.ofFiles files).message referrer name = .error fault) :
    (∃ error, fault = .mapping error) ∧ ¬ KnownMessage files name := by
  obtain ⟨rfl, hnone⟩ := Catalog.message_eq_error.mp h
  exact ⟨⟨_, rfl⟩, fun ⟨message, hm, hname⟩ => hnone message hm hname⟩

theorem not_known_of_enum_error {referrer name : String}
    {fault : Fault} (h : (Catalog.ofFiles files).enum referrer name = .error fault) :
    (∃ error, fault = .mapping error) ∧ ¬ KnownEnum files name := by
  obtain ⟨rfl, hnone⟩ := Catalog.enum_eq_error.mp h
  exact ⟨⟨_, rfl⟩, fun ⟨enum, he, hname⟩ => hnone enum he hname⟩

/-- A field names a declaration of its kind, where its kind needs one. -/
structure Resolves (files : List Source.File) (field : Source.Field) : Prop where
  message : field.kind = .message → KnownMessage files field.typeName
  enum : field.kind = .enum → KnownEnum files field.typeName
  group : field.kind ≠ .group

/-- A key that stands in a slot names a message. -/
def KeyResolves (files : List Source.File) (field : Source.Field) : Prop :=
  field.membership = none → ∀ key, field.foreignKey = some key → KnownMessage files key.target

instance (field : Source.Field) : Decidable (Resolves files field) :=
  decidable_of_iff ((field.kind = .message → KnownMessage files field.typeName) ∧
      (field.kind = .enum → KnownEnum files field.typeName) ∧ field.kind ≠ .group)
    ⟨fun ⟨hm, he, hg⟩ => ⟨hm, he, hg⟩, fun ⟨hm, he, hg⟩ => ⟨hm, he, hg⟩⟩

instance (field : Source.Field) : Decidable (KeyResolves files field) :=
  decidable_of_iff (field.membership = none →
      field.foreignKey.all (fun key => KnownMessage files key.target) = true)
    (by simp [KeyResolves, Option.all_eq_true])

/-- A field of the message is in the way of its body. -/
def Unresolved (files : List Source.File) (message : Source.Message) : Prop :=
  ∃ field ∈ message.fields, ¬ (Resolves files field ∧ KeyResolves files field)

instance (message : Source.Message) : Decidable (Unresolved files message) :=
  inferInstanceAs (Decidable (∃ field ∈ message.fields, _))

private theorem builtIn?_eq_none {long : LongType} {kind : Descriptor.FieldKind}
    (h : builtIn? long kind = none) : kind = .enum ∨ kind = .message ∨ kind = .group := by
  cases kind <;> simp [builtIn?] at h ⊢

theorem builtIn?_eq_some {long : LongType} {kind : Descriptor.FieldKind} {scalar : Schema.BuiltIn}
    (h : builtIn? long kind = some scalar) : kind ≠ .enum ∧ kind ≠ .message ∧ kind ≠ .group := by
  cases kind <;> simp [builtIn?] at h ⊢

/-- What the type of a field refers to is a declaration of the files. -/
structure TypedField.Sound (files : List Source.File) (typed : TypedField) : Prop where
  enum : ∀ enum, typed.referent = .enum enum → enum ∈ allEnums files
  message : ∀ message, typed.referent = .message message → message ∈ allMessages files ∧
    typed.field.kind = .message ∧ message.fullName = typed.field.typeName

theorem TypedField.ofField_ok {parent : Source.Message}
    {field : Source.Field} {typed : TypedField}
    (h : TypedField.ofField settings (Catalog.ofFiles files) parent field = .ok typed) :
    typed.field = field ∧ typed.Sound files ∧ Resolves files field := by
  unfold TypedField.ofField at h
  split at h
  · rename_i scalar hscalar
    cases h
    obtain ⟨henum, hmessage, hgroup⟩ := builtIn?_eq_some hscalar
    exact ⟨rfl, ⟨by simp, by simp⟩, fun hk => absurd hk hmessage, fun hk => absurd hk henum, hgroup⟩
  · split at h
    · rename_i hkind
      obtain ⟨enum, henum, h⟩ := bind_eq_ok.mp h
      cases h
      have hfound := Catalog.of_enum_eq_ok henum
      refine ⟨rfl, ⟨?_, by simp⟩, by simp [hkind], fun _ => ⟨enum, hfound⟩, by simp [hkind]⟩
      rintro other ⟨⟩
      exact hfound.1
    · rename_i hkind
      obtain ⟨message, hmessage, h⟩ := bind_eq_ok.mp h
      cases h
      have hfound := Catalog.of_message_eq_ok hmessage
      refine ⟨rfl, ⟨by simp, ?_⟩, fun _ => ⟨message, hfound⟩, by simp [hkind], by simp [hkind]⟩
      rintro other ⟨⟩
      exact ⟨hfound.1, hkind, hfound.2⟩
    · simp at h

theorem TypedField.ofField_error {parent : Source.Message}
    {field : Source.Field} {fault : Fault}
    (h : TypedField.ofField settings (Catalog.ofFiles files) parent field = .error fault) :
    (∃ error, fault = .mapping error) ∧ ¬ Resolves files field := by
  unfold TypedField.ofField at h
  split at h
  · simp at h
  · rename_i hnone
    split at h
    · rename_i hkind
      rcases bind_eq_error.mp h with h | ⟨_, -, h⟩
      · obtain ⟨hfault, hunknown⟩ := not_known_of_enum_error h
        exact ⟨hfault, fun hres => hunknown (hres.enum hkind)⟩
      · cases h
    · rename_i hkind
      rcases bind_eq_error.mp h with h | ⟨_, -, h⟩
      · obtain ⟨hfault, hunknown⟩ := not_known_of_message_error h
        exact ⟨hfault, fun hres => hunknown (hres.message hkind)⟩
      · cases h
    · rename_i henum hmessage
      cases h
      exact ⟨⟨_, rfl⟩, fun hres => hres.group
        (((builtIn?_eq_none hnone).resolve_left henum).resolve_left hmessage)⟩

theorem Companion.ofField?_ok {parent : Source.Message}
    {field : Source.Field} {companion : Option Companion}
    (h : Companion.ofField? (Catalog.ofFiles files) parent field = .ok companion) :
    (∀ found, companion = some found → found.target ∈ allMessages files) ∧
      ∀ key, field.foreignKey = some key → KnownMessage files key.target := by
  unfold Companion.ofField? at h
  split at h
  · rename_i hnone
    cases h
    exact ⟨by simp, by simp [hnone]⟩
  · rename_i key hkey
    obtain ⟨target, htarget, h⟩ := bind_eq_ok.mp h
    cases h
    have hfound := Catalog.of_message_eq_ok htarget
    refine ⟨?_, ?_⟩
    · rintro found ⟨⟩
      exact hfound.1
    · rintro other hother
      cases hkey.symm.trans hother
      exact ⟨target, hfound⟩

theorem Companion.ofField?_error {parent : Source.Message}
    {field : Source.Field} {fault : Fault}
    (h : Companion.ofField? (Catalog.ofFiles files) parent field = .error fault) :
    (∃ error, fault = .mapping error) ∧
      ∃ key, field.foreignKey = some key ∧ ¬ KnownMessage files key.target := by
  unfold Companion.ofField? at h
  split at h
  · simp at h
  · rename_i key hkey
    rcases bind_eq_error.mp h with h | ⟨_, -, h⟩
    · obtain ⟨hfault, hunknown⟩ := not_known_of_message_error h
      exact ⟨hfault, key, hkey, hunknown⟩
    · cases h

theorem Member.ofSlot_ok {parent : Source.Message}
    {field : Source.Field} {member : Member}
    (h : Member.ofSlot settings (Catalog.ofFiles files) parent (.field field) = .ok member) :
    ∃ typed companion, member = .plain typed companion ∧ typed.field = field ∧
      typed.Sound files ∧ (∀ found, companion = some found → found.target ∈ allMessages files) ∧
      Resolves files field ∧ KeyResolves files field := by
  obtain ⟨typed, htyped, h⟩ := bind_eq_ok.mp h
  obtain ⟨companion, hcompanion, h⟩ := bind_eq_ok.mp h
  cases h
  obtain ⟨hfield, hsound, hres⟩ := TypedField.ofField_ok htyped
  obtain ⟨htarget, hkey⟩ := Companion.ofField?_ok hcompanion
  exact ⟨typed, companion, rfl, hfield, hsound, htarget, hres, fun _ => hkey⟩

theorem declare_typeName (naming : Naming) (mode : Mode) (parent : Source.Message)
    (typed : TypedField) : (typed.declare naming mode parent).typeName =
      match customScalar? naming.settings typed.field.typeName with
      | some scalar => .text scalar
      | none =>
        match wrapped? naming.settings typed.field.typeName with
        | some scalar => .text scalar.name
        | none => typed.referentName naming mode := by
  unfold TypedField.declare
  cases hcustom : customScalar? naming.settings typed.field.typeName with
  | some scalar => simp only [hcustom]
  | none =>
    cases hwrapped : wrapped? naming.settings typed.field.typeName with
    | some scalar => simp only [hcustom, hwrapped]
    | none => simp only [hcustom, hwrapped]

private theorem slotComments?_ne_none {position : Nat} {slots : List Source.Slot}
    {place : Source.Membership} {text : String} (hm : .oneof place text ∈ slots)
    (hw : place.written = position) : slotComments? position slots ≠ none := by
  induction slots with
  | nil => simp at hm
  | cons slot slots ih =>
    cases slot with
    | field field => exact ih (by simpa using hm)
    | oneof first comments =>
      rw [slotComments?]
      split
      · simp
      · rename_i hne
        rcases List.mem_cons.mp hm with he | hm
        · cases he
          exact absurd hw hne
        · exact ih hm

/-- A oneof whose members count forward has a slot. -/
theorem slotComments?_choice {message : Source.Message} (hp : message.Placed)
    (hf : message.CountsForward) {oneof : Source.Oneof} (ho : oneof ∈ message.choices) :
    slotComments? oneof.position message.slots ≠ none := by
  obtain ⟨honeof, hmembers⟩ := List.mem_filter.mp ho
  obtain ⟨field, hfield⟩ := List.exists_mem_of_ne_nil oneof.members
    (by simpa [Source.Oneof.isSynthetic] using hmembers)
  obtain ⟨hin, place, hplace, hposition⟩ := (Source.Message.mem_members_iff honeof).mp hfield
  have hslots : ∃ first text, .oneof first text ∈ message.slots ∧
      first.written = place.written :=
    Source.exists_oneof_mem_slotsFrom hin hplace List.not_mem_nil
  obtain ⟨first, text, hslot, hfirst⟩ := hslots
  have hwritten := (hp field hin place hplace).2 (hf field hin place hplace)
  exact slotComments?_ne_none hslot (by rw [hfirst, hwritten, hposition])

structure Body.Sound (files : List Source.File) (source : Source.Message) (body : Body) : Prop where
  message : body.message = source
  typed : ∀ typed ∈ body.typedFields, typed.field ∈ source.fields ∧ typed.Sound files
  companions : ∀ typed companion, .plain typed (some companion) ∈ body.members →
    companion.target ∈ allMessages files
  placed : ∀ place comments, .oneof place comments ∈ body.members →
    ∃ choice ∈ body.choices, choice.oneof.name = place.oneof
  oneofs : body.choices.map (·.oneof) = source.choices
  members : ∀ choice ∈ body.choices, choice.members.map (·.field) = choice.oneof.members
  covers : ∀ field ∈ source.fields, ∃ typed ∈ body.typedFields, typed.field = field

theorem Body.mem_typedFields {body : Body} {typed : TypedField} : typed ∈ body.typedFields ↔
    (∃ companion, .plain typed companion ∈ body.members) ∨
      ∃ choice ∈ body.choices, typed ∈ choice.members := by
  rw [Body.typedFields, List.mem_append, List.mem_filterMap, List.mem_flatMap]
  refine or_congr_left ⟨?_, fun ⟨companion, hm⟩ => ⟨_, hm, rfl⟩⟩
  rintro ⟨member, hm, h⟩
  cases member with
  | plain other companion =>
    cases h
    exact ⟨companion, hm⟩
  | oneof place comments => cases h

theorem Choice.ofOneof_ok {parent : Source.Message}
    {oneof : Source.Oneof} {choice : Choice}
    (h : Choice.ofOneof settings (Catalog.ofFiles files) parent oneof = .ok choice) :
    choice.oneof = oneof ∧ choice.members.map (·.field) = oneof.members ∧
      (∀ typed ∈ choice.members, typed.Sound files) ∧
      ∀ field ∈ oneof.members, Resolves files field := by
  unfold Choice.ofOneof at h
  split at h
  · simp at h
  · obtain ⟨members, hmembers, h⟩ := bind_eq_ok.mp h
    cases h
    refine ⟨rfl, ?_, fun typed ht => ?_, fun field hf => ?_⟩
    · simpa using map_results hmembers (·.field) id fun _ _ hof => (TypedField.ofField_ok hof).1
    · obtain ⟨field, -, hof⟩ := exists_of_mem_results hmembers ht
      exact (TypedField.ofField_ok hof).2.1
    · obtain ⟨typed, -, hof⟩ := exists_of_mem_mapM hmembers hf
      exact (TypedField.ofField_ok hof).2.2

/-- Every field is in the body, in a slot or as the member of a oneof, and was looked up there. -/
private theorem Body.exists_typed {message : Source.Message} {body : Body} (hp : message.Placed)
    (h : Body.ofMessage settings (Catalog.ofFiles files) message = .ok body) {field : Source.Field}
    (hf : field ∈ message.fields) : (∃ typed ∈ body.typedFields, typed.field = field) ∧
      Resolves files field ∧ KeyResolves files field := by
  obtain ⟨members, hmembers, h⟩ := bind_eq_ok.mp h
  obtain ⟨choices, hchoices, h⟩ := bind_eq_ok.mp h
  cases h
  cases hplace : field.membership with
  | none =>
    obtain ⟨member, hm, hof⟩ := exists_of_mem_mapM hmembers
      (Source.Message.field_mem_slots.mpr ⟨hf, hplace⟩)
    obtain ⟨typed, companion, rfl, hfield, -, -, hres⟩ := Member.ofSlot_ok hof
    exact ⟨⟨typed, Body.mem_typedFields.mpr (.inl ⟨companion, hm⟩), hfield⟩, hres⟩
  | some place =>
    obtain ⟨oneof, ho, -, -, hmember⟩ := Source.Message.exists_choice hp hf hplace
    obtain ⟨choice, hc, hof⟩ := exists_of_mem_mapM hchoices ho
    obtain ⟨-, hfields, -, hres⟩ := Choice.ofOneof_ok hof
    have hresolves := hres field hmember
    rw [← hfields] at hmember
    obtain ⟨typed, ht, hfield⟩ := List.mem_map.mp hmember
    exact ⟨⟨typed, Body.mem_typedFields.mpr (.inr ⟨choice, hc, ht⟩), hfield⟩, hresolves,
      by simp [KeyResolves, hplace]⟩

theorem Body.ofMessage_ok {message : Source.Message} {body : Body}
    (hp : message.Placed)
    (h : Body.ofMessage settings (Catalog.ofFiles files) message = .ok body) :
    body.Sound files message ∧
      ∀ field ∈ message.fields, Resolves files field ∧ KeyResolves files field := by
  have hall := fun field (hf : field ∈ message.fields) => Body.exists_typed hp h hf
  obtain ⟨members, hmembers, h⟩ := bind_eq_ok.mp h
  obtain ⟨choices, hchoices, h⟩ := bind_eq_ok.mp h
  cases h
  have honeofs : choices.map (·.oneof) = message.choices := by
    simpa using map_results hchoices (·.oneof) id fun _ _ hof => (Choice.ofOneof_ok hof).1
  have hplain : ∀ typed companion, .plain typed companion ∈ members →
      typed.field ∈ message.fields ∧ typed.Sound files ∧
        ∀ found, companion = some found → found.target ∈ allMessages files := by
    intro typed companion hm
    obtain ⟨slot, hslot, hof⟩ := exists_of_mem_results hmembers hm
    cases slot with
    | field field =>
      obtain ⟨_, _, heq, rfl, hsound, htarget, -⟩ := Member.ofSlot_ok hof
      cases heq
      exact ⟨(Source.Message.field_mem_slots.mp hslot).1, hsound, htarget⟩
    | oneof place comments => simp [Member.ofSlot] at hof
  have hfields : ∀ choice ∈ choices, choice.members.map (·.field) = choice.oneof.members ∧
      ∀ typed ∈ choice.members, typed.Sound files := by
    intro choice hc
    obtain ⟨oneof, -, hof⟩ := exists_of_mem_results hchoices hc
    obtain ⟨rfl, hfields, hsound, -⟩ := Choice.ofOneof_ok hof
    exact ⟨hfields, hsound⟩
  refine ⟨⟨rfl, ?_, fun typed companion hm => (hplain typed _ hm).2.2 companion rfl, ?_,
    honeofs, fun choice hc => (hfields choice hc).1, fun field hf => (hall field hf).1⟩,
    fun field hf => (hall field hf).2⟩
  · intro typed ht
    rcases Body.mem_typedFields.mp ht with ⟨companion, hm⟩ | ⟨choice, hc, hm⟩
    · exact ⟨(hplain typed companion hm).1, (hplain typed companion hm).2.1⟩
    · have ho : choice.oneof ∈ message.choices := honeofs ▸ List.mem_map_of_mem hc
      have hmember : typed.field ∈ choice.oneof.members :=
        (hfields choice hc).1 ▸ List.mem_map_of_mem hm
      exact ⟨((Source.Message.mem_members_iff (List.mem_of_mem_filter ho)).mp hmember).1,
        (hfields choice hc).2 typed hm⟩
  · intro place comments hm
    obtain ⟨slot, hslot, hof⟩ := exists_of_mem_results hmembers hm
    cases slot with
    | field field =>
      obtain ⟨_, _, heq, -⟩ := Member.ofSlot_ok hof
      simp at heq
    | oneof other text =>
      cases hof
      obtain ⟨field, hf, hplace⟩ := Source.member_of_oneof_mem_slotsFrom hslot
      obtain ⟨oneof, ho, hname, -, -⟩ := Source.Message.exists_choice hp hf hplace
      rw [← honeofs] at ho
      obtain ⟨choice, hc, rfl⟩ := List.mem_map.mp ho
      exact ⟨choice, hc, hname⟩

/-- The body of a message fails on one of its fields, and the fault is explained. -/
theorem Body.ofMessage_error {message : Source.Message}
    {fault : Fault} (hp : message.Placed) (hforward : message.CountsForward)
    (h : Body.ofMessage settings (Catalog.ofFiles files) message = .error fault) :
    (∃ error, fault = .mapping error) ∧ Unresolved files message := by
  rcases bind_eq_error.mp h with h | ⟨members, -, h⟩
  · obtain ⟨slot, hslot, h⟩ := fault_of_mapM h
    cases slot with
    | oneof place comments => simp [Member.ofSlot] at h
    | field field =>
      obtain ⟨hf, hplain⟩ := Source.Message.field_mem_slots.mp hslot
      rcases bind_eq_error.mp h with h | ⟨typed, -, h⟩
      · obtain ⟨hfault, hres⟩ := TypedField.ofField_error h
        exact ⟨hfault, field, hf, fun hall => hres hall.1⟩
      · rcases bind_eq_error.mp h with h | ⟨companion, -, h⟩
        · obtain ⟨hfault, key, hkey, hunknown⟩ := Companion.ofField?_error h
          exact ⟨hfault, field, hf, fun hall => hunknown (hall.2 hplain key hkey)⟩
        · cases h
  · rcases bind_eq_error.mp h with h | ⟨choices, -, h⟩
    · obtain ⟨oneof, ho, h⟩ := fault_of_mapM h
      unfold Choice.ofOneof at h
      split at h
      · rename_i hnone
        exact absurd hnone (slotComments?_choice hp hforward ho)
      · rcases bind_eq_error.mp h with h | ⟨typed, -, h⟩
        · obtain ⟨field, hfield, h⟩ := fault_of_mapM h
          obtain ⟨hfault, hres⟩ := TypedField.ofField_error h
          have hf := (Source.Message.mem_members_iff (List.mem_of_mem_filter ho)).mp hfield
          exact ⟨hfault, field, hf.1, fun hall => hres hall.1⟩
        · cases h
    · cases h

end ProtoSdl.Mapping

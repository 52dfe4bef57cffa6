import ProtoSdl.Proofs.Catalogs
import ProtoSdl.Proofs.ReadFiles

/-! Oneofs as they are described against oneofs as they are read. The described members of a oneof
are the fields that name it by its index, without the optional fields of the third version; where
indexes count forward, the oneof that is read has the same members in the same order, and one slot
of its message stands for it. -/
namespace ProtoSdl

namespace Descriptor.Message

def oneofMembers (message : Message) (position : Nat) : List Field :=
  message.fields.filter fun field => field.isMember && field.oneofIndex = some (position : Int)

def filledOneofs (message : Message) : List (String × Nat) :=
  message.oneofs.zipIdx.filter fun oneof => !(message.oneofMembers oneof.2).isEmpty

def plainFields (message : Message) : List Field :=
  message.fields.filter (!·.isMember)

/-- No member of a oneof counts the oneofs from the end. -/
def CountsForward (message : Message) : Prop :=
  ∀ field ∈ message.fields, field.isMember = true → ∀ index ∈ field.oneofIndex, 0 ≤ index

instance (message : Message) : Decidable message.CountsForward :=
  inferInstanceAs (Decidable (∀ field ∈ message.fields, _ → ∀ index ∈ field.oneofIndex, _))

end Descriptor.Message

namespace Source

open Outcome

/-- A field is the described one, besides its options and comments. -/
structure Field.Mirrors (described : Descriptor.Field) (field : Field) : Prop where
  name : field.name = described.name
  kind : field.kind = described.kind
  typeName : field.typeName = described.typeName
  label : field.label = described.label
  proto3Optional : field.proto3Optional = described.proto3Optional
  isDeprecated : field.isDeprecated = described.isDeprecated

/-- A message is one that the files describe, with its options and comments. -/
def Message.ReadFrom (index : Options.Index) (described : List Descriptor.File)
    (source : Descriptor.Message) (message : Message) : Prop :=
  ∃ file position site bare notes, (file, position) ∈ described.zipIdx ∧
    site ∈ fileMessageSites file ∧ site.message = source ∧
    Message.ofSite index (Home.ofDescriptor index position file) site = .ok bare ∧
    Notes.ofFile file = .ok notes ∧ message = bare.annotate notes

theorem Wrapped.readFrom {index : Options.Index} {described : List Descriptor.File}
    {files : List File} (h : Wrapped index described files) {message : Message}
    (hm : message ∈ allMessages files) : ∃ source, message.ReadFrom index described source := by
  obtain ⟨file, hf, hin⟩ := List.mem_flatMap.mp hm
  obtain ⟨⟨source, position⟩, hsource, hof⟩ := exists_of_mem_results h hf
  obtain ⟨-, messages, notes, -, hmessages, hnotes, heq, -⟩ := File.ofDescriptor_eq_ok hof
  rw [heq] at hin
  obtain ⟨bare, hb, rfl⟩ := List.mem_map.mp hin
  obtain ⟨site, hsite, hbare⟩ := exists_of_mem_results hmessages hb
  exact ⟨site.message, source, position, site, bare, notes, hsource, hsite, rfl, hbare, hnotes, rfl⟩

section Fields

variable {source : Descriptor.Message} {message : Message}

/-- A field against the described one, in a message with the given oneofs. -/
def Field.ReadIn (oneofs : List String) (described : Descriptor.Field) (field : Field) : Prop :=
  Field.Mirrors described field ∧ membership? oneofs described = .ok field.membership

private theorem related_of_zip {α β γ : Type} {R : α → β → Prop} {S : α × β → γ → Prop}
    {items : List α} {others : List β} {results : List γ} (h : List.Forall₂ R items others)
    (hzip : List.Forall₂ S (items.zip others) results) :
    List.Forall₂ (fun item result => ∃ other, R item other ∧ S (item, other) result)
      items results := by
  induction h generalizing results with
  | nil =>
    cases hzip
    exact .nil
  | cons hrel _ ih =>
    cases hzip with
    | cons hs hrest => exact .cons ⟨_, hrel, hs⟩ (ih hrest)

private theorem related_zipIdx {α β : Type} {R : α → β → Prop} {items : List α} {others : List β}
    (h : List.Forall₂ R items others) (start : Nat) :
    List.Forall₂ (fun item other => R item other.1) items (others.zipIdx start) := by
  induction h generalizing start with
  | nil => exact .nil
  | cons hrel _ ih => exact .cons hrel (ih (start + 1))

theorem Message.ofSite_fields {index : Options.Index} {home : Home} {site : MessageSite}
    (h : Message.ofSite index home site = .ok message) :
    message.oneofNames = site.message.oneofs ∧
      List.Forall₂ (Field.ReadIn site.message.oneofs) site.message.fields message.fields := by
  obtain ⟨memberships, hmemberships, h⟩ := bind_eq_ok.mp h
  obtain ⟨fields, hfields, h⟩ := bind_eq_ok.mp h
  cases h
  refine ⟨rfl, ?_⟩
  refine (related_of_zip (mapM_eq_ok.mp hmemberships) (mapM_eq_ok.mp hfields)).imp ?_
  rintro described field ⟨membership, hmembership, hof⟩
  obtain ⟨key, -, hof⟩ := bind_eq_ok.mp hof
  cases hof
  exact ⟨⟨rfl, rfl, rfl, rfl, rfl, rfl⟩, hmembership⟩

theorem Message.annotate_fields {oneofs : List String} {origins : List Descriptor.Field}
    (h : List.Forall₂ (Field.ReadIn oneofs) origins message.fields) (notes : Notes) :
    List.Forall₂ (Field.ReadIn oneofs) origins (message.annotate notes).fields := by
  refine List.forall₂_map_right_iff.mpr ((related_zipIdx h 0).imp ?_)
  rintro origin ⟨field, place⟩ ⟨hm, hplace⟩
  exact ⟨⟨hm.name, hm.kind, hm.typeName, hm.label, hm.proto3Optional, hm.isDeprecated⟩, hplace⟩

theorem Message.ReadFrom.fields {index : Options.Index} {described : List Descriptor.File}
    (h : message.ReadFrom index described source) : message.oneofNames = source.oneofs ∧
      List.Forall₂ (Field.ReadIn source.oneofs) source.fields message.fields := by
  obtain ⟨file, position, site, bare, notes, -, -, rfl, hof, -, rfl⟩ := h
  obtain ⟨honeofs, hfields⟩ := Message.ofSite_fields hof
  exact ⟨honeofs, Message.annotate_fields hfields notes⟩

end Fields

/-- A message that was read from a described one whose members count forward. -/
structure Message.Reads (source : Descriptor.Message) (message : Message) : Prop where
  oneofs : message.oneofNames = source.oneofs
  fields : List.Forall₂ (Field.ReadIn source.oneofs) source.fields message.fields
  forward : source.CountsForward

namespace Message.Reads

variable {source : Descriptor.Message} {message : Message}

/-- The place of a member that counts forward is its written index. -/
theorem place (h : message.Reads source) {field : Field} (hf : field ∈ message.fields)
    {place : Membership} (hp : field.membership = some place) :
    place.written = place.position ∧ message.oneofNames[place.position]? = some place.oneof := by
  obtain ⟨origin, ho, -, hof⟩ := exists_related (List.Forall₂.flip h.fields) hf
  rw [hp] at hof
  obtain ⟨hmember, hindex, hposition⟩ := membership?_eq_some hof
  rw [h.oneofs]
  exact ⟨position?_nonneg hposition (h.forward origin ho hmember _ hindex),
    (membership?_placed hof).1⟩

theorem written_of_slot (h : message.Reads source) {place : Membership}
    (hm : place ∈ message.slots.filterMap Slot.place?) : place.written = place.position := by
  obtain ⟨field, hf, hfield⟩ := Message.member_of_place hm
  exact (h.place hf hfield).1

/-- Each oneof has one slot at most. -/
theorem nodup_slots (h : message.Reads source) :
    ((message.slots.filterMap Slot.place?).map (·.position)).Nodup := by
  have hcast : (message.slots.filterMap Slot.place?).map (·.written) =
      ((message.slots.filterMap Slot.place?).map (·.position)).map Int.ofNat := by
    rw [List.map_map]
    exact List.map_congr_left fun place hm => h.written_of_slot hm
  exact List.Nodup.of_map _ (hcast ▸ message.nodup_written)

/-- A oneof with members has a slot. -/
theorem exists_slot (h : message.Reads source) {oneof : Oneof} (ho : oneof ∈ message.choices) :
    ∃ place ∈ message.slots.filterMap Slot.place?, place.position = oneof.position := by
  obtain ⟨honeof, hfilled⟩ := List.mem_filter.mp ho
  obtain ⟨field, hfield⟩ := List.exists_mem_of_ne_nil oneof.members
    (by simpa [Oneof.isSynthetic] using hfilled)
  obtain ⟨hf, place, hplace, hp⟩ := (Message.mem_members_iff honeof).mp hfield
  obtain ⟨first, text, hslot, hfirst⟩ : ∃ first text, .oneof first text ∈ message.slots ∧
      first.written = place.written := exists_oneof_mem_slotsFrom hf hplace List.not_mem_nil
  have hm : first ∈ message.slots.filterMap Slot.place? :=
    List.mem_filterMap.mpr ⟨_, hslot, rfl⟩
  refine ⟨first, hm, ?_⟩
  have hw := h.written_of_slot hm
  have hw' := (h.place hf hplace).1
  omega

theorem placed (h : message.Reads source) : message.Placed :=
  fun _ hf _ hp => ⟨(h.place hf hp).2, fun _ => (h.place hf hp).1⟩

theorem countsForward (h : message.Reads source) : message.CountsForward := by
  intro field hf place hp
  rw [(h.place hf hp).1]
  exact Int.natCast_nonneg _

/-- A field is plain as it is read if it is described as plain. -/
theorem isMember_iff {oneofs : List String} {origin : Descriptor.Field} {field : Field}
    (h : Field.ReadIn oneofs origin field) :
    origin.isMember = true ↔ field.membership ≠ none := by
  obtain ⟨-, hof⟩ := h
  constructor
  · intro hmember
    obtain ⟨place, hplace⟩ := membership?_of_isMember hof hmember
    simp [hplace]
  · intro hne
    obtain ⟨place, hplace⟩ := Option.ne_none_iff_exists'.mp hne
    exact (membership?_eq_some (hplace ▸ hof)).1

theorem plainFields (h : message.Reads source) : List.Forall₂ (Field.ReadIn source.oneofs)
    source.plainFields (message.fields.filter (·.membership = none)) := by
  refine List.rel_filter ?_ h.fields
  intro origin field hrel
  have hiff := isMember_iff hrel
  by_cases hmember : origin.isMember = true
  · simp [hmember, hiff.mp hmember]
  · simp [hmember, not_not.mp (mt hiff.mpr hmember)]

private theorem index_iff {oneofs : List String} {origin : Descriptor.Field} {field : Field}
    (h : Field.ReadIn oneofs origin field)
    (hforward : origin.isMember = true → ∀ index ∈ origin.oneofIndex, 0 ≤ index) (position : Nat) :
    (origin.isMember && origin.oneofIndex = some (position : Int)) = true ↔
      field.membership.any (·.position = position) = true := by
  rw [Bool.and_eq_true, decide_eq_true_eq, isMember_iff h]
  cases hplace : field.membership with
  | none => simp
  | some place =>
    obtain ⟨hmember, hindex, hposition⟩ := membership?_eq_some (hplace ▸ h.2)
    have hwritten := position?_nonneg hposition (hforward hmember _ hindex)
    simp only [hindex, hwritten, ne_eq, reduceCtorEq, not_false_eq_true, true_and,
      Option.some.injEq, Option.any_some, decide_eq_true_eq]
    omega

/-- The members of a oneof are those described, in the same order. -/
theorem members (h : message.Reads source) (position : Nat) :
    List.Forall₂ (Field.ReadIn source.oneofs) (source.oneofMembers position)
      (message.fields.filter fun field => field.membership.any (·.position = position)) := by
  have hfields := (List.forall₂_and_left _ _).mpr ⟨h.forward, h.fields⟩
  refine (List.rel_filter ?_ hfields).imp fun _ _ hrel => hrel.2
  exact fun origin field hrel => index_iff hrel.2 hrel.1 position

/-- The oneofs that have members are those described as such, in the same order. -/
theorem choices (h : message.Reads source) :
    message.choices.map (fun oneof => (oneof.name, oneof.position)) = source.filledOneofs := by
  have hempty : ∀ position, (message.fields.filter fun field =>
      field.membership.any (·.position = position)).isEmpty =
        (source.oneofMembers position).isEmpty := by
    intro position
    have hlength := (h.members position).length_eq
    rw [Bool.eq_iff_iff, List.isEmpty_iff_length_eq_zero, List.isEmpty_iff_length_eq_zero, hlength]
  rw [Message.choices, Message.oneofs, List.filter_map, List.map_map, Descriptor.Message.filledOneofs,
    h.oneofs]
  simp [Function.comp_def, Oneof.isSynthetic, hempty]

end Message.Reads

end Source

end ProtoSdl

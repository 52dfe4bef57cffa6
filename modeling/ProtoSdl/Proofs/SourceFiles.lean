import ProtoSdl.Proofs.Outcomes
import ProtoSdl.Source.File

/-! What the source declarations of described files have in common: the declarations of a file know
their file, the members of a oneof name a oneof of their message, and every field either is a slot
or has a slot for its oneof. -/
namespace ProtoSdl.Source

open Outcome

def Wrapped (index : Options.Index) (files : List Descriptor.File) (sources : List File) : Prop :=
  files.zipIdx.mapM (fun (file, position) => File.ofDescriptor index position file) = .ok sources

section Slots

variable {comments : Int → String} {seen : List Int} {fields : List Field}

private theorem field_mem_slotsFrom {field : Field} :
    .field field ∈ slotsFrom comments seen fields ↔ field ∈ fields ∧ field.membership = none := by
  fun_induction slotsFrom comments seen fields with
  | case1 => simp
  | case2 seen first fields hplain ih =>
    simp only [List.mem_cons, Slot.field.injEq, ih, or_and_right]
    exact or_congr_left ⟨fun h => ⟨h, h ▸ hplain⟩, fun h => h.1⟩
  | case3 seen first fields place hplace hseen ih =>
    simp only [List.mem_cons, ih, or_and_right]
    refine ⟨Or.inr, fun h => h.resolve_left ?_⟩
    rintro ⟨rfl, hnone⟩
    simp [hnone] at hplace
  | case4 seen first fields place hplace hseen ih =>
    simp only [List.mem_cons, reduceCtorEq, false_or, ih, or_and_right]
    refine ⟨Or.inr, fun h => h.resolve_left ?_⟩
    rintro ⟨rfl, hnone⟩
    simp [hnone] at hplace

theorem member_of_oneof_mem_slotsFrom {place : Membership} {text : String}
    (h : .oneof place text ∈ slotsFrom comments seen fields) :
    ∃ field ∈ fields, field.membership = some place := by
  fun_induction slotsFrom comments seen fields with
  | case1 => simp at h
  | case2 seen first fields hplain ih =>
    obtain ⟨field, hf, hp⟩ := ih (by simpa using h)
    exact ⟨field, List.mem_cons_of_mem _ hf, hp⟩
  | case3 seen first fields other hother hseen ih =>
    obtain ⟨field, hf, hp⟩ := ih h
    exact ⟨field, List.mem_cons_of_mem _ hf, hp⟩
  | case4 seen first fields other hother hseen ih =>
    rcases List.mem_cons.mp h with he | h
    · cases he
      exact ⟨first, List.mem_cons_self, hother⟩
    · obtain ⟨field, hf, hp⟩ := ih h
      exact ⟨field, List.mem_cons_of_mem _ hf, hp⟩

theorem exists_oneof_mem_slotsFrom {field : Field} {place : Membership} (hf : field ∈ fields)
    (hp : field.membership = some place) (hs : place.written ∉ seen) :
    ∃ first text, .oneof first text ∈ slotsFrom comments seen fields ∧
      first.written = place.written := by
  fun_induction slotsFrom comments seen fields with
  | case1 => simp at hf
  | case2 seen first fields hplain ih =>
    have hne : field ≠ first := by
      rintro rfl
      simp [hplain] at hp
    obtain ⟨other, text, hm, hw⟩ := ih (by simpa [hne] using hf) hs
    exact ⟨other, text, List.mem_cons_of_mem _ hm, hw⟩
  | case3 seen first fields other hother hseen ih =>
    have hne : field ≠ first := by
      rintro rfl
      cases hother.symm.trans hp
      exact hs hseen
    exact ih (by simpa [hne] using hf) hs
  | case4 seen first fields other hother hseen ih =>
    by_cases hw : place.written = other.written
    · exact ⟨other, _, List.mem_cons_self, hw.symm⟩
    · have hne : field ≠ first := by
        rintro rfl
        cases hother.symm.trans hp
        exact hw rfl
      obtain ⟨found, text, hm, hfound⟩ := ih (by simpa [hne] using hf) (by simp [hw, hs])
      exact ⟨found, text, List.mem_cons_of_mem _ hm, hfound⟩

theorem oneof_comments_of_mem_slotsFrom {place : Membership} {text : String}
    (h : .oneof place text ∈ slotsFrom comments seen fields) : text = comments place.written := by
  fun_induction slotsFrom comments seen fields with
  | case1 => simp at h
  | case2 seen first fields hplain ih => exact ih (by simpa using h)
  | case3 seen first fields other hother hseen ih => exact ih h
  | case4 seen first fields other hother hseen ih =>
    rcases List.mem_cons.mp h with he | h
    · cases he
      rfl
    · exact ih h

def Slot.place? : Slot → Option Membership
  | .field _ => none
  | .oneof place _ => some place

def Slot.field? : Slot → Option Field
  | .field plain => some plain
  | .oneof _ _ => none

private theorem fields_slotsFrom : (slotsFrom comments seen fields).filterMap Slot.field? =
    fields.filter (·.membership = none) := by
  fun_induction slotsFrom comments seen fields with
  | case1 => rfl
  | case2 seen first fields hplain ih => simp [Slot.field?, hplain, ih]
  | case3 seen first fields place hplace hseen ih => simp [hplace, ih]
  | case4 seen first fields place hplace hseen ih =>
    rw [List.filterMap_cons_none rfl, ih]
    simp [hplace]

/-- No two slots stand for the same written index. -/
theorem nodup_places :
    (((slotsFrom comments seen fields).filterMap Slot.place?).map (·.written)).Nodup ∧
      ∀ place ∈ (slotsFrom comments seen fields).filterMap Slot.place?, place.written ∉ seen := by
  fun_induction slotsFrom comments seen fields with
  | case1 => simp
  | case2 seen first fields hplain ih => exact ih
  | case3 seen first fields place hplace hseen ih => exact ih
  | case4 seen first fields place hplace hseen ih =>
    obtain ⟨hnodup, hnew⟩ := ih
    refine ⟨List.nodup_cons.mpr ⟨?_, hnodup⟩, ?_⟩
    · intro hm
      obtain ⟨other, ho, hwritten⟩ := List.mem_map.mp hm
      exact hnew other ho (hwritten ▸ List.mem_cons_self)
    · intro other ho
      rcases List.mem_cons.mp ho with rfl | ho
      · exact hseen
      · exact fun hm => hnew other ho (List.mem_cons_of_mem _ hm)

end Slots

namespace Message

variable {message : Message}

/-- The slots of oneofs have written indexes of their own. -/
theorem nodup_written (message : Message) :
    ((message.slots.filterMap Slot.place?).map (·.written)).Nodup :=
  nodup_places.1

theorem plain_slots (message : Message) :
    message.slots.filterMap Slot.field? = message.fields.filter (·.membership = none) :=
  fields_slotsFrom

theorem field_mem_slots {field : Field} :
    .field field ∈ message.slots ↔ field ∈ message.fields ∧ field.membership = none :=
  field_mem_slotsFrom

/-- A slot of a oneof holds the place of a member. -/
theorem member_of_place {place : Membership} (h : place ∈ message.slots.filterMap Slot.place?) :
    ∃ field ∈ message.fields, field.membership = some place := by
  obtain ⟨slot, hslot, hplace⟩ := List.mem_filterMap.mp h
  cases slot with
  | field plain => cases hplace
  | oneof other text =>
    cases hplace
    exact member_of_oneof_mem_slotsFrom hslot

/-- A message has slots as soon as it has fields. -/
theorem slots_isEmpty (message : Message) : message.slots.isEmpty = message.fields.isEmpty := by
  rw [slots]
  cases h : message.fields with
  | nil => rfl
  | cons field fields =>
    rw [slotsFrom]
    cases field.membership <;> simp

/-- The members of oneofs name the oneofs of their message. -/
def Placed (message : Message) : Prop :=
  ∀ field ∈ message.fields, ∀ place, field.membership = some place →
    message.oneofNames[place.position]? = some place.oneof ∧
      (0 ≤ place.written → place.written = place.position)

def CountsForward (message : Message) : Prop :=
  ∀ field ∈ message.fields, ∀ place, field.membership = some place → 0 ≤ place.written

instance (message : Message) : Decidable message.CountsForward :=
  decidable_of_iff
    (∀ field ∈ message.fields, field.membership.all (fun place => 0 ≤ place.written) = true)
    (by simp [CountsForward, Option.all_eq_true])

theorem mem_oneofs {oneof : Oneof} : oneof ∈ message.oneofs ↔
    message.oneofNames[oneof.position]? = some oneof.name ∧
      oneof.members = message.fields.filter fun field =>
        field.membership.any (·.position = oneof.position) := by
  simp only [oneofs, List.mem_map, Prod.exists, List.mem_zipIdx_iff_getElem?]
  constructor
  · rintro ⟨name, position, hm, rfl⟩
    exact ⟨by simpa using hm, rfl⟩
  · rintro ⟨hm, hmembers⟩
    exact ⟨oneof.name, oneof.position, by simpa using hm, by rw [← hmembers]⟩

theorem nodup_positions (message : Message) : (message.choices.map (·.position)).Nodup := by
  have hpositions : (message.oneofs.map (·.position)).Nodup := by
    simp [oneofs, Function.comp_def, List.nodup_range']
  exact hpositions.sublist (List.filter_sublist.map _)

theorem mem_members_iff {oneof : Oneof} (ho : oneof ∈ message.oneofs) {field : Field} :
    field ∈ oneof.members ↔ field ∈ message.fields ∧
      ∃ place, field.membership = some place ∧ place.position = oneof.position := by
  rw [(mem_oneofs.mp ho).2, List.mem_filter, Option.any_eq_true]
  simp

/-- The oneof that a member belongs to is one of those that have members. -/
theorem exists_choice (hp : message.Placed) {field : Field} (hf : field ∈ message.fields)
    {place : Membership} (hm : field.membership = some place) :
    ∃ oneof ∈ message.choices, oneof.name = place.oneof ∧ oneof.position = place.position ∧
      field ∈ oneof.members := by
  let oneof : Oneof :=
    { name := place.oneof, position := place.position
      members := message.fields.filter fun field =>
        field.membership.any (·.position = place.position) }
  have ho : oneof ∈ message.oneofs := mem_oneofs.mpr ⟨(hp field hf place hm).1, rfl⟩
  have hmember : field ∈ oneof.members := (mem_members_iff ho).mpr ⟨hf, place, hm, rfl⟩
  refine ⟨oneof, List.mem_filter.mpr ⟨ho, ?_⟩, rfl, rfl, hmember⟩
  simpa [Oneof.isSynthetic] using List.ne_nil_of_mem hmember

end Message

structure File.Coherent (index : Options.Index) (file : File) : Prop where
  messages : ∀ message ∈ file.messages, message.home = file.home ∧ message.Placed
  enums : ∀ enum ∈ file.enums, enum.home = file.home ∧ ∀ value ∈ enum.values,
    (∃ name, value.displayName = .text name) ∨
      ∃ name, value.displayName = (index.enumValue name).name
  services : ∀ service ∈ file.services, service.home = file.home ∧
    ∀ method ∈ service.methods,
      method.operation = (index.method (service.methodName method)).operation
  nameSpace : file.home.nameSpace = (index.file file.home.name).nameSpace

theorem position?_nonneg {length : Nat} {written : Int} {position : Nat}
    (h : Descriptor.position? length written = some position) (hw : 0 ≤ written) :
    written = position := by
  simp only [Descriptor.position?, hw, if_true, Option.ite_none_right_eq_some,
    Option.some.injEq] at h
  omega

theorem membership?_placed {oneofs : List String} {field : Descriptor.Field} {place : Membership}
    (h : membership? oneofs field = .ok (some place)) :
    oneofs[place.position]? = some place.oneof ∧
      (0 ≤ place.written → place.written = place.position) := by
  unfold membership? at h
  split at h
  · simp at h
  · split at h
    · simp at h
    · split at h
      · simp at h
      · rename_i written _ position hposition
        simp only [Except.ok.injEq, Option.some.injEq] at h
        subst h
        have hlt := Descriptor.position?_lt hposition
        exact ⟨by simp [hlt], position?_nonneg hposition⟩

theorem Field.ofDescriptor_membership {index : Options.Index} {parent : String}
    {described : Descriptor.Field} {membership : Option Membership} {field : Field}
    (h : Field.ofDescriptor index parent described membership = .ok field) :
    field.membership = membership := by
  obtain ⟨key, -, h⟩ := bind_eq_ok.mp h
  cases h
  rfl

theorem Message.ofSite_spec {index : Options.Index} {home : Home} {site : MessageSite}
    {message : Message} (h : Message.ofSite index home site = .ok message) :
    message.home = home ∧ message.Placed := by
  obtain ⟨memberships, hmemberships, h⟩ := bind_eq_ok.mp h
  obtain ⟨fields, hfields, h⟩ := bind_eq_ok.mp h
  cases h
  refine ⟨rfl, fun field hf place hp => ?_⟩
  obtain ⟨⟨described, membership⟩, hzip, hof⟩ := exists_of_mem_results hfields hf
  obtain ⟨other, -, hother⟩ := exists_of_mem_results hmemberships (List.of_mem_zip hzip).2
  rw [Field.ofDescriptor_membership hof] at hp
  exact membership?_placed (hp ▸ hother)

theorem Message.annotate_placed {notes : Notes} {message : Message} (h : message.Placed) :
    (message.annotate notes).Placed := by
  intro field hf place hp
  obtain ⟨⟨bare, position⟩, hb, rfl⟩ := List.mem_map.mp hf
  exact h bare (List.fst_mem_of_mem_zipIdx hb) place hp

theorem Service.ofDescriptor_spec {index : Options.Index} {home : Home}
    {described : Descriptor.Service} {service : Service}
    (h : Service.ofDescriptor index home described = .ok service) :
    service.home = home ∧ ∀ method ∈ service.methods,
      method.operation = (index.method (service.methodName method)).operation := by
  obtain ⟨methods, hmethods, h⟩ := bind_eq_ok.mp h
  cases h
  refine ⟨rfl, fun method hm => ?_⟩
  obtain ⟨other, -, hother⟩ := exists_of_mem_results hmethods hm
  obtain ⟨one, -, hother⟩ := bind_eq_ok.mp hother
  obtain ⟨many, -, hother⟩ := bind_eq_ok.mp hother
  cases hother
  rfl

theorem EnumValue.ofDescriptor_displayName (index : Options.Index) (parent : String)
    (described : Descriptor.EnumValue) :
    (∃ name, (ofDescriptor index parent described).displayName = .text name) ∨
      ∃ name, (ofDescriptor index parent described).displayName = (index.enumValue name).name := by
  unfold ofDescriptor
  simp only
  split
  · exact .inr ⟨_, rfl⟩
  · exact .inl ⟨_, rfl⟩

theorem File.ofDescriptor_spec {index : Options.Index} {position : Nat}
    {described : Descriptor.File} {file : File}
    (h : File.ofDescriptor index position described = .ok file) :
    file.home = Home.ofDescriptor index position described ∧ file.Coherent index := by
  obtain ⟨services, hservices, h⟩ := bind_eq_ok.mp h
  obtain ⟨messages, hmessages, h⟩ := bind_eq_ok.mp h
  obtain ⟨notes, -, h⟩ := bind_eq_ok.mp h
  cases h
  refine ⟨rfl, ?_, ?_, ?_, rfl⟩
  · intro message hm
    obtain ⟨bare, hb, rfl⟩ := List.mem_map.mp hm
    obtain ⟨site, -, hsite⟩ := exists_of_mem_results hmessages hb
    have hspec := Message.ofSite_spec hsite
    exact ⟨hspec.1, Message.annotate_placed hspec.2⟩
  · intro enum he
    obtain ⟨bare, hb, rfl⟩ := List.mem_map.mp he
    obtain ⟨site, -, rfl⟩ := List.mem_map.mp hb
    refine ⟨rfl, fun value hv => ?_⟩
    obtain ⟨⟨bareValue, position⟩, hbv, rfl⟩ := List.mem_map.mp hv
    obtain ⟨described, -, rfl⟩ := List.mem_map.mp (List.fst_mem_of_mem_zipIdx hbv)
    exact EnumValue.ofDescriptor_displayName _ _ _
  · intro service hs
    obtain ⟨⟨bare, place⟩, hb, rfl⟩ := List.mem_map.mp hs
    obtain ⟨other, -, hother⟩ := exists_of_mem_results hservices (List.fst_mem_of_mem_zipIdx hb)
    have hspec := Service.ofDescriptor_spec hother
    refine ⟨hspec.1, fun method hm => ?_⟩
    obtain ⟨⟨bareMethod, index⟩, hbm, rfl⟩ := List.mem_map.mp hm
    exact hspec.2 bareMethod (List.fst_mem_of_mem_zipIdx hbm)

theorem Wrapped.coherent {index : Options.Index} {files : List Descriptor.File}
    {sources : List File} (h : Wrapped index files sources) {file : File} (hf : file ∈ sources) :
    file.Coherent index := by
  obtain ⟨⟨described, position⟩, -, hof⟩ := exists_of_mem_results h hf
  exact (File.ofDescriptor_spec hof).2

theorem Wrapped.homes {index : Options.Index} {files : List Descriptor.File}
    {sources : List File} (h : Wrapped index files sources) :
    sources.map (·.home) = files.zipIdx.map fun (file, position) =>
      Home.ofDescriptor index position file :=
  map_results h _ _ fun _ _ hof => (File.ofDescriptor_spec hof).1

theorem Wrapped.names {index : Options.Index} {files : List Descriptor.File}
    {sources : List File} (h : Wrapped index files sources) :
    sources.map (·.home.name) = files.map (·.name) := by
  have hn := congrArg (List.map Home.name) h.homes
  simp only [List.map_map, Function.comp_def, Home.ofDescriptor] at hn
  rw [hn, ← List.zipIdx_map_fst 0 files, List.map_map]
  simp [Function.comp_def]

end ProtoSdl.Source

import ProtoSdl.Proofs.DeclarationTrees
import ProtoSdl.Proofs.DeclaredOneofs

/-! The fields of a message as its oneofs share them out. A field is either a plain one or a member
of the oneof that its index names. The effective fields are the fields in their order, with one
placeholder for each oneof that has members, where its first member stood, and without the members.
-/
namespace ProtoSdl

namespace Descriptor.Message

/-- An effective field of a described message: one outside of oneofs, or the placeholder of a oneof
with its name and position. -/
inductive Effective
  | plain (field : Field)
  | oneof (name : String) (position : Nat)

/-- What the field at a position becomes. The first member of a oneof becomes its placeholder, and
the later ones are left out. -/
def effectiveAt? (message : Message) : Field × Nat → Option Effective
  | (field, position) =>
    if field.isMember then
      if (message.fields.take position).any fun earlier =>
          earlier.isMember && earlier.oneofIndex = field.oneofIndex then none
      else do
        let index ← field.oneofIndex
        let name ← message.oneofs[index.toNat]?
        return .oneof name index.toNat
    else some (.plain field)

def effective (message : Message) : List Effective :=
  message.fields.zipIdx.filterMap message.effectiveAt?

section Places

variable {message : Message} {earlier rest : List Field} {field : Field}

private theorem effectiveAt?_later (heq : message.fields = earlier ++ field :: rest)
    (hm : field.isMember = true) {index : Int} (hindex : field.oneofIndex = some index)
    (hseen : ∃ other ∈ earlier, other.isMember = true ∧ other.oneofIndex = some index) :
    message.effectiveAt? (field, earlier.length) = none := by
  rw [effectiveAt?, if_pos hm, heq, List.take_left, if_pos]
  simpa [hindex] using hseen

private theorem effectiveAt?_first (heq : message.fields = earlier ++ field :: rest)
    (hm : field.isMember = true) {position : Nat} {name : String}
    (hindex : field.oneofIndex = some (position : Int))
    (hname : message.oneofs[position]? = some name)
    (hnew : ¬ ∃ other ∈ earlier, other.isMember = true ∧ other.oneofIndex = some (position : Int)) :
    message.effectiveAt? (field, earlier.length) = some (.oneof name position) := by
  rw [effectiveAt?, if_pos hm, heq, List.take_left, if_neg]
  · simp [hindex, hname]
  · simpa [hindex] using hnew

end Places

end Descriptor.Message

namespace Source

open Outcome
open Descriptor (preorderOf)
open Descriptor.Message (Effective)
open Mapping (parcelMessage)

/-- Items come apart by a key: those without one, and those of each key. -/
theorem perm_of_key {α : Type} (key : α → Option Nat) (items : List α) (bound : Nat) :
    (items.filter (key · = none) ++
      (List.range bound).flatMap fun place => items.filter (key · = some place)).Perm
      (items.filter fun item => (key item).all (· < bound)) := by
  induction bound with
  | zero =>
    rw [List.range_zero, List.flatMap_nil, List.append_nil]
    refine .of_eq (List.filter_congr fun item _ => ?_)
    cases key item <;> simp
  | succ bound ih =>
    rw [List.range_succ, List.flatMap_append, ← List.append_assoc, List.flatMap_singleton]
    refine (ih.append_right _).trans ?_
    have hsplit := List.filter_append_perm (fun item => (key item).all (· < bound))
      (items.filter fun item => (key item).all (· < bound + 1))
    rw [List.filter_filter, List.filter_filter] at hsplit
    refine .trans (.of_eq ?_) hsplit
    congr 1 <;>
    · refine List.filter_congr fun item _ => Bool.eq_iff_iff.mpr ?_
      cases key item with
      | none => simp
      | some place =>
        simp only [Option.all_some, decide_eq_true_eq, Bool.and_eq_true, Bool.not_eq_true',
          decide_eq_false_iff_not, Option.some.injEq]
        omega

/-- A slot is what the described message has as an effective field. -/
inductive Slot.StandsFor : Effective → Slot → Prop
  | plain {described : Descriptor.Field} {field : Field} (h : Field.Mirrors described field) :
      StandsFor (.plain described) (.field field)
  | oneof {place : Membership} {text : String} (h : place.written = place.position) :
      StandsFor (.oneof place.oneof place.position) (.oneof place text)

/-- A oneof gathers the fields that are described as its members. -/
structure Oneof.Gathers (described : Descriptor.Message) (named : String × Nat) (oneof : Oneof) :
    Prop where
  name : oneof.name = named.1
  position : oneof.position = named.2
  members : List.Forall₂ Field.Mirrors (described.oneofMembers named.2) oneof.members
  synthetic : oneof.isSynthetic = true ↔ described.oneofMembers named.2 = []

/-- The fields of a message are shared out to its slots and oneofs, each to one of them. -/
structure Message.Collapsed (described : Descriptor.Message) (message : Message) : Prop where
  fields : List.Forall₂ Field.Mirrors described.fields message.fields
  plain : List.Forall₂ Field.Mirrors described.plainFields (message.slots.filterMap Slot.field?)
  oneofs : List.Forall₂ (Oneof.Gathers described) described.oneofs.zipIdx message.oneofs
  once : (message.slots.filterMap Slot.field? ++ message.oneofs.flatMap (·.members)).Perm
    message.fields
  slots : List.Forall₂ Slot.StandsFor described.effective message.slots
  placeholders : ∀ position,
    ((message.slots.filterMap Slot.place?).map (·.position)).count position =
      if described.oneofMembers position = [] then 0 else 1

namespace Message.Reads

variable {source : Descriptor.Message} {message : Message}

/-- Effective fields against slots, along the fields. Behind the fields in `earlier` the indexes
that were seen are those of the members among them. -/
theorem standFor_slotsFrom (hforward : source.CountsForward) (comments : Int → String)
    {rest : List Descriptor.Field} {fields : List Field}
    (h : List.Forall₂ (Field.ReadIn source.oneofs) rest fields) (earlier : List Descriptor.Field)
    (heq : source.fields = earlier ++ rest) (seen : List Int)
    (hseen : ∀ index, index ∈ seen ↔
      ∃ field ∈ earlier, field.isMember = true ∧ field.oneofIndex = some index) :
    List.Forall₂ Slot.StandsFor ((rest.zipIdx earlier.length).filterMap source.effectiveAt?)
      (slotsFrom comments seen fields) := by
  induction h generalizing earlier seen with
  | nil => exact .nil
  | @cons origin field rest fields hread _ ih =>
    -- What follows needs the invariant for one field more; only a first member adds an index to it.
    have htail := ih (earlier ++ [origin]) (by rw [heq, List.append_assoc]; rfl)
    rw [List.length_append, List.length_singleton] at htail
    rw [List.zipIdx_cons, slotsFrom]
    cases hplace : field.membership with
    | none =>
      have hplain : ¬ origin.isMember = true := by
        rw [isMember_iff hread, hplace]
        simp
      have hkept : source.effectiveAt? (origin, earlier.length) = some (.plain origin) :=
        if_neg hplain
      rw [List.filterMap_cons_some hkept]
      refine .cons (.plain hread.1) (htail seen fun index => ?_)
      simp [hseen index, hplain]
    | some place =>
      obtain ⟨hmember, hindex, hposition⟩ := membership?_eq_some (hplace ▸ hread.2)
      have hnow : ∀ index, (∃ field ∈ earlier ++ [origin],
          field.isMember = true ∧ field.oneofIndex = some index) ↔
            place.written = index ∨ index ∈ seen := by
        intro index
        simp only [List.mem_append, List.mem_singleton, or_and_right, exists_or, ← hseen,
          exists_eq_left, hmember, hindex, Option.some.injEq, true_and]
        exact or_comm
      by_cases hs : place.written ∈ seen
      · rw [List.filterMap_cons_none
          (Descriptor.Message.effectiveAt?_later heq hmember hindex ((hseen _).mp hs))]
        simp only [hs, if_true]
        refine htail seen fun index => ?_
        rw [hnow]
        exact ⟨.inr, fun h => h.elim (fun heq => heq ▸ hs) id⟩
      · have hin : origin ∈ source.fields := by simp [heq]
        have hwritten := position?_nonneg hposition (hforward origin hin hmember _ hindex)
        have hname := (membership?_placed (hplace ▸ hread.2)).1
        have hnew := mt (hseen _).mpr hs
        rw [hwritten] at hindex hnew
        rw [List.filterMap_cons_some
          (Descriptor.Message.effectiveAt?_first heq hmember hindex hname hnew)]
        simp only [hs, if_false]
        refine .cons (.oneof hwritten) (htail _ fun index => ?_)
        rw [hnow, List.mem_cons, eq_comm]

/-- The effective fields are those described. -/
theorem standFor_slots (h : message.Reads source) :
    List.Forall₂ Slot.StandsFor source.effective message.slots :=
  standFor_slotsFrom h.forward _ h.fields [] rfl [] (by simp)

/-- Each field is a plain one or a member of one oneof. -/
theorem perm_fields (h : message.Reads source) :
    (message.slots.filterMap Slot.field? ++ message.oneofs.flatMap (·.members)).Perm
      message.fields := by
  have hkey := perm_of_key (fun field : Field => field.membership.map (·.position)) message.fields
    message.oneofNames.length
  have hall : message.fields.filter (fun field =>
      (field.membership.map (·.position)).all (· < message.oneofNames.length)) =
        message.fields := by
    refine List.filter_eq_self.mpr fun field hf => ?_
    cases hplace : field.membership with
    | none => rfl
    | some place =>
      have hlt := (List.getElem?_eq_some_iff.mp (h.place hf hplace).2).1
      simpa using hlt
  rw [hall] at hkey
  refine .trans (.of_eq ?_) hkey
  rw [message.plain_slots, Message.oneofs, List.flatMap_map]
  congr 1
  · simp
  · rw [List.range_eq_range', ← List.zipIdx_map_snd, List.flatMap_map]
    refine List.flatMap_congr fun oneof _ => List.filter_congr fun field _ => ?_
    cases field.membership <;> simp

private theorem gathers (h : message.Reads source) :
    List.Forall₂ (Oneof.Gathers source) source.oneofs.zipIdx message.oneofs := by
  rw [Message.oneofs, h.oneofs, List.forall₂_map_right_iff]
  refine List.forall₂_same.mpr ?_
  rintro ⟨name, position⟩ -
  have hmembers := h.members position
  refine ⟨rfl, rfl, hmembers.imp fun _ _ hread => hread.1, ?_⟩
  rw [Oneof.isSynthetic, List.isEmpty_iff_length_eq_zero, ← hmembers.length_eq,
    List.length_eq_zero_iff]

/-- A oneof has a slot if it has members. -/
theorem mem_places_iff (h : message.Reads source) (position : Nat) :
    position ∈ (message.slots.filterMap Slot.place?).map (·.position) ↔
      source.oneofMembers position ≠ [] := by
  rw [← List.length_pos_iff, (h.members position).length_eq, List.length_pos_iff]
  constructor
  · intro hin
    obtain ⟨place, hplace, rfl⟩ := List.mem_map.mp hin
    obtain ⟨field, hf, hmember⟩ := Message.member_of_place hplace
    exact List.ne_nil_of_mem (List.mem_filter.mpr ⟨hf, by simp [hmember]⟩)
  · intro hne
    obtain ⟨field, hfield⟩ := List.exists_mem_of_ne_nil _ hne
    obtain ⟨hf, hplace⟩ := List.mem_filter.mp hfield
    rw [Option.any_eq_true] at hplace
    obtain ⟨place, hmember, heq⟩ := hplace
    obtain ⟨oneof, ho, -, hposition, -⟩ := Message.exists_choice h.placed hf hmember
    obtain ⟨first, hfirst, hsame⟩ := h.exists_slot ho
    refine List.mem_map.mpr ⟨first, hfirst, ?_⟩
    rw [hsame, hposition]
    exact of_decide_eq_true heq

private theorem count_places (h : message.Reads source) (position : Nat) :
    ((message.slots.filterMap Slot.place?).map (·.position)).count position =
      if source.oneofMembers position = [] then 0 else 1 := by
  rw [h.nodup_slots.count]
  by_cases hm : source.oneofMembers position = []
  · rw [if_pos hm, if_neg fun hin => (h.mem_places_iff position).mp hin hm]
  · rw [if_neg hm, if_pos ((h.mem_places_iff position).mpr hm)]

private theorem collapsed (h : message.Reads source) : message.Collapsed source where
  fields := h.fields.imp fun _ _ hread => hread.1
  plain := by
    rw [message.plain_slots]
    exact h.plainFields.imp fun _ _ hread => hread.1
  oneofs := h.gathers
  once := h.perm_fields
  slots := h.standFor_slots
  placeholders := h.count_places

end Message.Reads

/-- The fields of every message that was read are shared out: each is a plain field or a member of
the oneof it names, in the order of declaration, and the effective fields are those described, with
one placeholder for each oneof that has members. -/
theorem oneofs_partition_fields (index : Options.Index) (position : Nat)
    (described : Descriptor.File) (file : File)
    (h : File.ofDescriptor index position described = .ok file) :
    List.Forall₂ (fun origin message => origin.CountsForward → Message.Collapsed origin message)
      (preorderOf described.messages) file.messages := by
  obtain ⟨-, messages, notes, -, hmessages, -, hm, -, -⟩ := File.ofDescriptor_eq_ok h
  rw [hm, ← map_message_messageSitesFrom [] [] 0, List.forall₂_map_left_iff,
    List.forall₂_map_right_iff]
  refine (mapM_eq_ok.mp hmessages).imp fun site message hof hforward => ?_
  obtain ⟨honeofs, hfields⟩ := Message.ofSite_fields hof
  exact Message.Reads.collapsed ⟨honeofs, Message.annotate_fields hfields notes, hforward⟩

/-- Of a parcel, the target and the size are placeholders in the order of their first members, and
the note is a plain field next to a oneof without members. -/
theorem parcel_partitions_fields : ∃ file message,
    File.ofDescriptor {} 0 { name := "parcel.proto", messages := [parcelMessage] } = .ok file ∧
    file.messages = [message] ∧
    message.slots.map (fun slot => (slot.place?.map (·.oneof), slot.field?.map (·.name))) =
      [(some "target", none), (some "size", none), (none, some "note")] ∧
    message.oneofs.map (fun oneof => (oneof.name, oneof.isSynthetic)) =
      [("size", false), ("target", false), ("_note", true)] ∧
    parcelMessage.CountsForward ∧ Message.Collapsed parcelMessage message := by
  obtain ⟨file, message, hfile, hmessage, hslots, honeofs⟩ : ∃ file message,
      File.ofDescriptor {} 0 { name := "parcel.proto", messages := [parcelMessage] } = .ok file ∧
      file.messages = [message] ∧ message.slots.map _ = _ ∧ message.oneofs.map _ = _ :=
    ⟨_, _, rfl, rfl, rfl, rfl⟩
  have hforward : parcelMessage.CountsForward := by decide
  have hall := oneofs_partition_fields {} 0 _ file hfile
  rw [hmessage] at hall
  cases hall with
  | cons hcollapsed _ =>
    exact ⟨file, message, hfile, hmessage, hslots, honeofs, hforward, hcollapsed hforward⟩

end Source

end ProtoSdl

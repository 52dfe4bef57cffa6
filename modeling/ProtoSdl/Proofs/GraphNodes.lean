import Mathlib.Data.List.Nodup
import Mathlib.Logic.Relation
import ProtoSdl.Dependency.Graph
import ProtoSdl.Proofs.Walks

/-! The graph of messages with distinct names, stated without it. A message refers to the types of
its message fields. The messages are numbered by their places, and after them the types outside the
list by their first mention; `numbering` lists all nodes by number. -/
namespace ProtoSdl.Dependency

open Relation

/-- The message `a` has a field of the message type `b`. -/
def Refers (messages : List Source.Message) (a b : String) : Prop :=
  ∃ message ∈ messages, message.fullName = a ∧
    ∃ field ∈ message.fields, field.kind = .message ∧ field.typeName = b

/-- `a` refers to `b`, directly or through other messages, or is `b` itself. -/
def Depends (messages : List Source.Message) (a b : String) : Prop :=
  ReflTransGen (Refers messages) a b

def messageNames (messages : List Source.Message) : List String :=
  messages.map (·.fullName)

/-- All nodes in the order of their numbers. -/
def numbering (messages : List Source.Message) : List String :=
  (messageNames messages ++ messages.flatMap (·.messageTypes)).eraseDups

def numberOf (messages : List Source.Message) (node : String) : Nat :=
  (numbering messages).idxOf node

theorem mem_messageTypes_iff {message : Source.Message} {type : String} :
    type ∈ message.messageTypes ↔
      ∃ field ∈ message.fields, field.kind = .message ∧ field.typeName = type := by
  simp [Source.Message.messageTypes, and_assoc]

theorem mem_firstOccurrences {item : String} {items : List String} :
    item ∈ firstOccurrences items ↔ item ∈ items := by
  induction items with
  | nil => simp [firstOccurrences]
  | cons first items ih =>
    by_cases h : item = first
    · simp [firstOccurrences, h]
    · simp [firstOccurrences, h, ih]

theorem nodup_firstOccurrences (items : List String) : (firstOccurrences items).Nodup := by
  induction items with
  | nil => exact List.nodup_nil
  | cons first items ih =>
    refine List.nodup_cons.mpr ⟨?_, ih.filter _⟩
    simp

theorem firstOccurrences_filter (p : String → Bool) (items : List String) :
    firstOccurrences (items.filter p) = (firstOccurrences items).filter p := by
  induction items with
  | nil => rfl
  | cons first items ih =>
    by_cases h : p first = true
    · simp only [h, List.filter_cons_of_pos, firstOccurrences, ih, List.filter_filter,
        Bool.and_comm]
    · -- The dropped item is filtered out twice over.
      have hsame : ((firstOccurrences items).filter fun x => decide (x ≠ first)).filter p =
          (firstOccurrences items).filter p := by
        rw [List.filter_filter]
        apply List.filter_congr
        intro x _
        by_cases hx : x = first
        · simp [hx, h]
        · simp [hx]
      rw [List.filter_cons_of_neg h, firstOccurrences, List.filter_cons_of_neg h, hsame, ih]

theorem firstOccurrences_eq_eraseDups (items : List String) :
    firstOccurrences items = items.eraseDups := by
  cases items with
  | nil => rfl
  | cons first items =>
    rw [List.eraseDups_cons, ← firstOccurrences_eq_eraseDups (items.filter fun x => !x == first),
      firstOccurrences, firstOccurrences_filter]
    congr 1
    apply List.filter_congr
    intro x _
    by_cases hx : x = first <;> simp [hx]
termination_by items.length
decreasing_by
  exact Nat.lt_succ_of_le (List.length_filter_le _ _)

theorem nodup_numbering (messages : List Source.Message) : (numbering messages).Nodup := by
  rw [numbering, ← firstOccurrences_eq_eraseDups]
  exact nodup_firstOccurrences _

theorem mem_numbering {messages : List Source.Message} {node : String} :
    node ∈ numbering messages ↔ node ∈ messageNames messages ∨ ∃ a, Refers messages a node := by
  simp only [numbering, List.mem_eraseDups, List.mem_append, List.mem_flatMap,
    mem_messageTypes_iff]
  refine or_congr_right ⟨?_, ?_⟩
  · rintro ⟨message, hm, hf⟩
    exact ⟨_, message, hm, rfl, hf⟩
  · rintro ⟨_, message, hm, -, hf⟩
    exact ⟨message, hm, hf⟩

theorem Refers.left_mem {messages : List Source.Message} {a b : String}
    (h : Refers messages a b) : a ∈ messageNames messages := by
  obtain ⟨message, hm, rfl, -⟩ := h
  exact List.mem_map_of_mem hm

theorem Refers.right_mem {messages : List Source.Message} {a b : String}
    (h : Refers messages a b) : b ∈ numbering messages :=
  mem_numbering.mpr (Or.inr ⟨a, h⟩)

theorem Depends.right_mem {messages : List Source.Message} {a b : String}
    (h : Depends messages a b) (ha : a ∈ numbering messages) : b ∈ numbering messages := by
  induction h with
  | refl => exact ha
  | tail _ hstep _ => exact hstep.right_mem

theorem numberOf_inj {messages : List Source.Message} {a b : String}
    (ha : a ∈ numbering messages) (h : numberOf messages a = numberOf messages b) : a = b :=
  (List.idxOf_inj ha).mp h

/-- The positions among the messages are their numbers. -/
theorem numbering_eq {messages : List Source.Message} (hn : (messageNames messages).Nodup) :
    numbering messages = messageNames messages ++
      (firstOccurrences (messages.flatMap (·.messageTypes))).filter
        (· ∉ messageNames messages) := by
  have hnames : (messageNames messages).eraseDups = messageNames messages := by
    rw [← firstOccurrences_eq_eraseDups]
    generalize messageNames messages = names at hn
    induction names with
    | nil => rfl
    | cons first names ih =>
      obtain ⟨hf, hr⟩ := List.nodup_cons.mp hn
      rw [firstOccurrences, ih hr]
      congr 1
      rw [List.filter_eq_self]
      intro x hx
      simp only [ne_eq, decide_eq_true_eq]
      rintro rfl
      exact hf hx
  rw [numbering, List.eraseDups_append, hnames, ← firstOccurrences_eq_eraseDups, List.removeAll,
    firstOccurrences_filter]
  congr 1
  apply List.filter_congr
  intro x _
  by_cases hx : x ∈ messageNames messages <;> simp [hx]

namespace Graph

private theorem entries_numbered (mentions : List (String × List String))
    (table : Table (Nat × List String)) (hn : (mentions.map (·.1)).Nodup)
    (hnew : ∀ mention ∈ mentions, mention.1 ∉ table.keys) :
    (mentions.foldl (fun table (name, types) => table.insert name (table.entries.length, types))
      table).entries = table.entries ++ (mentions.zipIdx table.entries.length).map
        fun (mention, number) => (mention.1, number, mention.2) := by
  induction mentions generalizing table with
  | nil => simp
  | cons mention mentions ih =>
    obtain ⟨hm, hr⟩ := List.nodup_cons.mp hn
    have he : (table.insert mention.1 (table.entries.length, mention.2)).entries =
        table.entries ++ [(mention.1, table.entries.length, mention.2)] :=
      Table.entries_insert_of_not_mem (hnew mention List.mem_cons_self)
    have hnext : ∀ other ∈ mentions,
        other.1 ∉ (table.insert mention.1 (table.entries.length, mention.2)).keys := by
      intro other ho
      have hold := hnew other (List.mem_cons_of_mem _ ho)
      have hne : other.1 ≠ mention.1 := fun heq => hm (List.mem_map.mpr ⟨other, ho, heq⟩)
      simp only [Table.keys] at hold ⊢
      simp [he, hold, hne]
    rw [List.foldl_cons, ih _ hr hnext, he]
    simp [List.zipIdx_cons]

variable {messages : List Source.Message}

theorem members_ofMessages (hn : (messageNames messages).Nodup) :
    (ofMessages messages).members = messages.zipIdx.map fun (message, number) =>
      { name := message.fullName, number, types := message.messageTypes } := by
  have hm : ((messages.map fun message => (message.fullName, message.messageTypes)).map
      (·.1)).Nodup := by simpa [messageNames, Function.comp_def] using hn
  have h := entries_numbered _ {} hm (by simp [Table.keys])
  simp only [ofMessages, ofMentions, h]
  simp [List.zipIdx_map, Function.comp_def]

private theorem map_zipIdx {α β : Type} (f : α → β) (items : List α) (start : Nat) :
    ((items.zipIdx start).map fun item => f item.1) = items.map f := by
  rw [← List.zipIdx_map_fst start items, List.map_map]
  simp [Function.comp_def]

theorem names_ofMessages (hn : (messageNames messages).Nodup) :
    (ofMessages messages).names = messageNames messages := by
  rw [names, members_ofMessages hn, List.map_map]
  exact map_zipIdx (·.fullName) messages 0

theorem outside_ofMessages (hn : (messageNames messages).Nodup) :
    (ofMessages messages).outside =
      (firstOccurrences (messages.flatMap (·.messageTypes))).filter
        (· ∉ messageNames messages) := by
  rw [outside, names_ofMessages hn, members_ofMessages hn, List.flatMap_map]
  congr 2
  rw [List.flatMap_def, List.flatMap_def]
  exact congrArg List.flatten (map_zipIdx (·.messageTypes) messages 0)

theorem nodes_ofMessages (hn : (messageNames messages).Nodup) :
    (ofMessages messages).nodes = numbering messages := by
  rw [nodes, names_ofMessages hn, outside_ofMessages hn, numbering_eq hn]

private theorem find?_zipIdx (messages : List Source.Message) (start : Nat) (node : String) :
    ((messages.zipIdx start).map fun (message, number) =>
      ({ name := message.fullName, number, types := message.messageTypes } : Member)).find?
        (·.name = node) =
      (messages.find? (·.fullName = node)).map fun message =>
        { name := message.fullName, number := start + (messageNames messages).idxOf node
          types := message.messageTypes } := by
  induction messages generalizing start with
  | nil => rfl
  | cons message messages ih =>
    by_cases h : message.fullName = node
    · simp [List.zipIdx_cons, messageNames, h]
    · have hrest := ih (start + 1)
      simp only [List.zipIdx_cons, List.map_cons, h, decide_false, Bool.false_eq_true,
        not_false_eq_true, List.find?_cons_of_neg]
      rw [hrest]
      simp [messageNames, h, Nat.add_assoc, Nat.add_comm 1]

theorem member?_ofMessages (hn : (messageNames messages).Nodup) (node : String) :
    (ofMessages messages).member? node =
      (messages.find? (·.fullName = node)).map fun message =>
        { name := message.fullName, number := (messageNames messages).idxOf node
          types := message.messageTypes } := by
  rw [member?, members_ofMessages hn, find?_zipIdx]
  simp

theorem find?_fullName_iff (hn : (messageNames messages).Nodup) {node : String}
    {message : Source.Message} : messages.find? (·.fullName = node) = some message ↔
      message ∈ messages ∧ message.fullName = node := by
  constructor
  · intro h
    exact ⟨List.mem_of_find?_eq_some h, by simpa using List.find?_some h⟩
  · rintro ⟨hm, rfl⟩
    induction messages with
    | nil => simp at hm
    | cons first messages ih =>
      obtain ⟨hf, hr⟩ := List.nodup_cons.mp hn
      rcases List.mem_cons.mp hm with rfl | hm
      · simp
      · have hne : first.fullName ≠ message.fullName :=
          fun heq => hf (List.mem_map.mpr ⟨message, hm, heq.symm⟩)
        simpa [hne] using ih hr hm

theorem number_ofMessages (hn : (messageNames messages).Nodup) (node : String) :
    (ofMessages messages).number node = numberOf messages node := by
  rw [number, member?_ofMessages hn, outside_ofMessages hn, members_ofMessages hn, numberOf,
    numbering_eq hn, List.idxOf_append]
  cases h : messages.find? (·.fullName = node) with
  | some message =>
    have hm : node ∈ messageNames messages := by
      obtain ⟨hm, rfl⟩ := (find?_fullName_iff hn).mp h
      exact List.mem_map_of_mem hm
    simp [hm]
  | none =>
    have hm : node ∉ messageNames messages := by
      simpa [messageNames] using h
    have hl : (messageNames messages).length = messages.length := by simp [messageNames]
    simp only [Option.map_none, if_neg hm, List.length_map, List.length_zipIdx, hl]
    omega

theorem mem_dependencies (hn : (messageNames messages).Nodup) {a b : String} :
    b ∈ (ofMessages messages).dependencies a ↔ Refers messages a b := by
  rw [dependencies, member?_ofMessages hn]
  constructor
  · intro hb
    cases h : messages.find? (·.fullName = a) with
    | none => simp [h] at hb
    | some message =>
      obtain ⟨hm, rfl⟩ := (find?_fullName_iff hn).mp h
      exact ⟨message, hm, rfl, mem_messageTypes_iff.mp (by simpa [h] using hb)⟩
  · rintro ⟨message, hm, rfl, hf⟩
    have h := (find?_fullName_iff hn).mpr ⟨hm, rfl⟩
    simpa [h] using mem_messageTypes_iff.mpr hf

/-- Inside the bound of all nodes a walk along the dependencies follows the references. -/
theorem mem_reach_nodes_iff (hn : (messageNames messages).Nodup) {a b : String}
    (ha : a ∈ numbering messages) :
    b ∈ reach (ofMessages messages).dependencies (numbering messages) [] [a] ↔
      Depends messages a b := by
  have hstep : StepsTo (ofMessages messages).dependencies (numbering messages) =
      Refers messages := by
    funext x y
    simp only [StepsTo, mem_dependencies hn, eq_iff_iff, and_iff_left_iff_imp]
    exact fun h => h.right_mem
  rw [mem_reach_iff, hstep]
  simp [ha, Depends]

end Graph

end ProtoSdl.Dependency

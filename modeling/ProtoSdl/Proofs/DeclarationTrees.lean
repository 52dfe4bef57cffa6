import Mathlib.Data.List.Sort
import ProtoSdl.Proofs.CommentTargets

/-! The messages and enums of a file as nodes of a tree. Walks through the nested declarations list
the messages from the outside in, which is the order of their addresses, and the enums from the
inside out. A message has its place by its owner: it stands at the top of the file or at a position
in a message that has a place. -/
namespace ProtoSdl

namespace Descriptor

mutual

/-- A message followed by the messages nested in it, each before its own nested ones. -/
def Message.preorder : Message → List Message
  | message@⟨_, _, nested, _, _, _⟩ => message :: preorderOf nested

def preorderOf : List Message → List Message
  | [] => []
  | message :: messages => message.preorder ++ preorderOf messages

end

mutual

/-- The enums in a message: those of its nested messages, then its own. -/
def Message.allEnums : Message → List Enum
  | ⟨_, _, nested, enums, _, _⟩ => enumsOf nested ++ enums

def enumsOf : List Message → List Enum
  | [] => []
  | message :: messages => message.allEnums ++ enumsOf messages

end

end Descriptor

namespace Source

open Descriptor (preorderOf enumsOf)

section Orders

mutual

theorem map_message_messageSites (address : List Nat) (path : List String) :
    (message : Descriptor.Message) →
      (messageSites address path message).map (·.message) = message.preorder
  | ⟨name, fields, nested, enums, oneofs, isMap⟩ => by
    rw [messageSites, List.map_cons, map_message_messageSitesFrom, Descriptor.Message.preorder]

theorem map_message_messageSitesFrom (owner : List Nat) (path : List String) (position : Nat) :
    (messages : List Descriptor.Message) →
      (messageSitesFrom owner path position messages).map (·.message) = preorderOf messages
  | [] => by
    rw [messageSitesFrom, preorderOf, List.map_nil]
  | message :: messages => by
    rw [messageSitesFrom, List.map_append, map_message_messageSites, map_message_messageSitesFrom,
      preorderOf]

end

theorem map_enum_enumSites (owner : List Nat) (path : List String) (enums : List Descriptor.Enum) :
    (enumSites owner path enums).map (·.enum) = enums := by
  rw [enumSites, List.map_map]
  exact List.zipIdx_map_fst 0 enums

mutual

theorem map_enum_messageEnumSites (address : List Nat) (path : List String) :
    (message : Descriptor.Message) →
      (messageEnumSites address path message).map (·.enum) = message.allEnums
  | ⟨name, fields, nested, enums, oneofs, isMap⟩ => by
    rw [messageEnumSites, List.map_append, map_enum_messageEnumSitesFrom, map_enum_enumSites,
      Descriptor.Message.allEnums]

theorem map_enum_messageEnumSitesFrom (owner : List Nat) (path : List String) (position : Nat) :
    (messages : List Descriptor.Message) →
      (messageEnumSitesFrom owner path position messages).map (·.enum) = enumsOf messages
  | [] => by
    rw [messageEnumSitesFrom, enumsOf, List.map_nil]
  | message :: messages => by
    rw [messageEnumSitesFrom, List.map_append, map_enum_messageEnumSites,
      map_enum_messageEnumSitesFrom, enumsOf]

end

private theorem lt_append_cons (address : List Nat) (position : Nat) (rest : List Nat) :
    address < address ++ position :: rest := by
  have h : address ++ [] < address ++ position :: rest :=
    List.append_left_lt (List.nil_lt_cons position rest)
  rwa [List.append_nil] at h

theorem append_cons_lt (address : List Nat) {position other : Nat} (h : position < other)
    (rest more : List Nat) : address ++ position :: rest < address ++ other :: more :=
  List.append_left_lt (List.cons_lt_cons_iff.mpr (.inl h))

mutual

theorem sorted_messageSites (address : List Nat) (path : List String) :
    (message : Descriptor.Message) →
      (messageSites address path message).Pairwise fun site other => site.address < other.address
  | ⟨name, fields, nested, enums, oneofs, isMap⟩ => by
    rw [messageSites]
    refine .cons (fun site hs => ?_) (sorted_messageSitesFrom address (path ++ [name]) 0 nested)
    obtain ⟨-, place, positions, -, -, heq, -⟩ := at?_of_mem_messageSitesFrom _ _ _ _ site hs
    rw [heq]
    exact lt_append_cons address _ positions

private theorem sorted_messageSitesFrom (owner : List Nat) (path : List String) (position : Nat) :
    (messages : List Descriptor.Message) →
      (messageSitesFrom owner path position messages).Pairwise fun site other =>
        site.address < other.address
  | [] => by
    rw [messageSitesFrom]
    exact .nil
  | message :: messages => by
    rw [messageSitesFrom]
    refine List.pairwise_append.mpr ⟨sorted_messageSites _ path message,
      sorted_messageSitesFrom owner path (position + 1) messages, fun site hs other ho => ?_⟩
    obtain ⟨-, positions, hsite, -⟩ := at?_of_mem_messageSites _ _ _ site hs
    obtain ⟨-, place, rest, -, -, hother, -⟩ := at?_of_mem_messageSitesFrom _ _ _ _ other ho
    rw [hsite, hother, List.append_assoc]
    exact append_cons_lt owner (by omega) positions rest

end

theorem pairwise_zipIdx {α : Type} (items : List α) :
    items.zipIdx.Pairwise fun item other => item.2 < other.2 := by
  refine List.pairwise_map.mp (?_ : (items.zipIdx.map Prod.snd).Pairwise (· < ·))
  rw [List.zipIdx_map_snd]
  exact List.pairwise_lt_range' 1

/-- Lists with the same items in the same order are equal. -/
theorem eq_of_sorted {α : Type} {before : α → α → Prop}
    (hasymm : ∀ item other, before item other → ¬ before other item) {items others : List α}
    (hi : items.Pairwise before) (ho : others.Pairwise before)
    (hmem : ∀ item, item ∈ items ↔ item ∈ others) : items = others :=
  haveI : Std.Antisymm before := ⟨fun item other h h' => (hasymm item other h h').elim⟩
  haveI : Std.Irrefl before := ⟨fun item h => hasymm item item h h⟩
  hi.eq_of_mem_iff ho hmem

/-- If the two enums have one owner, the other one stands at the later position. -/
def EnumSite.Follows (other site : EnumSite) : Prop :=
  site.owner = other.owner → site.position < other.position

theorem sorted_enumSites (owner : List Nat) (path : List String) (enums : List Descriptor.Enum) :
    (enumSites owner path enums).Pairwise fun site other => other.Follows site := by
  refine List.pairwise_map.mpr ((pairwise_zipIdx enums).imp ?_)
  intro item other h _
  exact h

theorem owner_of_mem_enumSitesIn {address : List Nat} {path : List String} {position : Nat}
    {messages : List Descriptor.Message} {site : EnumSite}
    (hs : site ∈ messageEnumSitesFrom address path position messages) :
    ∃ place positions, site.owner = address ++ (position + place) :: positions := by
  obtain ⟨outer, houter, hin⟩ := (mem_messageEnumSitesFrom _ _ _ _ site).mp hs
  obtain ⟨-, place, positions, -, -, heq, -⟩ := at?_of_mem_messageSitesFrom _ _ _ _ outer houter
  exact ⟨place, positions, (mem_enumSites.mp hin).1.trans heq⟩

mutual

theorem sorted_messageEnumSites (address : List Nat) (path : List String) :
    (message : Descriptor.Message) →
      (messageEnumSites address path message).Pairwise fun site other => other.Follows site
  | ⟨name, fields, nested, enums, oneofs, isMap⟩ => by
    rw [messageEnumSites]
    refine List.pairwise_append.mpr ⟨sorted_messageEnumSitesFrom address (path ++ [name]) 0 nested,
      sorted_enumSites address (path ++ [name]) enums, fun site hs other ho heq => ?_⟩
    obtain ⟨place, positions, hbelow⟩ := owner_of_mem_enumSitesIn hs
    rw [(mem_enumSites.mp ho).1, hbelow] at heq
    simp at heq

private theorem sorted_messageEnumSitesFrom (owner : List Nat) (path : List String)
    (position : Nat) :
    (messages : List Descriptor.Message) →
      (messageEnumSitesFrom owner path position messages).Pairwise fun site other =>
        other.Follows site
  | [] => by
    rw [messageEnumSitesFrom]
    exact .nil
  | message :: messages => by
    rw [messageEnumSitesFrom]
    refine List.pairwise_append.mpr ⟨sorted_messageEnumSites _ path message,
      sorted_messageEnumSitesFrom owner path (position + 1) messages,
      fun site hs other ho heq => ?_⟩
    obtain ⟨outer, houter, hin⟩ := (mem_messageEnumSites _ _ _ site).mp hs
    obtain ⟨-, positions, hsite, -⟩ := at?_of_mem_messageSites _ _ _ outer houter
    obtain ⟨place, rest, hother⟩ := owner_of_mem_enumSitesIn ho
    rw [(mem_enumSites.mp hin).1, hsite, hother, List.append_assoc] at heq
    have hplace := (List.cons.inj (List.append_cancel_left heq)).1
    omega

end

end Orders

section Places

/-- The places of messages: at the top of the file, or in a message that has a place. -/
inductive MessageSite.IsOf (file : Descriptor.File) : MessageSite → Prop
  | top {position : Nat} {message : Descriptor.Message}
      (h : file.messages[position]? = some message) :
      IsOf file ⟨[position], [message.name], message⟩
  | nested {owner : MessageSite} {position : Nat} {message : Descriptor.Message}
      (ho : IsOf file owner) (h : owner.message.nested[position]? = some message) :
      IsOf file ⟨owner.address ++ [position], owner.path ++ [message.name], message⟩

open MessageSite

variable {file : Descriptor.File} {site other : MessageSite}

mutual

theorem isOf_of_mem_messageSites (address : List Nat) (path : List String) :
    (message : Descriptor.Message) → IsOf file ⟨address, path ++ [message.name], message⟩ →
      ∀ site ∈ messageSites address path message, IsOf file site
  | ⟨name, fields, nested, enums, oneofs, isMap⟩ => by
    intro hown site hs
    rw [messageSites] at hs
    rcases List.mem_cons.mp hs with rfl | hs
    · exact hown
    · refine isOf_of_mem_messageSitesFrom address (path ++ [name]) 0 nested ?_ site hs
      intro place inner hinner
      rw [Nat.zero_add]
      exact .nested hown hinner

private theorem isOf_of_mem_messageSitesFrom (owner : List Nat) (path : List String)
    (position : Nat) :
    (messages : List Descriptor.Message) →
      (∀ (place : Nat) message, messages[place]? = some message →
        IsOf file ⟨owner ++ [position + place], path ++ [message.name], message⟩) →
      ∀ site ∈ messageSitesFrom owner path position messages, IsOf file site
  | [] => by
    intro _ site hs
    rw [messageSitesFrom] at hs
    simp at hs
  | message :: messages => by
    intro hown site hs
    rw [messageSitesFrom] at hs
    rcases List.mem_append.mp hs with hs | hs
    · exact isOf_of_mem_messageSites (owner ++ [position]) path message (hown 0 message rfl) site hs
    · refine isOf_of_mem_messageSitesFrom owner path (position + 1) messages ?_ site hs
      intro place inner hinner
      rw [Nat.add_assoc, Nat.add_comm 1 place]
      exact hown (place + 1) inner hinner

end

private theorem mem_messageSites_self (address : List Nat) (path : List String)
    (message : Descriptor.Message) :
    ⟨address, path ++ [message.name], message⟩ ∈ messageSites address path message := by
  obtain ⟨name, fields, nested, enums, oneofs, isMap⟩ := message
  rw [messageSites]
  exact List.mem_cons_self

mutual

theorem nested_subset_messageSites (address : List Nat) (path : List String) :
    (message : Descriptor.Message) → ∀ site ∈ messageSites address path message,
      messageSitesFrom site.address site.path 0 site.message.nested ⊆
        messageSites address path message
  | ⟨name, fields, nested, enums, oneofs, isMap⟩ => by
    intro site hs
    rw [messageSites] at hs ⊢
    rcases List.mem_cons.mp hs with rfl | hs
    · exact List.subset_cons_self _ _
    · exact List.subset_cons_of_subset _
        (nested_subset_messageSitesFrom address (path ++ [name]) 0 nested site hs)

private theorem nested_subset_messageSitesFrom (owner : List Nat) (path : List String)
    (position : Nat) :
    (messages : List Descriptor.Message) → ∀ site ∈ messageSitesFrom owner path position messages,
      messageSitesFrom site.address site.path 0 site.message.nested ⊆
        messageSitesFrom owner path position messages
  | [] => by
    intro site hs
    rw [messageSitesFrom] at hs
    simp at hs
  | message :: messages => by
    intro site hs
    rw [messageSitesFrom] at hs ⊢
    rcases List.mem_append.mp hs with hs | hs
    · exact List.subset_append_of_subset_left _
        (nested_subset_messageSites (owner ++ [position]) path message site hs)
    · exact List.subset_append_of_subset_right _
        (nested_subset_messageSitesFrom owner path (position + 1) messages site hs)

end

/-- A file lists the messages that have a place in it. -/
theorem mem_fileMessageSites : site ∈ fileMessageSites file ↔ IsOf file site := by
  constructor
  · refine isOf_of_mem_messageSitesFrom [] [] 0 file.messages (fun place message h => ?_) site
    rw [Nat.zero_add]
    exact .top h
  · intro h
    induction h with
    | @top position message h =>
      refine messageSites_subset [] [] 0 h ?_
      rw [Nat.zero_add]
      exact mem_messageSites_self _ _ _
    | @nested owner position message _ h ih =>
      refine nested_subset_messageSitesFrom [] [] 0 file.messages owner ih ?_
      refine messageSites_subset owner.address owner.path 0 h ?_
      rw [Nat.zero_add]
      exact mem_messageSites_self _ _ _

theorem sorted_fileMessageSites (file : Descriptor.File) :
    (fileMessageSites file).Pairwise fun site other => site.address < other.address :=
  sorted_messageSitesFrom [] [] 0 file.messages

theorem nodup_fileMessageSites (file : Descriptor.File) : (fileMessageSites file).Nodup := by
  refine (sorted_fileMessageSites file).imp ?_
  rintro site _ h rfl
  exact List.lt_irrefl _ h

theorem MessageSite.IsOf.address_ne_nil (h : IsOf file site) : site.address ≠ [] := by
  cases h <;> simp

theorem MessageSite.IsOf.path_ne_nil (h : IsOf file site) : site.path ≠ [] := by
  cases h <;> simp

theorem concat_ne_singleton {α : Type} {items : List α} (h : items ≠ []) (item other : α) :
    items ++ [item] ≠ [other] := by
  intro heq
  have hnil := congrArg List.dropLast heq
  rw [List.dropLast_concat, List.dropLast_singleton] at hnil
  exact h hnil

/-- No two messages have one address. -/
theorem MessageSite.IsOf.eq_of_address (h : IsOf file site) (ho : IsOf file other)
    (heq : site.address = other.address) : site = other := by
  induction h generalizing other with
  | @top position message h =>
    cases ho with
    | top h' =>
      cases heq
      rw [Option.some.inj (h.symm.trans h')]
    | nested howner _ => exact (concat_ne_singleton howner.address_ne_nil _ _ heq.symm).elim
  | @nested owner position message howner h ih =>
    cases ho with
    | top _ => exact (concat_ne_singleton howner.address_ne_nil _ _ heq).elim
    | nested howner' h' =>
      obtain ⟨howners, hpositions⟩ := List.append_inj' heq rfl
      cases ih howner' howners
      cases hpositions
      rw [Option.some.inj (h.symm.trans h')]

def MessageSite.nestedSites (site : MessageSite) : List MessageSite :=
  site.message.nested.zipIdx.map fun (message, position) =>
    ⟨site.address ++ [position], site.path ++ [message.name], message⟩

private theorem mem_nestedSites : other ∈ site.nestedSites ↔
    ∃ (position : Nat) (message : Descriptor.Message),
      site.message.nested[position]? = some message ∧
      other = ⟨site.address ++ [position], site.path ++ [message.name], message⟩ := by
  simp only [nestedSites, List.mem_map, Prod.exists, List.mem_zipIdx_iff_getElem?]
  constructor
  · rintro ⟨message, position, h, rfl⟩
    exact ⟨position, message, h, rfl⟩
  · rintro ⟨position, message, h, rfl⟩
    exact ⟨message, position, h, rfl⟩

private theorem sorted_nestedSites (site : MessageSite) :
    site.nestedSites.Pairwise fun one other => one.address < other.address := by
  refine List.pairwise_map.mpr ((pairwise_zipIdx site.message.nested).imp ?_)
  intro item other h
  exact append_cons_lt site.address h [] []

theorem mem_fileEnumSites {enum : EnumSite} : enum ∈ fileEnumSites file ↔
    (∃ owner, IsOf file owner ∧ enum ∈ enumSites owner.address owner.path owner.message.enums) ∨
      enum ∈ enumSites [] [] file.enums := by
  rw [fileEnumSites, List.mem_append, mem_messageEnumSitesFrom]
  simp only [← mem_fileMessageSites, fileMessageSites]

theorem sorted_fileEnumSites (file : Descriptor.File) :
    (fileEnumSites file).Pairwise fun enum other => other.Follows enum := by
  refine List.pairwise_append.mpr ⟨sorted_messageEnumSitesFrom [] [] 0 file.messages,
    sorted_enumSites [] [] file.enums, fun enum he other ho heq => ?_⟩
  obtain ⟨place, positions, howner⟩ := owner_of_mem_enumSitesIn he
  rw [(mem_enumSites.mp ho).1, howner] at heq
  cases heq

/-- What the file lists one step below a message are the messages nested in it, in their order. -/
theorem filter_fileMessageSites (h : IsOf file site) :
    (fileMessageSites file).filter (fun other => other.address.dropLast = site.address) =
      site.nestedSites := by
  -- Both lists go by addresses, so it is enough that they have the same members.
  refine eq_of_sorted (fun one other hlt hgt => List.lt_asymm hlt hgt)
    ((sorted_fileMessageSites file).filter _) (sorted_nestedSites site) fun other => ?_
  rw [List.mem_filter, mem_fileMessageSites, decide_eq_true_iff, mem_nestedSites]
  constructor
  · rintro ⟨ho, heq⟩
    cases ho with
    | top => exact (h.address_ne_nil heq.symm).elim
    | @nested owner position message ho hinner =>
      rw [List.dropLast_concat] at heq
      cases ho.eq_of_address h heq
      exact ⟨position, message, hinner, rfl⟩
  · rintro ⟨position, message, hinner, rfl⟩
    exact ⟨.nested h hinner, List.dropLast_concat⟩

/-- What the file lists with a message for owner are the enums of the message, in their order. -/
theorem filter_fileEnumSites (h : IsOf file site) :
    (fileEnumSites file).filter (fun enum => enum.owner = site.address) =
      enumSites site.address site.path site.message.enums := by
  have howned : ∀ {sites : List EnumSite}, (∀ enum ∈ sites, enum.owner = site.address) →
      (sites.Pairwise fun enum other => other.Follows enum) →
      sites.Pairwise fun enum other => enum.position < other.position := by
    intro sites hall hsorted
    refine hsorted.imp_of_mem fun he ho hfollows => hfollows ?_
    rw [hall _ he, hall _ ho]
  refine eq_of_sorted (fun one other hlt hgt => Nat.lt_asymm hlt hgt)
    (howned ?_ ((sorted_fileEnumSites file).filter _))
    (howned ?_ (sorted_enumSites site.address site.path site.message.enums)) fun enum => ?_
  · intro enum he
    exact of_decide_eq_true (List.mem_filter.mp he).2
  · intro enum he
    exact (mem_enumSites.mp he).1
  · rw [List.mem_filter, decide_eq_true_iff, mem_fileEnumSites]
    constructor
    · rintro ⟨⟨outer, houter, he⟩ | he, heq⟩
      · rw [(mem_enumSites.mp he).1] at heq
        cases houter.eq_of_address h heq
        exact he
      · exact (h.address_ne_nil (heq.symm.trans (mem_enumSites.mp he).1)).elim
    · intro he
      exact ⟨.inl ⟨site, h, he⟩, (mem_enumSites.mp he).1⟩

end Places

end Source

end ProtoSdl

import ProtoSdl.Proofs.CommentPaths

/-! The paths of declarations and what they are followed to. The messages and enums of a file are
listed with their addresses by walks through the nested declarations; these addresses are the places
that paths lead to. -/
namespace ProtoSdl.Source

def nestedPath : List Nat → List Int
  | [] => []
  | position :: positions => 3 :: (position : Int) :: nestedPath positions

def messagePath : List Nat → List Int
  | [] => []
  | position :: positions => 4 :: (position : Int) :: nestedPath positions

/-- The path of an enum in the message at an address, or at the top of a file. -/
def enumPath : List Nat → Nat → List Int
  | [], position => [5, (position : Int)]
  | owner, position => messagePath owner ++ [4, (position : Int)]

def Target.path : Target → List Int
  | message address => messagePath address
  | field address position => messagePath address ++ [2, (position : Int)]
  | oneof address index => messagePath address ++ [8, index]
  | enum owner position => enumPath owner position
  | enumValue owner position value => enumPath owner position ++ [2, (value : Int)]
  | service position => [6, (position : Int)]
  | method owner position => [6, (owner : Int), 2, (position : Int)]

def MessageAt (file : Descriptor.File) (address : List Nat) (message : Descriptor.Message) : Prop :=
  (Tree.file file).at? (messagePath address) = some (.message message)

def EnumAt (file : Descriptor.File) (owner : List Nat) (position : Nat)
    (enum : Descriptor.Enum) : Prop :=
  (Tree.file file).at? (enumPath owner position) = some (.enum enum)

def Target.IsIn (file : Descriptor.File) : Target → Prop
  | message address => ∃ described, MessageAt file address described
  | field address position =>
    ∃ described, MessageAt file address described ∧ position < described.fields.length
  | oneof address index => ∃ described, MessageAt file address described ∧
    ∃ position : Nat, index = position ∧ position < described.oneofs.length
  | enum owner position => ∃ described, EnumAt file owner position described
  | enumValue owner position value =>
    ∃ described, EnumAt file owner position described ∧ value < described.values.length
  | service position => position < file.services.length
  | method owner position =>
    ∃ described, file.services[owner]? = some described ∧ position < described.methods.length

private theorem nestedPath_append (positions more : List Nat) :
    nestedPath (positions ++ more) = nestedPath positions ++ nestedPath more := by
  induction positions with
  | nil => rfl
  | cons position positions ih => simp [nestedPath, ih]

private theorem messagePath_concat {address : List Nat} (h : address ≠ []) (position : Nat) :
    messagePath (address ++ [position]) = messagePath address ++ [3, (position : Int)] := by
  cases address with
  | nil => exact (h rfl).elim
  | cons first rest => simp [messagePath, nestedPath_append, nestedPath]

theorem enumPath_of_ne_nil {owner : List Nat} (h : owner ≠ []) (position : Nat) :
    enumPath owner position = messagePath owner ++ [4, (position : Int)] := by
  cases owner with
  | nil => exact (h rfl).elim
  | cons first rest => rfl

namespace Tree

@[simp] theorem item?_natCast (listed : List Tree) (position : Nat) :
    item? listed position = listed[position]? := rfl

theorem at?_append {tree item : Tree} {path : List Int} (h : tree.at? path = some item)
    (rest : List Int) : tree.at? (path ++ rest) = item.at? rest := by
  fun_induction at? tree path with
  | case1 tree => cases h; rfl
  | case2 tree number => cases h
  | case3 tree kind index path ih =>
    obtain ⟨child, hc, h⟩ := Option.bind_eq_some_iff.mp h
    rw [List.cons_append, List.cons_append, at?_cons_cons, hc]
    exact ih child h

theorem at?_nestedPath_cons (described : Descriptor.Message) (position : Nat)
    (positions : List Nat) :
    (message described).at? (nestedPath (position :: positions)) =
      (described.nested[position]?).bind fun inner =>
        (message inner).at? (nestedPath positions) := by
  rw [nestedPath, at?_cons_cons, child?_eq rfl, item?_natCast, List.getElem?_map, Option.bind_map]
  rfl

theorem at?_messagePath_cons (described : Descriptor.File) (position : Nat)
    (positions : List Nat) :
    (file described).at? (messagePath (position :: positions)) =
      (described.messages[position]?).bind fun inner =>
        (message inner).at? (nestedPath positions) := by
  rw [messagePath, at?_cons_cons, child?_eq rfl, item?_natCast, List.getElem?_map, Option.bind_map]
  rfl

/-- A path below a nested message passes through it. -/
theorem exists_of_at?_nestedPath {described : Descriptor.Message} {positions : List Nat}
    {rest : List Int} {tree : Tree}
    (h : (message described).at? (nestedPath positions ++ rest) = some tree) :
    ∃ inner, (message described).at? (nestedPath positions) = some (.message inner) ∧
      (message inner).at? rest = some tree := by
  induction positions generalizing described with
  | nil => exact ⟨described, rfl, h⟩
  | cons position positions ih =>
    rw [nestedPath, List.cons_append, List.cons_append, at?_cons_cons, child?_eq rfl, item?_natCast,
      List.getElem?_map, Option.bind_map] at h
    obtain ⟨outer, houter, h⟩ := Option.bind_eq_some_iff.mp h
    obtain ⟨inner, hinner, hrest⟩ := ih h
    exact ⟨inner, by rw [at?_nestedPath_cons, houter]; exact hinner, hrest⟩

end Tree

theorem MessageAt.ne_nil {file : Descriptor.File} {address : List Nat}
    {message : Descriptor.Message} (h : MessageAt file address message) : address ≠ [] := by
  rintro rfl
  cases h

theorem exists_messageAt {file : Descriptor.File} {address : List Nat} (ha : address ≠ [])
    {rest : List Int} {tree : Tree}
    (h : (Tree.file file).at? (messagePath address ++ rest) = some tree) :
    ∃ message, MessageAt file address message ∧ (Tree.message message).at? rest = some tree := by
  cases address with
  | nil => exact (ha rfl).elim
  | cons position positions =>
    rw [messagePath, List.cons_append, List.cons_append, Tree.at?_cons_cons, Tree.child?_eq rfl,
      Tree.item?_natCast, List.getElem?_map, Option.bind_map] at h
    obtain ⟨outer, houter, h⟩ := Option.bind_eq_some_iff.mp h
    obtain ⟨inner, hinner, hrest⟩ := Tree.exists_of_at?_nestedPath h
    refine ⟨inner, ?_, hrest⟩
    rw [MessageAt, Tree.at?_messagePath_cons, houter]
    exact hinner

section Sites

mutual

theorem at?_of_mem_messageSites (address : List Nat) (path : List String) :
    (message : Descriptor.Message) → ∀ site ∈ messageSites address path message,
      site.path.getLast? = some site.message.name ∧
        ∃ positions, site.address = address ++ positions ∧
          (Tree.message message).at? (nestedPath positions) = some (.message site.message)
  | ⟨name, fields, nested, enums, oneofs, isMap⟩ => by
    intro site hs
    rw [messageSites] at hs
    rcases List.mem_cons.mp hs with rfl | hs
    · exact ⟨List.getLast?_concat, [], by simp, rfl⟩
    · obtain ⟨hname, place, positions, inner, hinner, haddress, hat⟩ :=
        at?_of_mem_messageSitesFrom address (path ++ [name]) 0 nested site hs
      refine ⟨hname, place :: positions, by simpa using haddress, ?_⟩
      rw [Tree.at?_nestedPath_cons, hinner]
      exact hat

theorem at?_of_mem_messageSitesFrom (owner : List Nat) (path : List String) (position : Nat) :
    (messages : List Descriptor.Message) → ∀ site ∈ messageSitesFrom owner path position messages,
      site.path.getLast? = some site.message.name ∧
        ∃ place positions message, messages[place]? = some message ∧
          site.address = owner ++ (position + place) :: positions ∧
          (Tree.message message).at? (nestedPath positions) = some (.message site.message)
  | [] => by
    intro site hs
    rw [messageSitesFrom] at hs
    simp at hs
  | message :: messages => by
    intro site hs
    rw [messageSitesFrom] at hs
    rcases List.mem_append.mp hs with hs | hs
    · obtain ⟨hname, positions, haddress, hat⟩ :=
        at?_of_mem_messageSites (owner ++ [position]) path message site hs
      exact ⟨hname, 0, positions, message, rfl, by simpa using haddress, hat⟩
    · obtain ⟨hname, place, positions, inner, hinner, haddress, hat⟩ :=
        at?_of_mem_messageSitesFrom owner path (position + 1) messages site hs
      exact ⟨hname, place + 1, positions, inner, hinner, by rw [haddress]; congr 2; omega, hat⟩

end

theorem messageSites_subset (owner : List Nat) (path : List String) (position : Nat) {place : Nat}
    {messages : List Descriptor.Message} {message : Descriptor.Message}
    (h : messages[place]? = some message) :
    messageSites (owner ++ [position + place]) path message ⊆
      messageSitesFrom owner path position messages := by
  induction messages generalizing position place with
  | nil => cases h
  | cons first messages ih =>
    rw [messageSitesFrom]
    cases place with
    | zero =>
      cases h
      exact List.subset_append_left _ _
    | succ place =>
      have hplace : position + (place + 1) = position + 1 + place := by omega
      rw [hplace]
      exact List.Subset.trans (ih (position + 1) h) (List.subset_append_right _ _)

private theorem exists_site_below (address : List Nat) (path : List String) {positions : List Nat}
    {message inner : Descriptor.Message}
    (h : (Tree.message message).at? (nestedPath positions) = some (.message inner)) :
    ∃ site ∈ messageSites address path message,
      site.address = address ++ positions ∧ site.message = inner := by
  induction positions generalizing message address path with
  | nil =>
    cases h
    obtain ⟨name, fields, nested, enums, oneofs, isMap⟩ := inner
    rw [messageSites]
    exact ⟨_, List.mem_cons_self, by simp, rfl⟩
  | cons position positions ih =>
    rw [Tree.at?_nestedPath_cons] at h
    obtain ⟨outer, houter, hat⟩ := Option.bind_eq_some_iff.mp h
    obtain ⟨name, fields, nested, enums, oneofs, isMap⟩ := message
    obtain ⟨site, hs, haddress, hmessage⟩ := ih (address ++ [position]) (path ++ [name]) hat
    have hsub := messageSites_subset address (path ++ [name]) 0 houter
    rw [Nat.zero_add] at hsub
    rw [messageSites]
    exact ⟨site, List.mem_cons_of_mem _ (hsub hs), by simpa using haddress, hmessage⟩

/-- The messages that a file lists are those that paths lead to. -/
theorem messageAt_iff {file : Descriptor.File} {address : List Nat} {message : Descriptor.Message} :
    MessageAt file address message ↔
      ∃ site ∈ fileMessageSites file, site.address = address ∧ site.message = message := by
  constructor
  · intro h
    cases address with
    | nil => cases h
    | cons position positions =>
      rw [MessageAt, Tree.at?_messagePath_cons] at h
      obtain ⟨outer, houter, hat⟩ := Option.bind_eq_some_iff.mp h
      obtain ⟨site, hs, haddress, hmessage⟩ := exists_site_below [position] [] hat
      have hsub := messageSites_subset [] [] 0 houter
      rw [Nat.zero_add] at hsub
      exact ⟨site, hsub hs, haddress, hmessage⟩
  · rintro ⟨site, hs, rfl, rfl⟩
    obtain ⟨-, place, positions, outer, houter, haddress, hat⟩ :=
      at?_of_mem_messageSitesFrom [] [] 0 file.messages site hs
    rw [MessageAt, haddress, Nat.zero_add, List.nil_append, Tree.at?_messagePath_cons, houter]
    exact hat

mutual

theorem mem_messageEnumSites (address : List Nat) (path : List String) :
    (message : Descriptor.Message) → ∀ site, site ∈ messageEnumSites address path message ↔
      ∃ outer ∈ messageSites address path message,
        site ∈ enumSites outer.address outer.path outer.message.enums
  | ⟨name, fields, nested, enums, oneofs, isMap⟩ => by
    intro site
    rw [messageEnumSites, messageSites, List.mem_append, mem_messageEnumSitesFrom, or_comm]
    simp only [List.mem_cons, exists_eq_or_imp]

theorem mem_messageEnumSitesFrom (owner : List Nat) (path : List String) (position : Nat) :
    (messages : List Descriptor.Message) →
      ∀ site, site ∈ messageEnumSitesFrom owner path position messages ↔
        ∃ outer ∈ messageSitesFrom owner path position messages,
          site ∈ enumSites outer.address outer.path outer.message.enums
  | [] => by
    intro site
    simp [messageEnumSitesFrom, messageSitesFrom]
  | message :: messages => by
    intro site
    rw [messageEnumSitesFrom, messageSitesFrom, List.mem_append, mem_messageEnumSites,
      mem_messageEnumSitesFrom]
    simp only [List.mem_append, or_and_right, exists_or]

end

theorem mem_enumSites {owner : List Nat} {path : List String} {enums : List Descriptor.Enum}
    {site : EnumSite} : site ∈ enumSites owner path enums ↔
      site.owner = owner ∧ site.ownerPath = path ∧ enums[site.position]? = some site.enum := by
  simp only [enumSites, List.mem_map, Prod.exists, List.mem_zipIdx_iff_getElem?]
  constructor
  · rintro ⟨enum, position, hm, rfl⟩
    exact ⟨rfl, rfl, hm⟩
  · rintro ⟨rfl, rfl, hm⟩
    exact ⟨site.enum, site.position, hm, rfl⟩

theorem enumAt_of_message {file : Descriptor.File} {address : List Nat}
    {message : Descriptor.Message} (h : MessageAt file address message) {position : Nat}
    {enum : Descriptor.Enum} : EnumAt file address position enum ↔
      message.enums[position]? = some enum := by
  rw [EnumAt, enumPath_of_ne_nil h.ne_nil, Tree.at?_append h, Tree.at?_cons_cons,
    Tree.child?_eq rfl]
  simp

theorem enumAt_nil {file : Descriptor.File} {position : Nat} {enum : Descriptor.Enum} :
    EnumAt file [] position enum ↔ file.enums[position]? = some enum := by
  rw [EnumAt, enumPath, Tree.at?_cons_cons, Tree.child?_eq rfl]
  simp

/-- The enums that a file lists are those that paths lead to. -/
theorem enumAt_iff {file : Descriptor.File} {owner : List Nat} {position : Nat}
    {enum : Descriptor.Enum} : EnumAt file owner position enum ↔
      ∃ site ∈ fileEnumSites file,
        site.owner = owner ∧ site.position = position ∧ site.enum = enum := by
  simp only [fileEnumSites, List.mem_append, mem_messageEnumSitesFrom, mem_enumSites]
  constructor
  · intro h
    by_cases ho : owner = []
    · subst ho
      exact ⟨⟨[], [], position, enum⟩, .inr ⟨rfl, rfl, enumAt_nil.mp h⟩, rfl, rfl, rfl⟩
    · have hat := h
      rw [EnumAt, enumPath_of_ne_nil ho] at hat
      obtain ⟨message, hmessage, -⟩ := exists_messageAt ho hat
      obtain ⟨outer, houter, rfl, rfl⟩ := messageAt_iff.mp hmessage
      exact ⟨⟨outer.address, outer.path, position, enum⟩,
        .inl ⟨outer, houter, rfl, rfl, (enumAt_of_message hmessage).mp h⟩, rfl, rfl, rfl⟩
  · rintro ⟨site, ⟨outer, houter, ho, -, he⟩ | ⟨ho, -, he⟩, rfl, rfl, rfl⟩
    · rw [ho]
      exact (enumAt_of_message (messageAt_iff.mpr ⟨outer, houter, rfl, rfl⟩)).mpr he
    · rw [ho]
      exact enumAt_nil.mpr he

end Sites

section Following

open Address

variable {file : Descriptor.File} {address : List Nat} {position : Nat} {rest : List Int}

private theorem inMessage_nested {message inner : Descriptor.Message}
    (h : message.nested[position]? = some inner) :
    inMessage address message (3 :: (position : Int) :: rest) =
      inMessage (address ++ [position]) inner rest := by
  rw [inMessage, item_natCast h]
  rfl

private theorem inMessage_field {message : Descriptor.Message} {field : Descriptor.Field}
    (h : message.fields[position]? = some field) :
    inMessage address message [2, (position : Int)] =
      .ok ((fieldPosition? message field.name).map (.field address)) := by
  rw [inMessage, item_natCast h]
  rfl

private theorem inMessage_enum {message : Descriptor.Message} {enum : Descriptor.Enum}
    (h : message.enums[position]? = some enum) :
    inMessage address message (4 :: (position : Int) :: rest) =
      inEnum address position enum rest := by
  rw [inMessage, item_natCast h]
  rfl

private theorem inMessage_oneof {message : Descriptor.Message} {index : Int} :
    inMessage address message [8, index] = .ok (some (.oneof address index)) := by
  rw [inMessage]
  rfl

private theorem inEnum_value {owner : List Nat} {enum : Descriptor.Enum} {value : Nat}
    (h : value < enum.values.length) :
    inEnum owner position enum [2, (value : Int)] =
      .ok (some (.enumValue owner position value)) := by
  rw [inEnum, item_natCast (List.getElem?_eq_getElem h)]
  rfl

private theorem inMessage_nestedPath {positions : List Nat} {message inner : Descriptor.Message}
    (h : (Tree.message message).at? (nestedPath positions) = some (.message inner)) :
    inMessage address message (nestedPath positions ++ rest) =
      inMessage (address ++ positions) inner rest := by
  induction positions generalizing address message with
  | nil =>
    cases h
    rw [List.append_nil]
    rfl
  | cons position positions ih =>
    rw [Tree.at?_nestedPath_cons] at h
    obtain ⟨outer, houter, hat⟩ := Option.bind_eq_some_iff.mp h
    rw [nestedPath, List.cons_append, List.cons_append, inMessage_nested houter, ih hat,
      List.append_assoc]
    rfl

theorem inFile_messagePath {message : Descriptor.Message} (h : MessageAt file address message)
    (rest : List Int) :
    inFile file (messagePath address ++ rest) = inMessage address message rest := by
  cases address with
  | nil => cases h
  | cons position positions =>
    rw [MessageAt, Tree.at?_messagePath_cons] at h
    obtain ⟨outer, houter, hat⟩ := Option.bind_eq_some_iff.mp h
    rw [messagePath, List.cons_append, List.cons_append, inFile, item_natCast houter]
    exact inMessage_nestedPath hat

private theorem inFile_enumPath {owner : List Nat} {enum : Descriptor.Enum}
    (h : EnumAt file owner position enum) (rest : List Int) :
    inFile file (enumPath owner position ++ rest) = inEnum owner position enum rest := by
  by_cases ho : owner = []
  · subst ho
    rw [enumPath, List.cons_append, List.cons_append, inFile, item_natCast (enumAt_nil.mp h)]
    rfl
  · have hat := h
    rw [EnumAt, enumPath_of_ne_nil ho] at hat
    obtain ⟨message, hmessage, -⟩ := exists_messageAt ho hat
    rw [enumPath_of_ne_nil ho, List.append_assoc, inFile_messagePath hmessage]
    exact inMessage_enum ((enumAt_of_message hmessage).mp h)

private theorem inFile_service {service : Descriptor.Service}
    (h : file.services[position]? = some service) :
    inFile file (6 :: (position : Int) :: rest) = inService position service rest := by
  rw [inFile, item_natCast h]
  rfl

private theorem inService_method {service : Descriptor.Service} {method : Nat}
    (h : method < service.methods.length) :
    inService position service [2, (method : Int)] = .ok (some (.method position method)) := by
  rw [inService, item_natCast (List.getElem?_eq_getElem h)]
  rfl

/-- Each field of a message is the one that its name stands for. -/
def FieldsFound (message : Descriptor.Message) : Prop :=
  ∀ position field, message.fields[position]? = some field →
    fieldPosition? message field.name = some position

def NamesFound (file : Descriptor.File) : Prop :=
  ∀ address message, MessageAt file address message → FieldsFound message

/-- The path of a declaration is followed to the declaration. -/
theorem inFile_path (hf : NamesFound file) {target : Target} (h : target.IsIn file) :
    inFile file target.path = .ok (some target) := by
  cases target with
  | message address =>
    obtain ⟨message, hm⟩ := h
    have hfollowed := inFile_messagePath hm []
    rwa [List.append_nil] at hfollowed
  | field address position =>
    obtain ⟨message, hm, hlt⟩ := h
    have hfield := List.getElem?_eq_getElem hlt
    rw [Target.path, inFile_messagePath hm, inMessage_field hfield,
      hf address message hm position _ hfield]
    rfl
  | oneof address index =>
    obtain ⟨message, hm, -⟩ := h
    rw [Target.path, inFile_messagePath hm, inMessage_oneof]
  | enum owner position =>
    obtain ⟨enum, he⟩ := h
    have hfollowed := inFile_enumPath he []
    rwa [List.append_nil] at hfollowed
  | enumValue owner position value =>
    obtain ⟨enum, he, hlt⟩ := h
    rw [Target.path, inFile_enumPath he, inEnum_value hlt]
  | service position =>
    rw [Target.path, inFile_service (List.getElem?_eq_getElem h)]
    rfl
  | method owner position =>
    obtain ⟨service, hs, hlt⟩ := h
    rw [Target.path, inFile_service hs, inService_method hlt]

end Following

section Targets

variable {file : Descriptor.File} {rest : List Int} {tree : Tree}

theorem at?_part (h : Tree.part.at? rest = some tree) : rest = [] := by
  match rest with
  | [] => rfl
  | [_] => cases h
  | kind :: index :: rest => rw [Tree.at?_cons_cons, Tree.child?_part] at h; cases h

theorem child?_listed {kind index : Int} {item : Tree} (h : tree.child? kind index = some item) :
    ∃ (position : Nat) (listed : List Tree), index = position ∧ tree.items kind = some listed ∧
      listed[position]? = some item := by
  obtain ⟨listed, hl, hi⟩ := Option.bind_eq_some_iff.mp h
  cases index with
  | negSucc _ => cases hi
  | ofNat position => exact ⟨position, listed, rfl, hl, hi⟩

theorem of_getElem?_map {α : Type} {items : List α} {form : α → Tree} {position : Nat}
    {item : Tree} (h : (items.map form)[position]? = some item) :
    ∃ inner, items[position]? = some inner ∧ item = form inner := by
  rw [List.getElem?_map] at h
  obtain ⟨inner, hinner, rfl⟩ := Option.map_eq_some_iff.mp h
  exact ⟨inner, hinner, rfl⟩

theorem of_getElem?_parts {α : Type} {items : List α} {position : Nat} {item : Tree}
    (h : (items.map fun _ => Tree.part)[position]? = some item) :
    position < items.length ∧ item = .part := by
  obtain ⟨inner, hinner, rfl⟩ := of_getElem?_map h
  exact ⟨(List.getElem?_eq_some_iff.mp hinner).1, rfl⟩

private theorem child?_message {described : Descriptor.Message} {kind index : Int} {item : Tree}
    (h : (Tree.message described).child? kind index = some item) :
    ∃ position : Nat, index = position ∧
      ((kind = 2 ∧ position < described.fields.length ∧ item = .part) ∨
        (kind = 3 ∧ ∃ inner, described.nested[position]? = some inner ∧ item = .message inner) ∨
        (kind = 4 ∧ ∃ inner, described.enums[position]? = some inner ∧ item = .enum inner) ∨
        (kind = 8 ∧ position < described.oneofs.length ∧ item = .part)) := by
  obtain ⟨position, listed, rfl, hl, hi⟩ := child?_listed h
  refine ⟨position, rfl, ?_⟩
  unfold Tree.items at hl
  -- only the rows of the table that are about messages are left
  split at hl <;> cases hl <;> rename_i heq <;> cases heq
  · exact .inl ⟨rfl, of_getElem?_parts hi⟩
  · exact .inr (.inl ⟨rfl, of_getElem?_map hi⟩)
  · exact .inr (.inr (.inl ⟨rfl, of_getElem?_map hi⟩))
  · exact .inr (.inr (.inr ⟨rfl, of_getElem?_parts hi⟩))

private theorem child?_enum {described : Descriptor.Enum} {kind index : Int} {item : Tree}
    (h : (Tree.enum described).child? kind index = some item) :
    ∃ position : Nat, index = position ∧ kind = 2 ∧ position < described.values.length ∧
      item = .part := by
  obtain ⟨position, listed, rfl, hl, hi⟩ := child?_listed h
  unfold Tree.items at hl
  split at hl <;> cases hl <;> rename_i heq <;> cases heq
  exact ⟨position, rfl, rfl, of_getElem?_parts hi⟩

private theorem child?_service {described : Descriptor.Service} {kind index : Int} {item : Tree}
    (h : (Tree.service described).child? kind index = some item) :
    ∃ position : Nat, index = position ∧ kind = 2 ∧ position < described.methods.length ∧
      item = .part := by
  obtain ⟨position, listed, rfl, hl, hi⟩ := child?_listed h
  unfold Tree.items at hl
  split at hl <;> cases hl <;> rename_i heq <;> cases heq
  exact ⟨position, rfl, rfl, of_getElem?_parts hi⟩

private theorem child?_file {kind index : Int} {item : Tree}
    (h : (Tree.file file).child? kind index = some item) :
    ∃ position : Nat, index = position ∧
      ((kind = 4 ∧ ∃ inner, file.messages[position]? = some inner ∧ item = .message inner) ∨
        (kind = 5 ∧ ∃ inner, file.enums[position]? = some inner ∧ item = .enum inner) ∨
        (kind = 6 ∧ ∃ inner, file.services[position]? = some inner ∧ item = .service inner)) := by
  obtain ⟨position, listed, rfl, hl, hi⟩ := child?_listed h
  refine ⟨position, rfl, ?_⟩
  unfold Tree.items at hl
  split at hl <;> cases hl <;> rename_i heq <;> cases heq
  · exact .inl ⟨rfl, of_getElem?_map hi⟩
  · exact .inr (.inl ⟨rfl, of_getElem?_map hi⟩)
  · exact .inr (.inr ⟨rfl, of_getElem?_map hi⟩)

theorem exists_target_of_enum {owner : List Nat} {position : Nat} {described : Descriptor.Enum}
    (he : EnumAt file owner position described)
    (h : (Tree.enum described).at? rest = some tree) :
    ∃ target : Target, target.path = enumPath owner position ++ rest ∧ target.IsIn file := by
  match rest with
  | [] => exact ⟨.enum owner position, by simp [Target.path], described, he⟩
  | [_] => cases h
  | kind :: index :: rest =>
    rw [Tree.at?_cons_cons] at h
    obtain ⟨item, hc, hat⟩ := Option.bind_eq_some_iff.mp h
    obtain ⟨value, rfl, rfl, hlt, rfl⟩ := child?_enum hc
    obtain rfl := at?_part hat
    exact ⟨.enumValue owner position value, rfl, described, he, hlt⟩

private theorem exists_target_of_service {position : Nat} {described : Descriptor.Service}
    (hs : file.services[position]? = some described)
    (h : (Tree.service described).at? rest = some tree) :
    ∃ target : Target, target.path = 6 :: (position : Int) :: rest ∧ target.IsIn file := by
  match rest with
  | [] => exact ⟨.service position, rfl, (List.getElem?_eq_some_iff.mp hs).1⟩
  | [_] => cases h
  | kind :: index :: rest =>
    rw [Tree.at?_cons_cons] at h
    obtain ⟨item, hc, hat⟩ := Option.bind_eq_some_iff.mp h
    obtain ⟨method, rfl, rfl, hlt, rfl⟩ := child?_service hc
    obtain rfl := at?_part hat
    exact ⟨.method position method, rfl, described, hs, hlt⟩

private theorem exists_target_of_message {address : List Nat} {described : Descriptor.Message}
    {path : List Int} (hm : MessageAt file address described)
    (h : (Tree.message described).at? path = some tree) :
    ∃ target : Target, target.path = messagePath address ++ path ∧ target.IsIn file := by
  match path with
  | [] => exact ⟨.message address, by simp [Target.path], described, hm⟩
  | [_] => cases h
  | kind :: index :: rest =>
    rw [Tree.at?_cons_cons] at h
    obtain ⟨item, hc, hat⟩ := Option.bind_eq_some_iff.mp h
    obtain ⟨position, rfl, ⟨rfl, hlt, rfl⟩ | ⟨rfl, inner, hinner, rfl⟩ | ⟨rfl, inner, hinner, rfl⟩ |
      ⟨rfl, hlt, rfl⟩⟩ := child?_message hc
    · obtain rfl := at?_part hat
      exact ⟨.field address position, rfl, described, hm, hlt⟩
    · have hnested : MessageAt file (address ++ [position]) inner := by
        rw [MessageAt, messagePath_concat hm.ne_nil, Tree.at?_append hm, Tree.at?_cons_cons, hc]
        rfl
      obtain ⟨target, hpath, hin⟩ := exists_target_of_message hnested hat
      exact ⟨target, by rw [hpath, messagePath_concat hm.ne_nil]; simp, hin⟩
    · have hnested := (enumAt_of_message hm).mpr hinner
      obtain ⟨target, hpath, hin⟩ := exists_target_of_enum hnested hat
      exact ⟨target, by rw [hpath, enumPath_of_ne_nil hm.ne_nil]; simp, hin⟩
    · obtain rfl := at?_part hat
      exact ⟨.oneof address position, rfl, described, hm, position, rfl, hlt⟩

/-- A path that leads to a declaration is the path of a target. -/
theorem exists_target {path : List Int} (h : declares file path = true) :
    ∃ target : Target, target.path = path ∧ target.IsIn file := by
  simp only [declares, Bool.and_eq_true, Option.isSome_iff_exists] at h
  obtain ⟨hne, tree, hat⟩ := h
  cases path with
  | nil => cases hne
  | cons kind path =>
    cases path with
    | nil => cases hat
    | cons index rest =>
      rw [Tree.at?_cons_cons] at hat
      obtain ⟨item, hc, hat⟩ := Option.bind_eq_some_iff.mp hat
      obtain ⟨position, rfl, ⟨rfl, inner, hinner, rfl⟩ | ⟨rfl, inner, hinner, rfl⟩ |
        ⟨rfl, inner, hinner, rfl⟩⟩ := child?_file hc
      · have htop : MessageAt file [position] inner := by
          rw [MessageAt, Tree.at?_messagePath_cons, hinner]
          rfl
        exact exists_target_of_message htop hat
      · exact exists_target_of_enum (enumAt_nil.mpr hinner) hat
      · exact exists_target_of_service hinner hat

end Targets

end ProtoSdl.Source

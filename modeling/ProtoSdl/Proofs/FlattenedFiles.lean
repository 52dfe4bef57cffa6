import ProtoSdl.Proofs.DeclarationTrees
import ProtoSdl.Proofs.ReadFiles

/-! Files list their messages and enums flat, and each listed declaration says where it stands. A
message comes before those nested in it and names what it contains in the order of the description;
what it contains names it as its parent. Full names tell the declarations apart wherever names
without dots tell the ones that stand side by side apart. -/
namespace ProtoSdl

namespace Descriptor

/-- Names without dots, by which messages that stand side by side differ, and enums as well. -/
structure File.NamesApart (file : File) : Prop where
  messageNames : ∀ message ∈ preorderOf file.messages, '.' ∉ message.name.toList
  enumNames : ∀ enum ∈ enumsOf file.messages ++ file.enums, '.' ∉ enum.name.toList
  messages : (file.messages.map (·.name)).Nodup
  nested : ∀ message ∈ preorderOf file.messages, (message.nested.map (·.name)).Nodup
  enums : (file.enums.map (·.name)).Nodup
  nestedEnums : ∀ message ∈ preorderOf file.messages, (message.enums.map (·.name)).Nodup

theorem qualifiedName_eq (package : String) (path : List String) :
    qualifiedName package path =
      (if package = "" then "" else "." ++ package) ++ "." ++ ".".intercalate path := by
  unfold qualifiedName
  split
  · rfl
  · rfl

/-- Names without dots can be read off the dotted path. -/
theorem qualifiedName_injective {package : String} {path other : List String}
    (hpath : path ≠ []) (hother : other ≠ []) (hdots : ∀ name ∈ path, '.' ∉ name.toList)
    (hdots' : ∀ name ∈ other, '.' ∉ name.toList)
    (h : qualifiedName package path = qualifiedName package other) : path = other := by
  rw [qualifiedName_eq, qualifiedName_eq] at h
  have hdotted : ".".intercalate path = ".".intercalate other := by
    have htexts := congrArg String.toList h
    rw [String.toList_append, String.toList_append (t := ".".intercalate other)] at htexts
    exact String.toList_inj.mp (List.append_cancel_left htexts)
  calc path
    _ = Text.split '.' (".".intercalate path) := (Text.split_intercalate rfl hpath hdots).symm
    _ = Text.split '.' (".".intercalate other) := by rw [hdotted]
    _ = other := Text.split_intercalate rfl hother hdots'

end Descriptor

namespace Source

open Outcome
open Descriptor (preorderOf enumsOf qualifiedName qualifiedName_injective)
open MessageSite

section Names

variable {file : Descriptor.File} {site other : MessageSite}

theorem MessageSite.IsOf.mem_preorderOf (h : IsOf file site) :
    site.message ∈ preorderOf file.messages := by
  rw [← map_message_messageSitesFrom [] [] 0]
  exact List.mem_map_of_mem (mem_fileMessageSites.mpr h)

/-- An item is found by a name that no other item has. -/
theorem position_of_name {α : Type} {items : List α} {name : α → String}
    (hn : (items.map name).Nodup) {position place : Nat} {item other : α}
    (h : items[position]? = some item) (ho : items[place]? = some other)
    (heq : name item = name other) : position = place := by
  have hlt : position < (items.map name).length := by
    rw [List.length_map]
    exact (List.getElem?_eq_some_iff.mp h).1
  refine (List.getElem?_inj hlt hn).mp ?_
  rw [List.getElem?_map, List.getElem?_map, h, ho, Option.map_some, Option.map_some, heq]

/-- Where names are apart, no two messages have one path. -/
theorem MessageSite.IsOf.eq_of_path (hn : file.NamesApart) (h : IsOf file site)
    (ho : IsOf file other) (heq : site.path = other.path) : site = other := by
  refine h.eq_of_address ho ?_
  -- Upwards: owners with one path are one message, in which the last name stands only once.
  induction h generalizing other with
  | top h =>
    cases ho with
    | top h' => rw [position_of_name hn.messages h h' (List.head_eq_of_cons_eq heq)]
    | nested howner _ => exact (concat_ne_singleton howner.path_ne_nil _ _ heq.symm).elim
  | nested howner h ih =>
    cases ho with
    | top _ => exact (concat_ne_singleton howner.path_ne_nil _ _ heq).elim
    | nested howner' h' =>
      obtain ⟨hpaths, hnames⟩ := List.append_inj' heq rfl
      cases howner.eq_of_address howner' (ih howner' hpaths)
      rw [position_of_name (hn.nested _ howner.mem_preorderOf) h h'
        (List.head_eq_of_cons_eq hnames)]

theorem MessageSite.IsOf.dots (hn : file.NamesApart) (h : IsOf file site) :
    ∀ name ∈ site.path, '.' ∉ name.toList := by
  have hown := hn.messageNames _ h.mem_preorderOf
  induction h with
  | top => exact List.forall_mem_singleton.mpr hown
  | nested howner _ ih =>
    exact List.forall_mem_append.mpr
      ⟨ih (hn.messageNames _ howner.mem_preorderOf), List.forall_mem_singleton.mpr hown⟩

private theorem nodup_messageNames (hn : file.NamesApart) (package : String) :
    ((fileMessageSites file).map fun site => qualifiedName package site.path).Nodup := by
  refine (nodup_fileMessageSites file).map_on fun site hs other ho heq => ?_
  rw [mem_fileMessageSites] at hs ho
  exact hs.eq_of_path hn ho
    (qualifiedName_injective hs.path_ne_nil ho.path_ne_nil (hs.dots hn) (ho.dots hn) heq)

/-- Where names are apart, no two enums have one path. -/
theorem EnumSite.eq_of_path (hn : file.NamesApart) {enum other : EnumSite}
    (he : enum ∈ fileEnumSites file) (ho : other ∈ fileEnumSites file)
    (heq : enum.path = other.path) : enum = other := by
  obtain ⟨hpaths, hnames⟩ := List.append_inj' heq rfl
  replace hnames := List.head_eq_of_cons_eq hnames
  obtain ⟨owner, ownerPath, position, described⟩ := enum
  obtain ⟨owner', ownerPath', position', described'⟩ := other
  simp only at hpaths hnames
  rw [mem_fileEnumSites] at he ho
  simp only [mem_enumSites] at he ho
  rcases he with ⟨site, hs, rfl, rfl, hat⟩ | ⟨rfl, rfl, hat⟩
  · rcases ho with ⟨site', hs', rfl, rfl, hat'⟩ | ⟨rfl, rfl, hat'⟩
    · cases hs.eq_of_path hn hs' hpaths
      cases position_of_name (hn.nestedEnums _ hs.mem_preorderOf) hat hat' hnames
      cases hat.symm.trans hat'
      rfl
    · exact (hs.path_ne_nil hpaths).elim
  · rcases ho with ⟨site', hs', rfl, rfl, hat'⟩ | ⟨rfl, rfl, hat'⟩
    · exact (hs'.path_ne_nil hpaths.symm).elim
    · cases position_of_name hn.enums hat hat' hnames
      cases hat.symm.trans hat'
      rfl

private theorem nodup_fileEnumSites (file : Descriptor.File) : (fileEnumSites file).Nodup := by
  refine (sorted_fileEnumSites file).imp ?_
  rintro enum _ h rfl
  exact Nat.lt_irrefl _ (h rfl)

theorem map_enum_fileEnumSites (file : Descriptor.File) :
    (fileEnumSites file).map (·.enum) = enumsOf file.messages ++ file.enums := by
  rw [fileEnumSites, List.map_append, map_enum_messageEnumSitesFrom, map_enum_enumSites]

theorem EnumSite.dots (hn : file.NamesApart) {enum : EnumSite} (he : enum ∈ fileEnumSites file) :
    ∀ name ∈ enum.path, '.' ∉ name.toList := by
  have hown : '.' ∉ enum.enum.name.toList := by
    refine hn.enumNames _ ?_
    rw [← map_enum_fileEnumSites]
    exact List.mem_map_of_mem he
  refine List.forall_mem_append.mpr ⟨?_, List.forall_mem_singleton.mpr hown⟩
  rcases mem_fileEnumSites.mp he with ⟨site, hs, hin⟩ | hin
  · rw [(mem_enumSites.mp hin).2.1]
    exact hs.dots hn
  · rw [(mem_enumSites.mp hin).2.1]
    exact fun _ h => absurd h List.not_mem_nil

private theorem nodup_enumNames (hn : file.NamesApart) (package : String) :
    ((fileEnumSites file).map fun enum => qualifiedName package enum.path).Nodup := by
  refine (nodup_fileEnumSites file).map_on fun enum he other ho heq => ?_
  refine EnumSite.eq_of_path hn he ho (qualifiedName_injective ?_ ?_ (EnumSite.dots hn he)
    (EnumSite.dots hn ho) heq)
  · exact List.concat_ne_nil _ _
  · exact List.concat_ne_nil _ _

end Names

section Reading

structure Message.StandsAt (package : String) (site : MessageSite) (message : Message) : Prop where
  mirrors : Message.Mirrors site.message message
  address : message.address = site.address
  path : message.path = site.path
  fullName : message.fullName = qualifiedName package site.path
  parent : message.parent =
    if site.path.length ≤ 1 then none else some (qualifiedName package site.path.dropLast)
  nested : message.nested =
    site.message.nested.map fun inner => qualifiedName package (site.path ++ [inner.name])
  enums : message.enums =
    site.message.enums.map fun inner => qualifiedName package (site.path ++ [inner.name])

structure Enum.StandsAt (package : String) (site : EnumSite) (enum : Enum) : Prop where
  mirrors : Enum.Mirrors site.enum enum
  owner : enum.owner = site.owner
  position : enum.position = site.position
  path : enum.path = site.path
  fullName : enum.fullName = qualifiedName package site.path
  parent : enum.parent =
    if site.owner = [] then none else some (qualifiedName package site.ownerPath)

variable {index : Options.Index} {position : Nat} {described : Descriptor.File} {file : File}

theorem Message.ofSite_standsAt {home : Home} {site : MessageSite} {message : Message}
    (hs : IsOf described site) (h : Message.ofSite index home site = .ok message) (notes : Notes) :
    Message.StandsAt home.package site (message.annotate notes) := by
  have hname : site.path.getLast? = some site.message.name := by
    cases hs with
    | top => rfl
    | nested => exact List.getLast?_concat
  have hmirrors := (Message.ofSite_mirrors hname h).2.annotate notes
  obtain ⟨memberships, -, h⟩ := bind_eq_ok.mp h
  obtain ⟨fields, -, h⟩ := bind_eq_ok.mp h
  cases h
  exact ⟨hmirrors, rfl, rfl, rfl, by simp only [Message.annotate], rfl, rfl⟩

theorem File.ofDescriptor_messages (h : File.ofDescriptor index position described = .ok file) :
    List.Forall₂ (Message.StandsAt described.package) (fileMessageSites described)
      file.messages := by
  obtain ⟨-, messages, notes, -, hmessages, -, hm, -, -⟩ := ofDescriptor_eq_ok h
  rw [hm, List.forall₂_map_right_iff]
  refine ((List.forall₂_and_left _ _).mpr
    ⟨fun site => mem_fileMessageSites.mp, mapM_eq_ok.mp hmessages⟩).imp ?_
  rintro site message ⟨hs, hof⟩
  exact Message.ofSite_standsAt hs hof notes

theorem File.ofDescriptor_enums (h : File.ofDescriptor index position described = .ok file) :
    List.Forall₂ (Enum.StandsAt described.package) (fileEnumSites described) file.enums := by
  obtain ⟨-, -, notes, -, -, -, -, he, -⟩ := ofDescriptor_eq_ok h
  rw [he, List.forall₂_map_right_iff, List.forall₂_map_right_iff]
  refine List.forall₂_same.mpr fun site _ => ?_
  exact ⟨Enum.annotate_ofSite_mirrors index _ notes site, rfl, rfl, rfl, rfl,
    by simp only [Enum.annotate, Enum.ofSite, Home.ofDescriptor]⟩

/-- The messages that stand directly in the one at an address. -/
def File.messagesIn (file : File) (address : List Nat) : List Message :=
  file.messages.filter fun message => message.address.dropLast = address

def File.enumsIn (file : File) (address : List Nat) : List Enum :=
  file.enums.filter fun enum => enum.owner = address

theorem File.messagesIn_standAt (h : File.ofDescriptor index position described = .ok file)
    {site : MessageSite} (hs : IsOf described site) :
    List.Forall₂ (Message.StandsAt described.package) site.nestedSites
      (file.messagesIn site.address) := by
  rw [← filter_fileMessageSites hs]
  refine List.rel_filter (fun other message hstands => ?_) (File.ofDescriptor_messages h)
  simp only [hstands.address]

theorem File.enumsIn_standAt (h : File.ofDescriptor index position described = .ok file)
    {site : MessageSite} (hs : IsOf described site) :
    List.Forall₂ (Enum.StandsAt described.package)
      (enumSites site.address site.path site.message.enums) (file.enumsIn site.address) := by
  rw [← filter_fileEnumSites hs]
  refine List.rel_filter (fun other enum hstands => ?_) (File.ofDescriptor_enums h)
  simp only [hstands.owner]

/-- The message of the flat list that a described message became. Its owner, if it has one, is
another message of the list, and what it names as nested in it is what the list has one step below
it. -/
structure Message.LiesIn (described : Descriptor.File) (file : File) (origin : Descriptor.Message)
    (message : Message) : Prop where
  mirrors : Message.Mirrors origin message
  stands : MessageAt described message.address origin
  fullName : message.fullName =
    (if described.package = "" then "" else "." ++ described.package) ++ "." ++
      ".".intercalate message.path
  owner : (message.address.length = 1 ∧ message.parent = none ∧ message.path = [origin.name]) ∨
    ∃ owner ∈ file.messages, message.address.dropLast = owner.address ∧
      message.parent = some owner.fullName ∧ message.path = owner.path ++ [origin.name]
  nested : message.nested = (file.messagesIn message.address).map (·.fullName)
  nestedOrder : List.Forall₂ Message.Mirrors origin.nested (file.messagesIn message.address)
  enums : message.enums = (file.enumsIn message.address).map (·.fullName)
  enumsOrder : List.Forall₂ Enum.Mirrors origin.enums (file.enumsIn message.address)

/-- The enum of the flat list that a described enum became. -/
structure Enum.LiesIn (described : Descriptor.File) (file : File) (origin : Descriptor.Enum)
    (enum : Enum) : Prop where
  mirrors : Enum.Mirrors origin enum
  stands : EnumAt described enum.owner enum.position origin
  fullName : enum.fullName =
    (if described.package = "" then "" else "." ++ described.package) ++ "." ++
      ".".intercalate enum.path
  owner : (enum.owner = [] ∧ enum.parent = none ∧ enum.path = [origin.name]) ∨
    ∃ owner ∈ file.messages, enum.owner = owner.address ∧
      enum.parent = some owner.fullName ∧ enum.path = owner.path ++ [origin.name]

private theorem map_nestedSites {α : Type} (site : MessageSite)
    (view : List String → Descriptor.Message → α) :
    (site.nestedSites.map fun other => view other.path other.message) =
      site.message.nested.map fun message => view (site.path ++ [message.name]) message := by
  rw [nestedSites, List.map_map]
  conv_rhs => rw [← List.zipIdx_map_fst 0 site.message.nested, List.map_map]
  rfl

theorem Message.StandsAt.liesIn (h : File.ofDescriptor index position described = .ok file)
    {site : MessageSite} {message : Message} (hs : IsOf described site)
    (hstands : Message.StandsAt described.package site message) :
    Message.LiesIn described file site.message message := by
  have hnested := File.messagesIn_standAt h hs
  have henums := File.enumsIn_standAt h hs
  rw [← hstands.address] at hnested
  refine ⟨hstands.mirrors, messageAt_iff.mpr ⟨site, mem_fileMessageSites.mpr hs,
    hstands.address.symm, rfl⟩, ?_, ?_, ?_, ?_, ?_, ?_⟩
  · rw [hstands.fullName, hstands.path, Descriptor.qualifiedName_eq]
  · obtain ⟨-, haddress, hpath, -, hparent, -, -⟩ := hstands
    cases hs with
    | top => exact .inl ⟨by rw [haddress]; rfl, hparent, hpath⟩
    | @nested owner place inner ho hinner =>
      obtain ⟨outer, hin, houter⟩ :=
        exists_related (File.ofDescriptor_messages h) (mem_fileMessageSites.mpr ho)
      refine .inr ⟨outer, hin, ?_, ?_, ?_⟩
      · rw [haddress, houter.address, List.dropLast_concat]
      · have hlength := List.length_pos_iff.mpr ho.path_ne_nil
        rw [hparent, houter.fullName, List.dropLast_concat, if_neg]
        rw [List.length_append, List.length_singleton]
        omega
      · rw [hpath, houter.path]
  · rw [hstands.nested, map_related hnested _ _ fun _ _ hinner => hinner.fullName]
    exact (map_nestedSites site fun path _ => qualifiedName described.package path).symm
  · have hmirrors := hnested.imp fun _ _ hinner => hinner.mirrors
    rw [← List.forall₂_map_left_iff] at hmirrors
    rwa [map_nestedSites site fun _ message => message, List.map_id'] at hmirrors
  · rw [hstands.enums, hstands.address,
      map_related henums _ _ fun _ _ hinner => hinner.fullName]
    conv_lhs => rw [← map_enum_enumSites site.address site.path site.message.enums, List.map_map]
    refine List.map_congr_left fun enum he => ?_
    rw [EnumSite.path, (mem_enumSites.mp he).2.1]
    rfl
  · have hmirrors := henums.imp fun _ _ hinner => hinner.mirrors
    rwa [← List.forall₂_map_left_iff, map_enum_enumSites, ← hstands.address] at hmirrors

theorem Enum.StandsAt.liesIn (h : File.ofDescriptor index position described = .ok file)
    {site : EnumSite} {enum : Enum} (hs : site ∈ fileEnumSites described)
    (hstands : Enum.StandsAt described.package site enum) :
    Enum.LiesIn described file site.enum enum := by
  refine ⟨hstands.mirrors, enumAt_iff.mpr ⟨site, hs, hstands.owner.symm, hstands.position.symm,
    rfl⟩, ?_, ?_⟩
  · rw [hstands.fullName, hstands.path, Descriptor.qualifiedName_eq]
  · rcases mem_fileEnumSites.mp hs with ⟨owner, ho, hin⟩ | hin
    · obtain ⟨howner, hpath, -⟩ := mem_enumSites.mp hin
      obtain ⟨outer, hmem, houter⟩ :=
        exists_related (File.ofDescriptor_messages h) (mem_fileMessageSites.mpr ho)
      refine .inr ⟨outer, hmem, ?_, ?_, ?_⟩
      · rw [hstands.owner, howner, houter.address]
      · rw [hstands.parent, howner, if_neg ho.address_ne_nil, hpath, houter.fullName]
      · rw [hstands.path, EnumSite.path, hpath, houter.path]
    · obtain ⟨howner, hpath, -⟩ := mem_enumSites.mp hin
      refine .inl ⟨?_, ?_, ?_⟩
      · rw [hstands.owner, howner]
      · rw [hstands.parent, if_pos howner]
      · rw [hstands.path, EnumSite.path, hpath]
        rfl

theorem File.exists_liesIn_of_message
    (h : File.ofDescriptor index position described = .ok file) {message : Message}
    (hm : message ∈ file.messages) : ∃ origin, Message.LiesIn described file origin message := by
  obtain ⟨site, hs, hstands⟩ := exists_related (File.ofDescriptor_messages h).flip hm
  exact ⟨site.message, hstands.liesIn h (mem_fileMessageSites.mp hs)⟩

theorem File.exists_liesIn_of_enum
    (h : File.ofDescriptor index position described = .ok file) {enum : Enum}
    (he : enum ∈ file.enums) : ∃ origin, Enum.LiesIn described file origin enum := by
  obtain ⟨site, hs, hstands⟩ := exists_related (File.ofDescriptor_enums h).flip he
  exact ⟨site.enum, hstands.liesIn h hs⟩

end Reading

/-- A file that was read lists each message before those nested in it, in the order of their
addresses, and each enum once, inner ones before those of the message around them. Every one of them
has the name of its owner with its own name after it, and the owner names it in the order of the
description. If names are apart, so are full names. -/
theorem file_lists_its_tree (index : Options.Index) (position : Nat) (described : Descriptor.File)
    (file : File) (h : File.ofDescriptor index position described = .ok file) :
    List.Forall₂ (Message.LiesIn described file) (preorderOf described.messages) file.messages ∧
    List.Forall₂ (Enum.LiesIn described file) (enumsOf described.messages ++ described.enums)
      file.enums ∧
    (file.messages.map (·.address)).Pairwise (· < ·) ∧
    (file.enums.map fun enum => (enum.owner, enum.position)).Nodup ∧
    (described.NamesApart →
      (file.messages.map (·.fullName)).Nodup ∧ (file.enums.map (·.fullName)).Nodup) := by
  have hmessages := File.ofDescriptor_messages h
  have henums := File.ofDescriptor_enums h
  refine ⟨?_, ?_, ?_, ?_, fun hn => ⟨?_, ?_⟩⟩
  · rw [← map_message_messageSitesFrom [] [] 0, List.forall₂_map_left_iff]
    refine ((List.forall₂_and_left _ _).mpr
      ⟨fun site => mem_fileMessageSites.mp, hmessages⟩).imp ?_
    rintro site message ⟨hs, hstands⟩
    exact hstands.liesIn h hs
  · rw [← map_enum_fileEnumSites, List.forall₂_map_left_iff]
    refine ((List.forall₂_and_left _ _).mpr ⟨fun site hs => hs, henums⟩).imp ?_
    rintro site enum ⟨hs, hstands⟩
    exact hstands.liesIn h hs
  · rw [map_related hmessages _ _ fun _ _ hstands => hstands.address, List.pairwise_map]
    exact sorted_fileMessageSites described
  · rw [map_related henums _ (fun site => (site.owner, site.position)) fun _ _ hstands => by
      rw [hstands.owner, hstands.position]]
    refine List.pairwise_map.mpr ((sorted_fileEnumSites described).imp ?_)
    intro site other hfollows heq
    obtain ⟨howner, hposition⟩ := Prod.mk.inj heq
    exact Nat.ne_of_lt (hfollows howner) hposition
  · rw [map_related hmessages _ _ fun _ _ hstands => hstands.fullName]
    exact nodup_messageNames hn described.package
  · rw [map_related henums _ _ fun _ _ hstands => hstands.fullName]
    exact nodup_enumNames hn described.package

/-- Drawers in a cabinet and in a desk, and an enum of one name at every level. -/
def office : Descriptor.File :=
  { name := "office.proto"
    package := "office"
    messages := [
      { name := "Cabinet"
        nested := [
          { name := "Drawer"
            nested := [{ name := "Folder", enums := [{ name := "Tab" }, { name := "Color" }] }]
            enums := [{ name := "Color" }] },
          { name := "Label" }]
        enums := [{ name := "Color" }] },
      { name := "Desk", nested := [{ name := "Drawer" }] }]
    enums := [{ name := "Color" }] }

private theorem office_namesApart : office.NamesApart := by
  constructor <;> decide

/-- The office is read, its cabinet first and the color at its top last, and no name is taken
twice. -/
theorem office_lists_its_tree : ∃ file, File.ofDescriptor {} 0 office = .ok file ∧
    file.messages.map (·.fullName) = [".office.Cabinet", ".office.Cabinet.Drawer",
      ".office.Cabinet.Drawer.Folder", ".office.Cabinet.Label", ".office.Desk",
      ".office.Desk.Drawer"] ∧
    file.enums.map (·.fullName) = [".office.Cabinet.Drawer.Folder.Tab",
      ".office.Cabinet.Drawer.Folder.Color", ".office.Cabinet.Drawer.Color",
      ".office.Cabinet.Color", ".office.Color"] ∧
    List.Forall₂ (Message.LiesIn office file) (preorderOf office.messages) file.messages ∧
    List.Forall₂ (Enum.LiesIn office file) (enumsOf office.messages ++ office.enums) file.enums ∧
    (file.messages.map (·.fullName)).Nodup ∧ (file.enums.map (·.fullName)).Nodup := by
  obtain ⟨file, hfile, hmessages, henums⟩ : ∃ file, File.ofDescriptor {} 0 office = .ok file ∧
      file.messages.map (·.fullName) = _ ∧ file.enums.map (·.fullName) = _ := ⟨_, rfl, rfl, rfl⟩
  obtain ⟨htree, hinner, -, -, hnames⟩ := file_lists_its_tree {} 0 office file hfile
  exact ⟨file, hfile, hmessages, henums, htree, hinner, hnames office_namesApart⟩

end Source

end ProtoSdl

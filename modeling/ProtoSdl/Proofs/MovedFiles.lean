import ProtoSdl.Proofs.Likeness

/-! Files at other places among the input files. The place of a file is all that its declarations
show of the files around it, so whatever is declared in some files is declared, moved, in any files
that hold them; and a catalog of the latter includes a catalog of the former. -/
namespace ProtoSdl

namespace Source

open Outcome
open Descriptor (qualifiedName)

section Names

def describedMessages (described : List Descriptor.File) : List String :=
  described.flatMap fun file =>
    (fileMessageSites file).map fun site => qualifiedName file.package site.path

def describedEnums (described : List Descriptor.File) : List String :=
  described.flatMap fun file =>
    (fileEnumSites file).map fun site => qualifiedName file.package site.path

def describedServices (described : List Descriptor.File) : List String :=
  described.flatMap fun file =>
    file.services.map fun service => qualifiedName file.package [service.name]

/-- No two described files have one name, and no two messages, enums or services have one qualified
name. -/
structure DistinctNames (described : List Descriptor.File) : Prop where
  fileNames : (described.map (·.name)).Nodup
  messageNames : (describedMessages described).Nodup
  enumNames : (describedEnums described).Nodup
  serviceNames : (describedServices described).Nodup

variable {index : Options.Index} {described : List Descriptor.File} {files : List File}

theorem File.ofDescriptor_names {position : Nat} {source : Descriptor.File} {file : File}
    (h : File.ofDescriptor index position source = .ok file) :
    file.messages.map (·.fullName) =
      (fileMessageSites source).map (fun site => qualifiedName source.package site.path) ∧
    file.enums.map (·.fullName) =
      (fileEnumSites source).map (fun site => qualifiedName source.package site.path) ∧
    file.services.map (·.fullName) =
      source.services.map fun service => qualifiedName source.package [service.name] := by
  obtain ⟨services, hservices, h⟩ := bind_eq_ok.mp h
  obtain ⟨messages, hmessages, h⟩ := bind_eq_ok.mp h
  obtain ⟨notes, -, h⟩ := bind_eq_ok.mp h
  cases h
  have hmessage : messages.map (·.fullName) =
      (fileMessageSites source).map fun site => qualifiedName source.package site.path := by
    refine map_results hmessages _ _ fun site message hsite => ?_
    obtain ⟨memberships, -, hsite⟩ := bind_eq_ok.mp hsite
    obtain ⟨fields, -, hsite⟩ := bind_eq_ok.mp hsite
    cases hsite
    rfl
  have hservice : services.map (·.fullName) =
      source.services.map fun service => qualifiedName source.package [service.name] := by
    refine map_results hservices _ _ fun one service hone => ?_
    obtain ⟨methods, -, hone⟩ := bind_eq_ok.mp hone
    cases hone
    rfl
  refine ⟨?_, ?_, ?_⟩
  · rw [← hmessage, List.map_map]
    rfl
  · rw [List.map_map, List.map_map]
    rfl
  · rw [← hservice, List.map_map, ← List.zipIdx_map_fst 0 services, List.map_map]
    simp only [List.zipIdx_map_fst]
    rfl

private theorem flatMap_results {α : Type} (h : Wrapped index described files) (g : File → List α)
    (k : Descriptor.File → List α)
    (hg : ∀ position source file, File.ofDescriptor index position source = .ok file →
      g file = k source) : files.flatMap g = described.flatMap k := by
  have hlists := map_results h g (fun placed => k placed.1)
    fun placed file hof => hg placed.2 placed.1 file hof
  have hfst : described.zipIdx.map (fun placed => k placed.1) = described.map k := by
    rw [← List.zipIdx_map_fst 0 described, List.map_map]
    simp [Function.comp_def]
  rw [List.flatMap_def, List.flatMap_def, hlists, hfst]

theorem Wrapped.messageNames (h : Wrapped index described files) :
    (allMessages files).map (·.fullName) = describedMessages described := by
  rw [allMessages, List.map_flatMap]
  exact flatMap_results h _ _ fun _ _ _ hof => (File.ofDescriptor_names hof).1

theorem Wrapped.enumNames (h : Wrapped index described files) :
    (allEnums files).map (·.fullName) = describedEnums described := by
  rw [allEnums, List.map_flatMap]
  exact flatMap_results h _ _ fun _ _ _ hof => (File.ofDescriptor_names hof).2.1

theorem Wrapped.serviceNames (h : Wrapped index described files) :
    (allServices files).map (·.fullName) = describedServices described := by
  rw [allServices, List.map_flatMap]
  exact flatMap_results h _ _ fun _ _ _ hof => (File.ofDescriptor_names hof).2.2

/-- The declarations of files without repeated names have no repeated names. -/
theorem Wrapped.distinct (h : Wrapped index described files) (hd : DistinctNames described) :
    Distinct files := by
  refine ⟨?_, ?_, ?_, ?_⟩
  · rw [h.names]
    exact hd.fileNames
  · rw [h.messageNames]
    exact hd.messageNames
  · rw [h.enumNames]
    exact hd.enumNames
  · rw [h.serviceNames]
    exact hd.serviceNames

end Names

section Moved

def File.movedTo (position : Nat) (file : File) : File :=
  { home := file.home.movedTo position
    messages := file.messages.map (·.movedTo position)
    enums := file.enums.map (·.movedTo position)
    services := file.services.map (·.movedTo position) }

variable {index : Options.Index} {home : Home} {position place : Nat}

theorem Message.ofSite_movedTo {site : MessageSite} {message : Message}
    (h : Message.ofSite index home site = .ok message) :
    Message.ofSite index (home.movedTo place) site = .ok (message.movedTo place) := by
  obtain ⟨memberships, hmemberships, h⟩ := bind_eq_ok.mp h
  obtain ⟨fields, hfields, h⟩ := bind_eq_ok.mp h
  cases h
  exact bind_eq_ok.mpr ⟨memberships, hmemberships, bind_eq_ok.mpr ⟨fields, hfields, rfl⟩⟩

theorem Service.ofDescriptor_movedTo {described : Descriptor.Service} {service : Service}
    (h : Service.ofDescriptor index home described = .ok service) :
    Service.ofDescriptor index (home.movedTo place) described = .ok (service.movedTo place) := by
  obtain ⟨methods, hmethods, h⟩ := bind_eq_ok.mp h
  cases h
  exact bind_eq_ok.mpr ⟨methods, hmethods, rfl⟩

/-- A file that is read at one place is read at any other, with nothing changed but the place. -/
theorem File.ofDescriptor_movedTo {source : Descriptor.File} {file : File}
    (h : File.ofDescriptor index position source = .ok file) :
    File.ofDescriptor index place source = .ok (file.movedTo place) := by
  obtain ⟨services, hservices, h⟩ := bind_eq_ok.mp h
  obtain ⟨messages, hmessages, h⟩ := bind_eq_ok.mp h
  obtain ⟨notes, hnotes, h⟩ := bind_eq_ok.mp h
  cases h
  let home := Home.ofDescriptor index position source
  have hservices' : source.services.mapM (Service.ofDescriptor index (home.movedTo place)) =
      .ok (services.map (·.movedTo place)) :=
    mapM_map (fun _ _ => Service.ofDescriptor_movedTo) hservices
  have hmessages' : (fileMessageSites source).mapM (Message.ofSite index (home.movedTo place)) =
      .ok (messages.map (·.movedTo place)) :=
    mapM_map (fun _ _ => Message.ofSite_movedTo) hmessages
  -- the notes are read from the described file alone and stay as they are
  refine bind_eq_ok.mpr ⟨_, hservices', bind_eq_ok.mpr ⟨_, hmessages',
    bind_eq_ok.mpr ⟨notes, hnotes, ?_⟩⟩⟩
  refine congrArg Except.ok ?_
  simp only [File.movedTo, File.mk.injEq, List.map_map, List.zipIdx_map]
  exact ⟨rfl, rfl, rfl, rfl⟩

/-- Whatever is declared in the one files is declared in the others too, at some place. -/
def Within (files others : List File) : Prop :=
  ∀ file ∈ files, ∃ position, file.movedTo position ∈ others

variable {described described' : List Descriptor.File} {files others : List File}

theorem Wrapped.within (h : Wrapped index described files) (h' : Wrapped index described' others)
    (hsub : described ⊆ described') : Within files others := by
  intro file hf
  obtain ⟨⟨source, position⟩, hs, hof⟩ := exists_of_mem_results h hf
  have hm := hsub (List.fst_mem_of_mem_zipIdx hs)
  rw [← List.zipIdx_map_fst 0 described'] at hm
  obtain ⟨⟨_, place⟩, hpair, rfl⟩ := List.mem_map.mp hm
  obtain ⟨other, ho, hother⟩ := exists_of_mem_mapM h' hpair
  cases (File.ofDescriptor_movedTo hof).symm.trans hother
  exact ⟨place, ho⟩

/-- Files can be read exactly if each of them can. -/
theorem Wrapped.exists_of_subset (h : Wrapped index described files)
    (hsub : described' ⊆ described) : ∃ others, Wrapped index described' others := by
  apply exists_mapM_ok
  rintro ⟨source, place⟩ hs
  have hm := hsub (List.fst_mem_of_mem_zipIdx hs)
  rw [← List.zipIdx_map_fst 0 described] at hm
  obtain ⟨⟨_, position⟩, hpair, rfl⟩ := List.mem_map.mp hm
  obtain ⟨file, -, hof⟩ := exists_of_mem_mapM h hpair
  exact ⟨_, File.ofDescriptor_movedTo hof⟩

namespace Within

private theorem exists_moved {α : Type} (h : Within files others) {part : File → List α}
    {move : Nat → α → α}
    (hpart : ∀ position file, part (file.movedTo position) = (part file).map (move position))
    {item : α} (hi : item ∈ files.flatMap part) :
    ∃ position, move position item ∈ others.flatMap part := by
  obtain ⟨file, hf, hin⟩ := List.mem_flatMap.mp hi
  obtain ⟨position, ho⟩ := h file hf
  refine ⟨position, List.mem_flatMap.mpr ⟨_, ho, ?_⟩⟩
  rw [hpart]
  exact List.mem_map_of_mem hin

theorem message (h : Within files others) {message : Message} (hm : message ∈ allMessages files) :
    ∃ position, message.movedTo position ∈ allMessages others :=
  h.exists_moved (fun _ _ => rfl) hm

theorem enum (h : Within files others) {enum : Enum} (he : enum ∈ allEnums files) :
    ∃ position, enum.movedTo position ∈ allEnums others :=
  h.exists_moved (fun _ _ => rfl) he

theorem service (h : Within files others) {service : Service} (hs : service ∈ allServices files) :
    ∃ position, service.movedTo position ∈ allServices others :=
  h.exists_moved (fun _ _ => rfl) hs

end Within

end Moved

end Source

namespace Mapping.Catalog

open Source (allMessages allEnums allServices)

variable {P : Source.Home → Prop} {files others : List Source.File}

theorem includes_of_within (hd : Source.Distinct others) (h : Source.Within files others)
    (hmessages : ∀ message ∈ allMessages files, P message.home)
    (henums : ∀ enum ∈ allEnums files, P enum.home) :
    (ofFiles files).Includes P (ofFiles others) := by
  refine ⟨fun name message hm => ?_, fun name enum he => ?_⟩
  · obtain ⟨hin, rfl⟩ := of_get?_messages hm
    obtain ⟨position, ho⟩ := h.message hin
    exact ⟨_, (get?_messages hd).mpr ⟨ho, rfl⟩, hmessages message hin, position, rfl⟩
  · obtain ⟨hin, rfl⟩ := of_get?_enums he
    obtain ⟨position, ho⟩ := h.enum hin
    exact ⟨_, (get?_enums hd).mpr ⟨ho, rfl⟩, henums enum hin, position, rfl⟩

theorem service_of_within (hd : Source.Distinct files) (hd' : Source.Distinct others)
    (h : Source.Within files others) {service : Source.Service}
    (hs : service ∈ (ofFiles files).services) :
    ∃ position, service.movedTo position ∈ (ofFiles others).services := by
  rw [services_ofFiles hd, List.mem_filter] at hs
  obtain ⟨position, ho⟩ := h.service hs.1
  rw [services_ofFiles hd']
  exact ⟨position, List.mem_filter.mpr ⟨ho, hs.2⟩⟩

end Mapping.Catalog

end ProtoSdl

import ProtoSdl.Proofs.CommentTargets
import ProtoSdl.Proofs.SourceFiles

/-! Files as they are read, against their descriptions and their notes. A file that was read has
declarations at the places of the described ones and nowhere else, with the same names; each carries
the comment that the notes hold for its place. -/
namespace ProtoSdl.Source

open Outcome

/-- Items that are changed by their positions keep their places. -/
theorem getElem?_map_zipIdx {α β : Type} (items : List α) (change : α × Nat → β) (position : Nat) :
    (items.zipIdx.map change)[position]? =
      (items[position]?).map fun item => change (item, position) := by
  rw [List.getElem?_map, List.getElem?_zipIdx, Option.map_map, Nat.zero_add]
  rfl

section Messages

/-- What a oneof member says of its place. -/
theorem membership?_eq_some {oneofs : List String} {field : Descriptor.Field} {place : Membership}
    (h : membership? oneofs field = .ok (some place)) :
    field.isMember = true ∧ field.oneofIndex = some place.written ∧
      Descriptor.position? oneofs.length place.written = some place.position := by
  unfold membership? at h
  split at h
  · simp at h
  · rename_i hoptional
    split at h
    · simp at h
    · rename_i written hwritten
      split at h
      · simp at h
      · rename_i position hposition
        simp only [Except.ok.injEq, Option.some.injEq] at h
        subst h
        exact ⟨by simp [Descriptor.Field.isMember, hwritten, hoptional], hwritten, hposition⟩

theorem membership?_of_isMember {oneofs : List String} {field : Descriptor.Field}
    {membership : Option Membership} (h : membership? oneofs field = .ok membership)
    (hm : field.isMember = true) : ∃ place, membership = some place := by
  unfold membership? at h
  simp only [Descriptor.Field.isMember, Bool.and_eq_true, Bool.not_eq_true',
    Option.isSome_iff_exists] at hm
  obtain ⟨⟨written, hwritten⟩, hoptional⟩ := hm
  simp only [hoptional, hwritten] at h
  split at h
  · rename_i htrue
    cases htrue
  · split at h
    · cases h
    · cases h
      exact ⟨_, rfl⟩

/-- A message is the one described, as far as comments can belong to its parts. -/
structure Message.Mirrors (described : Descriptor.Message) (message : Message) : Prop where
  name : message.name = described.name
  oneofs : message.oneofNames = described.oneofs
  fields : message.fields.map (·.name) = described.fields.map (·.name)
  memberships : described.fields.mapM (membership? described.oneofs) =
    .ok (message.fields.map (·.membership))

theorem Message.ofSite_mirrors {index : Options.Index} {home : Home} {site : MessageSite}
    {message : Message} (hname : site.path.getLast? = some site.message.name)
    (h : Message.ofSite index home site = .ok message) :
    message.address = site.address ∧ Message.Mirrors site.message message := by
  obtain ⟨memberships, hmemberships, h⟩ := bind_eq_ok.mp h
  obtain ⟨fields, hfields, h⟩ := bind_eq_ok.mp h
  cases h
  have hlength := (mapM_eq_ok.mp hmemberships).length_eq
  have hnames := map_results hfields Field.name (·.1.name) fun entry field hof => by
    obtain ⟨key, -, hof⟩ := bind_eq_ok.mp hof
    cases hof
    rfl
  have hplaces := map_results hfields Field.membership (·.2) fun entry field hof =>
    Field.ofDescriptor_membership hof
  rw [List.map_snd_zip (Nat.le_of_eq hlength.symm)] at hplaces
  refine ⟨rfl, by rw [Message.name, hname]; rfl, rfl, ?_, by rw [hplaces]; exact hmemberships⟩
  have hfirst := congrArg (List.map (·.name)) (List.map_fst_zip (Nat.le_of_eq hlength))
  rw [List.map_map] at hfirst
  exact hnames.trans hfirst

theorem Message.fields_annotate (notes : Notes) (message : Message) (position : Nat) :
    (message.annotate notes).fields[position]? = (message.fields[position]?).map fun field =>
      { field with comments := notes.get (.field message.address position) } :=
  getElem?_map_zipIdx message.fields _ position

/-- Comments change nothing but comments. -/
theorem Message.map_fields_annotate {α : Type} (notes : Notes) (message : Message)
    {view : Field → α} (h : ∀ field comments, view { field with comments } = view field) :
    (message.annotate notes).fields.map view = message.fields.map view := by
  refine List.ext_getElem? fun position => ?_
  rw [List.getElem?_map, List.getElem?_map, Message.fields_annotate]
  cases message.fields[position]? <;> simp [h]

theorem Message.Mirrors.annotate {described : Descriptor.Message} {message : Message}
    (h : Message.Mirrors described message) (notes : Notes) :
    Message.Mirrors described (message.annotate notes) := by
  refine ⟨h.name, h.oneofs, ?_, ?_⟩
  · rw [Message.map_fields_annotate notes message fun _ _ => rfl]
    exact h.fields
  · rw [Message.map_fields_annotate notes message fun _ _ => rfl]
    exact h.memberships

/-- The members of a message that was read name its oneofs. -/
theorem Message.Mirrors.position? {described : Descriptor.Message} {message : Message}
    (h : Message.Mirrors described message) :
    ∀ field ∈ described.fields, field.isMember = true → ∃ position < described.oneofs.length,
      field.oneofIndex.bind (Descriptor.position? described.oneofs.length) = some position := by
  intro field hf hmember
  obtain ⟨membership, -, hof⟩ := exists_of_mem_mapM h.memberships hf
  obtain ⟨place, rfl⟩ := membership?_of_isMember hof hmember
  obtain ⟨-, hindex, hposition⟩ := membership?_eq_some hof
  exact ⟨place.position, Descriptor.position?_lt hposition, by rw [hindex]; exact hposition⟩

/-- A message carries what the notes hold for its place and those of its parts. -/
structure Message.Told (notes : Notes) (message : Message) : Prop where
  comments : message.comments = notes.get (.message message.address)
  fields : ∀ position field, message.fields[position]? = some field →
    field.comments = notes.get (.field message.address position)
  oneofs : ∀ index, message.oneofComment index = notes.get (.oneof message.address index)

theorem Notes.get_cons (notes : Notes) (noted target : Target) (comment : String) :
    Notes.get ((noted, comment) :: notes) target =
      if noted = target then comment else notes.get target := by
  unfold Notes.get
  by_cases h : noted = target <;> simp [h]

theorem Notes.get_oneofs (notes : Notes) (address : List Nat) (index : Int) :
    (((notes.oneofs address).find? (·.1 = index)).map (·.2)).getD "" =
      notes.get (.oneof address index) := by
  induction notes with
  | nil => rfl
  | cons note notes ih =>
    obtain ⟨target, comment⟩ := note
    rw [Notes.get_cons, ← ih, Notes.oneofs, List.filterMap_cons]
    cases target with
    | oneof owner other =>
      by_cases ho : owner = address
      · by_cases hi : other = index <;> simp [ho, hi, Notes.oneofs]
      · simp [ho, Notes.oneofs]
    | _ => simp [Notes.oneofs]

theorem Message.annotate_told (notes : Notes) (message : Message) :
    (message.annotate notes).Told notes := by
  refine ⟨rfl, fun position field hfield => ?_, notes.get_oneofs message.address⟩
  rw [Message.fields_annotate] at hfield
  obtain ⟨bare, -, rfl⟩ := Option.map_eq_some_iff.mp hfield
  rfl

end Messages

section Enums

structure Enum.Mirrors (described : Descriptor.Enum) (enum : Enum) : Prop where
  name : enum.name = described.name
  values : enum.values.map (·.name) = described.values.map (·.name)

structure Enum.Told (notes : Notes) (enum : Enum) : Prop where
  comments : enum.comments = notes.get (.enum enum.owner enum.position)
  values : ∀ position value, enum.values[position]? = some value →
    value.comments = notes.get (.enumValue enum.owner enum.position position)

theorem Enum.values_annotate (notes : Notes) (enum : Enum) (position : Nat) :
    (enum.annotate notes).values[position]? = (enum.values[position]?).map fun value =>
      { value with comments := notes.get (.enumValue enum.owner enum.position position) } :=
  getElem?_map_zipIdx enum.values _ position

theorem Enum.annotate_told (notes : Notes) (enum : Enum) : (enum.annotate notes).Told notes := by
  refine ⟨rfl, fun position value hvalue => ?_⟩
  rw [Enum.values_annotate] at hvalue
  obtain ⟨bare, -, rfl⟩ := Option.map_eq_some_iff.mp hvalue
  rfl

theorem Enum.annotate_ofSite_mirrors (index : Options.Index) (home : Home) (notes : Notes)
    (site : EnumSite) : Enum.Mirrors site.enum ((Enum.ofSite index home site).annotate notes) := by
  refine ⟨?_, List.ext_getElem? fun position => ?_⟩
  · simp [Enum.name, Enum.annotate, Enum.ofSite, EnumSite.path]
  · rw [List.getElem?_map, Enum.values_annotate, Enum.ofSite, List.getElem?_map, List.getElem?_map]
    cases site.enum.values[position]? <;> simp [EnumValue.ofDescriptor]

end Enums

section Services

structure Service.Mirrors (described : Descriptor.Service) (service : Service) : Prop where
  name : service.name = described.name
  methods : service.methods.map (·.name) = described.methods.map (·.name)

structure Service.Told (notes : Notes) (position : Nat) (service : Service) : Prop where
  comments : service.comments = notes.get (.service position)
  methods : ∀ place method, service.methods[place]? = some method →
    method.comments = notes.get (.method position place)

theorem Service.methods_annotate (notes : Notes) (service : Service) (position place : Nat) :
    (service.annotate notes position).methods[place]? = (service.methods[place]?).map fun method =>
      { method with comments := notes.get (.method position place) } :=
  getElem?_map_zipIdx service.methods _ place

theorem Service.annotate_told (notes : Notes) (service : Service) (position : Nat) :
    (service.annotate notes position).Told notes position := by
  refine ⟨rfl, fun place method hmethod => ?_⟩
  rw [Service.methods_annotate] at hmethod
  obtain ⟨bare, -, rfl⟩ := Option.map_eq_some_iff.mp hmethod
  rfl

theorem Service.Mirrors.annotate {described : Descriptor.Service} {service : Service}
    (h : Service.Mirrors described service) (notes : Notes) (position : Nat) :
    Service.Mirrors described (service.annotate notes position) := by
  refine ⟨h.name, ?_⟩
  rw [← h.methods]
  refine List.ext_getElem? fun place => ?_
  rw [List.getElem?_map, List.getElem?_map, Service.methods_annotate]
  cases service.methods[place]? <;> simp

theorem Service.ofDescriptor_mirrors {index : Options.Index} {home : Home}
    {described : Descriptor.Service} {service : Service}
    (h : Service.ofDescriptor index home described = .ok service) :
    Service.Mirrors described service := by
  obtain ⟨methods, hmethods, h⟩ := bind_eq_ok.mp h
  cases h
  refine ⟨rfl, map_results hmethods _ _ fun method result hof => ?_⟩
  obtain ⟨one, -, hof⟩ := bind_eq_ok.mp hof
  obtain ⟨many, -, hof⟩ := bind_eq_ok.mp hof
  cases hof
  rfl

end Services

namespace File

/-- A file has the described declarations, each at its place. -/
structure Mirrors (described : Descriptor.File) (file : File) : Prop where
  messages : ∀ message ∈ file.messages, ∃ origin,
    MessageAt described message.address origin ∧ Message.Mirrors origin message
  messageAt : ∀ address origin, MessageAt described address origin →
    ∃ message ∈ file.messages, message.address = address ∧ Message.Mirrors origin message
  enums : ∀ enum ∈ file.enums, ∃ origin,
    EnumAt described enum.owner enum.position origin ∧ Enum.Mirrors origin enum
  enumAt : ∀ owner position origin, EnumAt described owner position origin →
    ∃ enum ∈ file.enums, enum.owner = owner ∧ enum.position = position ∧ Enum.Mirrors origin enum
  services : ∀ (position : Nat) service, file.services[position]? = some service →
    ∃ origin, described.services[position]? = some origin ∧ Service.Mirrors origin service
  serviceAt : ∀ (position : Nat) origin, described.services[position]? = some origin →
    ∃ service, file.services[position]? = some service ∧ Service.Mirrors origin service

/-- The declarations of a file carry what the notes hold for their places. -/
structure Told (notes : Notes) (file : File) : Prop where
  messages : ∀ message ∈ file.messages, message.Told notes
  enums : ∀ enum ∈ file.enums, enum.Told notes
  services : ∀ (position : Nat) (service : Service), file.services[position]? = some service →
    service.Told notes position

variable {index : Options.Index} {position : Nat} {described : Descriptor.File} {file : File}

/-- The steps of reading a file. -/
theorem ofDescriptor_eq_ok (h : File.ofDescriptor index position described = .ok file) :
    ∃ services messages notes,
      described.services.mapM
        (Service.ofDescriptor index (Home.ofDescriptor index position described)) = .ok services ∧
      (fileMessageSites described).mapM
        (Message.ofSite index (Home.ofDescriptor index position described)) = .ok messages ∧
      Notes.ofFile described = .ok notes ∧
      file.messages = messages.map (Message.annotate notes) ∧
      file.enums = ((fileEnumSites described).map
        (Enum.ofSite index (Home.ofDescriptor index position described))).map
          (Enum.annotate notes) ∧
      file.services = services.zipIdx.map fun (service, place) => service.annotate notes place := by
  obtain ⟨services, hservices, h⟩ := bind_eq_ok.mp h
  obtain ⟨messages, hmessages, h⟩ := bind_eq_ok.mp h
  obtain ⟨notes, hnotes, h⟩ := bind_eq_ok.mp h
  cases h
  exact ⟨services, messages, notes, hservices, hmessages, mapError_eq_ok.mp hnotes, rfl, rfl, rfl⟩

/-- What a file says besides comments does not depend on its locations. -/
theorem exists_ofDescriptor_of_notes (h : File.ofDescriptor index position described = .ok file)
    {locations : List Descriptor.Location} {notes : Notes}
    (hn : Notes.ofFile { described with locations } = .ok notes) :
    ∃ other, File.ofDescriptor index position { described with locations } = .ok other := by
  obtain ⟨services, messages, -, hservices, hmessages, -⟩ := ofDescriptor_eq_ok h
  refine ⟨_, bind_eq_ok.mpr ⟨services, hservices, bind_eq_ok.mpr ⟨messages, hmessages,
    bind_eq_ok.mpr ⟨notes, ?_, rfl⟩⟩⟩⟩
  rw [hn]
  rfl

theorem ofDescriptor_mirrors (h : File.ofDescriptor index position described = .ok file) :
    file.Mirrors described := by
  obtain ⟨services, messages, notes, hservices, hmessages, -, hm, he, hs⟩ := ofDescriptor_eq_ok h
  have hsite : ∀ site ∈ fileMessageSites described, ∀ bare,
      Message.ofSite index (Home.ofDescriptor index position described) site = .ok bare →
      bare.address = site.address ∧ Message.Mirrors site.message (bare.annotate notes) := by
    intro site hsite bare hof
    have hname := (at?_of_mem_messageSitesFrom [] [] 0 described.messages site hsite).1
    obtain ⟨haddress, hmirrors⟩ := Message.ofSite_mirrors hname hof
    exact ⟨haddress, hmirrors.annotate notes⟩
  refine ⟨fun message hmem => ?_, fun address origin hat => ?_, fun enum hmem => ?_,
    fun owner place origin hat => ?_, fun place service hat => ?_, fun place origin hat => ?_⟩
  · rw [hm] at hmem
    obtain ⟨bare, hb, rfl⟩ := List.mem_map.mp hmem
    obtain ⟨site, hin, hof⟩ := exists_of_mem_results hmessages hb
    obtain ⟨haddress, hmirrors⟩ := hsite site hin bare hof
    exact ⟨site.message, messageAt_iff.mpr ⟨site, hin, haddress.symm, rfl⟩, hmirrors⟩
  · obtain ⟨site, hin, rfl, rfl⟩ := messageAt_iff.mp hat
    obtain ⟨bare, hb, hof⟩ := exists_of_mem_mapM hmessages hin
    obtain ⟨haddress, hmirrors⟩ := hsite site hin bare hof
    exact ⟨bare.annotate notes, hm ▸ List.mem_map_of_mem hb, haddress, hmirrors⟩
  · rw [he] at hmem
    obtain ⟨bare, hb, rfl⟩ := List.mem_map.mp hmem
    obtain ⟨site, hin, rfl⟩ := List.mem_map.mp hb
    exact ⟨site.enum, enumAt_iff.mpr ⟨site, hin, rfl, rfl, rfl⟩,
      Enum.annotate_ofSite_mirrors index _ notes site⟩
  · obtain ⟨site, hin, rfl, rfl, rfl⟩ := enumAt_iff.mp hat
    exact ⟨_, he ▸ List.mem_map_of_mem (List.mem_map_of_mem hin), rfl, rfl,
      Enum.annotate_ofSite_mirrors index _ notes site⟩
  · rw [hs, getElem?_map_zipIdx] at hat
    obtain ⟨bare, hb, rfl⟩ := Option.map_eq_some_iff.mp hat
    obtain ⟨origin, horigin, hof⟩ := (getElem?_results hservices).mp hb
    exact ⟨origin, horigin, (Service.ofDescriptor_mirrors hof).annotate notes _⟩
  · obtain ⟨bare, -, hof⟩ := exists_of_mem_mapM hservices (List.mem_of_getElem? hat)
    have hb := (getElem?_results hservices).mpr ⟨origin, hat, hof⟩
    refine ⟨bare.annotate notes place, ?_, (Service.ofDescriptor_mirrors hof).annotate notes place⟩
    rw [hs, getElem?_map_zipIdx, hb]
    rfl

theorem ofDescriptor_told (h : File.ofDescriptor index position described = .ok file) :
    ∃ notes, Notes.ofFile described = .ok notes ∧ file.Told notes := by
  obtain ⟨services, messages, notes, hservices, hmessages, hnotes, hm, he, hs⟩ :=
    ofDescriptor_eq_ok h
  refine ⟨notes, hnotes, fun message hmem => ?_, fun enum hmem => ?_, fun place service hat => ?_⟩
  · rw [hm] at hmem
    obtain ⟨bare, -, rfl⟩ := List.mem_map.mp hmem
    exact Message.annotate_told notes bare
  · rw [he] at hmem
    obtain ⟨bare, -, rfl⟩ := List.mem_map.mp hmem
    exact Enum.annotate_told notes bare
  · rw [hs, getElem?_map_zipIdx] at hat
    obtain ⟨bare, -, rfl⟩ := Option.map_eq_some_iff.mp hat
    exact Service.annotate_told notes bare place

end File

end ProtoSdl.Source

import ProtoSdl.Proofs.ReadFiles

/-! Comments reach the declarations that their paths name. What a declaration carries after a file
was read is the comment of the last location with its path, whether the declaration stands at the
top or in other messages, and whether a field is plain or in a oneof. -/
namespace ProtoSdl.Source

open Outcome

/-- The comment of the last location that has a path and a comment. -/
def lastComment (locations : List Descriptor.Location) (path : List Int) : String :=
  (((locations.filter fun location => location.isCommented && location.path = path).getLast?).map
    (·.comment)).getD ""

/-- The comments that the declarations of a file carry. A oneof carries those of its slot. -/
inductive File.Carries (file : File) : Target → String → Prop
  | message {message : Message} (hm : message ∈ file.messages) :
    Carries file (.message message.address) message.comments
  | field {message : Message} {position : Nat} {field : Field} (hm : message ∈ file.messages)
    (hf : message.fields[position]? = some field) :
    Carries file (.field message.address position) field.comments
  | oneof {message : Message} {place : Membership} {comments : String}
    (hm : message ∈ file.messages) (hs : .oneof place comments ∈ message.slots) :
    Carries file (.oneof message.address place.position) comments
  | enum {enum : Enum} (he : enum ∈ file.enums) :
    Carries file (.enum enum.owner enum.position) enum.comments
  | enumValue {enum : Enum} {position : Nat} {value : EnumValue} (he : enum ∈ file.enums)
    (hv : enum.values[position]? = some value) :
    Carries file (.enumValue enum.owner enum.position position) value.comments
  | service {position : Nat} {service : Service} (hs : file.services[position]? = some service) :
    Carries file (.service position) service.comments
  | method {owner position : Nat} {service : Service} {method : Method}
    (hs : file.services[owner]? = some service) (hm : service.methods[position]? = some method) :
    Carries file (.method owner position) method.comments

/-- A oneof without members, which only marks an optional field. -/
def Target.IsSynthetic (file : Descriptor.File) : Target → Prop
  | .oneof address index => ∀ message, MessageAt file address message →
    ∀ field ∈ message.fields, field.isMember = true → field.oneofIndex ≠ some index
  | _ => False

/-- The messages of a file have distinct field names, and their fields count oneofs forward. -/
def Regular (file : Descriptor.File) : Prop :=
  ∀ site ∈ fileMessageSites file, (site.message.fields.map (·.name)).Nodup ∧
    ∀ field ∈ site.message.fields, ∀ index ∈ field.oneofIndex, 0 ≤ index

instance (file : Descriptor.File) : Decidable (Regular file) := by
  unfold Regular
  infer_instance

section Fields

private theorem find?_of_only {α : Type} {items : List α} {item : α} (hm : item ∈ items)
    (h : ∀ other ∈ items, other = item) {p : α → Bool} (hp : p item = true) :
    items.find? p = some item := by
  obtain ⟨found, hfound⟩ := Option.isSome_iff_exists.mp (List.find?_isSome.mpr ⟨item, hm, hp⟩)
  rw [hfound, h found (List.mem_of_find?_eq_some hfound)]

private theorem findSome?_of_only {α β : Type} {items : List β} {search : β → Option α} {item : α}
    {key : β}
    (h : ∀ key found, search key = some found → found = item) (hk : key ∈ items)
    (hf : search key = some item) : items.findSome? search = some item := by
  have hsome : (items.findSome? search).isSome = true :=
    List.findSome?_isSome_iff.mpr ⟨key, hk, by rw [hf]; rfl⟩
  obtain ⟨found, hfound⟩ := Option.isSome_iff_exists.mp hsome
  obtain ⟨other, -, hother⟩ := List.exists_of_findSome?_eq_some hfound
  rw [hfound, h other found hother]

/-- Where no two fields have one name, a name stands for its field. -/
theorem fieldsFound_of_nodup {message : Descriptor.Message}
    (hn : (message.fields.map (·.name)).Nodup)
    (hp : ∀ field ∈ message.fields, field.isMember = true → ∃ position < message.oneofs.length,
      field.oneofIndex.bind (Descriptor.position? message.oneofs.length) = some position) :
    FieldsFound message := by
  intro position field hfield
  have hmem : (field, position) ∈
      message.fields.zipIdx.filter (fun entry => entry.1.name = field.name) :=
    List.mem_filter.mpr ⟨List.mem_zipIdx_iff_getElem?.mpr hfield, by simp⟩
  have honly : ∀ entry ∈ message.fields.zipIdx.filter (fun entry => entry.1.name = field.name),
      entry = (field, position) := by
    rintro ⟨other, place⟩ hm
    obtain ⟨hm, hname⟩ := List.mem_filter.mp hm
    have hother : message.fields[place]? = some other := List.mem_zipIdx_iff_getElem?.mp hm
    have hlt := (List.getElem?_eq_some_iff.mp hother).1
    have hplace : place = position := by
      refine (List.getElem?_inj (by simpa using hlt) hn).mp ?_
      simpa [hother, hfield] using hname
    subst hplace
    rw [hfield] at hother
    rw [Option.some.inj hother]
  unfold Address.fieldPosition?
  simp only
  generalize message.fields.zipIdx.filter (fun entry => entry.1.name = field.name) = named at *
  cases hmember : field.isMember with
  | false =>
    rw [find?_of_only hmem honly (by simp [hmember])]
    rfl
  | true =>
    have hplain : named.find? (fun entry => !entry.1.isMember) = none :=
      List.find?_eq_none.mpr fun entry he => by simp [honly entry he, hmember]
    obtain ⟨place, hlt, hplace⟩ := hp field (List.mem_of_getElem? hfield) hmember
    rw [hplain, findSome?_of_only
      (fun _ entry hentry => honly entry (List.mem_of_find?_eq_some hentry))
      (List.mem_range.mpr hlt) (find?_of_only hmem honly (by simp [hmember, hplace]))]
    rfl

end Fields

section Notes

theorem lastComment_concat (locations : List Descriptor.Location) (location : Descriptor.Location)
    (path : List Int) : lastComment (locations ++ [location]) path =
      if location.isCommented = true ∧ location.path = path then location.comment
      else lastComment locations path := by
  unfold lastComment
  split
  · rename_i h
    simp [h.1, h.2]
  · rename_i h
    have hskip : (location.isCommented && decide (location.path = path)) = false := by simpa using h
    simp [hskip]

/-- A path belongs to one declaration. -/
theorem Target.eq_of_path {file : Descriptor.File} (hf : NamesFound file)
    {target other : Target} (ht : target.IsIn file) (ho : other.IsIn file)
    (h : target.path = other.path) : target = other := by
  have hfollowed := inFile_path hf ht
  rw [h, inFile_path hf ho] at hfollowed
  exact (Option.some.inj (Except.ok.inj hfollowed)).symm

/-- The notes hold what the locations seen so far say of each declaration. -/
def Notes.Tell (file : Descriptor.File) (seen : List Descriptor.Location) (notes : Notes) : Prop :=
  ∀ target : Target, target.IsIn file → notes.get target = lastComment seen target.path

variable {file : Descriptor.File} {seen locations : List Descriptor.Location}
  {location : Descriptor.Location} {notes : Notes}

theorem Notes.Tell.nil (file : Descriptor.File) : Notes.Tell file [] [] :=
  fun _ _ => rfl

theorem Notes.Tell.skip (h : notes.Tell file seen) (hc : location.isCommented = false) :
    notes.Tell file (seen ++ [location]) := by
  intro target hin
  rw [lastComment_concat, if_neg (by simp [hc])]
  exact h target hin

theorem Notes.Tell.add (hf : NamesFound file) (h : notes.Tell file seen)
    (hc : location.isCommented = true) {noted : Target}
    (hin : noted.IsIn file) (hpath : noted.path = location.path) :
    (notes.add location (some noted)).Tell file (seen ++ [location]) := by
  intro target ht
  have heq : noted = target ↔ location.path = target.path := by
    rw [← hpath]
    exact ⟨congrArg _, Target.eq_of_path hf hin ht⟩
  rw [lastComment_concat, Notes.add, Notes.get_cons]
  simp only [hc, true_and, heq]
  split
  · rfl
  · exact h target ht

/-- After all locations of declarations, the notes hold what they say. -/
theorem exists_notes (hf : NamesFound file)
    (hd : ∀ location ∈ locations, declares file location.path = true)
    (h : notes.Tell file seen) :
    ∃ after, Notes.ofLocations file notes locations = .ok after ∧
      after.Tell file (seen ++ locations) := by
  induction locations generalizing seen notes with
  | nil => exact ⟨notes, rfl, by rwa [List.append_nil]⟩
  | cons location locations ih =>
    have hnext : ∀ notes : Notes, notes.Tell file (seen ++ [location]) →
        ∃ after, Notes.ofLocations file notes locations = .ok after ∧
          after.Tell file (seen ++ location :: locations) := by
      intro notes hnotes
      have hrun := ih (fun other ho => hd other (List.mem_cons_of_mem _ ho)) hnotes
      rwa [List.append_assoc] at hrun
    cases hc : location.isCommented with
    | false =>
      rw [Notes.ofLocations_cons_of_not_commented notes hc]
      exact hnext notes (h.skip hc)
    | true =>
      obtain ⟨target, hpath, hin⟩ := exists_target (hd location List.mem_cons_self)
      have hfollowed := inFile_path hf hin
      rw [hpath] at hfollowed
      rw [Notes.ofLocations_cons_of_ok notes hc hfollowed]
      exact hnext _ (Notes.Tell.add hf h hc hin hpath)

end Notes

section Carried

variable {described : Descriptor.File} {file : File} {notes : Notes}

/-- The place of a member is that of a described member. -/
theorem Message.Mirrors.of_membership {origin : Descriptor.Message} {message : Message}
    (h : Message.Mirrors origin message)
    (hforward : ∀ field ∈ origin.fields, ∀ index ∈ field.oneofIndex, 0 ≤ index)
    {field : Field} (hf : field ∈ message.fields) {place : Membership}
    (hp : field.membership = some place) :
    place.written = place.position ∧ place.position < origin.oneofs.length ∧
      ∃ member ∈ origin.fields, member.isMember = true ∧
        member.oneofIndex = some (place.position : Int) := by
  have hplace : some place ∈ message.fields.map (·.membership) := List.mem_map.mpr ⟨field, hf, hp⟩
  obtain ⟨member, hmember, hof⟩ := exists_of_mem_results h.memberships hplace
  obtain ⟨his, hindex, hposition⟩ := membership?_eq_some hof
  have hwritten := position?_nonneg hposition (hforward member hmember _ hindex)
  exact ⟨hwritten, Descriptor.position?_lt hposition, member, hmember, his, hwritten ▸ hindex⟩

/-- The oneofs that have slots are those with members. -/
theorem Message.Mirrors.exists_slot_iff {origin : Descriptor.Message} {message : Message}
    (h : Message.Mirrors origin message) (ht : message.Told notes)
    (hforward : ∀ field ∈ origin.fields, ∀ index ∈ field.oneofIndex, 0 ≤ index)
    {position : Nat} {comments : String} :
    (∃ place, .oneof place comments ∈ message.slots ∧ place.position = position) ↔
      comments = notes.get (.oneof message.address position) ∧
        ∃ member ∈ origin.fields, member.isMember = true ∧
          member.oneofIndex = some (position : Int) := by
  constructor
  · rintro ⟨place, hslot, rfl⟩
    obtain ⟨field, hf, hp⟩ := member_of_oneof_mem_slotsFrom hslot
    obtain ⟨hwritten, -, hmember⟩ := h.of_membership hforward hf hp
    refine ⟨?_, hmember⟩
    rw [oneof_comments_of_mem_slotsFrom hslot, ht.oneofs, hwritten]
  · rintro ⟨rfl, member, hmember, his, hindex⟩
    obtain ⟨membership, hm, hof⟩ := exists_of_mem_mapM h.memberships hmember
    obtain ⟨place, rfl⟩ := membership?_of_isMember hof his
    obtain ⟨field, hf, hp⟩ := List.mem_map.mp hm
    obtain ⟨first, text, hslot, hfirst⟩ : ∃ first text, .oneof first text ∈ message.slots ∧
        first.written = place.written := exists_oneof_mem_slotsFrom hf hp List.not_mem_nil
    obtain ⟨other, ho, hother⟩ := member_of_oneof_mem_slotsFrom hslot
    have hposition := (h.of_membership hforward ho hother).1
    have hplace := (membership?_eq_some hof).2.1
    rw [hindex, Option.some.injEq, ← hfirst] at hplace
    have htext := oneof_comments_of_mem_slotsFrom hslot
    rw [ht.oneofs, ← hplace] at htext
    exact ⟨first, htext ▸ hslot, by omega⟩

theorem MessageAt.unique {address : List Nat} {message other : Descriptor.Message}
    (h : MessageAt described address message) (ho : MessageAt described address other) :
    message = other := by
  rw [MessageAt, h] at ho
  cases ho
  rfl

theorem Regular.nonneg (h : Regular described) {address : List Nat} {message : Descriptor.Message}
    (hat : MessageAt described address message) :
    ∀ field ∈ message.fields, ∀ index ∈ field.oneofIndex, 0 ≤ index := by
  obtain ⟨site, hs, -, rfl⟩ := messageAt_iff.mp hat
  exact (h site hs).2

/-- A list read off another one has an item at a place as soon as the other has. -/
theorem getElem?_isSome_iff {α β γ : Type} {items : List α} {others : List β} {f : α → γ}
    {g : β → γ} (h : items.map f = others.map g) {position : Nat} :
    (∃ item, items[position]? = some item) ↔ position < others.length := by
  have hlength := congrArg List.length h
  rw [List.length_map, List.length_map] at hlength
  rw [← hlength]
  simp [List.getElem?_eq_some_iff]

theorem File.Mirrors.of_carries (hr : Regular described) (h : file.Mirrors described)
    (ht : file.Told notes) {target : Target} {comments : String}
    (hc : file.Carries target comments) :
    target.IsIn described ∧ ¬target.IsSynthetic described ∧ comments = notes.get target := by
  cases hc with
  | message hm =>
    obtain ⟨origin, hat, -⟩ := h.messages _ hm
    exact ⟨⟨origin, hat⟩, id, (ht.messages _ hm).comments⟩
  | field hm hf =>
    obtain ⟨origin, hat, hmirrors⟩ := h.messages _ hm
    exact ⟨⟨origin, hat, (getElem?_isSome_iff hmirrors.fields).mp ⟨_, hf⟩⟩, id,
      (ht.messages _ hm).fields _ _ hf⟩
  | oneof hm hs =>
    obtain ⟨origin, hat, hmirrors⟩ := h.messages _ hm
    obtain ⟨hcomments, member, hmember, his, hindex⟩ :=
      (hmirrors.exists_slot_iff (ht.messages _ hm) (hr.nonneg hat)).mp ⟨_, hs, rfl⟩
    obtain ⟨field, hf, hp⟩ := member_of_oneof_mem_slotsFrom hs
    obtain ⟨-, hlt, -⟩ := hmirrors.of_membership (hr.nonneg hat) hf hp
    exact ⟨⟨origin, hat, _, rfl, hlt⟩, fun hnone => hnone origin hat member hmember his hindex,
      hcomments⟩
  | enum he =>
    obtain ⟨origin, hat, -⟩ := h.enums _ he
    exact ⟨⟨origin, hat⟩, id, (ht.enums _ he).comments⟩
  | enumValue he hv =>
    obtain ⟨origin, hat, hmirrors⟩ := h.enums _ he
    exact ⟨⟨origin, hat, (getElem?_isSome_iff hmirrors.values).mp ⟨_, hv⟩⟩, id,
      (ht.enums _ he).values _ _ hv⟩
  | service hs =>
    obtain ⟨origin, hat, -⟩ := h.services _ _ hs
    exact ⟨(List.getElem?_eq_some_iff.mp hat).1, id, (ht.services _ _ hs).comments⟩
  | method hs hmethod =>
    obtain ⟨origin, hat, hmirrors⟩ := h.services _ _ hs
    exact ⟨⟨origin, hat, (getElem?_isSome_iff hmirrors.methods).mp ⟨_, hmethod⟩⟩, id,
      (ht.services _ _ hs).methods _ _ hmethod⟩

theorem File.Mirrors.carries (hr : Regular described) (h : file.Mirrors described)
    (ht : file.Told notes) {target : Target} (hin : target.IsIn described)
    (hmembers : ¬target.IsSynthetic described) : file.Carries target (notes.get target) := by
  cases target with
  | message address =>
    obtain ⟨origin, hat⟩ := hin
    obtain ⟨message, hm, rfl, -⟩ := h.messageAt address origin hat
    exact (ht.messages _ hm).comments ▸ .message hm
  | field address position =>
    obtain ⟨origin, hat, hlt⟩ := hin
    obtain ⟨message, hm, rfl, hmirrors⟩ := h.messageAt address origin hat
    obtain ⟨field, hf⟩ := (getElem?_isSome_iff hmirrors.fields).mpr hlt
    exact (ht.messages _ hm).fields _ _ hf ▸ .field hm hf
  | oneof address index =>
    obtain ⟨origin, hat, position, rfl, hlt⟩ := hin
    obtain ⟨message, hm, rfl, hmirrors⟩ := h.messageAt address origin hat
    have hmember : ∃ member ∈ origin.fields, member.isMember = true ∧
        member.oneofIndex = some (position : Int) := by
      refine Classical.byContradiction fun hnone => hmembers fun other hother => ?_
      obtain rfl := hat.unique hother
      exact fun field hf his hindex => hnone ⟨field, hf, his, hindex⟩
    obtain ⟨place, hslot, rfl⟩ :=
      (hmirrors.exists_slot_iff (ht.messages _ hm) (hr.nonneg hat)).mpr ⟨rfl, hmember⟩
    exact .oneof hm hslot
  | enum owner position =>
    obtain ⟨origin, hat⟩ := hin
    obtain ⟨enum, he, rfl, rfl, -⟩ := h.enumAt owner position origin hat
    exact (ht.enums _ he).comments ▸ .enum he
  | enumValue owner position value =>
    obtain ⟨origin, hat, hlt⟩ := hin
    obtain ⟨enum, he, rfl, rfl, hmirrors⟩ := h.enumAt owner position origin hat
    obtain ⟨value, hv⟩ := (getElem?_isSome_iff hmirrors.values).mpr hlt
    exact (ht.enums _ he).values _ _ hv ▸ .enumValue he hv
  | service position =>
    obtain ⟨service, hs, -⟩ := h.serviceAt position _ (List.getElem?_eq_getElem hin)
    exact (ht.services _ _ hs).comments ▸ .service hs
  | method owner position =>
    obtain ⟨origin, hat, hlt⟩ := hin
    obtain ⟨service, hs, hmirrors⟩ := h.serviceAt owner origin hat
    obtain ⟨method, hm⟩ := (getElem?_isSome_iff hmirrors.methods).mpr hlt
    exact (ht.services _ _ hs).methods _ _ hm ▸ .method hs hm

theorem namesFound (hr : Regular described) (h : file.Mirrors described) :
    NamesFound described := by
  intro address message hat
  obtain ⟨read, -, -, hmirrors⟩ := h.messageAt address message hat
  obtain ⟨site, hs, -, rfl⟩ := messageAt_iff.mp hat
  exact fieldsFound_of_nodup (hr site hs).1 hmirrors.position?

theorem File.carries_iff {index : Options.Index} {position : Nat}
    (h : File.ofDescriptor index position described = .ok file) (hr : Regular described)
    (hd : ∀ location ∈ described.locations, declares described location.path = true)
    {target : Target} {comments : String} :
    file.Carries target comments ↔ target.IsIn described ∧ ¬target.IsSynthetic described ∧
      comments = lastComment described.locations target.path := by
  have hmirrors := File.ofDescriptor_mirrors h
  obtain ⟨notes, hnotes, htold⟩ := File.ofDescriptor_told h
  obtain ⟨after, hafter, htell⟩ := exists_notes (namesFound hr hmirrors) hd (.nil described)
  obtain rfl := Except.ok.inj (hnotes.symm.trans hafter)
  constructor
  · intro hc
    obtain ⟨hin, hmembers, rfl⟩ := hmirrors.of_carries hr htold hc
    exact ⟨hin, hmembers, htell target hin⟩
  · rintro ⟨hin, hmembers, rfl⟩
    rw [← List.nil_append described.locations, ← htell target hin]
    exact hmirrors.carries hr htold hin hmembers

end Carried

section Locations

variable {described : Descriptor.File} (locations : List Descriptor.Location)

theorem messageAt_of_locations {address : List Nat} {message : Descriptor.Message} :
    MessageAt { described with locations } address message ↔
      MessageAt described address message := by
  rw [messageAt_iff, messageAt_iff]
  rfl

private theorem enumAt_of_locations {owner : List Nat} {position : Nat} {enum : Descriptor.Enum} :
    EnumAt { described with locations } owner position enum ↔
      EnumAt described owner position enum := by
  rw [enumAt_iff, enumAt_iff]
  rfl

private theorem items_of_locations (kind : Int) :
    (Tree.file { described with locations }).items kind = (Tree.file described).items kind := by
  by_cases hmessages : kind = 4
  · rw [hmessages]; rfl
  by_cases henums : kind = 5
  · rw [henums]; rfl
  by_cases hservices : kind = 6
  · rw [hservices]; rfl
  · simp [Tree.items, hmessages, henums, hservices]

private theorem declares_of_locations (path : List Int) :
    declares { described with locations } path = declares described path := by
  match path with
  | [] | [_] => rfl
  | kind :: index :: path =>
    simp only [declares, Tree.at?_cons_cons, Tree.child?, items_of_locations]

theorem Target.isIn_of_locations (target : Target) :
    target.IsIn { described with locations } ↔ target.IsIn described := by
  cases target <;> simp only [Target.IsIn, messageAt_of_locations, enumAt_of_locations]

theorem Target.isSynthetic_of_locations (target : Target) :
    target.IsSynthetic { described with locations } ↔ target.IsSynthetic described := by
  cases target <;> simp only [Target.IsSynthetic, messageAt_of_locations]

/-- Locations of declarations do not keep a file from being read. -/
theorem File.exists_ofDescriptor {index : Options.Index} {position : Nat} {file : File}
    (h : File.ofDescriptor index position described = .ok file) (hr : Regular described)
    (hd : ∀ location ∈ locations, declares described location.path = true) :
    ∃ other, File.ofDescriptor index position { described with locations } = .ok other := by
  obtain ⟨notes, hnotes, -⟩ := exists_notes (namesFound hr (File.ofDescriptor_mirrors h)) hd
    (.nil described)
  exact File.exists_ofDescriptor_of_notes h
    ((Notes.ofLocations_of_locations [] locations locations).trans hnotes)

private theorem lastComment_filter {path removed : List Int} (h : path ≠ removed) :
    lastComment (locations.filter fun location => location.path ≠ removed) path =
      lastComment locations path := by
  have hfilter : (locations.filter fun location => location.path ≠ removed).filter
      (fun location => location.isCommented && location.path = path) =
        locations.filter fun location => location.isCommented && location.path = path := by
    rw [List.filter_filter]
    refine List.filter_congr fun location _ => ?_
    by_cases hp : location.path = path <;> simp [hp, h]
  rw [lastComment, hfilter, lastComment]

end Locations

/-- Where every location belongs to a declaration, the locations do not keep the file from being
read. The file then has the described declarations, and each carries the comment of the last
location with its path; synthetic oneofs carry none, and their locations change nothing. -/
theorem comments_reach_their_declarations (index : Options.Index) (position : Nat)
    (described : Descriptor.File) (hr : Regular described)
    (hd : ∀ location ∈ described.locations, declares described location.path = true) :
    ((∃ file, File.ofDescriptor index position described = .ok file) ↔
      ∃ file, File.ofDescriptor index position { described with locations := [] } = .ok file) ∧
    ∀ file, File.ofDescriptor index position described = .ok file →
      file.Mirrors described ∧
      (∀ target comments, file.Carries target comments ↔
        target.IsIn described ∧ ¬target.IsSynthetic described ∧
          comments = lastComment described.locations target.path) ∧
      ∀ synthetic : Target, synthetic.IsIn described → synthetic.IsSynthetic described →
        ∃ other, File.ofDescriptor index position { described with
            locations := described.locations.filter (·.path ≠ synthetic.path) } = .ok other ∧
          ∀ target comments, other.Carries target comments ↔ file.Carries target comments := by
  refine ⟨⟨fun ⟨file, h⟩ => File.exists_ofDescriptor [] h hr (by simp), fun ⟨file, h⟩ => ?_⟩,
    fun file h => ?_⟩
  · -- stated before it is used: the file read has no locations, the goal has those described
    have hread := File.exists_ofDescriptor described.locations h hr fun location hl =>
      (declares_of_locations _ _).trans (hd location hl)
    exact hread
  refine ⟨File.ofDescriptor_mirrors h, fun _ _ => File.carries_iff h hr hd,
    fun synthetic hin hnone => ?_⟩
  have hkept : ∀ location ∈ described.locations.filter (·.path ≠ synthetic.path),
      declares described location.path = true :=
    fun location hl => hd location (List.mem_filter.mp hl).1
  obtain ⟨other, hother⟩ := File.exists_ofDescriptor _ h hr hkept
  refine ⟨other, hother, fun target comments => ?_⟩
  rw [File.carries_iff h hr hd, File.carries_iff hother hr fun location hl =>
    (declares_of_locations _ _).trans (hkept location hl), Target.isIn_of_locations,
    Target.isSynthetic_of_locations]
  refine and_congr_right fun htarget => and_congr_right fun hmembers => ?_
  have hne : target.path ≠ synthetic.path := by
    intro hpath
    have hf := namesFound hr (File.ofDescriptor_mirrors h)
    exact hmembers (Target.eq_of_path hf htarget hin hpath ▸ hnone)
  rw [lastComment_filter _ hne]

/-- Comments on a message, twice, on a member of a oneof, on both oneofs, and on parts of a nested
message and a nested enum. -/
def notedKennel : Descriptor.File :=
  { kennel with
    locations := [
      { path := [4, 0], leading := " A pat." },
      { path := [4, 0, 2, 2], trailing := " It purrs." },
      { path := [4, 0, 8, 0], leading := " What it is." },
      { path := [4, 0], leading := " A pet." },
      { path := [4, 0, 8, 1], leading := " A nickname." },
      { path := [4, 0, 3, 0, 2, 0], leading := " Where it lives." },
      { path := [4, 0, 4, 0, 2, 1], leading := " Too large." },
      { path := [4, 0], leading := "" }] }

theorem notedKennel_carries_its_comments :
    ∃ file, File.ofDescriptor {} 0 notedKennel = .ok file ∧
      file.Carries (.message [0]) "A pet." ∧ file.Carries (.field [0] 2) "It purrs." ∧
      file.Carries (.oneof [0] 0) "What it is." ∧
      file.Carries (.field [0, 0] 0) "Where it lives." ∧
      file.Carries (.enumValue [0] 0 1) "Too large." ∧ file.Carries (.service 0) "" ∧
      ∀ comments, ¬file.Carries (.oneof [0] 1) comments := by
  obtain ⟨-, h⟩ := comments_reach_their_declarations {} 0 notedKennel (by decide) (by decide)
  obtain ⟨-, hcarries, -⟩ := h _ rfl
  have hkind : ¬(Target.oneof [0] 0).IsSynthetic notedKennel :=
    fun hnone => hnone _ rfl { name := "dog", kind := .string, oneofIndex := some 0 }
      (by decide) (by decide) rfl
  have hnick : (Target.oneof [0] 1).IsSynthetic notedKennel := by
    intro message hat
    cases hat
    decide
  exact ⟨_, rfl, (hcarries _ _).mpr ⟨⟨_, rfl⟩, id, by decide⟩,
    (hcarries _ _).mpr ⟨⟨_, rfl, by decide⟩, id, by decide⟩,
    (hcarries _ _).mpr ⟨⟨_, rfl, 0, rfl, by decide⟩, hkind, by decide⟩,
    (hcarries _ _).mpr ⟨⟨_, rfl, by decide⟩, id, by decide⟩,
    (hcarries _ _).mpr ⟨⟨_, rfl, by decide⟩, id, by decide⟩,
    (hcarries _ _).mpr ⟨Nat.zero_lt_one, id, by decide⟩,
    fun _ hc => ((hcarries _ _).mp hc).2.1 hnick⟩

end ProtoSdl.Source

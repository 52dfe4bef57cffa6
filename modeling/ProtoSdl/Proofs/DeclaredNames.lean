import ProtoSdl.Proofs.MappingPasses
import ProtoSdl.Proofs.TypeWords

/-! All names that a mapping declares. Each declaration but the scalars has a label of its own, and
its name is the text of the label. -/
namespace ProtoSdl.Mapping

open Source (Node WellSpelled cased allMessages allEnums allServices)

def declaredNames (mapping : Mapping) : List Schema.TypeName :=
  mapping.objects.values.flatMap
      (fun body => (body.objectDeclarations mapping.naming).map (·.name)) ++
    mapping.inputs.values.flatMap
      (fun body => (body.inputDeclarations mapping.naming).map (·.name)) ++
    mapping.catalog.enums.values.map (fun enum => (enumDeclaration mapping.naming enum).name) ++
    mapping.services.values.flatMap (fun plan => (plan.roots mapping.naming).map (·.name)) ++
    mapping.scalars.map .text

def messageNode (message : Source.Message) : Node :=
  if message.isMap then .entry message else .message message

def objectLabels (message : Source.Message) : List Label :=
  ⟨messageNode message, .bare⟩ :: message.choices.flatMap fun oneof =>
    ⟨.oneof message oneof, .bare⟩ ::
      oneof.members.map fun field => ⟨.oneof message oneof, .member field⟩

def inputLabels (message : Source.Message) : List Label :=
  ⟨messageNode message, .input⟩ ::
    message.choices.map fun oneof => ⟨.oneof message oneof, .input⟩

def rootLabels (plan : ServicePlan) : List Label :=
  plan.operations.map fun operation => ⟨.service plan.service, .root operation⟩

/-- The labels of all types but scalars. -/
def labels (mapping : Mapping) : List Label :=
  mapping.objects.values.flatMap (fun body => objectLabels body.message) ++
    mapping.inputs.values.flatMap (fun body => inputLabels body.message) ++
    mapping.catalog.enums.values.map (fun enum => ⟨.enum enum, .bare⟩) ++
    mapping.services.values.flatMap rootLabels

section Names

variable {naming : Naming} (htrim : naming.settings.trim = "")

include htrim

theorem Naming.typeName_of_package {home : Source.Home} (hspace : home.nameSpace.isSet = false)
    (path : Name.TypePath) : naming.typeName home path =
      .text (String.ofList (Name.packageStem home.package ++ path.extension)) := by
  unfold Naming.typeName
  rw [htrim]
  split
  · rename_i heq
    simp [heq, Json.isSet] at hspace
  · rename_i space heq
    have hempty : space = "" := by simpa [heq, Json.isSet] using hspace
    rw [Name.typeName_untrimmed, hempty, Name.stem, if_pos rfl]
  · rw [Name.typeName_untrimmed]

/-- A name formed on a path is that of a label with the same parts. -/
theorem Naming.typeName_label (label : Label) {home : Source.Home} (hhome : label.node.home = home)
    (hspace : home.nameSpace.isSet = false) {path : Name.TypePath}
    (hpath : path.extension = (label.node.path.map cased ++ label.ending).flatMap ('_' :: ·)) :
    naming.typeName home path = .text label.text := by
  subst hhome
  rw [typeName_of_package htrim hspace, hpath, Label.text, Node.place, List.cons_append,
    Text.intercalate_cons_eq]
  rfl

omit htrim in
theorem messageNode_home (message : Source.Message) :
    (messageNode message).home = message.home := by
  unfold messageNode
  split <;> rfl

section Message

variable {message : Source.Message} (hspace : message.home.nameSpace.isSet = false)

include hspace

theorem Naming.object_label :
    naming.object message = .text (Label.text ⟨messageNode message, .bare⟩) := by
  refine typeName_label htrim _ (messageNode_home message) hspace ?_
  unfold messageNode
  cases hmap : message.isMap <;>
    simp [Name.TypePath.extension, Label.ending, Node.path, List.flatMap_map, cased]

theorem Naming.input_label :
    naming.input message = .text (Label.text ⟨messageNode message, .input⟩) := by
  refine typeName_label htrim _ (messageNode_home message) hspace ?_
  unfold messageNode
  cases hmap : message.isMap <;>
    simp [Name.TypePath.extension, Label.ending, Node.path, List.flatMap_map, cased]

theorem Naming.oneof_label (oneof : Source.Oneof) :
    naming.typeName message.home { segments := message.path ++ [oneof.name] } =
      .text (Label.text ⟨.oneof message oneof, .bare⟩) :=
  typeName_label htrim ⟨.oneof message oneof, .bare⟩ rfl hspace
    (by simp [Name.TypePath.extension, Label.ending, Node.path, List.flatMap_map, cased])

theorem Naming.oneofInput_label (oneof : Source.Oneof) :
    naming.typeName message.home { segments := message.path ++ [oneof.name], isInput := true } =
      .text (Label.text ⟨.oneof message oneof, .input⟩) :=
  typeName_label htrim ⟨.oneof message oneof, .input⟩ rfl hspace
    (by simp [Name.TypePath.extension, Label.ending, Node.path, List.flatMap_map, cased])

theorem Naming.wrapper_label (oneof : Source.Oneof) (field : Source.Field) :
    naming.typeName message.home { segments := message.path ++ [oneof.name, field.name] } =
      .text (Label.text ⟨.oneof message oneof, .member field⟩) :=
  typeName_label htrim ⟨.oneof message oneof, .member field⟩ rfl hspace
    (by simp [Name.TypePath.extension, Label.ending, Node.path, List.flatMap_map, cased])

end Message

theorem Naming.enum_label {enum : Source.Enum} (hspace : enum.home.nameSpace.isSet = false) :
    naming.enum enum = .text (Label.text ⟨.enum enum, .bare⟩) :=
  typeName_label htrim ⟨.enum enum, .bare⟩ rfl hspace
    (by simp [Name.TypePath.extension, Label.ending, Node.path, List.flatMap_map, cased])

theorem Naming.root_label {service : Source.Service}
    (hspace : service.home.nameSpace.isSet = false) (operation : Operation) :
    naming.typeName service.home { segments := [service.name, operation.rootName] } =
      .text (Label.text ⟨.service service, .root operation⟩) := by
  have hcased : Name.camelCase operation.rootName.toList = operation.rootName.toList := by
    cases operation <;> rfl
  refine typeName_label htrim ⟨.service service, .root operation⟩ rfl hspace ?_
  simp [Name.TypePath.extension, Label.ending, Node.path, cased, hcased]

end Names

section Bodies

variable {files : List Source.File} {message : Source.Message} {body : Body} {naming : Naming}
  (htrim : naming.settings.trim = "") (hspace : message.home.nameSpace.isSet = false)
  (h : body.Sound files message)

include htrim hspace h

theorem Body.objectNames_eq : (body.objectDeclarations naming).map (·.name) =
    (objectLabels message).map fun label => .text label.text := by
  obtain ⟨rfl, -, -, -, honeofs, hmembers⟩ := h
  rw [objectDeclarations, objectLabels, List.map_cons, List.map_cons, List.map_flatMap,
    List.map_flatMap, ← honeofs, List.flatMap_map]
  congr 1
  · exact Naming.object_label htrim hspace
  · refine List.flatMap_congr fun choice hc => ?_
    rw [List.map_cons, List.map_cons, ← hmembers choice hc]
    congr 1
    · exact Naming.oneof_label htrim hspace choice.oneof
    · simp only [choiceWrappers, List.map_map]
      refine List.map_congr_left fun typed _ => ?_
      exact Naming.wrapper_label htrim hspace choice.oneof typed.field

theorem Body.inputNames_eq : (body.inputDeclarations naming).map (·.name) =
    (inputLabels message).map fun label => .text label.text := by
  obtain ⟨rfl, -, -, -, honeofs, -⟩ := h
  rw [inputDeclarations, inputLabels, List.map_cons, List.map_cons, ← honeofs, List.map_map,
    List.map_map, List.map_map]
  congr 1
  · exact Naming.input_label htrim hspace
  · refine List.map_congr_left fun choice _ => ?_
    exact Naming.oneofInput_label htrim hspace choice.oneof

end Bodies

/-- Lists without repetitions follow each other without any, if an item tells its list. -/
theorem nodup_flatMap_of_key {α β γ : Type} {items : List α} {f : α → List β} {key : α → γ}
    (hn : (items.map key).Nodup) (hf : ∀ item ∈ items, (f item).Nodup)
    (hkey : ∀ a b, ∀ result ∈ f a, result ∈ f b → key a = key b) : (items.flatMap f).Nodup := by
  refine List.nodup_flatMap.mpr ⟨hf, (List.pairwise_map.mp hn).imp ?_⟩
  intro a b hne result ha hb
  exact hne (hkey a b result ha hb)

section Labels

variable {files : List Source.File} {message : Source.Message} {label : Label}

theorem mem_objectLabels : label ∈ objectLabels message ↔
    label = ⟨messageNode message, .bare⟩ ∨ ∃ oneof ∈ message.choices,
      label = ⟨.oneof message oneof, .bare⟩ ∨
        ∃ field ∈ oneof.members, label = ⟨.oneof message oneof, .member field⟩ := by
  simp [objectLabels, eq_comm]

theorem mem_inputLabels : label ∈ inputLabels message ↔
    label = ⟨messageNode message, .input⟩ ∨
      ∃ oneof ∈ message.choices, label = ⟨.oneof message oneof, .input⟩ := by
  simp [inputLabels, eq_comm]

def messageOf? : Node → Option Source.Message
  | .message message => some message
  | .entry message => some message
  | .oneof message _ => some message
  | .enum _ => none
  | .service _ => none

theorem messageOf?_messageNode (message : Source.Message) :
    messageOf? (messageNode message) = some message := by
  unfold messageNode
  split <;> rfl

theorem messageNode_ne_oneof (message : Source.Message) (oneof : Source.Oneof) :
    messageNode message ≠ .oneof message oneof := by
  unfold messageNode
  split <;> simp

theorem objectLabels_spec (h : label ∈ objectLabels message) :
    messageOf? label.node = some message ∧ label.mark ≠ .input := by
  rcases mem_objectLabels.mp h with rfl | ⟨oneof, -, rfl | ⟨field, -, rfl⟩⟩
  · exact ⟨messageOf?_messageNode message, by simp⟩
  · exact ⟨rfl, by simp⟩
  · exact ⟨rfl, by simp⟩

theorem inputLabels_spec (h : label ∈ inputLabels message) :
    messageOf? label.node = some message ∧ label.mark = .input := by
  rcases mem_inputLabels.mp h with rfl | ⟨oneof, -, rfl⟩
  · exact ⟨messageOf?_messageNode message, rfl⟩
  · exact ⟨rfl, rfl⟩

theorem nodup_choices (message : Source.Message) : message.choices.Nodup :=
  List.Nodup.of_map _ message.nodup_positions

theorem nodup_objectLabels (hmembers : ∀ oneof ∈ message.choices, oneof.members.Nodup) :
    (objectLabels message).Nodup := by
  refine List.nodup_cons.mpr ⟨fun hm => ?_, ?_⟩
  · obtain ⟨oneof, -, hin⟩ := List.mem_flatMap.mp hm
    have hnode : messageNode message = .oneof message oneof := by
      rcases List.mem_cons.mp hin with heq | hin
      · exact congrArg Label.node heq
      · obtain ⟨field, -, heq⟩ := List.mem_map.mp hin
        exact (congrArg Label.node heq).symm
    exact messageNode_ne_oneof message oneof hnode
  · have hnode : ∀ oneof, ∀ label ∈ Label.mk (.oneof message oneof) .bare ::
        oneof.members.map (fun field => ⟨.oneof message oneof, .member field⟩),
        label.node = .oneof message oneof := by simp
    have hchoices : (message.choices.map id).Nodup := by simpa using nodup_choices message
    refine nodup_flatMap_of_key hchoices (fun oneof ho => ?_) (fun a b label ha hb => ?_)
    · refine List.nodup_cons.mpr ⟨by simp, (hmembers oneof ho).map fun a b heq => ?_⟩
      simpa using heq
    · have hsame := (hnode a label ha).symm.trans (hnode b label hb)
      exact (Node.oneof.inj hsame).2

theorem nodup_inputLabels (message : Source.Message) : (inputLabels message).Nodup := by
  refine List.nodup_cons.mpr ⟨fun hm => ?_, (nodup_choices message).map fun a b heq => ?_⟩
  · obtain ⟨oneof, -, heq⟩ := List.mem_map.mp hm
    exact messageNode_ne_oneof message oneof (congrArg Label.node heq).symm
  · simpa using heq

theorem rootLabels_spec {plan : ServicePlan} (h : label ∈ rootLabels plan) :
    label.node = .service plan.service := by
  obtain ⟨operation, -, rfl⟩ := List.mem_map.mp h
  rfl

private theorem nodup_rootLabels (plan : ServicePlan) : (rootLabels plan).Nodup := by
  have hall : Operation.all.Nodup := by decide
  refine (hall.filter _).map fun a b heq => ?_
  simpa using heq

section Of

variable (hm : message ∈ allMessages files)

include hm

theorem messageNode_isOf : (messageNode message).IsOf files := by
  unfold messageNode
  split
  · rename_i hmap
    exact .entry hm hmap
  · exact .message hm

private theorem objectLabels_of (h : label ∈ objectLabels message) :
    label.node.IsOf files ∧ label.Fits := by
  rcases mem_objectLabels.mp h with rfl | ⟨oneof, ho, rfl | ⟨field, hf, rfl⟩⟩
  · refine ⟨messageNode_isOf hm, ?_⟩
    unfold messageNode
    split
    · exact .map message
    · exact .object message
  · exact ⟨.oneof hm ho, .union message oneof⟩
  · exact ⟨.oneof hm ho, .wrapper message hf⟩

private theorem inputLabels_of (h : label ∈ inputLabels message) :
    label.node.IsOf files ∧ label.Fits := by
  rcases mem_inputLabels.mp h with rfl | ⟨oneof, ho, rfl⟩
  · refine ⟨messageNode_isOf hm, ?_⟩
    unfold messageNode
    split
    · exact .mapInput message
    · exact .input message
  · exact ⟨.oneof hm ho, .unionInput message oneof⟩

end Of

end Labels

section Mapped

variable {settings : Settings} {index : Options.Index} {described : List Descriptor.File}
  {files : List Source.File} {mapping : Mapping} (hw : Source.Wrapped index described files)
  (h : ofCatalog settings (Catalog.ofFiles files) = .ok mapping)

include hw h

/-- A body stands under the name of its message. -/
theorem of_mem_bodies {mode : Mode} {entry : String × Body}
    (he : entry ∈ (mapping.bodies mode).entries) : entry.2.message.fullName = entry.1 ∧
      entry.2.message ∈ allMessages files ∧ entry.2.Sound files entry.2.message := by
  have hget := (Table.get?_eq_some_iff (ofCatalog_nodup_keys h mode)).mpr he
  obtain ⟨message, hm, hname, hof⟩ := (ofCatalog_built h).body_of_get? hget
  have hsound := (Body.ofMessage_ok (hw.placed message hm) hof).1
  rw [hsound.message]
  exact ⟨hname, hm, hsound⟩

theorem of_mem_body_values (mode : Mode) {body : Body}
    (hb : body ∈ (mapping.bodies mode).values) : body.message ∈ allMessages files ∧
      body.Sound files body.message := by
  obtain ⟨entry, he, rfl⟩ := List.mem_map.mp hb
  exact (of_mem_bodies hw h he).2

private theorem nodup_body_labels (mode : Mode) {names : Source.Message → List Label}
    (hnodup : ∀ message ∈ allMessages files, (names message).Nodup)
    (hnames : ∀ message, ∀ label ∈ names message, messageOf? label.node = some message) :
    ((mapping.bodies mode).values.flatMap fun body => names body.message).Nodup := by
  have hkeys : ((mapping.bodies mode).values.map (·.message.fullName)).Nodup :=
    Table.nodup_values_map (ofCatalog_nodup_keys h mode) fun entry he => (of_mem_bodies hw h he).1
  refine nodup_flatMap_of_key hkeys (fun body hb => hnodup _ (of_mem_body_values hw h mode hb).1)
    fun a b label ha hb => ?_
  have hsame := (hnames _ label ha).symm.trans (hnames _ label hb)
  rw [Option.some.inj hsame]

omit hw

/-- A plan stands under the name of its service. -/
theorem of_mem_plans {entry : String × ServicePlan} (he : entry ∈ mapping.services.entries) :
    entry.2.service.fullName = entry.1 ∧ entry.2.service ∈ allServices files := by
  have hb := ofCatalog_built h
  have hget := (Table.get?_eq_some_iff hb.nodup_keys_services).mpr he
  obtain ⟨service, hs, -, hname, hof⟩ := hb.plan_of_get? hget
  rw [ServicePlan.ofService_service hof]
  exact ⟨hname, hs⟩

private theorem nodup_plan_labels : (mapping.services.values.flatMap rootLabels).Nodup := by
  have hkeys : (mapping.services.values.map (·.service.fullName)).Nodup :=
    Table.nodup_values_map (ofCatalog_built h).nodup_keys_services fun _ he => (of_mem_plans h he).1
  refine nodup_flatMap_of_key hkeys (fun plan _ => nodup_rootLabels plan) fun a b label ha hb => ?_
  have hsame := (rootLabels_spec ha).symm.trans (rootLabels_spec hb)
  rw [Node.service.inj hsame]

theorem of_mem_enums {enum : Source.Enum} (he : enum ∈ mapping.catalog.enums.values) :
    enum ∈ allEnums files := by
  rw [(ofCatalog_built h).catalog_eq] at he
  obtain ⟨entry, hentry, rfl⟩ := List.mem_map.mp he
  exact (Catalog.of_mem_entries_enums hentry).1

private theorem nodup_enum_labels :
    (mapping.catalog.enums.values.map fun enum => Label.mk (.enum enum) .bare).Nodup := by
  rw [(ofCatalog_built h).catalog_eq]
  have hkeys : ((Catalog.ofFiles files).enums.values.map (·.fullName)).Nodup :=
    Table.nodup_values_map (Catalog.nodup_keys_enums files)
      fun _ he => (Catalog.of_mem_entries_enums he).2
  refine (List.Nodup.of_map _ hkeys).map fun a b heq => ?_
  simpa using heq

include hw

/-- No two types have one label. -/
theorem nodup_labels (hs : WellSpelled files) : mapping.labels.Nodup := by
  have hmembers : ∀ message ∈ allMessages files, (objectLabels message).Nodup := fun message hm =>
    nodup_objectLabels fun oneof ho => List.Nodup.of_map _ (hs.members message hm oneof ho)
  have hobjects : (mapping.objects.values.flatMap fun body => objectLabels body.message).Nodup :=
    nodup_body_labels hw h .object hmembers fun message label hl => (objectLabels_spec hl).1
  have hinputs : (mapping.inputs.values.flatMap fun body => inputLabels body.message).Nodup :=
    nodup_body_labels hw h .input (fun message _ => nodup_inputLabels message)
      fun message label hl => (inputLabels_spec hl).1
  -- what tells the four lists apart: the mark of inputs, and whether a message is behind the node
  have hobject : ∀ label ∈ mapping.objects.values.flatMap fun body => objectLabels body.message,
      (messageOf? label.node).isSome = true ∧ label.mark ≠ .input := by
    intro label hl
    obtain ⟨body, -, hin⟩ := List.mem_flatMap.mp hl
    obtain ⟨hnode, hmark⟩ := objectLabels_spec hin
    exact ⟨by rw [hnode]; rfl, hmark⟩
  have hinput : ∀ label ∈ mapping.inputs.values.flatMap fun body => inputLabels body.message,
      (messageOf? label.node).isSome = true ∧ label.mark = .input := by
    intro label hl
    obtain ⟨body, -, hin⟩ := List.mem_flatMap.mp hl
    obtain ⟨hnode, hmark⟩ := inputLabels_spec hin
    exact ⟨by rw [hnode]; rfl, hmark⟩
  refine List.nodup_append.mpr ⟨List.nodup_append.mpr ⟨List.nodup_append.mpr
    ⟨hobjects, hinputs, ?_⟩, nodup_enum_labels h, ?_⟩, nodup_plan_labels h, ?_⟩
  · rintro label hl _ hl' rfl
    exact (hobject label hl).2 (hinput label hl').2
  · rintro label hl _ hl' rfl
    obtain ⟨enum, -, rfl⟩ := List.mem_map.mp hl'
    rcases List.mem_append.mp hl with hl | hl
    · exact nomatch (hobject _ hl).1
    · exact nomatch (hinput _ hl).1
  · rintro label hl _ hl' rfl
    obtain ⟨plan, -, hroot⟩ := List.mem_flatMap.mp hl'
    have hnode := rootLabels_spec hroot
    rcases List.mem_append.mp hl with hl | hl
    · have hsome : (messageOf? label.node).isSome = true :=
        (List.mem_append.mp hl).elim (fun hl => (hobject _ hl).1) fun hl => (hinput _ hl).1
      rw [hnode] at hsome
      exact nomatch hsome
    · obtain ⟨enum, -, rfl⟩ := List.mem_map.mp hl
      exact nomatch hnode

theorem of_mem_labels {label : Label} (hl : label ∈ mapping.labels) :
    label.node.IsOf files ∧ label.Fits := by
  rcases List.mem_append.mp hl with hl | hl
  · rcases List.mem_append.mp hl with hl | hl
    · rcases List.mem_append.mp hl with hl | hl
      · obtain ⟨body, hb, hin⟩ := List.mem_flatMap.mp hl
        exact objectLabels_of (of_mem_body_values hw h .object hb).1 hin
      · obtain ⟨body, hb, hin⟩ := List.mem_flatMap.mp hl
        exact inputLabels_of (of_mem_body_values hw h .input hb).1 hin
    · obtain ⟨enum, he, rfl⟩ := List.mem_map.mp hl
      exact ⟨.enum (of_mem_enums h he), .enum enum⟩
  · obtain ⟨plan, hp, hroot⟩ := List.mem_flatMap.mp hl
    obtain ⟨operation, -, rfl⟩ := List.mem_map.mp hroot
    obtain ⟨entry, he, rfl⟩ := List.mem_map.mp hp
    exact ⟨.service (of_mem_plans h he).2, .root _ operation⟩

/-- A custom scalar stands for the type of a field. -/
theorem of_mem_scalars {scalar : String} (hs : scalar ∈ mapping.scalars) :
    ∃ message ∈ allMessages files, ∃ field ∈ message.fields,
      customScalar? settings field.typeName = some scalar := by
  obtain ⟨body, hb, hscalar⟩ := List.mem_flatMap.mp (Dependency.mem_firstOccurrences.mp hs)
  obtain ⟨typed, ht, hcustom⟩ := List.mem_filterMap.mp hscalar
  obtain ⟨hm, hsound⟩ := of_mem_body_values hw h .object hb
  rw [(ofCatalog_built h).settings_eq] at hcustom
  exact ⟨body.message, hm, typed.field, (hsound.typed typed ht).1, hcustom⟩

/-- The custom scalars are those that stand for the types of fields. -/
theorem mem_scalars_iff (hd : Source.Distinct files) {scalar : String} :
    scalar ∈ mapping.scalars ↔ ∃ message ∈ allMessages files, ∃ field ∈ message.fields,
      customScalar? settings field.typeName = some scalar := by
  refine ⟨of_mem_scalars hw h, fun ⟨message, hm, field, hf, hcustom⟩ => ?_⟩
  have hb := ofCatalog_built h
  obtain ⟨body, hget, hof⟩ := hb.exists_object hd hm
  obtain ⟨typed, ht, rfl⟩ := (Body.ofMessage_ok (hw.placed message hm) hof).1.covers field hf
  rw [← hb.settings_eq] at hcustom
  exact Dependency.mem_firstOccurrences.mpr (List.mem_flatMap.mpr
    ⟨body, Table.mem_values_of_get? hget, List.mem_filterMap.mpr ⟨typed, ht, hcustom⟩⟩)

/-- The names are those of the labels and of the scalars. -/
theorem declaredNames_eq (htrim : settings.trim = "")
    (hspace : ∀ file ∈ files, file.home.nameSpace.isSet = false) :
    mapping.declaredNames =
      mapping.labels.map (fun label => .text label.text) ++ mapping.scalars.map .text := by
  have htrim : mapping.naming.settings.trim = "" := by
    rw [naming, (ofCatalog_built h).settings_eq, htrim]
  have hunset : ∀ {node : Node}, node.IsOf files → node.home.nameSpace.isSet = false := by
    intro node hnode
    obtain ⟨file, hf, hhome⟩ := hnode.exists_file hw
    rw [hhome, hspace file hf]
  have hobjects : mapping.objects.values.flatMap
        (fun body => (body.objectDeclarations mapping.naming).map (·.name)) =
      (mapping.objects.values.flatMap fun body => objectLabels body.message).map
        fun label => .text label.text := by
    rw [List.map_flatMap]
    refine List.flatMap_congr fun body hb => ?_
    obtain ⟨hm, hsound⟩ := of_mem_body_values hw h .object hb
    exact Body.objectNames_eq htrim (hunset (.message hm)) hsound
  have hinputs : mapping.inputs.values.flatMap
        (fun body => (body.inputDeclarations mapping.naming).map (·.name)) =
      (mapping.inputs.values.flatMap fun body => inputLabels body.message).map
        fun label => .text label.text := by
    rw [List.map_flatMap]
    refine List.flatMap_congr fun body hb => ?_
    obtain ⟨hm, hsound⟩ := of_mem_body_values hw h .input hb
    exact Body.inputNames_eq htrim (hunset (.message hm)) hsound
  have henums : mapping.catalog.enums.values.map
        (fun enum => (enumDeclaration mapping.naming enum).name) =
      (mapping.catalog.enums.values.map fun enum => Label.mk (.enum enum) .bare).map
        fun label => .text label.text := by
    rw [List.map_map]
    refine List.map_congr_left fun enum he => ?_
    exact Naming.enum_label htrim (hunset (.enum (of_mem_enums h he)))
  have hroots : mapping.services.values.flatMap
        (fun plan => (plan.roots mapping.naming).map (·.name)) =
      (mapping.services.values.flatMap rootLabels).map fun label => .text label.text := by
    rw [List.map_flatMap]
    refine List.flatMap_congr fun plan hp => ?_
    obtain ⟨entry, he, rfl⟩ := List.mem_map.mp hp
    have hservice := (of_mem_plans h he).2
    rw [ServicePlan.roots, rootLabels, List.map_map, List.map_map]
    exact List.map_congr_left fun operation _ =>
      Naming.root_label htrim (hunset (.service hservice)) operation
  rw [declaredNames, labels, List.map_append, List.map_append, List.map_append, hobjects, hinputs,
    henums, hroots]

/-- A name begins with the stem of a package and an underscore. -/
theorem stem_of_mem_labels {label : Label} (hl : label ∈ mapping.labels) :
    ∃ file ∈ files, Name.packageStem file.home.package ++ ['_'] <+: label.text.toList := by
  have hnode := (of_mem_labels hw h hl).1
  obtain ⟨file, hf, hhome⟩ := hnode.exists_file hw
  have hlength := hnode.two_le_length hw
  refine ⟨file, hf, ?_⟩
  rw [← hhome, Label.text, String.toList_ofList, Node.place, List.cons_append]
  rw [Node.place, List.length_cons, List.length_map] at hlength
  cases hpath : label.node.path with
  | nil => simp [hpath] at hlength
  | cons first rest =>
    rw [List.map_cons, List.cons_append, List.intercalate_cons_cons]
    exact List.prefix_append _ _

end Mapped

end ProtoSdl.Mapping

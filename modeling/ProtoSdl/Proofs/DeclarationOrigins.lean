import Mathlib.Data.List.Pairwise
import ProtoSdl.Proofs.DeclaredNames
import ProtoSdl.Proofs.SchemaTargets

/-! What the declarations of a file are made from. A declaration is made from an enum, a message, a
oneof or a member of one, or an operation of a service; a file lists the declarations of all that it
defines, each once. -/
namespace ProtoSdl

open Mapping
open Source (allMessages allEnums allServices)
open Schema (Declaration)

/-- The extension for an operation that has methods, where root types are extended. -/
def Mapping.ServicePlan.extension? (naming : Naming) (plan : ServicePlan) (operation : Operation) :
    Option Schema.Composite :=
  if operation ∈ plan.operations then
    naming.settings.rootPrefix.map fun start =>
      { form := .extension
        name := .text (start ++ operation.rootName)
        fields := [{
          name := naming.settings.methodName plan.service.name
          typeName := (plan.root naming operation).name
          modifiers := .required }] }
  else none

namespace Output

inductive Group
  | scalars
  | enums
  | objects
  | inputs
  | roots
  | extensions
  deriving DecidableEq

/-- What a declaration is made from. Sources are given by their names, the oneofs of a message that
have members and the members of a oneof by their positions. -/
inductive Origin
  | scalar (name : String)
  | enum (name : String)
  | object (message : String)
  | union (message : String) (choice : Nat)
  | wrapper (message : String) (choice member : Nat)
  | input (message : String)
  | choiceInput (message : String) (choice : Nat)
  | root (service : String) (operation : Operation)
  | extension (service : String) (operation : Operation)
  deriving DecidableEq

namespace Origin

def group : Origin → Group
  | scalar _ => .scalars
  | enum _ => .enums
  | object _ | union _ _ | wrapper _ _ _ => .objects
  | input _ | choiceInput _ _ => .inputs
  | root _ _ => .roots
  | extension _ _ => .extensions

def source : Origin → String
  | scalar name | enum name | object name | union name _ | wrapper name _ _ | input name
  | choiceInput name _ | root name _ | extension name _ => name

def declaration? (mapping : Mapping) : Origin → Option Declaration
  | scalar name => if name ∈ mapping.scalars then some (.scalar { name }) else none
  | enum name => do
    let enum ← mapping.catalog.enums.get? name
    return .enum (enumDeclaration mapping.naming enum)
  | object name => do
    let body ← mapping.objects.get? name
    return .composite (body.object mapping.naming)
  | union name position => do
    let body ← mapping.objects.get? name
    let choice ← body.choices[position]?
    return .union (body.choiceUnion mapping.naming choice)
  | wrapper name position place => do
    let body ← mapping.objects.get? name
    let choice ← body.choices[position]?
    let member ← choice.members[place]?
    return .composite (body.wrapper mapping.naming choice member)
  | input name => do
    let body ← mapping.inputs.get? name
    return .composite (body.input mapping.naming)
  | choiceInput name position => do
    let body ← mapping.inputs.get? name
    let choice ← body.choices[position]?
    return .composite (body.choiceInput mapping.naming choice)
  | root name operation => do
    let plan ← mapping.services.get? name
    return .composite (← plan.root? mapping.naming operation)
  | extension name operation => do
    let plan ← mapping.services.get? name
    return .composite (← plan.extension? mapping.naming operation)

end Origin

/-- The names of what the declarations of a group are made from. -/
def sourceNames (file : Source.File) : Group → List String
  | .scalars => []
  | .enums => file.enums.map (·.fullName)
  | .objects | .inputs => file.messages.map (·.fullName)
  | .roots | .extensions => file.services.map (·.fullName)

def Origin.IsOf (file : Source.File) (origin : Origin) : Prop :=
  origin.source ∈ sourceNames file origin.group

section Lists

def objectOrigins (body : Body) : List Origin :=
  let name := body.message.fullName
  .object name :: body.choices.zipIdx.flatMap fun (choice, position) =>
    .union name position :: choice.members.zipIdx.map fun (_, place) =>
      .wrapper name position place

def inputOrigins (body : Body) : List Origin :=
  let name := body.message.fullName
  .input name :: body.choices.zipIdx.map fun (_, position) => .choiceInput name position

def rootOrigins (plan : ServicePlan) : List Origin :=
  plan.operations.map (.root plan.service.fullName)

def extensionOrigins (settings : Settings) (plan : ServicePlan) : List Origin :=
  match settings.rootPrefix with
  | none => []
  | some _ => plan.operations.map (.extension plan.service.fullName)

def groupOrigins (mapping : Mapping) (file : Source.File) : Group → List Origin
  | .scalars => []
  | .enums => (sourceEnums mapping file).map (.enum ·.fullName)
  | .objects => ((mapping.orderIn file).filterMap mapping.objects.get?).flatMap objectOrigins
  | .inputs => ((mapping.orderIn file).filterMap mapping.inputs.get?).flatMap inputOrigins
  | .roots => (plans mapping file).flatMap rootOrigins
  | .extensions => (plans mapping file).flatMap (extensionOrigins mapping.settings)

def groupDeclarations (mapping : Mapping) (file : Source.File) : Group → List Declaration
  | .scalars => []
  | .enums => (enums mapping file).map .enum
  | .objects => objects mapping file
  | .inputs => inputs mapping file
  | .roots => roots mapping file
  | .extensions => extensions mapping file

/-- The origins of the declarations of a file apart from scalars. -/
def fileOrigins (mapping : Mapping) (file : Source.File) : List Origin :=
  [Group.enums, .objects, .inputs, .roots, .extensions].flatMap (groupOrigins mapping file)

end Lists

section Declared

variable {mapping : Mapping} {body : Body} {plan : ServicePlan}

/-- Items with their positions give what the items give. -/
theorem flatMap_zipIdx {α β : Type} (items : List α) (f : α → List β) :
    (items.zipIdx.flatMap fun entry => f entry.1) = items.flatMap f := by
  conv => rhs; rw [← List.zipIdx_map_fst 0 items, List.flatMap_map]

theorem map_objectOrigins (hb : mapping.objects.get? body.message.fullName = some body) :
    (objectOrigins body).map (·.declaration? mapping) =
      (body.objectDeclarations mapping.naming).map some := by
  have hchoice : ∀ entry ∈ body.choices.zipIdx,
      (Origin.union body.message.fullName entry.2 :: entry.1.members.zipIdx.map
        fun member => Origin.wrapper body.message.fullName entry.2 member.2).map
          (·.declaration? mapping) =
        (Declaration.union (body.choiceUnion mapping.naming entry.1) ::
          (body.choiceWrappers mapping.naming entry.1).map .composite).map some := by
    intro entry he
    have hget := List.mem_zipIdx_iff_getElem?.mp he
    have hmember : ∀ member ∈ entry.1.members.zipIdx,
        (Origin.wrapper body.message.fullName entry.2 member.2).declaration? mapping =
          some (.composite (body.wrapper mapping.naming entry.1 member.1)) := by
      intro member hm
      simp [Origin.declaration?, hb, hget, List.mem_zipIdx_iff_getElem?.mp hm]
    simp only [List.map_cons, List.map_map, Body.choiceWrappers]
    congr 1
    · simp [Origin.declaration?, hb, hget]
    · rw [← List.zipIdx_map_fst 0 entry.1.members, List.map_map, List.zipIdx_map_fst]
      exact List.map_congr_left hmember
  rw [objectOrigins, Body.objectDeclarations, List.map_cons, List.map_cons]
  congr 1
  · simp [Origin.declaration?, hb]
  · have hchoices := flatMap_zipIdx body.choices fun choice =>
      (Declaration.union (body.choiceUnion mapping.naming choice) ::
        (body.choiceWrappers mapping.naming choice).map .composite).map some
    rw [List.map_flatMap, List.map_flatMap]
    exact (List.flatMap_congr hchoice).trans hchoices

theorem map_inputOrigins (hb : mapping.inputs.get? body.message.fullName = some body) :
    (inputOrigins body).map (·.declaration? mapping) =
      (body.inputDeclarations mapping.naming).map some := by
  rw [inputOrigins, Body.inputDeclarations, List.map_cons, List.map_cons]
  congr 1
  · simp [Origin.declaration?, hb]
  · rw [← List.zipIdx_map_fst 0 body.choices, List.map_map, List.map_map, List.map_map,
      List.zipIdx_map_fst]
    refine List.map_congr_left fun entry he => ?_
    simp [Origin.declaration?, hb, List.mem_zipIdx_iff_getElem?.mp he]

theorem map_rootOrigins (hp : mapping.services.get? plan.service.fullName = some plan) :
    (rootOrigins plan).map (·.declaration? mapping) =
      ((plan.roots mapping.naming).map Declaration.composite).map some := by
  rw [rootOrigins, ServicePlan.roots, List.map_map, List.map_map, List.map_map]
  refine List.map_congr_left fun operation ho => ?_
  simp [Origin.declaration?, hp, ServicePlan.root?, ho]

theorem map_extensionOrigins (hp : mapping.services.get? plan.service.fullName = some plan) :
    (extensionOrigins mapping.settings plan).map (·.declaration? mapping) =
      ((plan.extensions mapping.naming).map Declaration.composite).map some := by
  have hsettings : mapping.naming.settings = mapping.settings := rfl
  unfold extensionOrigins ServicePlan.extensions
  rw [hsettings]
  cases hstart : mapping.settings.rootPrefix with
  | none => rfl
  | some start =>
    simp only [List.map_map]
    refine List.map_congr_left fun operation ho => ?_
    simp [Origin.declaration?, hp, ServicePlan.extension?, ho, hsettings, hstart]

end Declared

section Sources

variable {mapping : Mapping} {name : String}

private theorem isSome_of_map {origins : List Origin} {declarations : List Declaration}
    (h : origins.map (·.declaration? mapping) = declarations.map some) {origin : Origin}
    (ho : origin ∈ origins) : (origin.declaration? mapping).isSome = true := by
  have hm := List.mem_map_of_mem (f := (·.declaration? mapping)) ho
  rw [h] at hm
  obtain ⟨declaration, -, heq⟩ := List.mem_map.mp hm
  rw [← heq]
  rfl

theorem object_isSome : ((Origin.object name).declaration? mapping).isSome = true ↔
    ∃ body, mapping.objects.get? name = some body := by
  simp [Origin.declaration?, Option.isSome_bind, Option.isSome_iff_exists]

theorem union_isSome {position : Nat} :
    ((Origin.union name position).declaration? mapping).isSome = true ↔
      ∃ body, mapping.objects.get? name = some body ∧
        ∃ choice, body.choices[position]? = some choice := by
  simp [Origin.declaration?, Option.isSome_bind, Option.any_eq_true,
    Option.isSome_iff_exists]

theorem wrapper_isSome {position place : Nat} :
    ((Origin.wrapper name position place).declaration? mapping).isSome = true ↔
      ∃ body, mapping.objects.get? name = some body ∧
        ∃ choice, body.choices[position]? = some choice ∧
          ∃ member, choice.members[place]? = some member := by
  simp [Origin.declaration?, Option.isSome_bind, Option.any_eq_true,
    Option.isSome_iff_exists]

private theorem input_isSome : ((Origin.input name).declaration? mapping).isSome = true ↔
    ∃ body, mapping.inputs.get? name = some body := by
  simp [Origin.declaration?, Option.isSome_bind, Option.isSome_iff_exists]

private theorem choiceInput_isSome {position : Nat} :
    ((Origin.choiceInput name position).declaration? mapping).isSome = true ↔
      ∃ body, mapping.inputs.get? name = some body ∧
        ∃ choice, body.choices[position]? = some choice := by
  simp [Origin.declaration?, Option.isSome_bind, Option.any_eq_true,
    Option.isSome_iff_exists]

private theorem root_isSome {operation : Operation} :
    ((Origin.root name operation).declaration? mapping).isSome = true ↔
      ∃ plan, mapping.services.get? name = some plan ∧ operation ∈ plan.operations := by
  simp [Origin.declaration?, ServicePlan.root?, Option.isSome_bind, Option.any_eq_true,
    Option.isSome_iff_exists]

private theorem extension_isSome {operation : Operation} :
    ((Origin.extension name operation).declaration? mapping).isSome = true ↔
      ∃ plan, mapping.services.get? name = some plan ∧ operation ∈ plan.operations ∧
        ∃ start, mapping.settings.rootPrefix = some start := by
  simp [Origin.declaration?, ServicePlan.extension?, Option.isSome_bind, Option.any_eq_true,
    Option.isSome_iff_exists, Mapping.naming]

end Sources

section Groups

variable {body : Body} {plan : ServicePlan} {origin : Origin}

theorem mem_objectOrigins : origin ∈ objectOrigins body ↔
    origin = .object body.message.fullName ∨ ∃ position choice,
      body.choices[position]? = some choice ∧ (origin = .union body.message.fullName position ∨
        ∃ place member, choice.members[place]? = some member ∧
          origin = .wrapper body.message.fullName position place) := by
  simp only [objectOrigins, List.mem_cons, List.mem_flatMap, List.mem_map, Prod.exists,
    List.mem_zipIdx_iff_getElem?]
  refine or_congr_right ⟨?_, ?_⟩
  · rintro ⟨choice, position, hc, rfl | ⟨member, place, hm, rfl⟩⟩
    · exact ⟨position, choice, hc, .inl rfl⟩
    · exact ⟨position, choice, hc, .inr ⟨place, member, hm, rfl⟩⟩
  · rintro ⟨position, choice, hc, rfl | ⟨place, member, hm, rfl⟩⟩
    · exact ⟨choice, position, hc, .inl rfl⟩
    · exact ⟨choice, position, hc, .inr ⟨member, place, hm, rfl⟩⟩

theorem mem_inputOrigins : origin ∈ inputOrigins body ↔
    origin = .input body.message.fullName ∨ ∃ position choice,
      body.choices[position]? = some choice ∧
        origin = .choiceInput body.message.fullName position := by
  simp only [inputOrigins, List.mem_cons, List.mem_map, Prod.exists, List.mem_zipIdx_iff_getElem?]
  refine or_congr_right ⟨?_, ?_⟩
  · rintro ⟨choice, position, hc, rfl⟩
    exact ⟨position, choice, hc, rfl⟩
  · rintro ⟨position, choice, hc, rfl⟩
    exact ⟨choice, position, hc, rfl⟩

theorem mem_rootOrigins : origin ∈ rootOrigins plan ↔
    ∃ operation ∈ plan.operations, origin = .root plan.service.fullName operation := by
  simp [rootOrigins, eq_comm]

theorem mem_extensionOrigins {settings : Settings} : origin ∈ extensionOrigins settings plan ↔
    (∃ start, settings.rootPrefix = some start) ∧ ∃ operation ∈ plan.operations,
      origin = .extension plan.service.fullName operation := by
  unfold extensionOrigins
  cases settings.rootPrefix <;> simp [eq_comm]

theorem objectOrigins_spec (h : origin ∈ objectOrigins body) :
    origin.group = .objects ∧ origin.source = body.message.fullName := by
  rcases mem_objectOrigins.mp h with rfl | ⟨_, _, -, rfl | ⟨_, _, -, rfl⟩⟩ <;> exact ⟨rfl, rfl⟩

theorem inputOrigins_spec (h : origin ∈ inputOrigins body) :
    origin.group = .inputs ∧ origin.source = body.message.fullName := by
  rcases mem_inputOrigins.mp h with rfl | ⟨_, _, -, rfl⟩ <;> exact ⟨rfl, rfl⟩

theorem rootOrigins_spec (h : origin ∈ rootOrigins plan) :
    origin.group = .roots ∧ origin.source = plan.service.fullName := by
  obtain ⟨_, -, rfl⟩ := mem_rootOrigins.mp h
  exact ⟨rfl, rfl⟩

theorem extensionOrigins_spec {settings : Settings} (h : origin ∈ extensionOrigins settings plan) :
    origin.group = .extensions ∧ origin.source = plan.service.fullName := by
  obtain ⟨-, _, -, rfl⟩ := mem_extensionOrigins.mp h
  exact ⟨rfl, rfl⟩

theorem nodup_zipIdx_snd {α : Type} (items : List α) : (items.zipIdx.map (·.2)).Nodup := by
  rw [List.zipIdx_map_snd]
  exact List.nodup_range'

private theorem nodup_objectOrigins (body : Body) : (objectOrigins body).Nodup := by
  refine List.nodup_cons.mpr ⟨by simp, ?_⟩
  have hposition : ∀ (entry : Choice × Nat),
      ∀ origin ∈ Origin.union body.message.fullName entry.2 :: entry.1.members.zipIdx.map
        (fun member => .wrapper body.message.fullName entry.2 member.2),
      origin = .union body.message.fullName entry.2 ∨
        ∃ place, origin = .wrapper body.message.fullName entry.2 place := by
    intro entry origin hm
    refine (List.mem_cons.mp hm).imp_right fun hm => ?_
    obtain ⟨member, -, rfl⟩ := List.mem_map.mp hm
    exact ⟨member.2, rfl⟩
  refine nodup_flatMap_of_key (nodup_zipIdx_snd body.choices) (fun entry _ => ?_)
    fun a b origin ha hb => ?_
  · refine List.nodup_cons.mpr ⟨by simp, ?_⟩
    have hplaces := (nodup_zipIdx_snd entry.1.members).map
      (fun _ _ heq => (Origin.wrapper.inj heq).2.2 :
        Function.Injective (Origin.wrapper body.message.fullName entry.2))
    rwa [List.map_map] at hplaces
  · rcases hposition a origin ha with rfl | ⟨place, rfl⟩
    · simpa using hposition b _ hb
    · simpa using hposition b _ hb

private theorem nodup_inputOrigins (body : Body) : (inputOrigins body).Nodup := by
  refine List.nodup_cons.mpr ⟨by simp, ?_⟩
  have hpositions := (nodup_zipIdx_snd body.choices).map
    (fun _ _ heq => (Origin.choiceInput.inj heq).2 :
      Function.Injective (Origin.choiceInput body.message.fullName))
  rwa [List.map_map] at hpositions

theorem nodup_operations (plan : ServicePlan) : plan.operations.Nodup := by
  have hall : Operation.all.Nodup := by decide
  exact hall.filter _

private theorem nodup_rootOrigins (plan : ServicePlan) : (rootOrigins plan).Nodup :=
  (nodup_operations plan).map fun _ _ heq => (Origin.root.inj heq).2

private theorem nodup_extensionOrigins (settings : Settings) (plan : ServicePlan) :
    (extensionOrigins settings plan).Nodup := by
  unfold extensionOrigins
  split
  · exact List.nodup_nil
  · exact (nodup_operations plan).map fun _ _ heq => (Origin.extension.inj heq).2

end Groups

end Output

section Files

variable {settings : Settings} {index : Options.Index} {described : List Descriptor.File}
  {files : List Source.File} {mapping : Mapping} {file : Source.File}

/-- Files are told apart by their positions. -/
theorem Source.Wrapped.eq_of_position (hw : Source.Wrapped index described files)
    {other : Source.File} (hf : file ∈ files) (ho : other ∈ files)
    (h : file.home.position = other.home.position) : file = other := by
  have hpositions : (files.map (·.home.position)).Nodup := by
    have hhomes := congrArg (List.map Source.Home.position) hw.homes
    rw [List.map_map, List.map_map] at hhomes
    have heq : files.map (·.home.position) = described.zipIdx.map (·.2) := hhomes
    rw [heq]
    exact Output.nodup_zipIdx_snd described
  exact List.inj_on_of_nodup_map hpositions hf ho h

/-- What is named in two files is named in one. -/
theorem Source.eq_of_mem_names {names : Source.File → List String}
    (hn : (files.flatMap names).Nodup) {other : Source.File} (hf : file ∈ files)
    (ho : other ∈ files) {name : String} (h : name ∈ names file) (h' : name ∈ names other) :
    file = other := by
  refine Classical.byContradiction fun hne => ?_
  have hsymm : Std.Symm (Function.onFun List.Disjoint names) := ⟨fun _ _ h _ ha hb => h hb ha⟩
  exact (List.nodup_flatMap.mp hn).2.forall hf ho hne h h'

namespace Output

theorem Origin.IsOf.unique (hd : Source.Distinct files) {other : Source.File} (hf : file ∈ files)
    (ho : other ∈ files) {origin : Origin} (h : origin.IsOf file) (h' : origin.IsOf other) :
    file = other := by
  have hmessages := hd.messageNames
  have henums := hd.enumNames
  have hservices := hd.serviceNames
  rw [allMessages, List.map_flatMap] at hmessages
  rw [allEnums, List.map_flatMap] at henums
  rw [allServices, List.map_flatMap] at hservices
  unfold Origin.IsOf at h h'
  cases hgroup : origin.group with
  | scalars => simp [hgroup, sourceNames] at h
  | enums =>
    rw [hgroup] at h h'
    exact Source.eq_of_mem_names henums hf ho h h'
  | objects | inputs =>
    rw [hgroup] at h h'
    exact Source.eq_of_mem_names hmessages hf ho h h'
  | roots | extensions =>
    rw [hgroup] at h h'
    exact Source.eq_of_mem_names hservices hf ho h h'

variable (hw : Source.Wrapped index described files) (hd : Source.Distinct files)
  (h : Built settings (Catalog.ofFiles files) mapping) (hf : file ∈ files)

include hd h hf

theorem get?_enum {enum : Source.Enum} (he : enum ∈ file.enums) :
    mapping.catalog.enums.get? enum.fullName = some enum := by
  rw [h.catalog_eq]
  exact (Catalog.get?_enums hd).mpr ⟨List.mem_flatMap.mpr ⟨file, hf, he⟩, rfl⟩

/-- The enums of a file are those that it defines. -/
theorem sourceEnums_eq : sourceEnums mapping file = file.enums := by
  rw [sourceEnums, List.filterMap_congr fun enum he => get?_enum hd h hf he, List.filterMap_some]

theorem enum_isSome {enum : Source.Enum} (he : enum ∈ file.enums) :
    ((Origin.enum enum.fullName).declaration? mapping).isSome = true := by
  simp [Origin.declaration?, get?_enum hd h hf he]

include hw

/-- The messages of a file in the dependency order are those that it defines. -/
theorem mem_orderIn {name : String} :
    name ∈ mapping.orderIn file ↔ name ∈ file.messages.map (·.fullName) := by
  rw [Mapping.orderIn, List.mem_filter, h.mem_order, h.catalog_eq, List.mem_map]
  constructor
  · rintro ⟨-, hany⟩
    obtain ⟨message, hget, hposition⟩ := (Option.any_eq_true _ _).mp hany
    obtain ⟨hm, rfl⟩ := (Catalog.get?_messages hd).mp hget
    obtain ⟨other, ho, hin⟩ := List.mem_flatMap.mp hm
    rw [((hw.coherent ho).messages message hin).1, decide_eq_true_eq] at hposition
    obtain rfl := hw.eq_of_position ho hf hposition
    exact ⟨message, hin, rfl⟩
  · rintro ⟨message, hin, rfl⟩
    have hm : message ∈ allMessages files := List.mem_flatMap.mpr ⟨file, hf, hin⟩
    refine ⟨⟨message, hm, rfl⟩, ?_⟩
    rw [(Catalog.get?_messages hd).mpr ⟨hm, rfl⟩, Option.any_some,
      ((hw.coherent hf).messages message hin).1]
    simp

/-- A body stands under the name of its message. -/
theorem mem_bodies_in (mode : Mode) {body : Body} :
    body ∈ (mapping.orderIn file).filterMap (mapping.bodies mode).get? ↔
      (mapping.bodies mode).get? body.message.fullName = some body ∧
        body.message.fullName ∈ file.messages.map (·.fullName) := by
  rw [List.mem_filterMap]
  constructor
  · rintro ⟨name, hname, hget⟩
    obtain rfl := (h.body_spec hd hw.placed hget).2.1
    exact ⟨hget, (mem_orderIn hw hd h hf).mp hname⟩
  · rintro ⟨hget, hname⟩
    exact ⟨_, (mem_orderIn hw hd h hf).mpr hname, hget⟩

omit hw hd hf in
/-- A plan stands under the name of its service. -/
theorem service_of_get? {name : String} {plan : ServicePlan}
    (hget : mapping.services.get? name = some plan) : plan.service.fullName = name := by
  obtain ⟨service, -, -, rfl, hof⟩ := h.plan_of_get? hget
  rw [ServicePlan.ofService_service hof]

omit hw hd hf in
theorem mem_plans {plan : ServicePlan} : plan ∈ plans mapping file ↔
    mapping.services.get? plan.service.fullName = some plan ∧
      plan.service.fullName ∈ file.services.map (·.fullName) := by
  rw [plans, List.mem_filterMap, List.mem_map]
  constructor
  · rintro ⟨service, hs, hget⟩
    have heq := service_of_get? h hget
    exact ⟨heq ▸ hget, service, hs, heq.symm⟩
  · rintro ⟨hget, service, hs, heq⟩
    exact ⟨service, hs, heq ▸ hget⟩

theorem of_mem_groupOrigins {group : Group} {origin : Origin}
    (ho : origin ∈ groupOrigins mapping file group) :
    origin.group = group ∧ origin.IsOf file ∧ (origin.declaration? mapping).isSome = true := by
  cases group with
  | scalars => cases ho
  | enums =>
    rw [groupOrigins, sourceEnums_eq hd h hf] at ho
    obtain ⟨enum, he, rfl⟩ := List.mem_map.mp ho
    exact ⟨rfl, List.mem_map_of_mem he, enum_isSome hd h hf he⟩
  | objects =>
    obtain ⟨body, hb, ho⟩ := List.mem_flatMap.mp ho
    obtain ⟨hget, hname⟩ := (mem_bodies_in hw hd h hf .object).mp hb
    obtain ⟨hgroup, hsource⟩ := objectOrigins_spec ho
    exact ⟨hgroup, by rwa [Origin.IsOf, hgroup, hsource], isSome_of_map (map_objectOrigins hget) ho⟩
  | inputs =>
    obtain ⟨body, hb, ho⟩ := List.mem_flatMap.mp ho
    obtain ⟨hget, hname⟩ := (mem_bodies_in hw hd h hf .input).mp hb
    obtain ⟨hgroup, hsource⟩ := inputOrigins_spec ho
    exact ⟨hgroup, by rwa [Origin.IsOf, hgroup, hsource], isSome_of_map (map_inputOrigins hget) ho⟩
  | roots =>
    obtain ⟨plan, hp, ho⟩ := List.mem_flatMap.mp ho
    obtain ⟨hget, hname⟩ := (mem_plans h).mp hp
    obtain ⟨hgroup, hsource⟩ := rootOrigins_spec ho
    exact ⟨hgroup, by rwa [Origin.IsOf, hgroup, hsource], isSome_of_map (map_rootOrigins hget) ho⟩
  | extensions =>
    obtain ⟨plan, hp, ho⟩ := List.mem_flatMap.mp ho
    obtain ⟨hget, hname⟩ := (mem_plans h).mp hp
    obtain ⟨hgroup, hsource⟩ := extensionOrigins_spec ho
    exact ⟨hgroup, by rwa [Origin.IsOf, hgroup, hsource],
      isSome_of_map (map_extensionOrigins hget) ho⟩

private theorem mem_groupOrigins {origin : Origin} (ho : origin.IsOf file)
    (hsome : (origin.declaration? mapping).isSome = true) :
    origin ∈ groupOrigins mapping file origin.group := by
  have hbody : ∀ mode name body, (mapping.bodies mode).get? name = some body →
      name ∈ file.messages.map (·.fullName) →
      body ∈ (mapping.orderIn file).filterMap (mapping.bodies mode).get? ∧
        body.message.fullName = name := by
    intro mode name body hget hname
    obtain rfl := (h.body_spec hd hw.placed hget).2.1
    exact ⟨(mem_bodies_in hw hd h hf mode).mpr ⟨hget, hname⟩, rfl⟩
  have hplan : ∀ name plan, mapping.services.get? name = some plan →
      name ∈ file.services.map (·.fullName) →
      plan ∈ plans mapping file ∧ plan.service.fullName = name := by
    intro name plan hget hname
    obtain rfl := service_of_get? h hget
    exact ⟨(mem_plans h).mpr ⟨hget, hname⟩, rfl⟩
  cases origin with
  | scalar name => cases ho
  | enum name =>
    rw [Origin.group, groupOrigins, sourceEnums_eq hd h hf]
    obtain ⟨enum, he, rfl⟩ := List.mem_map.mp ho
    exact List.mem_map_of_mem he
  | object name =>
    obtain ⟨body, hget⟩ := object_isSome.mp hsome
    obtain ⟨hm, rfl⟩ := hbody .object name body hget ho
    exact List.mem_flatMap.mpr ⟨body, hm, mem_objectOrigins.mpr (.inl rfl)⟩
  | union name position =>
    obtain ⟨body, hget, choice, hc⟩ := union_isSome.mp hsome
    obtain ⟨hm, rfl⟩ := hbody .object name body hget ho
    exact List.mem_flatMap.mpr
      ⟨body, hm, mem_objectOrigins.mpr (.inr ⟨position, choice, hc, .inl rfl⟩)⟩
  | wrapper name position place =>
    obtain ⟨body, hget, choice, hc, member, hmember⟩ := wrapper_isSome.mp hsome
    obtain ⟨hm, rfl⟩ := hbody .object name body hget ho
    exact List.mem_flatMap.mpr ⟨body, hm, mem_objectOrigins.mpr
      (.inr ⟨position, choice, hc, .inr ⟨place, member, hmember, rfl⟩⟩)⟩
  | input name =>
    obtain ⟨body, hget⟩ := input_isSome.mp hsome
    obtain ⟨hm, rfl⟩ := hbody .input name body hget ho
    exact List.mem_flatMap.mpr ⟨body, hm, mem_inputOrigins.mpr (.inl rfl)⟩
  | choiceInput name position =>
    obtain ⟨body, hget, choice, hc⟩ := choiceInput_isSome.mp hsome
    obtain ⟨hm, rfl⟩ := hbody .input name body hget ho
    exact List.mem_flatMap.mpr
      ⟨body, hm, mem_inputOrigins.mpr (.inr ⟨position, choice, hc, rfl⟩)⟩
  | root name operation =>
    obtain ⟨plan, hget, hoperation⟩ := root_isSome.mp hsome
    obtain ⟨hm, rfl⟩ := hplan name plan hget ho
    exact List.mem_flatMap.mpr ⟨plan, hm, mem_rootOrigins.mpr ⟨operation, hoperation, rfl⟩⟩
  | extension name operation =>
    obtain ⟨plan, hget, hoperation, hstart⟩ := extension_isSome.mp hsome
    obtain ⟨hm, rfl⟩ := hplan name plan hget ho
    exact List.mem_flatMap.mpr
      ⟨plan, hm, mem_extensionOrigins.mpr ⟨hstart, operation, hoperation, rfl⟩⟩

/-- The origins in a file are those that it defines and of which the mapping has declarations. -/
theorem mem_fileOrigins {origin : Origin} : origin ∈ fileOrigins mapping file ↔
    origin.IsOf file ∧ (origin.declaration? mapping).isSome = true := by
  rw [fileOrigins, List.mem_flatMap]
  constructor
  · rintro ⟨group, -, ho⟩
    exact (of_mem_groupOrigins hw hd h hf ho).2
  · rintro ⟨ho, hsome⟩
    refine ⟨origin.group, ?_, mem_groupOrigins hw hd h hf ho hsome⟩
    cases origin with
    | scalar name => cases ho
    | _ => simp [Origin.group]

omit hf in
private theorem nodup_bodies_in (mode : Mode) :
    (((mapping.orderIn file).filterMap (mapping.bodies mode).get?).map
      (·.message.fullName)).Nodup := by
  have horder : (mapping.orderIn file).Nodup := by
    refine List.Nodup.filter _ ?_
    rw [h.order_eq, Catalog.messages_values hd]
    exact (Dependency.order_perm hd.messageNames).nodup_iff.mpr hd.messageNames
  have hname : ∀ name result,
      result ∈ ((mapping.bodies mode).get? name).map (·.message.fullName) → result = name := by
    intro name result hr
    obtain ⟨body, hget, rfl⟩ := Option.map_eq_some_iff.mp hr
    exact (h.body_spec hd hw.placed hget).2.1
  rw [List.map_filterMap]
  refine horder.filterMap fun a b result ha hb => ?_
  rw [← hname a result ha, hname b result hb]

omit hw in
private theorem nodup_plans_in : ((plans mapping file).map (·.service.fullName)).Nodup := by
  have hservices : (file.services.map (·.fullName)).Nodup := by
    have hall := hd.serviceNames
    rw [allServices, List.map_flatMap] at hall
    exact (List.nodup_flatMap.mp hall).1 file hf
  have hname : ∀ name result,
      result ∈ (mapping.services.get? name).map (·.service.fullName) → result = name := by
    intro name result hr
    obtain ⟨plan, hget, rfl⟩ := Option.map_eq_some_iff.mp hr
    exact service_of_get? h hget
  have hplans : (plans mapping file).map (·.service.fullName) =
      (file.services.map (·.fullName)).filterMap fun name =>
        (mapping.services.get? name).map (·.service.fullName) := by
    rw [plans, List.map_filterMap, List.filterMap_map]
    rfl
  rw [hplans]
  refine hservices.filterMap fun a b result ha hb => ?_
  rw [← hname a result ha, hname b result hb]

private theorem nodup_groupOrigins (group : Group) : (groupOrigins mapping file group).Nodup := by
  cases group with
  | scalars => exact List.nodup_nil
  | enums =>
    have hall := hd.enumNames
    rw [allEnums, List.map_flatMap] at hall
    have hnames := (List.nodup_flatMap.mp hall).1 file hf
    rw [groupOrigins, sourceEnums_eq hd h hf]
    have horigins := hnames.map (fun _ _ heq => Origin.enum.inj heq :
      Function.Injective Origin.enum)
    rwa [List.map_map] at horigins
  | objects =>
    refine nodup_flatMap_of_key (nodup_bodies_in hw hd h .object)
      (fun body _ => nodup_objectOrigins body) fun a b origin ha hb => ?_
    rw [← (objectOrigins_spec ha).2, (objectOrigins_spec hb).2]
  | inputs =>
    refine nodup_flatMap_of_key (nodup_bodies_in hw hd h .input)
      (fun body _ => nodup_inputOrigins body) fun a b origin ha hb => ?_
    rw [← (inputOrigins_spec ha).2, (inputOrigins_spec hb).2]
  | roots =>
    refine nodup_flatMap_of_key (nodup_plans_in hd h hf)
      (fun plan _ => nodup_rootOrigins plan) fun a b origin ha hb => ?_
    rw [← (rootOrigins_spec ha).2, (rootOrigins_spec hb).2]
  | extensions =>
    refine nodup_flatMap_of_key (nodup_plans_in hd h hf)
      (fun plan _ => nodup_extensionOrigins _ plan) fun a b origin ha hb => ?_
    rw [← (extensionOrigins_spec ha).2, (extensionOrigins_spec hb).2]

theorem nodup_fileOrigins : (fileOrigins mapping file).Nodup := by
  have hgroups : ([Group.enums, .objects, .inputs, .roots, .extensions].map id).Nodup := by decide
  refine nodup_flatMap_of_key hgroups (fun group _ => nodup_groupOrigins hw hd h hf group)
    fun a b origin ha hb => ?_
  rw [← (of_mem_groupOrigins hw hd h hf ha).1, (of_mem_groupOrigins hw hd h hf hb).1]

private theorem map_groupOrigins (group : Group) :
    (groupOrigins mapping file group).map (·.declaration? mapping) =
      (groupDeclarations mapping file group).map some := by
  cases group with
  | scalars => rfl
  | enums =>
    rw [groupOrigins, groupDeclarations, enums, sourceEnums_eq hd h hf, List.map_map, List.map_map,
      List.map_map]
    refine List.map_congr_left fun enum he => ?_
    simp [Origin.declaration?, get?_enum hd h hf he]
  | objects =>
    rw [groupOrigins, groupDeclarations, objects, List.map_flatMap, List.map_flatMap]
    exact List.flatMap_congr fun body hb =>
      map_objectOrigins ((mem_bodies_in hw hd h hf .object).mp hb).1
  | inputs =>
    rw [groupOrigins, groupDeclarations, inputs, List.map_flatMap, List.map_flatMap]
    exact List.flatMap_congr fun body hb =>
      map_inputOrigins ((mem_bodies_in hw hd h hf .input).mp hb).1
  | roots =>
    rw [groupOrigins, groupDeclarations, roots, List.map_flatMap, List.map_flatMap]
    exact List.flatMap_congr fun plan hp => map_rootOrigins ((mem_plans h).mp hp).1
  | extensions =>
    rw [groupOrigins, groupDeclarations, extensions, List.map_flatMap, List.map_flatMap]
    exact List.flatMap_congr fun plan hp => map_extensionOrigins ((mem_plans h).mp hp).1

/-- The declarations of a file are those of its origins, in the same order. -/
theorem map_fileOrigins : (fileOrigins mapping file).map (·.declaration? mapping) =
    ((enums mapping file).map Declaration.enum ++ bodyDeclarations mapping file).map some := by
  rw [fileOrigins, List.map_flatMap, List.flatMap_congr fun group _ =>
    map_groupOrigins hw hd h hf group]
  simp [groupDeclarations, bodyDeclarations]

end Output

end Files

end ProtoSdl

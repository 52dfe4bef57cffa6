import ProtoSdl.Proofs.Emission
import ProtoSdl.Proofs.SchemaTargets

/-! The schema of all files is closed: each type that a declaration names is built in or declared,
by a declaration of a kind that may stand there. -/
namespace ProtoSdl.Output

open Outcome Mapping
open Source (allMessages allEnums allServices)
open Schema (Declaration TypeName)

/-- Whether a type of one side of the schema may be so declared: an object answers, an input is
given, a union answers, scalars and enums do both. -/
def fits : Mode → Declaration → Bool
  | .object, .composite composite => composite.form = .object
  | .input, .composite composite => composite.form = .input
  | .object, .union _ => true
  | .input, .union _ => false
  | _, .scalar _ => true
  | _, .enum _ => true

/-- The name is that of a scalar that needs no declaration, or of a declaration that fits. -/
def Resolved (declarations : List Declaration) (mode : Mode) (name : TypeName) : Prop :=
  (∃ scalar : Schema.BuiltIn, name = scalar.name) ∨
    ∃ declaration ∈ declarations, fits mode declaration = true ∧ declaration.name = name

/-- Every type that a declaration names is there and of a kind that may stand at its place. -/
structure Closed (declarations : List Declaration) : Prop where
  fields : ∀ composite, .composite composite ∈ declarations → ∀ field ∈ composite.fields,
    Resolved declarations (sideOf composite.form) field.typeName
  arguments : ∀ composite, .composite composite ∈ declarations → ∀ field ∈ composite.fields,
    ∀ argument ∈ field.arguments, Resolved declarations .input argument.typeName
  members : ∀ union, .union union ∈ declarations → ∀ name ∈ union.members,
    ∃ object, .composite object ∈ declarations ∧ object.form = .object ∧ object.name = name

/-- All that a mapping holds is declared: the enums, the objects of all messages with their oneofs,
the inputs, and the root objects of services with the extensions that lead to them. -/
structure Covers (mapping : Mapping) (files : List Source.File)
    (declarations : List Declaration) : Prop where
  enums : ∀ enum ∈ allEnums files,
    ∃ shown, .enum shown ∈ declarations ∧ shown.name = mapping.naming.enum enum
  objects : ∀ message ∈ allMessages files, ∃ body,
    mapping.objects.get? message.fullName = some body ∧
      body.objectDeclarations mapping.naming ⊆ declarations
  inputs : ∀ name body, mapping.inputs.get? name = some body →
    body.inputDeclarations mapping.naming ⊆ declarations
  services : ∀ name plan, mapping.services.get? name = some plan →
    ∀ composite ∈ plan.roots mapping.naming ++ plan.extensions mapping.naming,
      .composite composite ∈ declarations

def allDeclarations (schemas : List (String × List Declaration)) : List Declaration :=
  schemas.flatMap (·.2)

/-- A run that prints all files of a mapping, each once. -/
structure FullRun (settings : Settings) (index : Options.Index) (described : List Descriptor.File)
    (files : List Source.File) (mapping : Mapping) (names : List String)
    (schemas : List (String × List Declaration)) : Prop where
  wrapped : Source.Wrapped index described files
  distinct : Source.Distinct files
  built : Built settings (Catalog.ofFiles files) mapping
  all : names.Perm (described.map (·.name))
  emitted : emitted mapping {} names = .ok schemas

namespace FullRun

variable {settings : Settings} {index : Options.Index} {described : List Descriptor.File}
  {files : List Source.File} {mapping : Mapping} {names : List String}
  {schemas : List (String × List Declaration)}
  (h : FullRun settings index described files mapping names schemas)
include h

theorem exists_schema {file : Source.File} (hf : file ∈ files) :
    ∃ schema ∈ schemas, ∃ declared, Printed mapping declared file schema.2 := by
  have hname : file.home.name ∈ schemas.map (·.1) := by
    rw [emitted_names h.emitted, h.all.mem_iff, ← h.wrapped.names]
    exact List.mem_map_of_mem hf
  obtain ⟨schema, hm, hname⟩ := List.mem_map.mp hname
  obtain ⟨other, declared, hget, hprinted⟩ := emitted_printed h.emitted schema hm
  rw [h.built.catalog_eq, hname, (Catalog.get?_files h.distinct).mpr ⟨hf, rfl⟩] at hget
  cases hget
  exact ⟨schema, hm, declared, hprinted⟩

/-- The declarations of all files are among those of the run. -/
theorem mem_of_bodyDeclarations {file : Source.File} (hf : file ∈ files)
    {declaration : Declaration} (hm : declaration ∈ bodyDeclarations mapping file) :
    declaration ∈ allDeclarations schemas := by
  obtain ⟨schema, hschema, declared, -, enums, -, hparts⟩ := h.exists_schema hf
  refine List.mem_flatMap.mpr ⟨schema, hschema, ?_⟩
  rw [hparts]
  exact List.mem_append_right _ hm

theorem enum_declared {enum : Source.Enum} (he : enum ∈ allEnums files) :
    ∃ shown, .enum shown ∈ allDeclarations schemas ∧ shown.name = mapping.naming.enum enum := by
  obtain ⟨file, hf, hin⟩ := List.mem_flatMap.mp he
  obtain ⟨schema, hschema, declared, -, enums, hnamed, hparts⟩ := h.exists_schema hf
  have hsource : enum ∈ sourceEnums mapping file := by
    refine List.mem_filterMap.mpr ⟨enum, hin, ?_⟩
    rw [h.built.catalog_eq]
    exact (Catalog.get?_enums h.distinct).mpr ⟨he, rfl⟩
  have hname : mapping.naming.enum enum ∈ enums.map (·.name) := by
    rw [hnamed]
    exact List.mem_map_of_mem hsource
  obtain ⟨shown, hshown, hname⟩ := List.mem_map.mp hname
  refine ⟨shown, List.mem_flatMap.mpr ⟨schema, hschema, ?_⟩, hname⟩
  rw [hparts]
  exact List.mem_append_left _ (List.mem_append_right _ (List.mem_map_of_mem hshown))

theorem exists_orderIn {message : Source.Message} (hm : message ∈ allMessages files) :
    ∃ file ∈ files, message.fullName ∈ mapping.orderIn file := by
  obtain ⟨file, hf, hin⟩ := List.mem_flatMap.mp hm
  refine ⟨file, hf, List.mem_filter.mpr
    ⟨h.built.mem_order.mpr ⟨message, hm, rfl⟩, ?_⟩⟩
  rw [h.built.catalog_eq, (Catalog.get?_messages h.distinct).mpr ⟨hm, rfl⟩, Option.any_some,
    ((h.wrapped.coherent hf).messages message hin).1]
  simp

theorem object_declared {name : String} {body : Body}
    (hbody : mapping.objects.get? name = some body) {declaration : Declaration}
    (hm : declaration ∈ body.objectDeclarations mapping.naming) :
    declaration ∈ allDeclarations schemas := by
  obtain ⟨message, hmessage, rfl, -⟩ := h.built.objects.body_of_get? hbody
  obtain ⟨file, hf, horder⟩ := h.exists_orderIn hmessage
  have hobjects : declaration ∈ objects mapping file :=
    List.mem_flatMap.mpr ⟨body, List.mem_filterMap.mpr ⟨_, horder, hbody⟩, hm⟩
  exact h.mem_of_bodyDeclarations hf (by simp [bodyDeclarations, hobjects])

theorem input_declared {name : String} {body : Body}
    (hbody : mapping.inputs.get? name = some body) {declaration : Declaration}
    (hm : declaration ∈ body.inputDeclarations mapping.naming) :
    declaration ∈ allDeclarations schemas := by
  obtain ⟨starts, -, hinputs⟩ := h.built.inputs
  obtain ⟨message, hmessage, rfl, -⟩ := hinputs.body_of_get? hbody
  obtain ⟨file, hf, horder⟩ := h.exists_orderIn hmessage
  have hdeclared : declaration ∈ inputs mapping file :=
    List.mem_flatMap.mpr ⟨body, List.mem_filterMap.mpr ⟨_, horder, hbody⟩, hm⟩
  exact h.mem_of_bodyDeclarations hf (by simp [bodyDeclarations, hdeclared])

theorem service_declared {name : String} {plan : ServicePlan}
    (hplan : mapping.services.get? name = some plan) {composite : Schema.Composite}
    (hc : composite ∈ plan.roots mapping.naming ++ plan.extensions mapping.naming) :
    .composite composite ∈ allDeclarations schemas := by
  obtain ⟨service, hservice, -, rfl, -⟩ := h.built.plan_of_get? hplan
  obtain ⟨file, hf, hin⟩ := List.mem_flatMap.mp hservice
  have hplans : plan ∈ plans mapping file := List.mem_filterMap.mpr ⟨service, hin, hplan⟩
  refine h.mem_of_bodyDeclarations hf ?_
  rcases List.mem_append.mp hc with hc | hc
  · have hroots : .composite composite ∈ roots mapping file :=
      List.mem_flatMap.mpr ⟨plan, hplans, List.mem_map_of_mem hc⟩
    simp [bodyDeclarations, hroots]
  · have hextensions : .composite composite ∈ extensions mapping file :=
      List.mem_flatMap.mpr ⟨plan, hplans, List.mem_map_of_mem hc⟩
    simp [bodyDeclarations, hextensions]

private theorem covers : Covers mapping files (allDeclarations schemas) := by
  refine ⟨fun enum he => h.enum_declared he, fun message hm => ?_,
    fun name body hbody _ hd => h.input_declared hbody hd,
    fun name plan hplan _ hc => h.service_declared hplan hc⟩
  obtain ⟨body, hbody, -⟩ := h.built.exists_object h.distinct hm
  exact ⟨body, hbody, fun _ hd => h.object_declared hbody hd⟩

/-- What the run declares beyond scalars and enums are the declarations of its files. -/
theorem origin {declaration : Declaration} (hm : declaration ∈ allDeclarations schemas) :
    (∃ scalar, declaration = .scalar scalar) ∨ (∃ enum, declaration = .enum enum) ∨
      ∃ name ∈ names, ∃ file, mapping.catalog.files.get? name = some file ∧
        declaration ∈ bodyDeclarations mapping file := by
  obtain ⟨schema, hschema, hm⟩ := List.mem_flatMap.mp hm
  obtain ⟨file, declared, hget, -, enums, -, hparts⟩ := emitted_printed h.emitted schema hschema
  rw [hparts, List.mem_append, List.mem_append] at hm
  rcases hm with (hm | hm) | hm
  · obtain ⟨name, -, rfl⟩ := List.mem_map.mp hm
    exact .inl ⟨_, rfl⟩
  · obtain ⟨enum, -, rfl⟩ := List.mem_map.mp hm
    exact .inr (.inl ⟨enum, rfl⟩)
  · refine .inr (.inr ⟨schema.1, ?_, file, hget, hm⟩)
    rw [← emitted_names h.emitted]
    exact List.mem_map_of_mem hschema

/-- A custom scalar that a declaration of the run refers to is declared. -/
theorem scalar_declared {scalar : String} (hscalar : scalar ∈ mapping.scalars)
    {composite : Schema.Composite} (hm : .composite composite ∈ allDeclarations schemas)
    (hr : .text scalar ∈ (Declaration.composite composite).references) :
    .scalar { name := scalar } ∈ allDeclarations schemas := by
  rcases h.origin hm with ⟨_, heq⟩ | ⟨_, heq⟩ | ⟨name, hname, file, hget, hbody⟩
  · cases heq
  · cases heq
  · have hreference : .text scalar ∈ references mapping file :=
      List.mem_flatMap.mpr ⟨_, hbody, hr⟩
    rcases scalar_emitted h.emitted hname hget hscalar hreference with hnone | ⟨schema, hs, hin⟩
    · simp at hnone
    · exact List.mem_flatMap.mpr ⟨schema, hs, hin⟩

/-- What the declarations of the run refer to, the run declares. -/
theorem resolved_of_target {mode : Mode} {name : TypeName} (ht : Target mapping files mode name)
    {composite : Schema.Composite} (hm : .composite composite ∈ allDeclarations schemas)
    (hr : name ∈ (Declaration.composite composite).references) :
    Resolved (allDeclarations schemas) mode name := by
  cases ht with
  | builtIn _ scalar => exact .inl ⟨scalar, rfl⟩
  | scalar _ hscalar =>
    exact .inr ⟨_, h.scalar_declared hscalar hm hr, by cases mode <;> rfl, rfl⟩
  | enum _ henum =>
    obtain ⟨shown, hshown, hname⟩ := h.enum_declared henum
    exact .inr ⟨_, hshown, by cases mode <;> rfl, hname⟩
  | object hmessage =>
    obtain ⟨body, hbody, hof⟩ := h.built.exists_object h.distinct hmessage
    have hsound := (Body.ofMessage_ok (h.wrapped.placed _ hmessage) hof).1
    refine .inr ⟨_, h.object_declared hbody List.mem_cons_self, by simp [fits, Body.object], ?_⟩
    rw [← hsound.message]
    rfl
  | union hbody hc =>
    refine .inr ⟨_, h.object_declared hbody (List.mem_cons_of_mem _
      (List.mem_flatMap.mpr ⟨_, hc, List.mem_cons_self⟩)), rfl, rfl⟩
  | root hplan ho =>
    exact .inr ⟨_, h.service_declared hplan (List.mem_append_left _ (List.mem_map_of_mem ho)),
      by simp [fits, ServicePlan.root], rfl⟩
  | input hbody =>
    exact .inr ⟨_, h.input_declared hbody List.mem_cons_self, by simp [fits, Body.input], rfl⟩
  | choiceInput hbody hc =>
    exact .inr ⟨_, h.input_declared hbody (List.mem_cons_of_mem _ (List.mem_map_of_mem hc)),
      by simp [fits, Body.choiceInput], rfl⟩

private theorem grounded {declaration : Declaration} (hm : declaration ∈ allDeclarations schemas) :
    Grounded mapping files declaration := by
  rcases h.origin hm with ⟨_, rfl⟩ | ⟨_, rfl⟩ | ⟨_, -, file, -, hbody⟩
  · trivial
  · trivial
  · exact h.built.grounded_of_mem h.distinct h.wrapped.placed hbody

private theorem closed : Closed (allDeclarations schemas) := by
  refine ⟨fun composite hm field hf => ?_, fun composite hm field hf argument ha => ?_,
    fun union hm name hname => ?_⟩
  · refine h.resolved_of_target (h.grounded hm field hf).1 hm ?_
    exact List.mem_flatMap.mpr ⟨field, hf, List.mem_cons_self⟩
  · refine h.resolved_of_target ((h.grounded hm field hf).2 argument ha) hm ?_
    exact List.mem_flatMap.mpr ⟨field, hf, List.mem_cons_of_mem _ (List.mem_map_of_mem ha)⟩
  · obtain ⟨key, body, hbody, choice, hc, wrapper, hw, rfl⟩ := h.grounded hm name hname
    obtain ⟨member, hmember, rfl⟩ := List.mem_map.mp hw
    refine ⟨_, h.object_declared hbody (List.mem_cons_of_mem _ (List.mem_flatMap.mpr
      ⟨choice, hc, List.mem_cons_of_mem _ (List.mem_map_of_mem hw)⟩)), rfl, rfl⟩

end FullRun

section Success

variable {settings : Settings} {index : Options.Index} {described : List Descriptor.File}
  {files : List Source.File} {mapping : Mapping}

private theorem typeName_isList (naming : Naming) {home : Source.Home} (path : Name.TypePath)
    (h : Options.isText home.nameSpace = true) : (naming.typeName home path).isList = false := by
  cases hspace : home.nameSpace with
  | text space => simp [Naming.typeName, hspace, TypeName.isList]
  | _ => simp [hspace, Options.isText] at h

/-- Where namespaces are texts, so are the names of all types. -/
theorem target_isList (hw : Source.Wrapped index described files) (hd : Source.Distinct files)
    (hb : Built settings (Catalog.ofFiles files) mapping) (ht : index.WellTyped) {mode : Mode}
    {name : TypeName} (h : Target mapping files mode name) : name.isList = false := by
  have hmessage : ∀ message ∈ allMessages files, Options.isText message.home.nameSpace = true :=
    fun message hm => by rw [hw.message_nameSpace hm]; exact ht.nameSpace _
  have hbody : ∀ mode key body, (mapping.bodies mode).get? key = some body →
      Options.isText body.message.home.nameSpace = true := fun mode key body hget =>
    hmessage _ (hb.body_spec hd hw.placed hget).2.2.1
  cases h with
  | builtIn _ scalar => rfl
  | scalar _ hs => rfl
  | enum _ he =>
    refine typeName_isList _ _ ?_
    rw [(hw.enum_spec he).1]
    exact ht.nameSpace _
  | object hm => exact typeName_isList _ _ (hmessage _ hm)
  | union hget hc => exact typeName_isList _ _ (hbody .object _ _ hget)
  | root hplan ho =>
    obtain ⟨service, hs, -, -, hof⟩ := hb.plan_of_get? hplan
    refine typeName_isList _ _ ?_
    rw [ServicePlan.ofService_service hof, (hw.service_spec hs).1]
    exact ht.nameSpace _
  | input hget => exact typeName_isList _ _ (hbody .input _ _ hget)
  | choiceInput hget hc => exact typeName_isList _ _ (hbody .input _ _ hget)

theorem references_isList (hw : Source.Wrapped index described files)
    (hd : Source.Distinct files) (hb : Built settings (Catalog.ofFiles files) mapping)
    (ht : index.WellTyped) (file : Source.File) :
    (references mapping file).any (·.isList) = false := by
  rw [List.any_eq_false]
  intro name hreference
  obtain ⟨declaration, hm, hin⟩ := List.mem_flatMap.mp hreference
  obtain ⟨field, hf, hname⟩ := List.mem_flatMap.mp hin
  have hgrounded := hb.grounded_of_mem hd hw.placed hm
  cases declaration with
  | composite composite =>
    obtain ⟨htype, harguments⟩ := hgrounded field hf
    rw [Bool.not_eq_true]
    rcases List.mem_cons.mp hname with rfl | hname
    · exact target_isList hw hd hb ht htype
    · obtain ⟨argument, ha, rfl⟩ := List.mem_map.mp hname
      exact target_isList hw hd hb ht (harguments argument ha)
  | scalar scalar => simp [Declaration.fields] at hf
  | enum enum => simp [Declaration.fields] at hf
  | union union => simp [Declaration.fields] at hf

theorem hasUnmarkable_eq_false (hw : Source.Wrapped index described files)
    (hd : Source.Distinct files) (hb : Built settings (Catalog.ofFiles files) mapping)
    (ht : index.WellTyped) (file : Source.File) : hasUnmarkable mapping file = false := by
  rw [hasUnmarkable, List.any_eq_false]
  intro enum he
  obtain ⟨other, -, hget⟩ := List.mem_filterMap.mp he
  rw [hb.catalog_eq] at hget
  have henum := ((Catalog.get?_enums hd).mp hget).1
  rw [Bool.not_eq_true, List.any_eq_false]
  intro value hv
  have hmarkable : isMarkable value = true := by
    rcases (hw.enum_spec henum).2 value (List.mem_of_mem_filter hv) with ⟨name, hn⟩ | ⟨name, hn⟩
    · simp [isMarkable, hn]
    · have htext := ht.valueName name
      rw [← hn] at htext
      cases hdisplay : value.displayName with
      | text shown => simp [isMarkable, hdisplay]
      | _ => simp [hdisplay, Options.isText] at htext
  simp [hmarkable]

/-- A mapping of well-typed options can be printed, whatever files are asked for. -/
theorem exists_schemas_of_subset (hw : Source.Wrapped index described files)
    (hd : Source.Distinct files) (hb : Built settings (Catalog.ofFiles files) mapping)
    (ht : index.WellTyped) {names : List String} (hnames : names ⊆ described.map (·.name)) :
    ∃ schemas, emitted mapping {} names = .ok schemas := by
  refine exists_emitted (fun name hm => ?_) _
  have hin := hnames hm
  rw [← hw.names] at hin
  obtain ⟨file, hf, hname⟩ := List.mem_map.mp hin
  refine ⟨file, ?_, references_isList hw hd hb ht file, hasUnmarkable_eq_false hw hd hb ht file⟩
  rw [hb.catalog_eq]
  exact (Catalog.get?_files hd).mpr ⟨hf, hname⟩

private theorem exists_schemas (hw : Source.Wrapped index described files)
    (hd : Source.Distinct files)
    (hb : Built settings (Catalog.ofFiles files) mapping) (ht : index.WellTyped)
    {names : List String} (hnames : names.Perm (described.map (·.name))) :
    ∃ schemas, emitted mapping {} names = .ok schemas :=
  exists_schemas_of_subset hw hd hb ht hnames.subset

end Success

/-- The schema files of all source files, each written once, are together a closed schema: the
outputs are the declarations of a run that leaves nothing out and in which every type that is named
is declared, as a kind that may stand there. Where the options are well typed the run succeeds. -/
theorem generated_schema_is_closed (settings : Settings) (index : Options.Index)
    (described : List Descriptor.File) (files : List Source.File) (mapping : Mapping)
    (names : List String) (hw : Source.Wrapped index described files)
    (hd : Source.Distinct files)
    (houtputs : (described.map fun file => fileName file.name).Nodup)
    (hnames : names.Perm (described.map (·.name)))
    (h : Mapping.ofDescriptors settings index described = .ok mapping) :
    (∀ outputs, generate settings index described names = .ok outputs →
      ∃ schemas, emitted mapping {} names = .ok schemas ∧
        outputs.entries = (schemas.filter (!·.2.isEmpty)).map (fun schema =>
          (fileName schema.1, Schema.schemaText schema.2)) ∧
        Covers mapping files (allDeclarations schemas) ∧ Closed (allDeclarations schemas)) ∧
    (index.WellTyped → ∃ outputs, generate settings index described names = .ok outputs) := by
  have hb := ofDescriptors_built hw h
  have hgenerate : generate settings index described names =
      (emitted mapping {} names).map fun schemas => schemas.foldl addSchema {} := by
    rw [generate, h]
    exact write_eq names {}
  rw [hgenerate]
  constructor
  · intro outputs hout
    obtain ⟨schemas, hs, rfl⟩ := map_eq_ok.mp hout
    have hrun : FullRun settings index described files mapping names schemas :=
      ⟨hw, hd, hb, hnames, hs⟩
    refine ⟨schemas, hs, entries_foldl_addSchema ?_, hrun.covers, hrun.closed⟩
    have hmap : schemas.map (fun schema => fileName schema.1) = names.map fileName := by
      rw [← emitted_names hs, List.map_map]
      rfl
    rw [hmap, (hnames.map fileName).nodup_iff, List.map_map]
    exact houtputs
  · intro ht
    obtain ⟨schemas, hs⟩ := exists_schemas hw hd hb ht hnames
    exact ⟨_, map_eq_ok.mpr ⟨schemas, hs, rfl⟩⟩

/-- The files of the shop give a closed schema, in whatever order they are written. -/
theorem shop_schema_is_closed : ∃ mapping outputs schemas,
    Source.Wrapped Source.shopIndex Source.shop Source.shopSources ∧
    Source.Distinct Source.shopSources ∧
    (Source.shop.map fun file => fileName file.name).Nodup ∧
    ["timestamp.proto", "shop.proto"].Perm (Source.shop.map (·.name)) ∧
    Mapping.ofDescriptors Source.shopSettings Source.shopIndex Source.shop = .ok mapping ∧
    generate Source.shopSettings Source.shopIndex Source.shop ["timestamp.proto", "shop.proto"] =
      .ok outputs ∧
    emitted mapping {} ["timestamp.proto", "shop.proto"] = .ok schemas ∧
    Closed (allDeclarations schemas) := by
  have houtputs : (Source.shop.map fun file => fileName file.name).Nodup := by decide
  have hnames : ["timestamp.proto", "shop.proto"].Perm (Source.shop.map (·.name)) := by decide
  obtain ⟨mapping, hmapping⟩ := exists_mapping Source.shop_wrapped Source.shop_distinct
    Source.shop_countsForward Source.shopIndex_wellTyped shop_resolvable
  obtain ⟨hclosed, hsuccess⟩ := generated_schema_is_closed _ _ _ _ mapping _ Source.shop_wrapped
    Source.shop_distinct houtputs hnames hmapping
  obtain ⟨outputs, hout⟩ := hsuccess Source.shopIndex_wellTyped
  obtain ⟨schemas, hs, -, -, hschemas⟩ := hclosed outputs hout
  exact ⟨mapping, outputs, schemas, Source.shop_wrapped, Source.shop_distinct, houtputs, hnames,
    hmapping, hout, hs, hschemas⟩

end ProtoSdl.Output

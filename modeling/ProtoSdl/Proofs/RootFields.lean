import ProtoSdl.Proofs.MessageShapes

/-! The root objects of a service. Its methods are shared out by their operations: a root has a
field for each method that is offered and has its operation, in the order of the methods, and it
exists if there is one. Where root types are to be extended there is one extension for each root. -/
namespace ProtoSdl.Mapping

open Outcome Dependency

def Operation.word : Operation → String
  | query => "query"
  | mutation => "mutation"
  | subscription => "subscription"

/-- The method has the operation; a method that names none is a query. -/
def Operation.serves (operation : Operation) (method : Source.Method) : Bool :=
  if method.operation.isSet then method.operation = .text operation.word
  else operation = query

/-- The method can be called: it is not skipped, it has an operation, it is no stream, and without
inputs its request has no fields. -/
def isOffered (mapping : Mapping) (method : Source.Method) : Bool :=
  !method.skip.isSet && method.operation ≠ .text "none" && !method.isStreaming &&
    (mapping.settings.inputMode ≠ .none ||
      (mapping.catalog.messages.get? method.input).all (·.fields.isEmpty))

def rootMethods (mapping : Mapping) (service : Source.Service) (operation : Operation) :
    List Source.Method :=
  service.methods.filter fun method => mapping.isOffered method && operation.serves method

/-- The field of a method. It has an argument if the request has fields, and it is a truth value
that may be missing if the response has none. -/
structure RootField (mapping : Mapping) (method : Source.Method) (field : Schema.Field) : Prop where
  name : field.name = mapping.settings.methodName method.name
  directives : field.directives = Schema.deprecation method.isDeprecated
  description : field.description = method.comments
  argument : ∃ request, mapping.catalog.messages.get? method.input = some request ∧
    (request.fields = [] → field.arguments = []) ∧
    (request.fields ≠ [] → ∃ types input, mapping.messageTypes? method.input = some types ∧
      types.input = some input ∧
      field.arguments = [{ name := "input", typeName := input.name, modifiers := .required }])
  result : ∃ response, mapping.catalog.messages.get? method.output = some response ∧
    (response.fields = [] → field.typeName = "Boolean" ∧ field.modifiers = .nullable) ∧
    (response.fields ≠ [] → ∃ types, mapping.messageTypes? method.output = some types ∧
      field.typeName = types.object.name ∧ field.modifiers = .required)

def ServiceTypes.root? (types : ServiceTypes) : Operation → Option Schema.Composite
  | .query => types.queries
  | .mutation => types.mutations
  | .subscription => types.subscriptions

def rootExtension (mapping : Mapping) (service : Source.Service) (start : String)
    (operation : Operation) (root : Schema.Composite) : Schema.Composite :=
  { form := .extension
    name := .text (start ++ operation.rootName)
    fields := [{
      name := mapping.settings.methodName service.name
      typeName := root.name
      modifiers := .required }] }

/-- The service of a name: of those that are not skipped, the last. -/
def keptService? (mapping : Mapping) (name : String) : Option Source.Service :=
  (mapping.catalog.services.filter (·.fullName = name)).getLast?

/-- The methods of a service are shared out among the roots that it is declared as. -/
structure SharedOut (mapping : Mapping) (service : Source.Service) (types : ServiceTypes) :
    Prop where
  single : ∀ method ∈ service.methods, mapping.isOffered method = true →
    ∃! operation : Operation, operation.serves method = true
  fields : ∀ operation root, types.root? operation = some root →
    List.Forall₂ (RootField mapping) (mapping.rootMethods service operation) root.fields
  exists_iff : ∀ operation, (types.root? operation).isSome = true ↔
    mapping.rootMethods service operation ≠ []
  roots : types.roots = Operation.all.filterMap types.root?
  unextended : mapping.settings.rootPrefix = none → types.extensions = []
  extended : ∀ start, mapping.settings.rootPrefix = some start →
    types.extensions = Operation.all.filterMap fun operation =>
      (types.root? operation).map (mapping.rootExtension service start operation)

structure Planned (mapping : Mapping) (method : Source.Method) (plan : MethodPlan) : Prop where
  method_eq : plan.method = method
  offered : mapping.isOffered method = true
  operation : plan.operation.serves method = true
  request : mapping.catalog.messages.get? method.input = some plan.request
  response : mapping.catalog.messages.get? method.output = some plan.response

section Operations

variable {operation other : Operation} {method : Source.Method}

theorem Operation.serves_of_ofValue {referrer : String}
    (h : Operation.ofValue referrer method.operation = .ok operation) :
    operation.serves method = true := by
  unfold Operation.ofValue at h
  unfold Operation.serves
  split at h
  · rename_i hset
    rw [if_pos hset, decide_eq_true_eq]
    split at h <;> cases h <;> assumption
  · rename_i hset
    cases h
    rw [if_neg hset]
    rfl

theorem Operation.word_injective (h : operation.word = other.word) : operation = other := by
  revert h
  cases operation <;> cases other <;> decide

theorem Operation.serves_unique (h : operation.serves method = true)
    (h' : other.serves method = true) : operation = other := by
  unfold Operation.serves at h h'
  by_cases hset : method.operation.isSet = true
  · rw [if_pos hset, decide_eq_true_eq] at h h'
    exact word_injective (Json.text.inj (h.symm.trans h'))
  · rw [if_neg hset, decide_eq_true_eq] at h h'
    exact h.trans h'.symm

end Operations

theorem isOffered_iff {mapping : Mapping} {method : Source.Method} :
    mapping.isOffered method = true ↔ method.isMapped = true ∧
      (mapping.settings.inputMode = .none →
        ∀ request, mapping.catalog.messages.get? method.input = some request →
          request.fields = []) := by
  simp [isOffered, isMapped_iff, Option.all_eq_true, and_assoc, or_iff_not_imp_left]

/-- A method that is offered has a plan, and no other has one. -/
theorem planned_of_ofMethod? {mapping : Mapping} {service : Source.Service}
    {method : Source.Method} {result : Option MethodPlan}
    (h : MethodPlan.ofMethod? mapping.settings mapping.catalog service method = .ok result) :
    Option.Rel (Planned mapping) (if mapping.isOffered method then some method else none)
      result := by
  obtain ⟨hm, rfl⟩ | ⟨hm, request, hrequest, hplan⟩ := MethodPlan.ofMethod?_cases h
  · have hoff : mapping.isOffered method = false := by
      rw [← Bool.not_eq_true, isOffered_iff, hm]
      simp
    rw [hoff]
    exact .none
  · have hget := Catalog.get?_of_message hrequest
    obtain ⟨hmode, hfields, rfl⟩ | ⟨hcallable, operation, response, hoperation, hresponse, rfl⟩ :=
      hplan
    · have hoff : mapping.isOffered method = false := by
        rw [← Bool.not_eq_true, isOffered_iff]
        exact fun hall => hfields (hall.2 hmode request hget)
      rw [hoff]
      exact .none
    · have hon : mapping.isOffered method = true := by
        refine isOffered_iff.mpr ⟨hm, fun hmode found hfound => ?_⟩
        cases hget.symm.trans hfound
        exact hcallable hmode
      rw [if_pos hon]
      exact .some ⟨rfl, hon, Operation.serves_of_ofValue hoperation, hget,
        Catalog.get?_of_message hresponse⟩

section Plans

variable {mapping : Mapping} {service : Source.Service} {plan : ServicePlan}

theorem methods_planned
    (h : ServicePlan.ofService mapping.settings mapping.catalog service = .ok plan) :
    List.Forall₂ (Planned mapping) (service.methods.filter mapping.isOffered) plan.methods := by
  obtain ⟨results, hresults, rfl⟩ := ServicePlan.ofService_eq_ok h
  rw [← List.filterMap_eq_filter]
  exact List.rel_filterMap (fun method result hof => planned_of_ofMethod? hof)
    (mapM_eq_ok.mp hresults)

/-- The plans with an operation are those of the methods that become fields of its root. -/
theorem ofOperation_planned
    (h : ServicePlan.ofService mapping.settings mapping.catalog service = .ok plan)
    (operation : Operation) :
    List.Forall₂ (Planned mapping) (mapping.rootMethods service operation)
      (plan.ofOperation operation) := by
  have hfilter : mapping.rootMethods service operation =
      (service.methods.filter mapping.isOffered).filter operation.serves := by
    rw [rootMethods, List.filter_filter]
    congr 1
    funext method
    rw [Bool.and_comm]
  rw [hfilter, ServicePlan.ofOperation]
  refine List.rel_filter (fun method planned hplanned => ?_) (methods_planned h)
  change operation.serves method = true ↔ decide (planned.operation = operation) = true
  rw [decide_eq_true_eq]
  constructor
  · exact fun hserves => Operation.serves_unique hplanned.operation hserves
  · rintro rfl
    exact hplanned.operation

theorem mem_operations {operation : Operation} :
    operation ∈ plan.operations ↔ plan.ofOperation operation ≠ [] := by
  have hall : operation ∈ Operation.all := by cases operation <;> decide
  simp [ServicePlan.operations, hall]

private theorem map_operations {α : Type} (f : Operation → α) :
    plan.operations.map f = Operation.all.filterMap fun operation =>
      if operation ∈ plan.operations then some (f operation) else none := by
  conv_lhs => rw [ServicePlan.operations, ← List.filterMap_eq_filter, ← List.filterMap_eq_map,
    List.filterMap_filterMap]
  refine List.filterMap_congr fun operation _ => ?_
  by_cases hnone : plan.ofOperation operation = [] <;> simp [mem_operations, hnone]

/-- The root of an operation, as a service is declared. -/
theorem root?_types (naming : Naming) (operation : Operation) :
    (plan.types naming).root? operation =
      if operation ∈ plan.operations then some (plan.root naming operation) else none := by
  cases operation <;> rfl

end Plans

namespace Built

variable {settings : Settings} {files : List Source.File} {mapping : Mapping}
  {service : Source.Service} {method : Source.Method}

/-- The request of a method that is offered has an input if it has fields. -/
theorem contains_request (h : Built settings (Catalog.ofFiles files) mapping)
    (hs : service ∈ mapping.catalog.services) (hm : method ∈ service.methods)
    (hoffered : mapping.isOffered method = true) {request : Source.Message}
    (hrequest : mapping.catalog.messages.get? method.input = some request)
    (hfields : request.fields ≠ []) : mapping.inputs.contains method.input = true := by
  obtain ⟨hmapped, hcallable⟩ := isOffered_iff.mp hoffered
  obtain ⟨-, hname⟩ := Catalog.of_get?_messages (h.catalog_eq ▸ hrequest)
  have hmode : mapping.settings.inputMode ≠ .none :=
    fun hnone => hfields (hcallable hnone request hrequest)
  have hrequested : requestOf mapping.catalog service method = .ok request := by
    rw [requestOf, Catalog.message, hrequest]
  rw [Table.contains_iff, ← hname]
  exact h.request_mem_inputs hs hm hmapped hmode hrequested hfields

private theorem rootField (h : Built settings (Catalog.ofFiles files) mapping)
    (hs : service ∈ mapping.catalog.services) (hm : method ∈ service.methods) {plan : MethodPlan}
    (hplan : Planned mapping method plan) :
    RootField mapping method (plan.field mapping.naming) := by
  obtain ⟨rfl, hoffered, -, hrequest, hresponse⟩ := hplan
  refine ⟨rfl, rfl, rfl, ⟨plan.request, hrequest, fun hnone => ?_, fun hsome => ?_⟩,
    ⟨plan.response, hresponse, fun hnone => ?_, fun hsome => ?_⟩⟩
  · simp [MethodPlan.field, Source.Message.slots_isEmpty, hnone]
  · obtain ⟨types, htypes, -, hinput⟩ := h.types_names hrequest
    obtain ⟨input, hinput, hname⟩ := hinput (h.contains_request hs hm hoffered hrequest hsome)
    refine ⟨types, input, htypes, hinput, ?_⟩
    simp [MethodPlan.field, Source.Message.slots_isEmpty, hsome, hname]
  · simp [MethodPlan.field, Source.Message.slots_isEmpty, hnone, Schema.BuiltIn.name]
  · obtain ⟨types, htypes, hobject, -⟩ := h.types_names hresponse
    refine ⟨types, htypes, ?_⟩
    simp [MethodPlan.field, Source.Message.slots_isEmpty, hsome, hobject]

private theorem sharedOut (h : Built settings (Catalog.ofFiles files) mapping)
    (hs : service ∈ mapping.catalog.services) {plan : ServicePlan}
    (hof : ServicePlan.ofService mapping.settings mapping.catalog service = .ok plan) :
    SharedOut mapping service (plan.types mapping.naming) := by
  have hservice := ServicePlan.ofService_service hof
  refine ⟨?_, ?_, ?_, ?_, ?_, ?_⟩
  · intro method hm hoffered
    obtain ⟨planned, -, hplanned⟩ := exists_related (methods_planned hof)
      (List.mem_filter.mpr ⟨hm, hoffered⟩)
    exact ⟨planned.operation, hplanned.operation,
      fun other hother => Operation.serves_unique hother hplanned.operation⟩
  · intro operation root hroot
    rw [root?_types] at hroot
    split at hroot
    · cases hroot
      have hmem : ∀ method ∈ mapping.rootMethods service operation, method ∈ service.methods :=
        fun method hm => (List.mem_filter.mp hm).1
      have hplans := (List.forall₂_and_left _ _).mpr ⟨hmem, ofOperation_planned hof operation⟩
      rw [ServicePlan.root, List.forall₂_map_right_iff]
      exact hplans.imp fun method plan hplan => h.rootField hs hplan.1 hplan.2
    · cases hroot
  · intro operation
    have hlength := (ofOperation_planned hof operation).length_eq
    rw [root?_types, ← List.length_pos_iff, hlength, List.length_pos_iff, ← mem_operations]
    split <;> simp_all
  · simp only [ServicePlan.types, ServicePlan.roots, map_operations]
    exact congrArg (Operation.all.filterMap ·) (funext (root?_types _)).symm
  · intro hnone
    simp [ServicePlan.types, ServicePlan.extensions, naming, hnone]
  · intro start hstart
    simp only [ServicePlan.types, ServicePlan.extensions, naming, hstart, map_operations]
    refine List.filterMap_congr fun operation _ => ?_
    change _ = ((plan.types mapping.naming).root? operation).map _
    rw [root?_types, apply_ite (Option.map _), ← hservice]
    rfl

/-- A service that is kept has a plan, and there are no other plans. -/
theorem kept_planned (h : Built settings (Catalog.ofFiles files) mapping) (name : String) :
    Option.Rel (fun service plan =>
        ServicePlan.ofService mapping.settings mapping.catalog service = .ok plan)
      (mapping.keptService? name) (mapping.services.get? name) := by
  obtain ⟨plans, hplans, heq⟩ := h.services
  rw [← h.settings_eq, ← h.catalog_eq] at hplans
  have hnamed := List.rel_filter (p := (·.fullName = name)) (q := (·.service.fullName = name))
    (fun service plan hof => by simp [ServicePlan.ofService_service hof]) (mapM_eq_ok.mp hplans)
  have hget : mapping.services.get? name =
      (plans.filter (·.service.fullName = name)).getLast? := by
    rw [heq, Table.get?_foldl_insert, Option.map_id', Table.get?_new, Option.or_none]
  rw [hget]
  exact getLast?_related hnamed

end Built

/-- The services of a mapping. Each that is not skipped shares out its methods among its roots,
where of several with one name the last is kept; under a name whose services are all skipped nothing
is declared. -/
theorem methods_shared_out_among_roots (settings : Settings) (index : Options.Index)
    (described : List Descriptor.File) (mapping : Mapping)
    (h : ofDescriptors settings index described = .ok mapping) :
    (∀ service ∈ mapping.catalog.files.values.flatMap (·.services), service.skip.isSet = false →
      ∃ kept types, mapping.keptService? service.fullName = some kept ∧
        mapping.serviceTypes? service.fullName = some types ∧ SharedOut mapping kept types) ∧
    ∀ name, (∀ service ∈ mapping.catalog.files.values.flatMap (·.services),
        service.fullName = name → service.skip.isSet = true) →
      mapping.serviceTypes? name = none := by
  obtain ⟨files, hw, -⟩ := exists_wrapped h
  have hb := ofDescriptors_built hw h
  refine ⟨fun service hs hkept => ?_, fun name hskipped => ?_⟩
  · have hin : service ∈ mapping.catalog.services.filter (·.fullName = service.fullName) := by
      simp [Catalog.services, hs, hkept]
    obtain ⟨kept, hlast⟩ : ∃ kept, mapping.keptService? service.fullName = some kept :=
      ⟨_, List.getLast?_eq_some_getLast (List.ne_nil_of_mem hin)⟩
    have hmem := (List.mem_filter.mp (List.mem_of_getLast? hlast)).1
    have hplanned := hb.kept_planned service.fullName
    rw [serviceTypes?]
    cases hplan : mapping.services.get? service.fullName with
    | none =>
      rw [hlast, hplan] at hplanned
      cases hplanned
    | some plan =>
      rw [hlast, hplan] at hplanned
      obtain ⟨hof⟩ := hplanned
      exact ⟨kept, _, hlast, rfl, hb.sharedOut hmem hof⟩
  · have hnone : mapping.keptService? name = none := by
      rw [keptService?, List.getLast?_eq_none_iff, List.filter_eq_nil_iff]
      intro service hs hname
      obtain ⟨hin, hkept⟩ := List.mem_filter.mp hs
      simp [hskipped service hin (of_decide_eq_true hname)] at hkept
    have hplanned := hb.kept_planned name
    rw [serviceTypes?]
    cases hplan : mapping.services.get? name with
    | none => rfl
    | some plan =>
      rw [hnone, hplan] at hplanned
      cases hplanned

section Desk

/-- A service with a query, a mutation, a stream and a method that is skipped. The tickets have a
oneof that one member addresses from the end, and an optional field with a oneof of its own. -/
def desk : List Descriptor.File :=
  [{ name := "desk.proto"
     syntaxName := "proto3"
     messages := [
       { name := "Ticket"
         fields := [
           { name := "subject", kind := .string },
           { name := "mail", kind := .string, oneofIndex := some 0 },
           { name := "phone", kind := .string, oneofIndex := some (-2) },
           { name := "note", kind := .string, oneofIndex := some 1, proto3Optional := true }]
         oneofs := ["contact", "_note"] },
       { name := "Nothing" }]
     services := [
       { name := "Desk"
         methods := [
           { name := "Open", input := ".Ticket", output := ".Ticket" },
           { name := "Close", input := ".Nothing", output := ".Nothing" },
           { name := "Watch", input := ".Ticket", output := ".Ticket", serverStreaming := true },
           { name := "Probe", input := ".Nothing", output := ".Nothing" }] }] }]

def deskIndex : Options.Index :=
  { methods := Table.ofList [
      (".Desk.Close", { operation := .text "mutation" }), (".Desk.Probe", { skip := .bool true })] }

def deskSettings : Settings := { rootPrefix := some "Help" }

def deskSources : List Source.File :=
  ((desk.zipIdx.mapM fun (file, position) =>
    Source.File.ofDescriptor deskIndex position file).toOption).getD []

theorem desk_wrapped : Source.Wrapped deskIndex desk deskSources := rfl

theorem desk_distinct : Source.Distinct deskSources := by
  constructor <;> decide

theorem desk_mapped : ∃ mapping, ofDescriptors deskSettings deskIndex desk = .ok mapping := by
  rw [ofDescriptors_eq desk_wrapped, exists_mapping_iff desk_distinct desk_wrapped.placed]
  decide

/-- Two methods of the desk are left, one in the query root and one in the mutation root; both roots
extend a root type. -/
theorem desk_methods_shared_out : ∃ mapping types queries mutations,
    ofDescriptors deskSettings deskIndex desk = .ok mapping ∧
    mapping.serviceTypes? ".Desk" = some types ∧ types.queries = some queries ∧
    types.mutations = some mutations ∧ types.subscriptions = none ∧
    queries.fields.map (·.name) = ["open"] ∧ mutations.fields.map (·.name) = ["close"] ∧
    types.extensions.map (·.name) = [.text "HelpQuery", .text "HelpMutation"] := by
  obtain ⟨mapping, hmapping⟩ := desk_mapped
  have hb := ofDescriptors_built desk_wrapped hmapping
  obtain ⟨service, hs, hkept, hname⟩ :
      ∃ service ∈ mapping.catalog.files.values.flatMap (·.services),
        service.skip.isSet = false ∧ service.fullName = ".Desk" := by
    rw [hb.catalog_eq]
    decide
  obtain ⟨kept, types, hlast, htypes, hshared⟩ :=
    (methods_shared_out_among_roots _ _ _ mapping hmapping).1 service hs hkept
  rw [hname] at hlast htypes
  have hsettings : mapping.settings = deskSettings := hb.settings_eq
  have hmethods : (mapping.keptService? ".Desk").map (fun service =>
      Operation.all.map fun operation => (mapping.rootMethods service operation).map (·.name)) =
        some [["Open"], ["Close"], []] := by
    simp only [keptService?, rootMethods, isOffered, hb.catalog_eq, hb.settings_eq]
    decide
  rw [hlast] at hmethods
  simp only [Operation.all, List.map_cons, List.map_nil, Option.map_some, Option.some.injEq,
    List.cons.injEq, and_true] at hmethods
  obtain ⟨hopen, hclose, hnothing⟩ := hmethods
  have hroot : ∀ {operation name}, (mapping.rootMethods kept operation).map (·.name) = [name] →
      ∃ root, types.root? operation = some root ∧
        root.fields.map (·.name) = [deskSettings.methodName name] := by
    intro operation name hnames
    have hsome : mapping.rootMethods kept operation ≠ [] := by
      rintro hnil
      simp [hnil] at hnames
    obtain ⟨root, hroot⟩ := Option.isSome_iff_exists.mp ((hshared.exists_iff operation).mpr hsome)
    refine ⟨root, hroot, ?_⟩
    rw [map_related (hshared.fields operation root hroot) (·.name)
      (mapping.settings.methodName ∘ (·.name)) fun _ _ hfield => hfield.name,
      ← List.map_map, hnames, hsettings, List.map_singleton]
  obtain ⟨queries, hqueries, hopened⟩ := hroot hopen
  obtain ⟨mutations, hmutations, hclosed⟩ := hroot hclose
  have hsubscriptions : types.root? .subscription = none := by
    rw [← Option.not_isSome_iff_eq_none, hshared.exists_iff, List.map_eq_nil_iff.mp hnothing]
    simp
  refine ⟨mapping, types, queries, mutations, hmapping, htypes, hqueries, hmutations,
    hsubscriptions, hopened, hclosed, ?_⟩
  rw [hshared.extended "Help" (by rw [hsettings]; rfl)]
  simp [Operation.all, hqueries, hmutations, hsubscriptions, rootExtension, Operation.rootName]

end Desk

end ProtoSdl.Mapping

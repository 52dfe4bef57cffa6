import ProtoSdl.Mapping.Basic
import ProtoSdl.Proofs.DependencyClosures
import ProtoSdl.Proofs.ServicePlans
import ProtoSdl.Proofs.VisitLogs

/-! What the passes of a mapping leave. `Built` says of a finished mapping where each of its tables
comes from: the bodies of both sides from a walk over the references, the plans from the services
in order. -/
namespace ProtoSdl.Mapping

open Outcome Relation Dependency
open Source (allMessages allEnums allServices)

def bodyOf (settings : Settings) (catalog : Catalog) (name : String) : Except Fault Body := do
  Body.ofMessage settings catalog (← catalog.message name name)

/-- The bodies on one side of the schema, as they are built from given messages on. -/
def BodiesFrom (settings : Settings) (catalog : Catalog) (mode : Mode) (names : List String)
    (bodies : Table Body) : Prop :=
  Walk.Finished catalog.messages.keys (bodyOf settings catalog)
    (following catalog (references catalog mode)) {} bodies (visits names)

/-- The home of the message of a name, once it is known that types can be named there. -/
def homeOf (settings : Settings) (catalog : Catalog) (name : String) :
    Except Fault Source.Home := do
  let message ← catalog.message name name
  Naming.check settings message.home
  return message.home

def allReferences (catalog : Catalog) (message : Source.Message) : List (Walk.Step Fault) :=
  references catalog .object message ++ enumReferences catalog message

theorem nameMessages_eq_ok {settings : Settings} {catalog : Catalog} {named : Table Source.Home} :
    nameMessages settings catalog = .ok named ↔
      ∃ log, Walk.Logged catalog.messages.keys (homeOf settings catalog)
        (following catalog (allReferences catalog)) {} (visits catalog.messages.keys) log named := by
  constructor
  · intro h
    obtain ⟨⟨marks, table⟩, hrun, h⟩ := bind_eq_ok.mp h
    cases h
    exact ((Walk.run_eq_ok rfl).mp hrun).2
  · intro h
    exact bind_eq_ok.mpr ⟨(named.keys, named), (Walk.run_eq_ok rfl).mpr ⟨rfl, h⟩, rfl⟩

theorem nameMessages_error {settings : Settings} {catalog : Catalog} {fault : Fault}
    (h : nameMessages settings catalog = .error fault) :
    Walk.run catalog.messages.keys (homeOf settings catalog)
      (following catalog (allReferences catalog)) [] {} (visits catalog.messages.keys) =
        .error fault := by
  rcases bind_eq_error.mp h with h | ⟨_, -, h⟩
  · exact h
  · cases h

/-- What was begun has its body, on both sides of the schema, and nothing else has one. -/
structure InStep (mapping : Mapping) : Prop where
  begun_eq : ∀ mode, mapping.begun mode = (mapping.bodies mode).keys

/-- The walk of a request from one table of bodies to another, with the bodies it forms. -/
def Walks (mapping : Mapping) (mode : Mode) (names : List String) :
    Table Body → List (String × Body) → Table Body → Prop :=
  fun before log after => Walk.Logged mapping.catalog.messages.keys
    (bodyOf mapping.settings mapping.catalog)
    (following mapping.catalog (references mapping.catalog mode)) before (visits names) log after

/-- A mapping with more bodies on one side, and the names formed for them. -/
def withBodies (mapping : Mapping) (mode : Mode) (after : Table Body)
    (log : List (String × Body)) : Mapping :=
  let formed := mapping.formed ++ bodiesFormed mode (log.map (·.2))
  match mode with
  | .object => { mapping with objects := after, begunObjects := after.keys, formed }
  | .input => { mapping with inputs := after, begunInputs := after.keys, formed }

section Building

variable {mapping next : Mapping} {mode : Mode} {names : List String}

theorem InStep.withBodies (hs : mapping.InStep) (mode : Mode) (after : Table Body)
    (log : List (String × Body)) : (mapping.withBodies mode after log).InStep := by
  refine ⟨fun other => ?_⟩
  cases mode with
  | object =>
    cases other with
    | object => rfl
    | input => exact hs.begun_eq .input
  | input =>
    cases other with
    | object => exact hs.begun_eq .object
    | input => rfl

theorem build_eq_ok (hs : mapping.InStep) :
    mapping.build mode names = .ok next ↔ ∃ after log,
      mapping.Walks mode names (mapping.bodies mode) log after ∧
        next = mapping.withBodies mode after log := by
  have hadded : ∀ {after log}, mapping.Walks mode names (mapping.bodies mode) log after →
      after.values.drop (mapping.bodies mode).entries.length = log.map (·.2) := by
    intro after log hwalk
    rw [Table.values, hwalk.entries, List.map_append, List.drop_left' (by simp)]
  constructor
  · intro h
    obtain ⟨⟨begun, after⟩, hrun, h⟩ := bind_eq_ok.mp h
    obtain ⟨rfl, log, hwalk⟩ := (Walk.run_eq_ok (hs.begun_eq mode)).mp hrun
    refine ⟨after, log, hwalk, ?_⟩
    simp only [hadded hwalk] at h
    cases mode <;> cases h <;> rfl
  · rintro ⟨after, log, hwalk, rfl⟩
    refine bind_eq_ok.mpr ⟨(after.keys, after),
      (Walk.run_eq_ok (hs.begun_eq mode)).mpr ⟨rfl, log, hwalk⟩, ?_⟩
    simp only [hadded hwalk]
    cases mode <;> rfl

theorem build_error {fault : Fault} (h : mapping.build mode names = .error fault) :
    Walk.run mapping.catalog.messages.keys (bodyOf mapping.settings mapping.catalog)
      (following mapping.catalog (references mapping.catalog mode)) (mapping.begun mode)
      (mapping.bodies mode) (visits names) = .error fault := by
  rcases bind_eq_error.mp h with h | ⟨after, -, h⟩
  · exact h
  · cases mode <;> cases h

theorem build_kept (h : mapping.build mode names = .ok next) :
    next.settings = mapping.settings ∧ next.catalog = mapping.catalog := by
  obtain ⟨after, -, h⟩ := bind_eq_ok.mp h
  cases mode <;> cases h <;> exact ⟨rfl, rfl⟩

/-- A request for bodies that are there changes nothing. -/
theorem build_of_built (hs : mapping.InStep)
    (h : ∀ name ∈ names, name ∈ (mapping.bodies mode).keys) :
    mapping.build mode names = .ok mapping := by
  refine (build_eq_ok hs).mpr ⟨mapping.bodies mode, [], .of_settled fun step hm => ?_, ?_⟩
  · obtain ⟨name, hn, rfl⟩ := List.mem_map.mp hm
    refine ⟨some name, rfl, fun node he _ => ?_⟩
    cases he
    exact h name hn
  · have hbegun := hs.begun_eq mode
    cases mode <;> simp only [begun, bodies] at hbegun <;>
      simp [withBodies, bodiesFormed, bodies, ← hbegun]

end Building

/-- Adds the plan of a service whose arguments have their inputs. -/
def planService (mapping : Mapping) (service : Source.Service) : Except Fault Mapping := do
  let plan ← ServicePlan.ofService mapping.settings mapping.catalog service
  return { mapping with
    services := mapping.services.insert service.fullName plan
    formed := mapping.formed ++ plan.operations.map fun operation =>
      ⟨service.home.name, plan.rootPath operation⟩ }

theorem planService_ok {mapping result : Mapping} {service : Source.Service}
    (h : mapping.planService service = .ok result) : ∃ plan formed,
      ServicePlan.ofService mapping.settings mapping.catalog service = .ok plan ∧
      result = { mapping with
        services := mapping.services.insert plan.service.fullName plan, formed } := by
  obtain ⟨plan, hplan, h⟩ := bind_eq_ok.mp h
  cases h
  exact ⟨plan, _, hplan, by rw [ServicePlan.ofService_service hplan]⟩

theorem foldlM_planService_ok {services : List Source.Service} {mapping result : Mapping}
    (h : services.foldlM planService mapping = .ok result) : ∃ plans formed,
      services.mapM (ServicePlan.ofService mapping.settings mapping.catalog) = .ok plans ∧
      result = { mapping with
        services := plans.foldl (fun table plan => table.insert plan.service.fullName plan)
          mapping.services
        formed } := by
  induction services generalizing mapping with
  | nil =>
    cases h
    exact ⟨[], _, rfl, rfl⟩
  | cons service services ih =>
    obtain ⟨next, hnext, h⟩ := bind_eq_ok.mp h
    obtain ⟨plan, formed, hplan, rfl⟩ := planService_ok hnext
    obtain ⟨plans, formed', hplans, rfl⟩ := ih h
    refine ⟨plan :: plans, formed', ?_, rfl⟩
    rw [mapM_eq_ok] at hplans ⊢
    exact .cons hplan hplans

theorem foldlM_planService_error {services : List Source.Service} {mapping : Mapping}
    {fault : Fault} (h : services.foldlM planService mapping = .error fault) :
    ∃ service ∈ services,
      ServicePlan.ofService mapping.settings mapping.catalog service = .error fault := by
  induction services generalizing mapping with
  | nil => cases h
  | cons service services ih =>
    rcases bind_eq_error.mp h with h | ⟨next, hnext, h⟩
    · rcases bind_eq_error.mp h with h | ⟨plan, -, h⟩
      · exact ⟨service, List.mem_cons_self, h⟩
      · cases h
    · obtain ⟨plan, formed, -, rfl⟩ := planService_ok hnext
      obtain ⟨other, ho, hother⟩ := ih h
      exact ⟨other, List.mem_cons_of_mem _ ho, hother⟩

/-- Where the arguments of all methods have their inputs, services are planned and no more. -/
theorem foldlM_addService_eq {services : List Source.Service} {mapping : Mapping}
    (hs : mapping.InStep)
    (h : ∀ service ∈ services, ∀ plan,
      ServicePlan.ofService mapping.settings mapping.catalog service = .ok plan →
      ∀ name ∈ plan.argumentNames, name ∈ mapping.inputs.keys) :
    services.foldlM addService mapping = services.foldlM planService mapping := by
  induction services generalizing mapping with
  | nil => rfl
  | cons service services ih =>
    obtain ⟨hfirst, hrest⟩ := List.forall_mem_cons.mp h
    have hstep : mapping.addService service = mapping.planService service :=
      bind_congr_ok fun plan hplan => by rw [build_of_built hs (hfirst plan hplan)]; rfl
    rw [List.foldlM_cons, List.foldlM_cons, hstep]
    refine bind_congr_ok fun next hnext => ?_
    obtain ⟨plan, formed, -, rfl⟩ := planService_ok hnext
    exact ih ⟨hs.begun_eq⟩ hrest

/-- A mapping without bodies, once its messages are named. -/
def unbuilt (settings : Settings) (catalog : Catalog) (named : Table Source.Home) : Mapping :=
  { settings, catalog
    order := (Graph.ofMessages catalog.messages.values).order
    formed := catalog.enums.values.map (fun enum => ⟨enum.home.name, { segments := enum.path }⟩) ++
      named.keys.flatMap (messageFormed catalog) }

theorem unbuilt_inStep (settings : Settings) (catalog : Catalog) (named : Table Source.Home) :
    (unbuilt settings catalog named).InStep :=
  ⟨fun mode => by cases mode <;> rfl⟩

/-- Where the bodies of a mapping come from. -/
structure Prepared (settings : Settings) (catalog : Catalog) (mapping : Mapping) : Prop where
  settings_eq : mapping.settings = settings
  catalog_eq : mapping.catalog = catalog
  order_eq : mapping.order = (Graph.ofMessages catalog.messages.values).order
  inStep : mapping.InStep
  objects : BodiesFrom settings catalog .object mapping.order mapping.objects
  inputs : ∃ names, mapping.inputNames (Graph.ofMessages catalog.messages.values) = .ok names ∧
    BodiesFrom settings catalog .input names mapping.inputs

structure Built (settings : Settings) (catalog : Catalog) (mapping : Mapping) : Prop
    extends Prepared settings catalog mapping where
  services : ∃ plans, catalog.services.mapM (ServicePlan.ofService settings catalog) = .ok plans ∧
    mapping.services =
      plans.foldl (fun table plan => table.insert plan.service.fullName plan) {}

/-- A mapping without services, with bodies on both sides as they were formed. -/
def prepare (settings : Settings) (catalog : Catalog) (named : Table Source.Home)
    (objects inputs : Table Body × List (String × Body)) : Mapping :=
  ((unbuilt settings catalog named).withBodies .object objects.1 objects.2).withBodies .input
    inputs.1 inputs.2

section

variable {settings : Settings} {catalog : Catalog} {named : Table Source.Home}
  {names : List String}

/-- What the passes over the messages of a catalog do. -/
theorem exists_prepare {withObjects withInputs : Mapping}
    (hbuild : (unbuilt settings catalog named).build .object
      (unbuilt settings catalog named).order = .ok withObjects)
    (hnames : withObjects.inputNames (Graph.ofMessages catalog.messages.values) = .ok names)
    (hbuild' : withObjects.build .input names = .ok withInputs) :
    ∃ objects inputs, withInputs = prepare settings catalog named objects inputs ∧
      withInputs.inputNames (Graph.ofMessages catalog.messages.values) = .ok names ∧
      withInputs.Walks .object withInputs.order {} objects.2 objects.1 ∧
      withInputs.Walks .input names {} inputs.2 inputs.1 := by
  have hs := unbuilt_inStep settings catalog named
  obtain ⟨objects, log, hobjects, rfl⟩ := (build_eq_ok hs).mp hbuild
  obtain ⟨inputs, log', hinputs, rfl⟩ := (build_eq_ok (hs.withBodies ..)).mp hbuild'
  exact ⟨(objects, log), (inputs, log'), rfl, hnames, hobjects, hinputs⟩

theorem prepared_prepare {objects inputs : Table Body × List (String × Body)} {mapping : Mapping}
    (heq : mapping = prepare settings catalog named objects inputs)
    (hnames : mapping.inputNames (Graph.ofMessages catalog.messages.values) = .ok names)
    (hobjects : mapping.Walks .object mapping.order {} objects.2 objects.1)
    (hinputs : mapping.Walks .input names {} inputs.2 inputs.1) :
    Prepared settings catalog mapping := by
  have hs := unbuilt_inStep settings catalog named
  subst heq
  exact ⟨rfl, rfl, rfl, (hs.withBodies ..).withBodies .., hobjects.finished,
    ⟨names, hnames, hinputs.finished⟩⟩

end

theorem mem_visits {names : List String} {name : String} :
    .ok (some name) ∈ visits names ↔ name ∈ names := by
  simp [visits]

/-- A message that the walk starts from has a body. -/
theorem BodiesFrom.mem_keys {settings : Settings} {catalog : Catalog} {mode : Mode}
    {names : List String} {bodies : Table Body}
    (h : BodiesFrom settings catalog mode names bodies) {name : String} (hname : name ∈ names)
    (hkey : name ∈ catalog.messages.keys) : name ∈ bodies.keys := by
  obtain ⟨target, heq, hdone⟩ := h.settled _ (mem_visits.mpr hname)
  cases heq
  exact hdone _ rfl hkey

theorem mem_requests_iff {catalog : Catalog} {found : List Source.Message}
    (h : requests catalog = .ok found) {message : Source.Message} :
    message ∈ found ↔ message.fields ≠ [] ∧ ∃ service ∈ catalog.services,
      ∃ method ∈ service.methods, method.isMapped = true ∧
        requestOf catalog service method = .ok message := by
  obtain ⟨lists, hlists, h⟩ := bind_eq_ok.mp h
  cases h
  simp only [List.mem_filter, List.mem_flatten, Source.Message.slots_isEmpty,
    Bool.not_eq_true', List.isEmpty_eq_false_iff]
  constructor
  · rintro ⟨⟨list, hlist, hm⟩, hfields⟩
    obtain ⟨service, hs, hmethods⟩ := exists_of_mem_results hlists hlist
    obtain ⟨method, hmethod, hrequest⟩ := exists_of_mem_results hmethods hm
    obtain ⟨hmethod, hmapped⟩ := List.mem_filter.mp hmethod
    exact ⟨hfields, service, hs, method, hmethod, hmapped, hrequest⟩
  · rintro ⟨hfields, service, hs, method, hmethod, hmapped, hrequest⟩
    obtain ⟨list, hlist, hmethods⟩ := exists_of_mem_mapM hlists hs
    obtain ⟨other, hother, hfound⟩ := exists_of_mem_mapM hmethods
      (List.mem_filter.mpr ⟨hmethod, hmapped⟩)
    cases hrequest.symm.trans hfound
    exact ⟨⟨list, hlist, hother⟩, hfields⟩

section

variable {settings : Settings} {files : List Source.File}

theorem messageNames_values :
    messageNames (Catalog.ofFiles files).messages.values = (Catalog.ofFiles files).messages.keys :=
  Catalog.names_messages files

theorem nodup_messageNames : (messageNames (Catalog.ofFiles files).messages.values).Nodup := by
  rw [messageNames_values]
  exact Catalog.nodup_keys_messages files

namespace Prepared

variable {mapping : Mapping} {service : Source.Service} {method : Source.Method}
  {request : Source.Message}

theorem mem_order (h : Prepared settings (Catalog.ofFiles files) mapping) {name : String} :
    name ∈ mapping.order ↔ KnownMessage files name := by
  rw [h.order_eq, (order_perm nodup_messageNames).mem_iff, messageNames_values]
  exact Catalog.mem_keys_messages

/-- Where all messages have inputs, every message has one. -/
theorem mem_inputs_of_all (h : Prepared settings (Catalog.ofFiles files) mapping)
    (hmode : mapping.settings.inputMode = .all) {name : String} (hname : KnownMessage files name) :
    name ∈ mapping.inputs.keys := by
  obtain ⟨names, hnames, hinputs⟩ := h.inputs
  rw [inputNames, hmode] at hnames
  cases hnames
  exact hinputs.mem_keys (h.mem_order.mpr hname) (Catalog.mem_keys_messages.mpr hname)

/-- Unless there are no inputs, the request of a mapped method has one if it has fields. -/
theorem request_mem_inputs (h : Prepared settings (Catalog.ofFiles files) mapping)
    (hs : service ∈ mapping.catalog.services) (hm : method ∈ service.methods)
    (hmapped : method.isMapped = true) (hmode : mapping.settings.inputMode ≠ .none)
    (hrequest : requestOf mapping.catalog service method = .ok request)
    (hfields : request.fields ≠ []) : request.fullName ∈ mapping.inputs.keys := by
  have hknown : request ∈ allMessages files :=
    (Catalog.of_message_eq_ok (h.catalog_eq ▸ hrequest)).1
  cases hinput : mapping.settings.inputMode with
  | none => exact absurd hinput hmode
  | all => exact h.mem_inputs_of_all hinput ⟨request, hknown, rfl⟩
  | service =>
    have hkey : request.fullName ∈ (Catalog.ofFiles files).messages.keys :=
      Catalog.mem_keys_messages.mpr ⟨request, hknown, rfl⟩
    obtain ⟨names, hnames, hinputs⟩ := h.inputs
    rw [inputNames, hinput] at hnames
    obtain ⟨found, hfound, hnames⟩ := bind_eq_ok.mp hnames
    cases hnames
    have hin : request ∈ found :=
      (mem_requests_iff hfound).mpr ⟨hfields, service, hs, method, hm, hmapped, hrequest⟩
    refine hinputs.mem_keys ?_ hkey
    rw [mem_orderBelow_iff nodup_messageNames]
    exact liesBelow_of_mem (messageNames_values ▸ hkey) (List.mem_map_of_mem hin)

/-- The arguments of the methods of a service have their inputs. -/
theorem arguments_mem_inputs (h : Prepared settings (Catalog.ofFiles files) mapping)
    (hs : service ∈ mapping.catalog.services) {plan : ServicePlan}
    (hplan : ServicePlan.ofService mapping.settings mapping.catalog service = .ok plan)
    {name : String} (hn : name ∈ plan.argumentNames) : name ∈ mapping.inputs.keys := by
  obtain ⟨planned, hp, rfl⟩ := List.mem_map.mp hn
  obtain ⟨hp, hslots⟩ := List.mem_filter.mp hp
  have hfields : planned.request.fields ≠ [] := by
    simpa [Source.Message.slots_isEmpty] using hslots
  obtain ⟨results, hresults, rfl⟩ := ServicePlan.ofService_eq_ok hplan
  obtain ⟨result, hr, rfl⟩ := List.mem_filterMap.mp hp
  obtain ⟨method, hm, hof⟩ := exists_of_mem_results hresults hr
  obtain ⟨-, hnone⟩ | ⟨hmapped, request, hrequest, ⟨-, -, hnone⟩ | ⟨hcallable, _, _, -, -, heq⟩⟩ :=
    MethodPlan.ofMethod?_cases hof
  · cases hnone
  · cases hnone
  · cases heq
    exact h.request_mem_inputs hs hm hmapped (fun hmode => hfields (hcallable hmode)) hrequest
      hfields

end Prepared

/-- The passes over a catalog, where the services ask for no input that is not built. -/
def passes (settings : Settings) (catalog : Catalog) : Except Fault Mapping := do
  let _ ← catalog.enums.values.mapM fun enum => Naming.check settings enum.home
  let named ← nameMessages settings catalog
  let mapping := unbuilt settings catalog named
  let mapping ← mapping.build .object mapping.order
  let mapping ← mapping.build .input
    (← mapping.inputNames (Graph.ofMessages catalog.messages.values))
  catalog.services.foldlM planService mapping

/-- By the time the services are added, the arguments of their methods have inputs. -/
theorem ofCatalog_eq_passes (settings : Settings) (files : List Source.File) :
    ofCatalog settings (Catalog.ofFiles files) = passes settings (Catalog.ofFiles files) := by
  refine bind_congr_ok fun _ _ => bind_congr_ok fun named _ =>
    bind_congr_ok fun withObjects hobjects => bind_congr_ok fun names hnames =>
      bind_congr_ok fun withInputs hinputs => ?_
  obtain ⟨_, _, heq, hnames, hobjects, hinputs⟩ := exists_prepare hobjects hnames hinputs
  have hprepared := prepared_prepare heq hnames hobjects hinputs
  refine foldlM_addService_eq hprepared.inStep fun service hs plan hplan name hn => ?_
  rw [← hprepared.catalog_eq] at hs
  exact hprepared.arguments_mem_inputs hs hplan hn

/-- What the passes over a catalog do, one after the other. -/
theorem ofCatalog_ok {mapping : Mapping}
    (h : ofCatalog settings (Catalog.ofFiles files) = .ok mapping) :
    ∃ named objects inputs names prepared,
      nameMessages settings (Catalog.ofFiles files) = .ok named ∧
      prepared = prepare settings (Catalog.ofFiles files) named objects inputs ∧
      prepared.inputNames (Graph.ofMessages (Catalog.ofFiles files).messages.values) = .ok names ∧
      prepared.Walks .object prepared.order {} objects.2 objects.1 ∧
      prepared.Walks .input names {} inputs.2 inputs.1 ∧
      (Catalog.ofFiles files).services.foldlM planService prepared = .ok mapping := by
  rw [ofCatalog_eq_passes] at h
  obtain ⟨_, -, h⟩ := bind_eq_ok.mp h
  obtain ⟨named, hnamed, h⟩ := bind_eq_ok.mp h
  obtain ⟨withObjects, hobjects, h⟩ := bind_eq_ok.mp h
  obtain ⟨names, hnames, h⟩ := bind_eq_ok.mp h
  obtain ⟨withInputs, hinputs, h⟩ := bind_eq_ok.mp h
  obtain ⟨objects, inputs, heq, hwalks⟩ := exists_prepare hobjects hnames hinputs
  exact ⟨named, objects, inputs, names, withInputs, hnamed, heq, hwalks.1, hwalks.2.1,
    hwalks.2.2, h⟩

theorem ofCatalog_built {mapping : Mapping}
    (h : ofCatalog settings (Catalog.ofFiles files) = .ok mapping) :
    Built settings (Catalog.ofFiles files) mapping := by
  obtain ⟨named, objects, inputs, names, _, -, rfl, hnames, hobjects, hinputs, h⟩ := ofCatalog_ok h
  have hp := prepared_prepare rfl hnames hobjects hinputs
  obtain ⟨plans, _, hplans, rfl⟩ := foldlM_planService_ok h
  exact ⟨⟨rfl, rfl, rfl, ⟨hp.inStep.begun_eq⟩, hp.objects, hp.inputs⟩, ⟨plans, hplans, rfl⟩⟩

/-- No message has two bodies on one side. -/
theorem ofCatalog_nodup_keys {mapping : Mapping}
    (h : ofCatalog settings (Catalog.ofFiles files) = .ok mapping) (mode : Mode) :
    (mapping.bodies mode).keys.Nodup := by
  obtain ⟨named, objects, inputs, names, _, -, rfl, -, hobjects, hinputs, h⟩ := ofCatalog_ok h
  obtain ⟨plans, _, -, rfl⟩ := foldlM_planService_ok h
  cases mode with
  | object => exact hobjects.nodup_keys List.nodup_nil
  | input => exact hinputs.nodup_keys List.nodup_nil

theorem ofDescriptors_eq {index : Options.Index} {described : List Descriptor.File}
    (hw : Source.Wrapped index described files) :
    ofDescriptors settings index described = ofCatalog settings (Catalog.ofFiles files) := by
  rw [ofDescriptors, Catalog.ofDescriptors_eq hw]
  rfl

theorem exists_wrapped {index : Options.Index} {described : List Descriptor.File}
    {mapping : Mapping} (h : ofDescriptors settings index described = .ok mapping) :
    ∃ files, Source.Wrapped index described files ∧
      ofCatalog settings (Catalog.ofFiles files) = .ok mapping := by
  obtain ⟨catalog, hcatalog, h⟩ := bind_eq_ok.mp h
  obtain ⟨files, hw, rfl⟩ := Catalog.exists_wrapped hcatalog
  exact ⟨files, hw, h⟩

theorem ofDescriptors_built {index : Options.Index} {described : List Descriptor.File}
    (hw : Source.Wrapped index described files) {mapping : Mapping}
    (h : ofDescriptors settings index described = .ok mapping) :
    Built settings (Catalog.ofFiles files) mapping :=
  ofCatalog_built (ofDescriptors_eq hw ▸ h)

theorem of_bodyOf {name : String} {body : Body}
    (h : bodyOf settings (Catalog.ofFiles files) name = .ok body) :
    ∃ message ∈ allMessages files, message.fullName = name ∧
      Body.ofMessage settings (Catalog.ofFiles files) message = .ok body := by
  obtain ⟨message, hmessage, hof⟩ := bind_eq_ok.mp h
  obtain ⟨hm, hname⟩ := Catalog.of_message_eq_ok hmessage
  exact ⟨message, hm, hname, hof⟩

/-- A reference leads to the message of its name, if there is one. -/
theorem reference_eq_ok {referrer name target : String} :
    ((Catalog.ofFiles files).message referrer name).map (some ·.fullName) = .ok (some target) ↔
      name = target ∧ KnownMessage files target := by
  rw [map_eq_ok]
  constructor
  · rintro ⟨found, hfound, hname⟩
    obtain ⟨hm, rfl⟩ := Catalog.of_message_eq_ok hfound
    exact ⟨Option.some.inj hname, found, hm, Option.some.inj hname⟩
  · rintro ⟨rfl, hknown⟩
    obtain ⟨message, hget⟩ := Table.mem_keys_iff.mp (Catalog.mem_keys_messages.mpr hknown)
    rw [Catalog.message, hget]
    exact ⟨message, rfl, by rw [(Catalog.of_get?_messages hget).2]⟩

theorem mem_fieldReferences {message : Source.Message} {target : String} :
    .ok (some target) ∈ fieldReferences (Catalog.ofFiles files) message ↔
      (∃ field ∈ message.fields, field.kind = .message ∧ field.typeName = target) ∧
        KnownMessage files target := by
  simp only [fieldReferences, List.mem_map, List.mem_filter, decide_eq_true_eq, reference_eq_ok]
  constructor
  · rintro ⟨field, ⟨hf, hk⟩, hname, hknown⟩
    exact ⟨⟨field, hf, hk, hname⟩, hknown⟩
  · rintro ⟨⟨field, hf, hk, hname⟩, hknown⟩
    exact ⟨field, ⟨hf, hk⟩, hname, hknown⟩

theorem mem_keyReferences {message : Source.Message} {target : String} :
    .ok (some target) ∈ keyReferences (Catalog.ofFiles files) message ↔
      (∃ field key, .field field ∈ message.slots ∧ field.foreignKey = some key ∧
        key.target = target) ∧ KnownMessage files target := by
  rw [keyReferences, List.mem_filterMap]
  constructor
  · rintro ⟨slot, hslot, h⟩
    cases slot with
    | oneof place comments => simp at h
    | field field =>
      obtain ⟨key, hkey, h⟩ := Option.map_eq_some_iff.mp h
      obtain ⟨hname, hknown⟩ := reference_eq_ok.mp h
      exact ⟨⟨field, key, hslot, hkey, hname⟩, hknown⟩
  · rintro ⟨⟨field, key, hslot, hkey, hname⟩, hknown⟩
    exact ⟨.field field, hslot,
      Option.map_eq_some_iff.mpr ⟨key, hkey, reference_eq_ok.mpr ⟨hname, hknown⟩⟩⟩

theorem mem_following_input (hd : Source.Distinct files) {a b : String} :
    .ok (some b) ∈ following (Catalog.ofFiles files) (references (Catalog.ofFiles files) .input) a ↔
      Refers (allMessages files) a b ∧ KnownMessage files b := by
  unfold following
  split
  · rename_i message hmessage
    obtain ⟨hm, rfl⟩ := (Catalog.get?_messages hd).mp hmessage
    rw [references, mem_fieldReferences]
    refine and_congr_left fun _ => ⟨fun h => ⟨message, hm, rfl, h⟩, ?_⟩
    rintro ⟨other, ho, hname, h⟩
    rwa [hd.message_unique ho hm hname] at h
  · rename_i hnone
    simp only [List.not_mem_nil, false_iff, not_and]
    rintro ⟨message, hm, hname, -⟩
    rw [(Catalog.get?_messages hd).mpr ⟨hm, hname⟩] at hnone
    simp at hnone

namespace BodiesFrom

variable {mode : Mode} {names : List String} {bodies : Table Body}

theorem body_of_get? (h : BodiesFrom settings (Catalog.ofFiles files) mode names bodies)
    {name : String} {body : Body} (hb : bodies.get? name = some body) :
    ∃ message ∈ allMessages files, message.fullName = name ∧
      Body.ofMessage settings (Catalog.ofFiles files) message = .ok body := by
  rcases h.visited name body hb with hnone | ⟨-, hvisit, -⟩
  · simp at hnone
  · exact of_bodyOf hvisit

private theorem exists_body (hd : Source.Distinct files)
    (h : BodiesFrom settings (Catalog.ofFiles files) mode names bodies)
    {message : Source.Message} (hm : message ∈ allMessages files)
    (hname : message.fullName ∈ names) : ∃ body, bodies.get? message.fullName = some body ∧
      Body.ofMessage settings (Catalog.ofFiles files) message = .ok body := by
  have hkey := Catalog.mem_keys_messages.mpr ⟨message, hm, rfl⟩
  obtain ⟨body, hb⟩ := Table.mem_keys_iff.mp (h.mem_keys hname hkey)
  obtain ⟨other, ho, hother, hof⟩ := h.body_of_get? hb
  rw [hd.message_unique ho hm hother] at hof
  exact ⟨body, hb, hof⟩

end BodiesFrom

namespace Built

variable {mapping : Mapping}

theorem body_of_get? (h : Built settings (Catalog.ofFiles files) mapping) {mode : Mode}
    {name : String} {body : Body} (hb : (mapping.bodies mode).get? name = some body) :
    ∃ message ∈ allMessages files, message.fullName = name ∧
      Body.ofMessage settings (Catalog.ofFiles files) message = .ok body := by
  cases mode with
  | object => exact h.objects.body_of_get? hb
  | input =>
    obtain ⟨names, -, hinputs⟩ := h.inputs
    exact hinputs.body_of_get? hb

/-- Every message has an object. -/
theorem exists_object (hd : Source.Distinct files)
    (h : Built settings (Catalog.ofFiles files) mapping) {message : Source.Message}
    (hm : message ∈ allMessages files) :
    ∃ body, mapping.objects.get? message.fullName = some body ∧
      Body.ofMessage settings (Catalog.ofFiles files) message = .ok body :=
  h.objects.exists_body hd hm (h.mem_order.mpr ⟨message, hm, rfl⟩)

/-- The references of all messages are to messages of the files. -/
theorem known_of_refers (hd : Source.Distinct files)
    (hp : ∀ message ∈ allMessages files, message.Placed)
    (h : Built settings (Catalog.ofFiles files) mapping) {a b : String}
    (hab : Refers (allMessages files) a b) : KnownMessage files b := by
  obtain ⟨message, hm, -, field, hf, hkind, rfl⟩ := hab
  obtain ⟨body, -, hof⟩ := h.exists_object hd hm
  exact ((Body.ofMessage_ok (hp message hm) hof).2 field hf).1.message hkind

private theorem entries_services (h : Built settings (Catalog.ofFiles files) mapping)
    (hd : Source.Distinct files) : ∃ plans,
      (Catalog.ofFiles files).services.mapM
        (ServicePlan.ofService settings (Catalog.ofFiles files)) = .ok plans ∧
      mapping.services.entries = plans.map fun plan => (plan.service.fullName, plan) := by
  obtain ⟨plans, hplans, heq⟩ := h.services
  have hnames : (plans.map (·.service.fullName)).Nodup := by
    have hmap := map_results hplans (·.service.fullName) Source.Service.fullName
      fun _ _ hof => congrArg _ (ServicePlan.ofService_service hof)
    rw [hmap, Catalog.services_ofFiles hd]
    exact hd.serviceNames.sublist (List.filter_sublist.map _)
  have hentries := Table.entries_foldl_insert (·.service.fullName) id plans ({} : Table ServicePlan)
    hnames (by simp [Table.keys])
  simp only [id, List.nil_append] at hentries
  exact ⟨plans, hplans, heq ▸ hentries⟩

theorem plan_of_get? (h : Built settings (Catalog.ofFiles files) mapping) {name : String}
    {plan : ServicePlan} (hplan : mapping.services.get? name = some plan) :
    ∃ service ∈ allServices files, service.skip.isSet = false ∧ service.fullName = name ∧
      ServicePlan.ofService settings (Catalog.ofFiles files) service = .ok plan := by
  obtain ⟨plans, hplans, heq⟩ := h.services
  rw [heq] at hplan
  rcases Table.of_get?_foldl_insert hplan with hnone | ⟨plan, hp, hname, rfl⟩
  · simp at hnone
  · obtain ⟨service, hs, hof⟩ := exists_of_mem_results hplans hp
    obtain ⟨hin, hkept⟩ := Catalog.of_mem_services hs
    exact ⟨service, hin, hkept, by rw [← hname, ServicePlan.ofService_service hof], hof⟩

theorem nodup_keys_services {catalog : Catalog} (h : Built settings catalog mapping) :
    mapping.services.keys.Nodup := by
  obtain ⟨plans, -, heq⟩ := h.services
  rw [heq]
  exact Table.nodup_keys_foldl_insert List.nodup_nil

/-- Every service that is not skipped has a plan. -/
theorem exists_plan (h : Built settings (Catalog.ofFiles files) mapping)
    (hd : Source.Distinct files) {service : Source.Service} (hs : service ∈ allServices files)
    (hkept : service.skip.isSet = false) :
    ∃ plan, mapping.services.get? service.fullName = some plan ∧
      ServicePlan.ofService settings (Catalog.ofFiles files) service = .ok plan := by
  obtain ⟨plans, hplans, hentries⟩ := h.entries_services hd
  have hin : service ∈ (Catalog.ofFiles files).services := by
    rw [Catalog.services_ofFiles hd]
    exact List.mem_filter.mpr ⟨hs, by simp [hkept]⟩
  obtain ⟨plan, hplan, hof⟩ := exists_of_mem_mapM hplans hin
  refine ⟨plan, (Table.get?_eq_some_iff h.nodup_keys_services).mpr ?_, hof⟩
  rw [hentries]
  exact List.mem_map.mpr ⟨plan, hplan, by rw [ServicePlan.ofService_service hof]⟩

theorem get?_services_eq_none (h : Built settings (Catalog.ofFiles files) mapping) {name : String}
    (hskip : ∀ service ∈ allServices files, service.fullName = name → service.skip.isSet = true) :
    mapping.services.get? name = none := by
  rw [Option.eq_none_iff_forall_ne_some]
  intro plan hplan
  obtain ⟨service, hs, hkept, hname, -⟩ := h.plan_of_get? hplan
  rw [hskip service hs hname] at hkept
  cases hkept

end Built

end

end ProtoSdl.Mapping

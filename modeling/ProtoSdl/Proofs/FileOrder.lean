import ProtoSdl.Proofs.InputTypes
import ProtoSdl.Proofs.MemoizedBuilding
import ProtoSdl.Proofs.MovedFiles

/-! What a declaration looks like does not depend on the files around it. More files add
declarations and inputs, and change none; files in another order are mapped to the same tables. Only
a namespace that is a list records in which order names were formed. -/
namespace ProtoSdl.Mapping

open Outcome Relation Dependency
open Source (allMessages allEnums allServices Home Within)

def objectName? (mapping : Mapping) (name : String) : Option Schema.TypeName :=
  (mapping.catalog.messages.get? name).map mapping.naming.object

def inputName? (mapping : Mapping) (name : String) : Option Schema.TypeName :=
  (mapping.catalog.messages.get? name).map mapping.naming.input

def enumName? (mapping : Mapping) (name : String) : Option Schema.TypeName :=
  (mapping.catalog.enums.get? name).map mapping.naming.enum

def enumType? (mapping : Mapping) (name : String) : Option Schema.Enum :=
  (mapping.catalog.enums.get? name).map (enumDeclaration mapping.naming)

/-- What a service is declared as, unless it is skipped. -/
def serviceTypes? (mapping : Mapping) (name : String) : Option ServiceTypes :=
  (mapping.services.get? name).map (·.types mapping.naming)

structure SameTables (a b : Mapping) : Prop where
  objectNames : ∀ name, b.objectName? name = a.objectName? name
  inputNames : ∀ name, b.inputName? name = a.inputName? name
  enumNames : ∀ name, b.enumName? name = a.enumName? name
  messages : ∀ name, b.messageTypes? name = a.messageTypes? name
  enums : ∀ name, b.enumType? name = a.enumType? name
  services : ∀ name, b.serviceTypes? name = a.serviceTypes? name
  scalars : ∀ scalar, scalar ∈ b.scalars ↔ scalar ∈ a.scalars

/-- A oneof is declared in the same way, except that it may have gained an input. -/
structure OneofTypes.Within (a b : OneofTypes) : Prop where
  name : b.name = a.name
  union : b.union = a.union
  objects : b.objects = a.objects
  input : ∀ input, a.input = some input → b.input = some input

/-- A message is declared in the same way, except that it may have gained inputs. -/
structure MessageTypes.Within (a b : MessageTypes) : Prop where
  object : b.object = a.object
  input : ∀ input, a.input = some input → b.input = some input
  oneofs : List.Forall₂ OneofTypes.Within a.oneofs b.oneofs

theorem Body.types_within {naming : Naming} {body : Body} {before after : Bool}
    (h : before = true → after = true) :
    (body.types naming before).Within (body.types naming after) := by
  have hgained : ∀ {input found : Schema.Composite},
      (if before then some input else none) = some found →
        (if after then some input else none) = some found := by
    intro input found hfound
    obtain ⟨hbefore, hfound⟩ := Option.ite_none_right_eq_some.mp hfound
    rw [if_pos (h hbefore)]
    exact hfound
  refine ⟨rfl, fun input hinput => hgained hinput, ?_⟩
  refine List.forall₂_map_left_iff.mpr (List.forall₂_map_right_iff.mpr (List.forall₂_same.mpr ?_))
  intro choice _
  exact ⟨rfl, rfl, rfl, fun input hinput => hgained hinput⟩

section Mappable

variable {settings : Settings} {files others : List Source.File}

/-- Each declaration of the files can be mapped by itself. -/
structure Mappable (settings : Settings) (files : List Source.File) : Prop where
  enums : ∀ enum ∈ allEnums files, Naming.check settings enum.home = .ok ()
  messages : ∀ message ∈ allMessages files, Naming.check settings message.home = .ok () ∧
    ∃ body, Body.ofMessage settings (Catalog.ofFiles files) message = .ok body
  services : ∀ service ∈ (Catalog.ofFiles files).services,
    ∃ plan, ServicePlan.ofService settings (Catalog.ofFiles files) service = .ok plan

theorem isOk_iff {ε α : Type} {x : Except ε α} : x.isOk = true ↔ ∃ a, x = .ok a := by
  cases x with
  | ok a => exact ⟨fun _ => ⟨a, rfl⟩, fun _ => rfl⟩
  | error fault => simp [Except.isOk, Except.toBool]

private theorem mappable_iff : Mappable settings files ↔
    (∀ enum ∈ allEnums files, (Naming.check settings enum.home).isOk = true) ∧
    (∀ message ∈ allMessages files, (Naming.check settings message.home).isOk = true ∧
      (Body.ofMessage settings (Catalog.ofFiles files) message).isOk = true) ∧
    ∀ service ∈ (Catalog.ofFiles files).services,
      (ServicePlan.ofService settings (Catalog.ofFiles files) service).isOk = true := by
  have hunit : ∀ x : Except Fault Unit, x.isOk = true ↔ x = .ok () :=
    fun x => isOk_iff.trans ⟨fun ⟨_, h⟩ => h, fun h => ⟨(), h⟩⟩
  simp only [hunit, isOk_iff]
  exact ⟨fun h => ⟨h.enums, h.messages, h.services⟩, fun ⟨he, hm, hs⟩ => ⟨he, hm, hs⟩⟩

instance : Decidable (Mappable settings files) :=
  decidable_of_iff _ mappable_iff.symm

namespace Mappable

variable (hd : Source.Distinct files) (hplaced : ∀ message ∈ allMessages files, message.Placed)
  (h : Mappable settings files)

include hd hplaced h

omit hd in
theorem not_unresolved {message : Source.Message} (hm : message ∈ allMessages files) :
    ¬ Unresolved files message := by
  rintro ⟨field, hf, hbad⟩
  obtain ⟨-, body, hof⟩ := h.messages message hm
  exact hbad ((Body.ofMessage_ok (hplaced message hm) hof).2 field hf)

private theorem nameMessages_ne_error {fault : Fault} :
    nameMessages settings (Catalog.ofFiles files) ≠ .error fault := by
  intro hfault
  obtain ⟨message, hm, ⟨hvisit, hget⟩ | hnext⟩ := fault_of_walk (nameMessages_error hfault)
  · have hin := (Catalog.of_get?_messages hget).1
    simp only [homeOf, Catalog.message, hget] at hvisit
    rcases bind_eq_error.mp hvisit with ho | ⟨found, hfound, ho⟩
    · cases ho
    · cases hfound
      rw [(h.messages message hin).1] at ho
      cases ho
  · rw [Catalog.messages_values hd] at hm
    apply h.not_unresolved hplaced hm
    rcases List.mem_append.mp hnext with hnext | hnext
    · exact (fault_of_references hnext).2
    · exact (fault_of_enumReferences hnext).2

private theorem build_ne_error {mapping : Mapping} (hs : mapping.settings = settings)
    (hc : mapping.catalog = Catalog.ofFiles files) {mode : Mode} {names : List String}
    {fault : Fault} : mapping.build mode names ≠ .error fault := by
  intro hfault
  have hrun := build_error hfault
  rw [hc, hs] at hrun
  obtain ⟨message, hm, ⟨hvisit, hget⟩ | hnext⟩ := fault_of_walk hrun
  · obtain ⟨-, body, hof⟩ := h.messages message (Catalog.of_get?_messages hget).1
    rw [bodyOf, Catalog.message, hget] at hvisit
    cases hvisit.symm.trans hof
  · rw [Catalog.messages_values hd] at hm
    exact h.not_unresolved hplaced hm (fault_of_references hnext).2

omit hplaced

private theorem requests_ne_error {fault : Fault} :
    requests (Catalog.ofFiles files) ≠ .error fault := by
  intro hfault
  rcases bind_eq_error.mp hfault with hfault | ⟨_, -, hfault⟩
  · obtain ⟨service, hs, hfault⟩ := fault_of_mapM hfault
    obtain ⟨method, hm, hfault⟩ := fault_of_mapM hfault
    obtain ⟨hm, hmapped⟩ := List.mem_filter.mp hm
    obtain ⟨plan, hplan⟩ := h.services service hs
    exact (not_known_of_message_error hfault).2
      ((ServicePlan.ofService_ok hd hplan).2 method hm hmapped).request
  · cases hfault

end Mappable

/-- Files are mapped exactly if each declaration can be: the order of the passes and of the walks
decides only which fault is reported. -/
theorem exists_mapping_iff (hd : Source.Distinct files)
    (hplaced : ∀ message ∈ allMessages files, message.Placed) :
    (∃ mapping, ofCatalog settings (Catalog.ofFiles files) = .ok mapping) ↔
      Mappable settings files := by
  constructor
  · rintro ⟨mapping, h⟩
    have hb := ofCatalog_built h
    obtain ⟨_, henums, h⟩ := bind_eq_ok.mp h
    obtain ⟨named, hnamed, -⟩ := bind_eq_ok.mp h
    refine ⟨fun enum he => ?_, fun message hm => ⟨?_, ?_⟩, fun service hs => ?_⟩
    · rw [← Catalog.enums_values hd] at he
      obtain ⟨_, -, hcheck⟩ := exists_of_mem_mapM henums he
      exact hcheck
    · -- every message is visited, and a visit makes the check
      have hkey := Catalog.mem_keys_messages.mpr ⟨message, hm, rfl⟩
      obtain ⟨_, hlog⟩ := nameMessages_eq_ok.mp hnamed
      have hfinished := hlog.finished
      obtain ⟨target, heq, hdone⟩ := hfinished.settled _ (mem_visits.mpr hkey)
      cases heq
      obtain ⟨home, hhome⟩ := Table.mem_keys_iff.mp (hdone _ rfl hkey)
      rcases hfinished.visited _ _ hhome with hnone | ⟨-, hvisit, -⟩
      · simp at hnone
      · obtain ⟨found, hfound, hvisit⟩ := bind_eq_ok.mp hvisit
        obtain ⟨_, hcheck, -⟩ := bind_eq_ok.mp hvisit
        cases hfound.symm.trans ((Catalog.message_eq_ok hd).mpr ⟨hm, rfl⟩)
        exact hcheck
    · obtain ⟨body, -, hof⟩ := hb.exists_object hd hm
      exact ⟨body, hof⟩
    · obtain ⟨plans, hplans, -⟩ := hb.services
      obtain ⟨plan, -, hof⟩ := exists_of_mem_mapM hplans hs
      exact ⟨plan, hof⟩
  · intro h
    cases hmapping : ofCatalog settings (Catalog.ofFiles files) with
    | ok mapping => exact ⟨mapping, rfl⟩
    | error fault =>
      exfalso
      rw [ofCatalog_eq_passes] at hmapping
      rcases bind_eq_error.mp hmapping with hfault | ⟨_, -, hmapping⟩
      · obtain ⟨enum, he, hfault⟩ := fault_of_mapM hfault
        rw [Catalog.enums_values hd] at he
        cases (h.enums enum he).symm.trans hfault
      rcases bind_eq_error.mp hmapping with hfault | ⟨named, -, hmapping⟩
      · exact h.nameMessages_ne_error hd hplaced hfault
      rcases bind_eq_error.mp hmapping with hfault | ⟨withObjects, hbuild, hmapping⟩
      · exact h.build_ne_error hd hplaced rfl rfl hfault
      obtain ⟨hsettings, hcatalog⟩ : withObjects.settings = settings ∧
          withObjects.catalog = Catalog.ofFiles files := build_kept hbuild
      rcases bind_eq_error.mp hmapping with hfault | ⟨names, -, hmapping⟩
      · unfold inputNames at hfault
        split at hfault
        · cases hfault
        · cases hfault
        · rcases bind_eq_error.mp hfault with hfault | ⟨_, -, hfault⟩
          · exact h.requests_ne_error hd (hcatalog ▸ hfault)
          · cases hfault
      rcases bind_eq_error.mp hmapping with hfault | ⟨withInputs, hbuild', hmapping⟩
      · exact h.build_ne_error hd hplaced hsettings hcatalog hfault
      obtain ⟨hsettings', hcatalog'⟩ := build_kept hbuild'
      obtain ⟨service, hs, hfault⟩ := foldlM_planService_error hmapping
      rw [hsettings'.trans hsettings, hcatalog'.trans hcatalog] at hfault
      obtain ⟨plan, hplan⟩ := h.services service hs
      cases hplan.symm.trans hfault

/-- Files in another order can be mapped as well. -/
theorem Mappable.reorder (hd : Source.Distinct files) (hd' : Source.Distinct others)
    (hsub : Within files others) (hsub' : Within others files) (h : Mappable settings files) :
    Mappable settings others := by
  have hincludes : (Catalog.ofFiles files).Includes (fun _ => True) (Catalog.ofFiles others) :=
    Catalog.includes_of_within hd' hsub (fun _ _ => trivial) fun _ _ => trivial
  refine ⟨fun enum he => ?_, fun message hm => ?_, fun service hs => ?_⟩
  · obtain ⟨position, ho⟩ := hsub'.enum he
    exact h.enums (enum.movedTo position) ho
  · obtain ⟨position, ho⟩ := hsub'.message hm
    obtain ⟨hcheck, body, hof⟩ := h.messages _ ho
    obtain ⟨other, hother, -⟩ := Body.ofMessage_alike hincludes
      ⟨trivial, message.home.position, rfl⟩ hof
    exact ⟨hcheck, other, hother⟩
  · obtain ⟨position, ho⟩ := Catalog.service_of_within hd' hd hsub' hs
    obtain ⟨plan, hplan⟩ := h.services _ ho
    obtain ⟨other, hother, -⟩ := ServicePlan.ofService_alike hincludes
      ⟨trivial, service.home.position, rfl⟩ hplan
    exact ⟨other, hother⟩

end Mappable

section Within

variable {settings : Settings} {files others : List Source.File} {mapping mapping' : Mapping}

private theorem refers_within (h : Within files others) {a b : String}
    (hab : Refers (allMessages files) a b) : Refers (allMessages others) a b := by
  obtain ⟨message, hm, hname, hfield⟩ := hab
  obtain ⟨position, ho⟩ := h.message hm
  exact ⟨_, ho, hname, hfield⟩

theorem IsRequest.within (h : Within files others) {message : Source.Message}
    (hr : IsRequest files message) :
    ∃ position, IsRequest others (message.movedTo position) := by
  obtain ⟨hm, hfields, service, method, he, hinput⟩ := hr
  obtain ⟨position, ho⟩ := h.message hm
  obtain ⟨place, hs⟩ := h.service he.serviceMem
  exact ⟨position, ho, hfields, service.movedTo place, method,
    ⟨hs, he.methodMem, he.serviceKept, he.methodKept, he.operation, he.single⟩, hinput⟩

/-- More files take no input away. -/
theorem inputs_within (hd : Source.Distinct files) (hd' : Source.Distinct others)
    (hp : ∀ message ∈ allMessages files, message.Placed)
    (hp' : ∀ message ∈ allMessages others, message.Placed)
    (hb : Built settings (Catalog.ofFiles files) mapping)
    (hb' : Built settings (Catalog.ofFiles others) mapping') (h : Within files others)
    {name : String} (hn : (mapping.inputOf? name).isSome = true) :
    (mapping'.inputOf? name).isSome = true := by
  cases hmode : settings.inputMode with
  | none =>
    rw [hb.inputs_of_none hd hp hmode] at hn
    cases hn
  | all =>
    obtain ⟨body, hbody⟩ := Table.mem_keys_iff.mp (inputOf?_isSome.mp hn)
    obtain ⟨names, -, hbodies⟩ := hb.inputs
    obtain ⟨message, hm, rfl, -⟩ := hbodies.body_of_get? hbody
    obtain ⟨position, ho⟩ := h.message hm
    have hinput : (mapping'.inputOf? (message.movedTo position).fullName).isSome = true :=
      hb'.inputs_of_all hmode ho
    exact hinput
  | service =>
    obtain ⟨request, hr, path⟩ := (hb.inputs_of_service hd hp hmode).mp hn
    obtain ⟨position, hr'⟩ := hr.within h
    have hle : Refers (allMessages files) ≤ Refers (allMessages others) :=
      fun _ _ => refers_within h
    have path' : Depends (allMessages others) request.fullName name :=
      ReflTransGen.mono hle _ _ path
    exact (hb'.inputs_of_service hd' hp' hmode).mpr ⟨_, hr', path'⟩

variable (hd : Source.Distinct files) (hd' : Source.Distinct others)
  (hb : Built settings (Catalog.ofFiles files) mapping)
  (hb' : Built settings (Catalog.ofFiles others) mapping')

include hd hd' hb hb'

theorem object_within {P : Home → Prop}
    (h : (Catalog.ofFiles files).Includes P (Catalog.ofFiles others)) {name : String} {body : Body}
    (hbody : mapping.objects.get? name = some body) :
    ∃ other, mapping'.objects.get? name = some other ∧ body.Alike P other := by
  obtain ⟨message, hm, rfl, hof⟩ := hb.objects.body_of_get? hbody
  obtain ⟨other, hother, halike⟩ := h.messages _ _ ((Catalog.get?_messages hd).mpr ⟨hm, rfl⟩)
  obtain ⟨ho, hname⟩ := Catalog.of_get?_messages hother
  obtain ⟨found, hfound, hof'⟩ := hb'.exists_object hd' ho
  obtain ⟨body', hbody', hbodies⟩ := Body.ofMessage_alike h halike hof
  cases hbody'.symm.trans hof'
  exact ⟨found, hname ▸ hfound, hbodies⟩

private theorem scalars_within {P : Home → Prop}
    (h : (Catalog.ofFiles files).Includes P (Catalog.ofFiles others))
    (hn : mapping.objects.keys.Nodup) (hn' : mapping'.objects.keys.Nodup) {scalar : String}
    (hs : scalar ∈ mapping.scalars) : scalar ∈ mapping'.scalars := by
  obtain ⟨name, body, hbody, hs⟩ := (mem_scalars hn).mp hs
  obtain ⟨other, hother, halike⟩ := object_within hd hd' hb hb' h hbody
  refine (mem_scalars hn').mpr ⟨name, other, hother, ?_⟩
  rw [Body.customScalars_alike halike, hb'.settings_eq, ← hb.settings_eq]
  exact hs

variable (h : (Catalog.ofFiles files).Includes Home.Steady (Catalog.ofFiles others))

include h

theorem messageTypes?_within {name : String} {types : MessageTypes}
    (htypes : mapping.messageTypes? name = some types) : ∃ body : Body,
      types = body.types mapping.naming (mapping.inputs.contains name) ∧
        mapping'.messageTypes? name =
          some (body.types mapping.naming (mapping'.inputs.contains name)) := by
  obtain ⟨body, hbody, rfl⟩ := Option.map_eq_some_iff.mp htypes
  obtain ⟨other, hother, halike⟩ := object_within hd hd' hb hb' h hbody
  have hsettings : mapping'.settings = mapping.settings := hb'.settings_eq.trans hb.settings_eq.symm
  refine ⟨body, rfl, ?_⟩
  rw [messageTypes?, hother]
  exact congrArg some (Body.types_alike hsettings halike _)

theorem serviceTypes?_within (hw : Within files others) {service : Source.Service}
    (hs : service ∈ allServices files) (hsteady : service.home.Steady) :
    mapping'.serviceTypes? service.fullName = mapping.serviceTypes? service.fullName := by
  obtain ⟨position, ho⟩ := hw.service hs
  have hsettings : mapping'.settings = mapping.settings := hb'.settings_eq.trans hb.settings_eq.symm
  unfold serviceTypes?
  by_cases hkept : service.skip.isSet = false
  · obtain ⟨plan, hplan, hof⟩ := hb.exists_plan hd hs hkept
    obtain ⟨other, hother, hof'⟩ := hb'.exists_plan hd' ho hkept
    obtain ⟨_, hsame, halike⟩ := ServicePlan.ofService_alike h ⟨hsteady, position, rfl⟩ hof
    cases hsame.symm.trans hof'
    rw [hplan]
    exact (congrArg _ hother).trans (congrArg some (ServicePlan.types_alike hsettings halike))
  · rw [Bool.not_eq_false] at hkept
    rw [hb.get?_services_eq_none, hb'.get?_services_eq_none]
    · rfl
    · intro other hin hname
      rw [List.inj_on_of_nodup_map hd'.serviceNames hin ho hname]
      exact hkept
    · intro other hin hname
      rw [List.inj_on_of_nodup_map hd.serviceNames hin hs hname]
      exact hkept

omit hd hd'

private theorem names_within {name : String} {found : Schema.TypeName} :
    (mapping.objectName? name = some found → mapping'.objectName? name = some found) ∧
    (mapping.inputName? name = some found → mapping'.inputName? name = some found) ∧
    (mapping.enumName? name = some found → mapping'.enumName? name = some found) := by
  have hsettings : mapping'.settings = mapping.settings := hb'.settings_eq.trans hb.settings_eq.symm
  unfold objectName? inputName? enumName?
  rw [hb.catalog_eq, hb'.catalog_eq]
  exact ⟨h.map_messages fun _ _ => Naming.object_alike hsettings,
    h.map_messages fun _ _ => Naming.input_alike hsettings,
    h.map_enums fun _ _ => Naming.enum_alike hsettings⟩

theorem enumType?_within {name : String} {found : Schema.Enum}
    (hfound : mapping.enumType? name = some found) : mapping'.enumType? name = some found := by
  have hsettings : mapping'.settings = mapping.settings := hb'.settings_eq.trans hb.settings_eq.symm
  unfold enumType? at hfound ⊢
  rw [hb.catalog_eq] at hfound
  rw [hb'.catalog_eq]
  exact h.map_enums (fun _ _ => enumDeclaration_alike hsettings) hfound

end Within

theorem contains_inputs {mapping : Mapping} (name : String) :
    mapping.inputs.contains name = (mapping.inputOf? name).isSome := by
  rw [inputOf?, Option.isSome_map, Table.contains]

section Steady

variable {settings : Settings} {index : Options.Index} {described described' : List Descriptor.File}
  {mapping mapping' : Mapping}

/-- The declarations of files stay as they are when there are more files. -/
theorem declarations_within (hd : Source.DistinctNames described)
    (hd' : Source.DistinctNames described') (hsub : described ⊆ described')
    (hsteady : Source.SteadyNames index described)
    (hmapping : ofDescriptors settings index described = .ok mapping)
    (hmapping' : ofDescriptors settings index described' = .ok mapping') :
    (∀ name ∈ Source.describedMessages described, ∃ types types',
      mapping.messageTypes? name = some types ∧ mapping'.messageTypes? name = some types' ∧
        types.Within types') ∧
    (∀ name ∈ Source.describedEnums described, ∃ type,
      mapping.enumType? name = some type ∧ mapping'.enumType? name = some type) ∧
    ∀ name ∈ Source.describedServices described,
      mapping'.serviceTypes? name = mapping.serviceTypes? name := by
  obtain ⟨files, hw, hfiles⟩ := exists_wrapped hmapping
  obtain ⟨others, hw', hothers⟩ := exists_wrapped hmapping'
  have hb := ofCatalog_built hfiles
  have hb' := ofCatalog_built hothers
  have hwithin := hw.within hw' hsub
  have hincludes : (Catalog.ofFiles files).Includes Home.Steady (Catalog.ofFiles others) :=
    Catalog.includes_of_within (hw'.distinct hd') hwithin
      (fun _ => hw.steady_message hsteady) fun _ => hw.steady_enum hsteady
  refine ⟨fun name hname => ?_, fun name hname => ?_, fun name hname => ?_⟩
  · rw [← hw.messageNames] at hname
    obtain ⟨message, hm, rfl⟩ := List.mem_map.mp hname
    obtain ⟨body, hbody, -⟩ := hb.exists_object (hw.distinct hd) hm
    have htypes : mapping.messageTypes? message.fullName = some _ := congrArg _ hbody
    obtain ⟨found, heq, htypes'⟩ :=
      messageTypes?_within (hw.distinct hd) (hw'.distinct hd') hb hb' hincludes htypes
    refine ⟨_, _, htypes, htypes', ?_⟩
    rw [heq]
    apply Body.types_within
    rw [contains_inputs, contains_inputs]
    exact inputs_within (hw.distinct hd) (hw'.distinct hd') hw.placed hw'.placed hb hb' hwithin
  · rw [← hw.enumNames] at hname
    obtain ⟨enum, he, rfl⟩ := List.mem_map.mp hname
    have htype : mapping.enumType? enum.fullName =
        some (enumDeclaration mapping.naming enum) := by
      rw [enumType?, hb.catalog_eq, (Catalog.get?_enums (hw.distinct hd)).mpr ⟨he, rfl⟩]
      rfl
    exact ⟨_, htype, enumType?_within hb hb' hincludes htype⟩
  · rw [← hw.serviceNames] at hname
    obtain ⟨service, hs, rfl⟩ := List.mem_map.mp hname
    exact serviceTypes?_within (hw.distinct hd) (hw'.distinct hd') hb hb' hincludes hwithin hs
      (hw.steady_service hsteady hs)

/-- Files in another order have the same names and declarations. -/
theorem sameTables_of_perm (hd : Source.DistinctNames described)
    (hd' : Source.DistinctNames described') (hperm : described.Perm described')
    (hsteady : Source.SteadyNames index described)
    (hmapping : ofDescriptors settings index described = .ok mapping)
    (hmapping' : ofDescriptors settings index described' = .ok mapping') :
    SameTables mapping mapping' := by
  obtain ⟨files, hw, hfiles⟩ := exists_wrapped hmapping
  obtain ⟨others, hw', hothers⟩ := exists_wrapped hmapping'
  have hb := ofCatalog_built hfiles
  have hb' := ofCatalog_built hothers
  have hdistinct := hw.distinct hd
  have hdistinct' := hw'.distinct hd'
  have hwithin := hw.within hw' hperm.subset
  have hwithin' := hw'.within hw hperm.symm.subset
  have hsteady' : Source.SteadyNames index described' :=
    fun file hf => hsteady file (hperm.mem_iff.mpr hf)
  have h : (Catalog.ofFiles files).Includes Home.Steady (Catalog.ofFiles others) :=
    Catalog.includes_of_within hdistinct' hwithin
      (fun _ => hw.steady_message hsteady) fun _ => hw.steady_enum hsteady
  have h' : (Catalog.ofFiles others).Includes Home.Steady (Catalog.ofFiles files) :=
    Catalog.includes_of_within hdistinct hwithin'
      (fun _ => hw'.steady_message hsteady') fun _ => hw'.steady_enum hsteady'
  have hinputs : ∀ name, mapping'.inputs.contains name = mapping.inputs.contains name := by
    intro name
    rw [contains_inputs, contains_inputs, Bool.eq_iff_iff]
    exact ⟨inputs_within hdistinct' hdistinct hw'.placed hw.placed hb' hb hwithin',
      inputs_within hdistinct hdistinct' hw.placed hw'.placed hb hb' hwithin⟩
  -- each table keeps what the other has, so both have the same
  refine ⟨fun name => ?_, fun name => ?_, fun name => ?_, fun name => ?_, fun name => ?_,
    fun name => ?_, fun scalar => ?_⟩
  · exact Option.ext fun _ => ⟨(names_within hb' hb h').1, (names_within hb hb' h).1⟩
  · exact Option.ext fun _ => ⟨(names_within hb' hb h').2.1, (names_within hb hb' h).2.1⟩
  · exact Option.ext fun _ => ⟨(names_within hb' hb h').2.2, (names_within hb hb' h).2.2⟩
  · refine Option.ext fun types => ⟨fun htypes => ?_, fun htypes => ?_⟩
    · obtain ⟨body, rfl, heq⟩ := messageTypes?_within hdistinct' hdistinct hb' hb h' htypes
      rw [heq, hinputs]
    · obtain ⟨body, rfl, heq⟩ := messageTypes?_within hdistinct hdistinct' hb hb' h htypes
      rw [heq, hinputs]
  · exact Option.ext fun _ => ⟨enumType?_within hb' hb h', enumType?_within hb hb' h⟩
  · by_cases hs : ∃ service ∈ allServices files, service.fullName = name
    · obtain ⟨service, hs, rfl⟩ := hs
      exact serviceTypes?_within hdistinct hdistinct' hb hb' h hwithin hs
        (hw.steady_service hsteady hs)
    · have hnone : mapping.services.get? name = none :=
        hb.get?_services_eq_none fun service hin hname => absurd ⟨service, hin, hname⟩ hs
      have hnone' : mapping'.services.get? name = none := by
        refine hb'.get?_services_eq_none fun service hin hname => ?_
        obtain ⟨position, ho⟩ := hwithin'.service hin
        exact absurd ⟨_, ho, hname⟩ hs
      rw [serviceTypes?, serviceTypes?, hnone, hnone']
      rfl
  · have hn := ofCatalog_nodup_keys hfiles .object
    have hn' := ofCatalog_nodup_keys hothers .object
    exact ⟨scalars_within hdistinct' hdistinct hb' hb h' hn' hn,
      scalars_within hdistinct hdistinct' hb hb' h hn hn'⟩

end Steady

/-- Files can be mapped in any order if they can in one. -/
theorem exists_mapping_of_perm {settings : Settings} {index : Options.Index}
    {described described' : List Descriptor.File} (hd : Source.DistinctNames described)
    (hd' : Source.DistinctNames described') (hperm : described.Perm described')
    (h : ∃ mapping, ofDescriptors settings index described = .ok mapping) :
    ∃ mapping, ofDescriptors settings index described' = .ok mapping := by
  obtain ⟨mapping, hmapping⟩ := h
  obtain ⟨files, hw, hfiles⟩ := exists_wrapped hmapping
  obtain ⟨others, hw'⟩ := hw.exists_of_subset hperm.symm.subset
  have hmappable := (exists_mapping_iff (hw.distinct hd) hw.placed).mp ⟨mapping, hfiles⟩
  rw [ofDescriptors_eq hw', exists_mapping_iff (hw'.distinct hd') hw'.placed]
  exact hmappable.reorder (hw.distinct hd) (hw'.distinct hd') (hw.within hw' hperm.subset)
    (hw'.within hw hperm.symm.subset)

/-- Files among more files, in any order: as long as no namespace is a list, what is declared stays
as it is, apart from inputs that are added. The same files in another order can be mapped if they
could, and then to the same tables. -/
theorem declarations_do_not_depend_on_file_order (settings : Settings) (index : Options.Index)
    (described described' : List Descriptor.File) (hd : Source.DistinctNames described)
    (hd' : Source.DistinctNames described') (hsub : described ⊆ described') :
    (Source.SteadyNames index described → ∀ mapping mapping',
      ofDescriptors settings index described = .ok mapping →
      ofDescriptors settings index described' = .ok mapping' →
      (∀ name ∈ Source.describedMessages described, ∃ types types',
        mapping.messageTypes? name = some types ∧ mapping'.messageTypes? name = some types' ∧
          types.Within types') ∧
      (∀ name ∈ Source.describedEnums described, ∃ type,
        mapping.enumType? name = some type ∧ mapping'.enumType? name = some type) ∧
      ∀ name ∈ Source.describedServices described,
        mapping'.serviceTypes? name = mapping.serviceTypes? name) ∧
    (described.Perm described' →
      ((∃ mapping, ofDescriptors settings index described = .ok mapping) ↔
        ∃ mapping', ofDescriptors settings index described' = .ok mapping') ∧
      (Source.SteadyNames index described → ∀ mapping mapping',
        ofDescriptors settings index described = .ok mapping →
        ofDescriptors settings index described' = .ok mapping' →
        SameTables mapping mapping')) := by
  refine ⟨fun hsteady mapping mapping' => declarations_within hd hd' hsub hsteady,
    fun hperm => ⟨⟨?_, ?_⟩,
      fun hsteady mapping mapping' => sameTables_of_perm hd hd' hperm hsteady⟩⟩
  · exact exists_mapping_of_perm hd hd' hperm
  · exact exists_mapping_of_perm hd' hd hperm.symm

/-- The shop with its files in reverse, each referring to what only comes later. -/
theorem shop_in_reverse : Source.DistinctNames Source.shop ∧
    Source.DistinctNames Source.shop.reverse ∧ Source.shop ⊆ Source.shop.reverse ∧
    Source.SteadyNames Source.shopIndex Source.shop ∧
    ∃ mapping mapping',
      ofDescriptors Source.shopSettings Source.shopIndex Source.shop = .ok mapping ∧
      ofDescriptors Source.shopSettings Source.shopIndex Source.shop.reverse = .ok mapping' ∧
      SameTables mapping mapping' := by
  have hd : Source.DistinctNames Source.shop := by constructor <;> decide
  have hd' : Source.DistinctNames Source.shop.reverse := by constructor <;> decide
  have hsub : Source.shop ⊆ Source.shop.reverse := fun _ => List.mem_reverse.mpr
  have hsteady : Source.SteadyNames Source.shopIndex Source.shop := by decide
  obtain ⟨hiff, hsame⟩ := (declarations_do_not_depend_on_file_order Source.shopSettings
    Source.shopIndex Source.shop Source.shop.reverse hd hd' hsub).2 Source.shop.reverse_perm.symm
  obtain ⟨mapping, hmapping⟩ := exists_mapping Source.shop_wrapped Source.shop_distinct
    Source.shop_countsForward Source.shopIndex_wellTyped shop_resolvable
  obtain ⟨mapping', hmapping'⟩ := hiff.mp ⟨mapping, hmapping⟩
  exact ⟨hd, hd', hsub, hsteady, mapping, mapping', hmapping, hmapping',
    hsame hsteady mapping mapping' hmapping hmapping'⟩

section Crossing

/-- A file with a list as its namespace, and a file that refers to the second of its messages. -/
def crossing : List Descriptor.File :=
  [{ name := "list.proto", messages := [{ name := "A" }, { name := "B" }] },
   { name := "other.proto"
     messages := [
       { name := "C", fields := [{ name := "b", kind := .message, typeName := ".B" }] }] }]

def crossingSettings : Settings := { inputMode := .none }

def crossingSources : List Source.File :=
  ((crossing.zipIdx.mapM fun (file, position) =>
    Source.File.ofDescriptor growingIndex position file).toOption).getD []

def crossingReversed : List Source.File :=
  ((crossing.reverse.zipIdx.mapM fun (file, position) =>
    Source.File.ofDescriptor growingIndex position file).toOption).getD []

private theorem crossing_mappable : Mappable crossingSettings crossingSources := by
  decide

private theorem crossing_named :
    ∃ named, nameMessages crossingSettings (Catalog.ofFiles crossingSources) = .ok named ∧
      named.keys = [".A", ".B", ".C"] :=
  ⟨_, nameMessages_eq_ok.mpr ⟨_, .visit (by decide) rfl (.visit (by decide) rfl
    (.visit (by decide) rfl (.skip (by decide) (.done _))))⟩, by decide⟩

private theorem crossingReversed_named :
    ∃ named, nameMessages crossingSettings (Catalog.ofFiles crossingReversed) = .ok named ∧
      named.keys = [".C", ".B", ".A"] :=
  ⟨_, nameMessages_eq_ok.mpr ⟨_, .visit (by decide) rfl (.visit (by decide) rfl
    (.visit (by decide) rfl (.skip (by decide) (.done _))))⟩, by decide⟩

private theorem formed_foldlM_planService {services : List Source.Service}
    {mapping result : Mapping}
    (h : services.foldlM planService mapping = .ok result) : mapping.formed <+: result.formed := by
  induction services generalizing mapping with
  | nil =>
    cases h
    exact List.prefix_rfl
  | cons service services ih =>
    obtain ⟨next, hnext, h⟩ := bind_eq_ok.mp h
    obtain ⟨plan, -, hnext⟩ := bind_eq_ok.mp hnext
    cases hnext
    exact (List.prefix_append _ _).trans (ih h)

/-- The names of the messages are formed before those of their oneofs and of services. -/
theorem ofCatalog_formed {settings : Settings} {files : List Source.File} {mapping : Mapping}
    (h : ofCatalog settings (Catalog.ofFiles files) = .ok mapping) :
    ∃ named, nameMessages settings (Catalog.ofFiles files) = .ok named ∧
      (Catalog.ofFiles files).enums.values.map
          (fun enum => ⟨enum.home.name, { segments := enum.path }⟩) ++
        named.keys.flatMap (messageFormed (Catalog.ofFiles files)) <+: mapping.formed := by
  obtain ⟨named, _, _, _, _, hnamed, rfl, -, -, -, h⟩ := ofCatalog_ok h
  refine ⟨named, hnamed, .trans ?_ (formed_foldlM_planService h)⟩
  exact (List.prefix_append _ _).trans (List.prefix_append _ _)

/-- In files with a list as their namespace, the names say which message was named first. -/
theorem crossing_names_depend_on_the_file_order :
    Source.DistinctNames crossing ∧ Source.DistinctNames crossing.reverse ∧
    crossing.Perm crossing.reverse ∧ ∃ mapping mapping',
      ofDescriptors crossingSettings growingIndex crossing = .ok mapping ∧
      ofDescriptors crossingSettings growingIndex crossing.reverse = .ok mapping' ∧
      mapping.objectName? ".A" ≠ mapping'.objectName? ".A" := by
  have hd : Source.DistinctNames crossing := by constructor <;> decide
  have hd' : Source.DistinctNames crossing.reverse := by constructor <;> decide
  have hw : Source.Wrapped growingIndex crossing crossingSources := rfl
  have hw' : Source.Wrapped growingIndex crossing.reverse crossingReversed := rfl
  obtain ⟨mapping, hmapping⟩ :=
    (exists_mapping_iff (hw.distinct hd) hw.placed).mpr crossing_mappable
  obtain ⟨mapping', hmapping'⟩ := exists_mapping_of_perm hd hd' crossing.reverse_perm.symm
    ⟨mapping, (ofDescriptors_eq hw).trans hmapping⟩
  refine ⟨hd, hd', crossing.reverse_perm.symm, mapping, mapping',
    (ofDescriptors_eq hw).trans hmapping, hmapping', ?_⟩
  rw [ofDescriptors_eq hw'] at hmapping'
  obtain ⟨named, hnamed, later, hformed⟩ := ofCatalog_formed hmapping
  obtain ⟨named', hnamed', later', hformed'⟩ := ofCatalog_formed hmapping'
  obtain ⟨_, hkeys, horder⟩ := crossing_named
  obtain ⟨_, hkeys', horder'⟩ := crossingReversed_named
  cases hnamed.symm.trans hkeys
  cases hnamed'.symm.trans hkeys'
  have hletters : mapping.naming.letters "list.proto" = "_A_A_Input_B_B_Input".toList ++
      (Naming.mk mapping.settings later).letters "list.proto" := by
    rw [naming, Naming.letters, ← hformed, List.filter_append, List.flatMap_append, horder]
    rfl
  have hletters' : mapping'.naming.letters "list.proto" = "_B_B_Input_A_A_Input".toList ++
      (Naming.mk mapping'.settings later').letters "list.proto" := by
    rw [naming, Naming.letters, ← hformed', List.filter_append, List.flatMap_append, horder']
    rfl
  have hname : mapping.objectName? ".A" =
      some (.list (mapping.naming.grown "list.proto" [.text "N"])) := by
    rw [objectName?, (ofCatalog_built hmapping).catalog_eq]
    rfl
  have hname' : mapping'.objectName? ".A" =
      some (.list (mapping'.naming.grown "list.proto" [.text "N"])) := by
    rw [objectName?, (ofCatalog_built hmapping').catalog_eq]
    rfl
  -- the lists differ at the letter after the first underscore
  rw [hname, hname', Naming.grown, Naming.grown, hletters, hletters']
  intro heq
  have hlists := Schema.TypeName.list.inj (Option.some.inj heq)
  have hletter := congrArg (·[2]?) hlists
  simp at hletter

end Crossing

end ProtoSdl.Mapping

import ProtoSdl.Proofs.MisusedOptions
import ProtoSdl.Proofs.Resolution

/-! Defects of a mapping. Names that nothing answers to have diagnostics, and bodies are built
without defects from well-formed files; what is left is a namespace that allows no names and an
operation that is a list or an object. -/
namespace ProtoSdl.Mapping

open Outcome
open Source (allMessages)

/-- A namespace that allows no names: it is given and no text, nor a list where nothing is cut off
names. -/
def RefusedSpace (settings : Settings) (nameSpace : Json) : Prop :=
  nameSpace.isSet = true ∧ Options.isText nameSpace = false ∧
    ((∃ items, nameSpace = .list items) → settings.trim ≠ "")

theorem not_refusedSpace_of_isText {settings : Settings} {nameSpace : Json}
    (h : Options.isText nameSpace = true) : ¬ RefusedSpace settings nameSpace :=
  fun hbad => Bool.false_ne_true (hbad.2.1.symm.trans h)

theorem Naming.check_blames (settings : Settings) (home : Source.Home) :
    Blames (Naming.check settings home) (RefusedSpace settings home.nameSpace) := by
  unfold Naming.check RefusedSpace
  split
  · rename_i hset
    split
    · rename_i text heq
      exact Blames.ok (by simp [heq, Options.isText]) ()
    · rename_i items heq
      split
      · rename_i htrim
        exact Blames.ok (fun h => h.2.2 ⟨items, heq⟩ htrim) ()
      · rename_i htrim
        exact Blames.error ⟨hset, by simp [heq, Options.isText], fun _ => htrim⟩ _
    · rename_i htext hlist
      refine Blames.error ⟨hset, ?_, ?_⟩ _
      · cases hspace : home.nameSpace with
        | text text => exact absurd hspace (htext text)
        | _ => rfl
      · rintro ⟨items, heq⟩
        exact absurd heq (hlist items)
  · rename_i hset
    exact Blames.ok (fun h => hset h.1) ()

/-- A value that is given and is a list or an object names no operation, known or unknown. -/
def MisusedOperation (value : Json) : Prop :=
  value.isSet = true ∧ Options.isName value = false

theorem not_misusedOperation_of_isText {value : Json} (h : Options.isText value = true) :
    ¬ MisusedOperation value := by
  rintro ⟨-, hbad⟩
  cases value <;> simp [Options.isText, Options.isName] at h hbad

theorem Operation.ofValue_blames (referrer : String) (value : Json) :
    Blames (Operation.ofValue referrer value) (MisusedOperation value) := by
  unfold Operation.ofValue MisusedOperation
  split
  · rename_i hset
    split
    · exact Blames.ok (by simp [Options.isName]) _
    · exact Blames.ok (by simp [Options.isName]) _
    · exact Blames.ok (by simp [Options.isName]) _
    · exact Blames.error ⟨hset, rfl⟩ _
    · exact Blames.error ⟨hset, rfl⟩ _
    · rename_i hlist hobject
      refine (Blames.of_no_defect (by simp [Fault.mapping])).congr ?_
      cases value with
      | list items => exact absurd rfl (hlist items)
      | object entries => exact absurd rfl (hobject entries)
      | _ => simp [Options.isName]
  · rename_i hset
    exact Blames.ok (fun h => hset h.1) _

section Methods

variable {settings : Settings} {catalog : Catalog} {service : Source.Service}
  {method : Source.Method}

theorem Catalog.message_blames (catalog : Catalog) (referrer name : String) :
    Blames (catalog.message referrer name) False := by
  refine Blames.of_no_defect fun defect h => ?_
  unfold Catalog.message at h
  split at h <;> simp [Fault.mapping] at h

/-- A method that is mapped and, where there are no inputs, needs none. -/
def Callable (settings : Settings) (catalog : Catalog) (method : Source.Method) : Prop :=
  method.isMapped = true ∧ ¬ (settings.inputMode = .none ∧
    ∃ request, catalog.messages.get? method.input = some request ∧ request.fields ≠ [])

private theorem callablePlan_blames (catalog : Catalog) (service : Source.Service)
    (method : Source.Method) :
    Blames (callablePlan catalog service method) (MisusedOperation method.operation) :=
  (Operation.ofValue_blames _ _).bind_left fun _ _ =>
    (Catalog.message_blames _ _ _).bind_left fun _ _ =>
      (Catalog.message_blames _ _ _).bind_left fun _ _ => Blames.ok not_false _

private theorem get?_of_requestOf {request : Source.Message}
    (h : requestOf catalog service method = .ok request) :
    catalog.messages.get? method.input = some request := by
  unfold requestOf Catalog.message at h
  split at h
  · rename_i hget
    cases h
    exact hget
  · cases h

theorem callable_of_request (hm : method.isMapped = true) {request : Source.Message}
    (hmode : settings.inputMode = .none)
    (h : requestOf catalog service method = .ok request) :
    Callable settings catalog method ↔ request.fields = [] := by
  simp [Callable, hm, hmode, get?_of_requestOf h]

theorem MethodPlan.ofMethod?_blames (settings : Settings) (catalog : Catalog)
    (service : Source.Service) (method : Source.Method) :
    Blames (MethodPlan.ofMethod? settings catalog service method)
      (Callable settings catalog method ∧ MisusedOperation method.operation) := by
  by_cases hm : method.isMapped = true
  · by_cases hmode : settings.inputMode = .none
    · rw [ofMethod?_without_inputs hm hmode]
      refine (Catalog.message_blames _ _ _).bind_right fun request hrequest => ?_
      rw [callable_of_request hm hmode hrequest]
      split
      · rename_i hempty
        rw [and_iff_right (List.isEmpty_iff.mp hempty)]
        exact callablePlan_blames catalog service method
      · rename_i hempty
        exact Blames.ok (fun h => hempty (List.isEmpty_iff.mpr h.1)) none
    · rw [ofMethod?_of_inputs hm hmode, and_iff_right ⟨hm, fun h => hmode h.1⟩]
      exact callablePlan_blames catalog service method
  · unfold MethodPlan.ofMethod?
    rw [if_neg hm]
    exact Blames.ok (fun h => hm h.1.1) none

private theorem isSome_of_callablePlan {result : Option MethodPlan}
    (h : callablePlan catalog service method = .ok result) : result.isSome = true := by
  obtain ⟨operation, -, h⟩ := bind_eq_ok.mp h
  obtain ⟨request, -, h⟩ := bind_eq_ok.mp h
  obtain ⟨response, -, h⟩ := bind_eq_ok.mp h
  cases h
  rfl

/-- A method has a plan if it can be called. -/
theorem MethodPlan.isSome_ofMethod? {result : Option MethodPlan}
    (h : MethodPlan.ofMethod? settings catalog service method = .ok result) :
    result.isSome = true ↔ Callable settings catalog method := by
  by_cases hm : method.isMapped = true
  · by_cases hmode : settings.inputMode = .none
    · rw [ofMethod?_without_inputs hm hmode] at h
      obtain ⟨request, hrequest, h⟩ := bind_eq_ok.mp h
      rw [callable_of_request hm hmode hrequest, ← List.isEmpty_iff]
      split at h
      · rename_i hempty
        exact iff_of_true (isSome_of_callablePlan h) hempty
      · rename_i hempty
        cases h
        exact iff_of_false (by simp) hempty
    · rw [ofMethod?_of_inputs hm hmode] at h
      exact iff_of_true (isSome_of_callablePlan h) ⟨hm, fun hnone => hmode hnone.1⟩
  · unfold MethodPlan.ofMethod? at h
    rw [if_neg hm] at h
    cases h
    exact iff_of_false (by simp) fun hcall => hm hcall.1

/-- A method of a misused operation, or a namespace that the roots of a service cannot be named in. -/
def MisusedService (settings : Settings) (catalog : Catalog) (service : Source.Service) : Prop :=
  ∃ method ∈ service.methods, Callable settings catalog method ∧
    (MisusedOperation method.operation ∨ RefusedSpace settings service.home.nameSpace)

private theorem exists_plan_iff {results : List (Option MethodPlan)}
    (h : service.methods.mapM (MethodPlan.ofMethod? settings catalog service) = .ok results) :
    (results.filterMap id).isEmpty = false ↔
      ∃ method ∈ service.methods, Callable settings catalog method := by
  rw [Bool.eq_false_iff, Ne, List.isEmpty_iff, List.filterMap_eq_nil_iff]
  push Not
  constructor
  · rintro ⟨result, hr, hsome⟩
    obtain ⟨method, hm, hof⟩ := exists_of_mem_results h hr
    exact ⟨method, hm, (MethodPlan.isSome_ofMethod? hof).mp (Option.isSome_iff_ne_none.mpr hsome)⟩
  · rintro ⟨method, hm, hcall⟩
    obtain ⟨result, hr, hof⟩ := exists_of_mem_mapM h hm
    exact ⟨result, hr, Option.isSome_iff_ne_none.mp ((MethodPlan.isSome_ofMethod? hof).mpr hcall)⟩

private theorem misusedService_iff : MisusedService settings catalog service ↔
    (∃ method ∈ service.methods, Callable settings catalog method ∧
      MisusedOperation method.operation) ∨
    (∃ method ∈ service.methods, Callable settings catalog method) ∧
      RefusedSpace settings service.home.nameSpace := by
  simp only [MisusedService, and_or_left, exists_or]
  refine or_congr_right ⟨?_, ?_⟩
  · rintro ⟨method, hm, hcall, hspace⟩
    exact ⟨⟨method, hm, hcall⟩, hspace⟩
  · rintro ⟨⟨method, hm, hcall⟩, hspace⟩
    exact ⟨method, hm, hcall, hspace⟩

theorem ServicePlan.ofService_blames (settings : Settings) (catalog : Catalog)
    (service : Source.Service) :
    Blames (ServicePlan.ofService settings catalog service)
      (MisusedService settings catalog service) := by
  rw [misusedService_iff]
  refine (Blames.mapM fun method _ =>
    MethodPlan.ofMethod?_blames settings catalog service method).bind_or fun results hresults => ?_
  rw [← exists_plan_iff hresults]
  simp only
  split
  · rename_i hplans
    rw [and_iff_right (by simpa using hplans)]
    exact (Naming.check_blames settings service.home).bind_left fun _ _ => Blames.ok not_false _
  · rename_i hplans
    exact Blames.ok (fun h => hplans (by rw [h.1]; rfl)) _

end Methods

private theorem foldlM_planService_blames (mapping : Mapping) (services : List Source.Service) :
    Blames (services.foldlM planService mapping)
      (∃ service ∈ services, MisusedService mapping.settings mapping.catalog service) := by
  constructor
  · intro defect h
    obtain ⟨service, hs, h⟩ := foldlM_planService_error h
    exact ⟨service, hs, (ServicePlan.ofService_blames _ _ _).of_defect defect h⟩
  · rintro ⟨service, hs, hbad⟩ result h
    obtain ⟨plans, -, hplans, -⟩ := foldlM_planService_ok h
    obtain ⟨plan, -, hof⟩ := exists_of_mem_mapM hplans hs
    exact (ServicePlan.ofService_blames _ _ _).not_ok hbad plan hof

section Passes

variable {settings : Settings} {files : List Source.File}

private theorem nameMessages_blames (settings : Settings) (files : List Source.File) :
    Blames (nameMessages settings (Catalog.ofFiles files))
      (∃ message ∈ (Catalog.ofFiles files).messages.values,
        RefusedSpace settings message.home.nameSpace) := by
  constructor
  · intro defect h
    obtain ⟨message, hm, ⟨hvisit, hget⟩ | hnext⟩ := fault_of_walk (nameMessages_error h)
    · simp only [homeOf, Catalog.message, hget] at hvisit
      have hcheck := (Naming.check_blames settings message.home).bind_left
        fun _ _ => Blames.ok not_false message.home
      exact ⟨message, hm, hcheck.of_defect defect hvisit⟩
    · obtain ⟨⟨error, herror⟩, -⟩ := (List.mem_append.mp hnext).elim fault_of_references
        fault_of_enumReferences
      cases herror
  · rintro ⟨message, hm, hbad⟩ named h
    obtain ⟨name, hget⟩ := Table.exists_get?_of_mem_values (Catalog.nodup_keys_messages files) hm
    have hkey := Table.mem_keys_iff.mpr ⟨message, hget⟩
    -- the walk starts at every message, so that the namespace of this one is checked
    obtain ⟨_, hlog⟩ := nameMessages_eq_ok.mp h
    have hrun := hlog.finished
    obtain ⟨target, heq, hdone⟩ := hrun.settled _ (mem_visits.mpr hkey)
    cases heq
    obtain ⟨home, hhome⟩ := Table.mem_keys_iff.mp (hdone name rfl hkey)
    rcases hrun.visited name home hhome with hnone | ⟨-, hvisit, -⟩
    · simp at hnone
    · simp only [homeOf, Catalog.message, hget] at hvisit
      obtain ⟨_, hfound, hvisit⟩ := bind_eq_ok.mp hvisit
      cases hfound
      obtain ⟨_, hcheck, -⟩ := bind_eq_ok.mp hvisit
      exact (Naming.check_blames settings message.home).not_ok hbad _ hcheck

private theorem build_blames (hplaced : ∀ message ∈ allMessages files, message.Placed)
    (hforward : ∀ message ∈ (Catalog.ofFiles files).messages.values, message.CountsForward)
    {mapping : Mapping} (hc : mapping.catalog = Catalog.ofFiles files) (mode : Mode)
    (names : List String) : Blames (mapping.build mode names) False := by
  refine Blames.of_no_defect fun defect h => ?_
  obtain ⟨⟨error, herror⟩, -⟩ := fault_of_build hplaced hforward hc h
  cases herror

private theorem requests_blames (catalog : Catalog) : Blames (requests catalog) False := by
  refine Blames.bind_left ?_ fun _ _ => Blames.ok not_false _
  refine Blames.of_no_defect fun defect h => ?_
  obtain ⟨service, -, h⟩ := fault_of_mapM h
  obtain ⟨method, -, h⟩ := fault_of_mapM h
  exact (Catalog.message_blames _ _ _).of_defect defect h

private theorem inputNames_blames (mapping : Mapping) (graph : Dependency.Graph) :
    Blames (mapping.inputNames graph) False := by
  unfold inputNames
  split
  · exact Blames.ok not_false _
  · exact Blames.ok not_false _
  · exact (requests_blames _).bind_left fun _ _ => Blames.ok not_false _

/-- A namespace in which types cannot be named, or an operation of a method that can be called
which is a list or an object. -/
inductive MisusedDeclaration (settings : Settings) (catalog : Catalog) : Prop
  | enum {enum : Source.Enum} (he : enum ∈ catalog.enums.values)
      (h : RefusedSpace settings enum.home.nameSpace)
  | message {message : Source.Message} (hm : message ∈ catalog.messages.values)
      (h : RefusedSpace settings message.home.nameSpace)
  | service {service : Source.Service} (hs : service ∈ catalog.services)
      (h : MisusedService settings catalog service)

private theorem misusedDeclaration_iff {catalog : Catalog} : MisusedDeclaration settings catalog ↔
    (∃ enum ∈ catalog.enums.values, RefusedSpace settings enum.home.nameSpace) ∨
    (∃ message ∈ catalog.messages.values, RefusedSpace settings message.home.nameSpace) ∨
    ∃ service ∈ catalog.services, MisusedService settings catalog service := by
  constructor
  · intro h
    cases h with
    | enum he h => exact .inl ⟨_, he, h⟩
    | message hm h => exact .inr (.inl ⟨_, hm, h⟩)
    | service hs h => exact .inr (.inr ⟨_, hs, h⟩)
  · rintro (⟨enum, he, h⟩ | ⟨message, hm, h⟩ | ⟨service, hs, h⟩)
    · exact .enum he h
    · exact .message hm h
    · exact .service hs h

private theorem ofCatalog_blames (hplaced : ∀ message ∈ allMessages files, message.Placed)
    (hforward : ∀ message ∈ (Catalog.ofFiles files).messages.values, message.CountsForward) :
    Blames (ofCatalog settings (Catalog.ofFiles files))
      (MisusedDeclaration settings (Catalog.ofFiles files)) := by
  rw [misusedDeclaration_iff, ofCatalog_eq_passes]
  refine Blames.bind_or (Blames.mapM fun enum _ => Naming.check_blames settings enum.home)
    fun _ _ => Blames.bind_or (nameMessages_blames settings files) fun named _ => ?_
  refine Blames.bind_right (build_blames hplaced hforward rfl _ _) fun withObjects hobjects => ?_
  obtain ⟨hsettings, hcatalog⟩ := build_kept hobjects
  refine Blames.bind_right (inputNames_blames _ _) fun names _ => ?_
  refine Blames.bind_right (build_blames hplaced hforward hcatalog _ _) fun withInputs hinputs => ?_
  obtain ⟨hsettings', hcatalog'⟩ := build_kept hinputs
  have hservices := foldlM_planService_blames withInputs (Catalog.ofFiles files).services
  rwa [hsettings', hsettings, hcatalog', hcatalog] at hservices

end Passes

variable {settings : Settings} {index : Options.Index} {described : List Descriptor.File}

/-- The defects of a mapping of well-formed files. -/
theorem ofDescriptors_blames (h : ∀ file ∈ described, Source.WellFormed file) :
    Blames (ofDescriptors settings index described) (Unreadable index described ∨
      ∃ catalog, Catalog.ofDescriptors index described = .ok catalog ∧
        MisusedDeclaration settings catalog) := by
  refine (Catalog.ofDescriptors_blames h).bind fun catalog hcatalog => ?_
  obtain ⟨files, hw, rfl⟩ := Catalog.exists_wrapped hcatalog
  refine ofCatalog_blames hw.placed fun message hm => ?_
  obtain ⟨entry, hentry, rfl⟩ := List.mem_map.mp hm
  exact hw.countsForward h (Catalog.of_mem_entries_messages hentry).1

end ProtoSdl.Mapping

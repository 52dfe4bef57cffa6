import ProtoSdl.Mapping.ServiceTypes
import ProtoSdl.Proofs.Bodies

/-! When the methods of a service can be planned, and what their plans hold. A method that is mapped
needs its request; unless it cannot be called for want of inputs it needs an operation and its
response as well. -/
namespace ProtoSdl.Mapping

open Outcome
open Source (allMessages allServices)

variable {settings : Settings} {files : List Source.File} {service : Source.Service}
  {method : Source.Method}

/-- A value that names an operation, or none, which stands for a query. -/
def KnownOperation (value : Json) : Prop :=
  value.isSet = false ∨
    value = .text "query" ∨ value = .text "mutation" ∨ value = .text "subscription"

/-- Without inputs, a method whose request has fields is left out. -/
def LeftOut (settings : Settings) (files : List Source.File) (method : Source.Method) : Prop :=
  settings.inputMode = .none ∧
    ∃ request ∈ allMessages files, request.fullName = method.input ∧ request.fields ≠ []

structure MethodResolves (settings : Settings) (files : List Source.File)
    (method : Source.Method) : Prop where
  request : KnownMessage files method.input
  operation : ¬ LeftOut settings files method → KnownOperation method.operation
  response : ¬ LeftOut settings files method → KnownMessage files method.output

instance (value : Json) : Decidable (KnownOperation value) :=
  inferInstanceAs (Decidable (_ ∨ _))

instance : Decidable (LeftOut settings files method) :=
  inferInstanceAs (Decidable (_ ∧ ∃ request ∈ allMessages files, _ ∧ _))

instance : Decidable (MethodResolves settings files method) :=
  decidable_of_iff (KnownMessage files method.input ∧
      (¬ LeftOut settings files method → KnownOperation method.operation) ∧
      (¬ LeftOut settings files method → KnownMessage files method.output))
    ⟨fun ⟨hi, ho, hr⟩ => ⟨hi, ho, hr⟩, fun ⟨hi, ho, hr⟩ => ⟨hi, ho, hr⟩⟩

theorem isMapped_iff : method.isMapped = true ↔ method.skip.isSet = false ∧
    method.operation ≠ .text "none" ∧ method.isStreaming = false := by
  unfold Source.Method.isMapped
  split
  · rename_i h
    simp [h]
  · rename_i h
    have hne : method.operation ≠ .text "none" := h
    simp [hne]

/-- A method that becomes a field: neither it nor its service is skipped, it has an operation and
it is no stream. -/
structure Exposed (files : List Source.File) (service : Source.Service)
    (method : Source.Method) : Prop where
  serviceMem : service ∈ allServices files
  methodMem : method ∈ service.methods
  serviceKept : service.skip.isSet = false
  methodKept : method.skip.isSet = false
  operation : method.operation ≠ .text "none"
  single : method.isStreaming = false

theorem exposed_iff (hd : Source.Distinct files) : Exposed files service method ↔
    service ∈ (Catalog.ofFiles files).services ∧ method ∈ service.methods ∧
      method.isMapped = true := by
  rw [Catalog.services_ofFiles hd, List.mem_filter, isMapped_iff]
  constructor
  · rintro ⟨hs, hm, hskip, hkept, hoperation, hsingle⟩
    exact ⟨⟨hs, by simp [hskip]⟩, hm, hkept, hoperation, hsingle⟩
  · rintro ⟨⟨hs, hskip⟩, hm, hkept, hoperation, hsingle⟩
    exact ⟨hs, hm, by simpa using hskip, hkept, hoperation, hsingle⟩

theorem Operation.ofValue_ok {referrer : String} {value : Json} {operation : Operation}
    (h : Operation.ofValue referrer value = .ok operation) : KnownOperation value := by
  unfold Operation.ofValue at h
  split at h
  · split at h
    · exact Or.inr (Or.inl rfl)
    · exact Or.inr (Or.inr (Or.inl rfl))
    · exact Or.inr (Or.inr (Or.inr rfl))
    · simp at h
    · simp at h
    · simp at h
  · rename_i hset
    exact Or.inl (by simpa using hset)

theorem Operation.ofValue_error {referrer : String} {value : Json} {fault : Fault}
    (ht : Options.isText value = true) (h : Operation.ofValue referrer value = .error fault) :
    (∃ error, fault = .mapping error) ∧ ¬ KnownOperation value := by
  unfold Operation.ofValue at h
  split at h
  · rename_i hset
    split at h
    · simp at h
    · simp at h
    · simp at h
    · simp [Options.isText] at ht
    · simp [Options.isText] at ht
    · rename_i hquery hmutation hsubscription _ _
      cases h
      refine ⟨⟨_, rfl⟩, ?_⟩
      rintro (hnone | rfl | rfl | rfl)
      · simp [hset] at hnone
      · exact hquery rfl
      · exact hmutation rfl
      · exact hsubscription rfl
  · simp at h

def callablePlan (catalog : Catalog) (service : Source.Service) (method : Source.Method) :
    Except Fault (Option MethodPlan) := do
  let operation ← Operation.ofValue (service.methodName method) method.operation
  let request ← requestOf catalog service method
  let response ← catalog.message (service.methodName method) method.output
  return some { method, operation, request, response }

theorem ofMethod?_of_inputs {catalog : Catalog} (hm : method.isMapped = true)
    (hmode : settings.inputMode ≠ .none) :
    MethodPlan.ofMethod? settings catalog service method = callablePlan catalog service method := by
  unfold MethodPlan.ofMethod?
  rw [if_pos hm]
  simp only [hmode, if_false]
  rfl

theorem ofMethod?_without_inputs {catalog : Catalog} (hm : method.isMapped = true)
    (hmode : settings.inputMode = .none) :
    MethodPlan.ofMethod? settings catalog service method =
      requestOf catalog service method >>= fun request =>
        if request.fields.isEmpty then callablePlan catalog service method else .ok none := by
  unfold MethodPlan.ofMethod?
  rw [if_pos hm]
  simp only [hmode, if_true]
  congr 1
  funext request
  rw [Source.Message.slots_isEmpty]
  cases request.fields.isEmpty <;> rfl

/-- What becomes of a method: nothing if it is not mapped, nothing either if its request has fields
and there are no inputs, and a plan otherwise. -/
theorem MethodPlan.ofMethod?_cases {catalog : Catalog} {result : Option MethodPlan}
    (h : MethodPlan.ofMethod? settings catalog service method = .ok result) :
    (method.isMapped = false ∧ result = none) ∨
      method.isMapped = true ∧ ∃ request, requestOf catalog service method = .ok request ∧
        ((settings.inputMode = .none ∧ request.fields ≠ [] ∧ result = none) ∨
          (settings.inputMode = .none → request.fields = []) ∧ ∃ operation response,
            Operation.ofValue (service.methodName method) method.operation = .ok operation ∧
            catalog.message (service.methodName method) method.output = .ok response ∧
            result = some { method, operation, request, response }) := by
  cases hm : method.isMapped with
  | false =>
    rw [MethodPlan.ofMethod?, hm] at h
    cases h
    exact .inl ⟨rfl, rfl⟩
  | true =>
    refine .inr ⟨rfl, ?_⟩
    have hplanned : ∀ {found}, callablePlan catalog service method = .ok found →
        ∃ request operation response, requestOf catalog service method = .ok request ∧
          Operation.ofValue (service.methodName method) method.operation = .ok operation ∧
          catalog.message (service.methodName method) method.output = .ok response ∧
          found = some { method, operation, request, response } := by
      intro found hfound
      obtain ⟨operation, hoperation, hfound⟩ := bind_eq_ok.mp hfound
      obtain ⟨request, hrequest, hfound⟩ := bind_eq_ok.mp hfound
      obtain ⟨response, hresponse, hfound⟩ := bind_eq_ok.mp hfound
      cases hfound
      exact ⟨request, operation, response, hrequest, hoperation, hresponse, rfl⟩
    by_cases hmode : settings.inputMode = .none
    · rw [ofMethod?_without_inputs hm hmode] at h
      obtain ⟨request, hrequest, h⟩ := bind_eq_ok.mp h
      refine ⟨request, hrequest, ?_⟩
      by_cases hempty : request.fields = []
      · rw [if_pos (List.isEmpty_iff.mpr hempty)] at h
        obtain ⟨other, operation, response, hother, hoperation, hresponse, rfl⟩ := hplanned h
        cases hrequest.symm.trans hother
        exact .inr ⟨fun _ => hempty, operation, response, hoperation, hresponse, rfl⟩
      · rw [if_neg (mt List.isEmpty_iff.mp hempty)] at h
        cases h
        exact .inl ⟨hmode, hempty, rfl⟩
    · rw [ofMethod?_of_inputs hm hmode] at h
      obtain ⟨request, operation, response, hrequest, hoperation, hresponse, rfl⟩ := hplanned h
      exact ⟨request, hrequest, .inr ⟨fun hnone => absurd hnone hmode, operation, response,
        hoperation, hresponse, rfl⟩⟩

structure MethodPlan.Sound (files : List Source.File) (source : Source.Method)
    (plan : MethodPlan) : Prop where
  method : plan.method = source
  mapped : source.isMapped = true
  request : plan.request ∈ allMessages files ∧ plan.request.fullName = source.input
  response : plan.response ∈ allMessages files ∧ plan.response.fullName = source.output

private theorem callablePlan_error (ht : Options.isText method.operation = true) {fault : Fault}
    (h : callablePlan (Catalog.ofFiles files) service method = .error fault) :
    (∃ error, fault = .mapping error) ∧ ¬ (KnownMessage files method.input ∧
      KnownOperation method.operation ∧ KnownMessage files method.output) := by
  rcases bind_eq_error.mp h with h | ⟨operation, -, h⟩
  · obtain ⟨hfault, hunknown⟩ := Operation.ofValue_error ht h
    exact ⟨hfault, fun hall => hunknown hall.2.1⟩
  · rcases bind_eq_error.mp h with h | ⟨request, -, h⟩
    · obtain ⟨hfault, hunknown⟩ := not_known_of_message_error h
      exact ⟨hfault, fun hall => hunknown hall.1⟩
    · rcases bind_eq_error.mp h with h | ⟨response, -, h⟩
      · obtain ⟨hfault, hunknown⟩ := not_known_of_message_error h
        exact ⟨hfault, fun hall => hunknown hall.2.2⟩
      · cases h

theorem MethodPlan.ofMethod?_ok (hd : Source.Distinct files) {result : Option MethodPlan}
    (h : MethodPlan.ofMethod? settings (Catalog.ofFiles files) service method = .ok result) :
    (∀ plan, result = some plan → plan.Sound files method ∧
      (settings.inputMode = .none → plan.request.fields = [])) ∧
      (method.isMapped = true → MethodResolves settings files method) := by
  obtain ⟨hm, rfl⟩ | ⟨hm, request, hrequest, hplan⟩ := ofMethod?_cases h
  · exact ⟨by simp, by simp [hm]⟩
  · have hin := (Catalog.message_eq_ok hd).mp hrequest
    obtain ⟨hmode, hfields, rfl⟩ | ⟨hcallable, operation, response, hoperation, hresponse, rfl⟩ :=
      hplan
    · have hleft : LeftOut settings files method := ⟨hmode, request, hin.1, hin.2, hfields⟩
      exact ⟨by simp, fun _ => ⟨⟨request, hin⟩, fun hnot => absurd hleft hnot,
        fun hnot => absurd hleft hnot⟩⟩
    · have hout := (Catalog.message_eq_ok hd).mp hresponse
      refine ⟨?_, fun _ => ⟨⟨request, hin⟩, fun _ => Operation.ofValue_ok hoperation,
        fun _ => ⟨response, hout⟩⟩⟩
      rintro plan ⟨⟩
      exact ⟨⟨rfl, hm, hin, hout⟩, hcallable⟩

theorem MethodPlan.ofMethod?_error (hd : Source.Distinct files)
    (ht : Options.isText method.operation = true) {fault : Fault}
    (h : MethodPlan.ofMethod? settings (Catalog.ofFiles files) service method = .error fault) :
    (∃ error, fault = .mapping error) ∧ method.isMapped = true ∧
      ¬ MethodResolves settings files method := by
  by_cases hm : method.isMapped = true
  · by_cases hmode : settings.inputMode = .none
    · rw [ofMethod?_without_inputs hm hmode] at h
      rcases bind_eq_error.mp h with h | ⟨request, hrequest, h⟩
      · obtain ⟨hfault, hunknown⟩ := not_known_of_message_error h
        exact ⟨hfault, hm, fun hres => hunknown hres.request⟩
      · by_cases hempty : request.fields.isEmpty = true
        · rw [if_pos hempty] at h
          obtain ⟨hfault, hunknown⟩ := callablePlan_error ht h
          refine ⟨hfault, hm, fun hres => hunknown ?_⟩
          have hin := (Catalog.message_eq_ok hd).mp hrequest
          have hcall : ¬ LeftOut settings files method := by
            rintro ⟨-, other, ho, hname, hfields⟩
            obtain rfl : other = request := hd.message_unique ho hin.1 (hname.trans hin.2.symm)
            exact hfields (List.isEmpty_iff.mp hempty)
          exact ⟨hres.request, hres.operation hcall, hres.response hcall⟩
        · rw [if_neg hempty] at h
          cases h
    · rw [ofMethod?_of_inputs hm hmode] at h
      obtain ⟨hfault, hunknown⟩ := callablePlan_error ht h
      have hcall : ¬ LeftOut settings files method := fun hleft => hmode hleft.1
      exact ⟨hfault, hm, fun hres =>
        hunknown ⟨hres.request, hres.operation hcall, hres.response hcall⟩⟩
  · unfold MethodPlan.ofMethod? at h
    rw [if_neg hm] at h
    cases h

theorem Naming.check_of_isText {home : Source.Home} (h : Options.isText home.nameSpace = true) :
    Naming.check settings home = .ok () := by
  cases hspace : home.nameSpace with
  | text space => simp [Naming.check, hspace]
  | _ => simp [hspace, Options.isText] at h

structure ServicePlan.Sound (settings : Settings) (files : List Source.File)
    (source : Source.Service) (plan : ServicePlan) : Prop where
  service : plan.service = source
  methods : ∀ planned ∈ plan.methods, ∃ method ∈ source.methods, planned.Sound files method
  callable : ∀ planned ∈ plan.methods, settings.inputMode = .none → planned.request.fields = []

theorem ServicePlan.ofService_eq_ok {catalog : Catalog} {plan : ServicePlan}
    (h : ServicePlan.ofService settings catalog service = .ok plan) : ∃ results,
      service.methods.mapM (MethodPlan.ofMethod? settings catalog service) = .ok results ∧
      plan = { service, methods := results.filterMap id } := by
  obtain ⟨results, hresults, h⟩ := bind_eq_ok.mp h
  refine ⟨results, hresults, ?_⟩
  simp only at h
  split at h
  · obtain ⟨_, -, h⟩ := bind_eq_ok.mp h
    cases h
    rfl
  · cases h
    rfl

theorem ServicePlan.ofService_service {catalog : Catalog} {plan : ServicePlan}
    (h : ServicePlan.ofService settings catalog service = .ok plan) : plan.service = service := by
  obtain ⟨results, -, rfl⟩ := ofService_eq_ok h
  rfl

theorem ServicePlan.ofService_ok (hd : Source.Distinct files) {plan : ServicePlan}
    (h : ServicePlan.ofService settings (Catalog.ofFiles files) service = .ok plan) :
    plan.Sound settings files service ∧
      ∀ method ∈ service.methods, method.isMapped = true →
        MethodResolves settings files method := by
  obtain ⟨results, hresults, rfl⟩ := ofService_eq_ok h
  have hplanned : ∀ planned ∈ results.filterMap id, ∃ method ∈ service.methods,
      planned.Sound files method ∧ (settings.inputMode = .none → planned.request.fields = []) := by
    intro planned hp
    obtain ⟨result, hr, rfl⟩ := List.mem_filterMap.mp hp
    obtain ⟨method, hm, hof⟩ := exists_of_mem_results hresults hr
    exact ⟨method, hm, (MethodPlan.ofMethod?_ok hd hof).1 planned rfl⟩
  refine ⟨⟨rfl, fun planned hp => ?_, fun planned hp => ?_⟩, fun method hm => ?_⟩
  · obtain ⟨method, hm, hsound, -⟩ := hplanned planned hp
    exact ⟨method, hm, hsound⟩
  · obtain ⟨_, -, -, hcallable⟩ := hplanned planned hp
    exact hcallable
  · obtain ⟨result, -, hof⟩ := exists_of_mem_mapM hresults hm
    exact (MethodPlan.ofMethod?_ok hd hof).2

theorem ServicePlan.ofService_error (hd : Source.Distinct files) {fault : Fault}
    (hspace : Options.isText service.home.nameSpace = true)
    (ht : ∀ method ∈ service.methods, Options.isText method.operation = true)
    (h : ServicePlan.ofService settings (Catalog.ofFiles files) service = .error fault) :
    (∃ error, fault = .mapping error) ∧ ∃ method ∈ service.methods, method.isMapped = true ∧
      ¬ MethodResolves settings files method := by
  rcases bind_eq_error.mp h with h | ⟨results, -, h⟩
  · obtain ⟨method, hm, h⟩ := fault_of_mapM h
    obtain ⟨hfault, hmapped, hres⟩ := MethodPlan.ofMethod?_error hd (ht method hm) h
    exact ⟨hfault, method, hm, hmapped, hres⟩
  · simp only [Naming.check_of_isText hspace] at h
    split at h <;> cases h

end ProtoSdl.Mapping

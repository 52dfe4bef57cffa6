import ProtoSdl.Proofs.MappingPasses

/-! Files can be mapped exactly if all that the schema needs is there. Each pass fails on a name
that nothing answers to, and the fault says so; the walk over the objects visits all messages, so
that no such name is passed over. Cycles of messages are no reason to fail. -/
namespace ProtoSdl.Mapping

open Outcome
open Source (allMessages allServices)

variable {settings : Settings} {files : List Source.File}

/-- A name, a kind or an operation that keeps files from being mapped. -/
inductive Unresolvable (settings : Settings) (files : List Source.File) : Prop
  | message {message : Source.Message} {field : Source.Field} (hm : message ∈ allMessages files)
      (hf : field ∈ message.fields) (hk : field.kind = .message)
      (h : ¬ KnownMessage files field.typeName)
  | enum {message : Source.Message} {field : Source.Field} (hm : message ∈ allMessages files)
      (hf : field ∈ message.fields) (hk : field.kind = .enum)
      (h : ¬ KnownEnum files field.typeName)
  | group {message : Source.Message} {field : Source.Field} (hm : message ∈ allMessages files)
      (hf : field ∈ message.fields) (hk : field.kind = .group)
  | key {message : Source.Message} {field : Source.Field} {key : Options.ForeignKey}
      (hm : message ∈ allMessages files) (hf : field ∈ message.fields)
      (hplain : field.membership = none) (hkey : field.foreignKey = some key)
      (h : ¬ KnownMessage files key.target)
  | request {service : Source.Service} {method : Source.Method}
      (he : Exposed files service method) (h : ¬ KnownMessage files method.input)
  | operation {service : Source.Service} {method : Source.Method}
      (he : Exposed files service method) (hcall : ¬ LeftOut settings files method)
      (h : ¬ KnownOperation method.operation)
  | response {service : Source.Service} {method : Source.Method}
      (he : Exposed files service method) (hcall : ¬ LeftOut settings files method)
      (h : ¬ KnownMessage files method.output)

theorem unresolvable_iff (hd : Source.Distinct files) : Unresolvable settings files ↔
    (∃ message ∈ allMessages files, ∃ field ∈ message.fields,
      ¬ (Resolves files field ∧ KeyResolves files field)) ∨
    ∃ service ∈ (Catalog.ofFiles files).services, ∃ method ∈ service.methods,
      method.isMapped = true ∧ ¬ MethodResolves settings files method := by
  constructor
  · intro h
    cases h with
    | message hm hf hk h => exact .inl ⟨_, hm, _, hf, fun hall => h (hall.1.message hk)⟩
    | enum hm hf hk h => exact .inl ⟨_, hm, _, hf, fun hall => h (hall.1.enum hk)⟩
    | group hm hf hk => exact .inl ⟨_, hm, _, hf, fun hall => hall.1.group hk⟩
    | key hm hf hplain hkey h => exact .inl ⟨_, hm, _, hf, fun hall => h (hall.2 hplain _ hkey)⟩
    | request he h =>
      obtain ⟨hs, hm, hmapped⟩ := (exposed_iff hd).mp he
      exact .inr ⟨_, hs, _, hm, hmapped, fun hall => h hall.request⟩
    | operation he hcall h =>
      obtain ⟨hs, hm, hmapped⟩ := (exposed_iff hd).mp he
      exact .inr ⟨_, hs, _, hm, hmapped, fun hall => h (hall.operation hcall)⟩
    | response he hcall h =>
      obtain ⟨hs, hm, hmapped⟩ := (exposed_iff hd).mp he
      exact .inr ⟨_, hs, _, hm, hmapped, fun hall => h (hall.response hcall)⟩
  · rintro (⟨message, hm, field, hf, h⟩ | ⟨service, hs, method, hm, hmapped, h⟩) <;>
      by_contra hnone
    · refine h ⟨⟨fun hk => ?_, fun hk => ?_, fun hk => hnone (.group hm hf hk)⟩, ?_⟩
      · exact by_contra fun hunknown => hnone (.message hm hf hk hunknown)
      · exact by_contra fun hunknown => hnone (.enum hm hf hk hunknown)
      · exact fun hplain key hkey =>
          by_contra fun hunknown => hnone (.key hm hf hplain hkey hunknown)
    · have he := (exposed_iff hd).mpr ⟨hs, hm, hmapped⟩
      refine h ⟨?_, fun hcall => ?_, fun hcall => ?_⟩
      · exact by_contra fun hunknown => hnone (.request he hunknown)
      · exact by_contra fun hunknown => hnone (.operation he hcall hunknown)
      · exact by_contra fun hunknown => hnone (.response he hcall hunknown)

/-- A fault that is explained, and that the files give reason to. -/
def Explained (settings : Settings) (files : List Source.File) (fault : Fault) : Prop :=
  (∃ error, fault = .mapping error) ∧ Unresolvable settings files

section Faults

variable {fault : Fault}

private theorem fault_of_fieldReferences {message : Source.Message}
    (h : .error fault ∈ fieldReferences (Catalog.ofFiles files) message) :
    (∃ error, fault = .mapping error) ∧ Unresolved files message := by
  obtain ⟨field, hf, h⟩ := List.mem_map.mp h
  obtain ⟨hf, hk⟩ := List.mem_filter.mp hf
  obtain ⟨hfault, hunknown⟩ := not_known_of_message_error (map_eq_error.mp h)
  exact ⟨hfault, field, hf, fun hall => hunknown (hall.1.message (by simpa using hk))⟩

private theorem fault_of_keyReferences {message : Source.Message}
    (h : .error fault ∈ keyReferences (Catalog.ofFiles files) message) :
    (∃ error, fault = .mapping error) ∧ Unresolved files message := by
  obtain ⟨slot, hslot, h⟩ := List.mem_filterMap.mp h
  cases slot with
  | oneof place comments => simp at h
  | field field =>
    obtain ⟨hf, hplain⟩ := Source.Message.field_mem_slots.mp hslot
    obtain ⟨key, hkey, h⟩ := Option.map_eq_some_iff.mp h
    obtain ⟨hfault, hunknown⟩ := not_known_of_message_error (map_eq_error.mp h)
    exact ⟨hfault, field, hf, fun hall => hunknown (hall.2 hplain key hkey)⟩

theorem fault_of_enumReferences {message : Source.Message}
    (h : .error fault ∈ enumReferences (Catalog.ofFiles files) message) :
    (∃ error, fault = .mapping error) ∧ Unresolved files message := by
  obtain ⟨field, hf, h⟩ := List.mem_map.mp h
  obtain ⟨hf, hk⟩ := List.mem_filter.mp hf
  obtain ⟨hfault, hunknown⟩ := not_known_of_enum_error (map_eq_error.mp h)
  exact ⟨hfault, field, hf, fun hall => hunknown (hall.1.enum (by simpa using hk))⟩

theorem fault_of_references {mode : Mode} {message : Source.Message}
    (h : .error fault ∈ references (Catalog.ofFiles files) mode message) :
    (∃ error, fault = .mapping error) ∧ Unresolved files message := by
  cases mode with
  | object =>
    rcases List.mem_append.mp h with h | h
    · exact fault_of_fieldReferences h
    · exact fault_of_keyReferences h
  | input => exact fault_of_fieldReferences h

private theorem exists_of_mem_following {name : String}
    {next : Source.Message → List (Walk.Step Fault)} {step : Walk.Step Fault}
    (h : step ∈ following (Catalog.ofFiles files) next name) :
    ∃ message ∈ (Catalog.ofFiles files).messages.values, step ∈ next message := by
  unfold following at h
  split at h
  · rename_i message hmessage
    exact ⟨message, Table.mem_values_of_get? hmessage, h⟩
  · simp at h

/-- A walk fails on a visit or on a reference. -/
theorem fault_of_walk {α : Type} {visit : String → Except Fault α}
    {next : Source.Message → List (Walk.Step Fault)} {marks : List String} {before : Table α}
    {names : List String} (h : Walk.run (Catalog.ofFiles files).messages.keys visit
      (following (Catalog.ofFiles files) next) marks before (visits names) = .error fault) :
    ∃ message ∈ (Catalog.ofFiles files).messages.values,
      visit message.fullName = .error fault ∧
        (Catalog.ofFiles files).messages.get? message.fullName = some message ∨
      .error fault ∈ next message := by
  rcases Walk.fault_of_run h with h | ⟨name, hname, h | h⟩
  · simp [visits] at h
  · obtain ⟨message, hm⟩ := Table.mem_keys_iff.mp hname
    obtain ⟨-, rfl⟩ := Catalog.of_get?_messages hm
    exact ⟨message, Table.mem_values_of_get? hm, .inl ⟨h, hm⟩⟩
  · obtain ⟨message, hm, h⟩ := exists_of_mem_following h
    exact ⟨message, hm, .inr h⟩

/-- Bodies can be built unless a message holds an unresolved field. -/
theorem fault_of_build (hplaced : ∀ message ∈ allMessages files, message.Placed)
    (hforward : ∀ message ∈ (Catalog.ofFiles files).messages.values, message.CountsForward)
    {mapping : Mapping} (hc : mapping.catalog = Catalog.ofFiles files) {mode : Mode}
    {names : List String} (h : mapping.build mode names = .error fault) :
    (∃ error, fault = .mapping error) ∧
      ∃ message ∈ (Catalog.ofFiles files).messages.values, Unresolved files message := by
  have hrun := build_error h
  rw [hc] at hrun
  obtain ⟨message, hm, ⟨hvisit, hget⟩ | hnext⟩ := fault_of_walk hrun
  · rw [bodyOf, Catalog.message, hget] at hvisit
    have hplace := hplaced message (Catalog.of_get?_messages hget).1
    obtain ⟨hfault, hbad⟩ := Body.ofMessage_error hplace (hforward message hm) hvisit
    exact ⟨hfault, message, hm, hbad⟩
  · obtain ⟨hfault, hbad⟩ := fault_of_references hnext
    exact ⟨hfault, message, hm, hbad⟩

theorem explained_of_unresolved (hd : Source.Distinct files) {message : Source.Message}
    (hm : message ∈ (Catalog.ofFiles files).messages.values)
    (h : (∃ error, fault = .mapping error) ∧ Unresolved files message) :
    Explained settings files fault := by
  rw [Catalog.messages_values hd] at hm
  exact ⟨h.1, (unresolvable_iff hd).mpr (.inl ⟨message, hm, h.2⟩)⟩

private theorem explained_of_nameMessages (hd : Source.Distinct files)
    (hspace : ∀ message ∈ allMessages files, Options.isText message.home.nameSpace = true)
    (h : nameMessages settings (Catalog.ofFiles files) = .error fault) :
    Explained settings files fault := by
  obtain ⟨message, hm, ⟨hvisit, hget⟩ | hnext⟩ := fault_of_walk (nameMessages_error h)
  · have hin := (Catalog.of_get?_messages hget).1
    simp only [homeOf, Catalog.message, hget] at hvisit
    rcases bind_eq_error.mp hvisit with ho | ⟨found, hfound, ho⟩
    · cases ho
    · cases hfound
      rcases bind_eq_error.mp ho with ho | ⟨_, -, ho⟩
      · rw [Naming.check_of_isText (hspace message hin)] at ho
        cases ho
      · cases ho
  · refine explained_of_unresolved hd hm ?_
    rcases List.mem_append.mp hnext with hnext | hnext
    · exact fault_of_references hnext
    · exact fault_of_enumReferences hnext

private theorem explained_of_build (hd : Source.Distinct files)
    (hplaced : ∀ message ∈ allMessages files, message.Placed)
    (hforward : ∀ message ∈ allMessages files, message.CountsForward)
    {mapping : Mapping} (hc : mapping.catalog = Catalog.ofFiles files) {mode : Mode}
    {names : List String} (h : mapping.build mode names = .error fault) :
    Explained settings files fault := by
  rw [← Catalog.messages_values hd] at hforward
  obtain ⟨hfault, message, hm, hbad⟩ := fault_of_build hplaced hforward hc h
  exact explained_of_unresolved hd hm ⟨hfault, hbad⟩

private theorem explained_of_requests (hd : Source.Distinct files)
    (h : requests (Catalog.ofFiles files) = .error fault) : Explained settings files fault := by
  rcases bind_eq_error.mp h with h | ⟨_, -, h⟩
  · obtain ⟨service, hs, h⟩ := fault_of_mapM h
    obtain ⟨method, hm, h⟩ := fault_of_mapM h
    obtain ⟨hm, hmapped⟩ := List.mem_filter.mp hm
    obtain ⟨hfault, hunknown⟩ := not_known_of_message_error h
    exact ⟨hfault, .request ((exposed_iff hd).mpr ⟨hs, hm, hmapped⟩) hunknown⟩
  · cases h

private theorem explained_of_services (hd : Source.Distinct files)
    (hspace : ∀ service ∈ allServices files, Options.isText service.home.nameSpace = true)
    (hoperation : ∀ service ∈ allServices files, ∀ method ∈ service.methods,
      Options.isText method.operation = true)
    {mapping : Mapping} (hs : mapping.settings = settings)
    (hc : mapping.catalog = Catalog.ofFiles files)
    (h : (Catalog.ofFiles files).services.foldlM planService mapping = .error fault) :
    Explained settings files fault := by
  obtain ⟨service, hservice, h⟩ := foldlM_planService_error h
  rw [hc, hs] at h
  have hin : service ∈ allServices files := by
    rw [Catalog.services_ofFiles hd] at hservice
    exact List.mem_of_mem_filter hservice
  obtain ⟨hfault, method, hm, hmapped, hbad⟩ :=
    ServicePlan.ofService_error hd (hspace service hin) (hoperation service hin) h
  exact ⟨hfault,
    (unresolvable_iff hd).mpr (.inr ⟨service, hservice, method, hm, hmapped, hbad⟩)⟩

end Faults

/-- A mapping that fails fails with an explained fault. -/
theorem explained_of_error {index : Options.Index} {described : List Descriptor.File}
    (hw : Source.Wrapped index described files) (hd : Source.Distinct files)
    (hforward : ∀ message ∈ allMessages files, message.CountsForward) (ht : index.WellTyped)
    {fault : Fault} (h : ofDescriptors settings index described = .error fault) :
    Explained settings files fault := by
  have hspace : ∀ message ∈ allMessages files, Options.isText message.home.nameSpace = true :=
    fun message hm => by rw [hw.message_nameSpace hm]; exact ht.nameSpace _
  rw [ofDescriptors_eq hw, ofCatalog_eq_passes] at h
  -- the passes one after the other, each up to the fault it may stop at
  rcases bind_eq_error.mp h with h | ⟨_, -, h⟩
  · obtain ⟨enum, he, h⟩ := fault_of_mapM h
    rw [Catalog.enums_values hd] at he
    rw [Naming.check_of_isText (by rw [(hw.enum_spec he).1]; exact ht.nameSpace _)] at h
    cases h
  rcases bind_eq_error.mp h with h | ⟨named, -, h⟩
  · exact explained_of_nameMessages hd hspace h
  rcases bind_eq_error.mp h with h | ⟨withObjects, hbuild, h⟩
  · exact explained_of_build hd hw.placed hforward rfl h
  obtain ⟨hsettings, hcatalog⟩ : withObjects.settings = settings ∧
      withObjects.catalog = Catalog.ofFiles files := build_kept hbuild
  rcases bind_eq_error.mp h with h | ⟨names, -, h⟩
  · unfold inputNames at h
    split at h
    · cases h
    · cases h
    · rcases bind_eq_error.mp h with h | ⟨_, -, h⟩
      · exact explained_of_requests hd (hcatalog ▸ h)
      · cases h
  rcases bind_eq_error.mp h with h | ⟨withInputs, hbuild', h⟩
  · exact explained_of_build hd hw.placed hforward hcatalog h
  obtain ⟨hsettings', hcatalog'⟩ := build_kept hbuild'
  refine explained_of_services hd (fun service hs => ?_) (fun service hs method hm => ?_)
    (hsettings'.trans hsettings) (hcatalog'.trans hcatalog) h
  · rw [(hw.service_spec hs).1]
    exact ht.nameSpace _
  · rw [(hw.service_spec hs).2 method hm]
    exact ht.operation _

/-- Nothing keeps files from being mapped that were. -/
theorem Built.not_unresolvable (hd : Source.Distinct files)
    (hplaced : ∀ message ∈ allMessages files, message.Placed) {mapping : Mapping}
    (h : Built settings (Catalog.ofFiles files) mapping) : ¬ Unresolvable settings files := by
  rw [unresolvable_iff hd]
  rintro (⟨message, hm, field, hf, hbad⟩ | ⟨service, hs, method, hm, hmapped, hbad⟩)
  · obtain ⟨body, -, hof⟩ := h.exists_object hd hm
    exact hbad ((Body.ofMessage_ok (hplaced message hm) hof).2 field hf)
  · obtain ⟨plans, hplans, -⟩ := h.services
    obtain ⟨plan, -, hof⟩ := exists_of_mem_mapM hplans hs
    exact hbad ((ServicePlan.ofService_ok hd hof).2 method hm hmapped)

/-- What is resolvable is mapped. -/
theorem exists_mapping {index : Options.Index} {described : List Descriptor.File}
    (hw : Source.Wrapped index described files) (hd : Source.Distinct files)
    (hforward : ∀ message ∈ allMessages files, message.CountsForward) (ht : index.WellTyped)
    (h : ¬ Unresolvable settings files) :
    ∃ mapping, ofDescriptors settings index described = .ok mapping := by
  cases hm : ofDescriptors settings index described with
  | ok mapping => exact ⟨mapping, rfl⟩
  | error fault => exact absurd (explained_of_error hw hd hforward ht hm).2 h

/-- Files that were read can be mapped exactly if nothing in them is unresolvable, and a mapping
that fails names what is. -/
theorem ofDescriptors_fails_iff_unresolvable (settings : Settings) (index : Options.Index)
    (described : List Descriptor.File) (files : List Source.File)
    (hw : Source.Wrapped index described files) (hd : Source.Distinct files)
    (hforward : ∀ message ∈ allMessages files, message.CountsForward) (ht : index.WellTyped) :
    ((∃ fault, ofDescriptors settings index described = .error fault) ↔
      Unresolvable settings files) ∧
    ∀ fault, ofDescriptors settings index described = .error fault →
      ∃ error, fault = .mapping error := by
  refine ⟨⟨fun ⟨fault, h⟩ => (explained_of_error hw hd hforward ht h).2, fun hbad => ?_⟩,
    fun fault h => (explained_of_error hw hd hforward ht h).1⟩
  cases h : ofDescriptors settings index described with
  | error fault => exact ⟨fault, rfl⟩
  | ok mapping =>
    exact absurd hbad ((ofDescriptors_built hw h).not_unresolvable hd hw.placed)

theorem shop_resolvable : ¬ Unresolvable Source.shopSettings Source.shopSources := by
  rw [unresolvable_iff Source.shop_distinct]
  decide

/-- The shop can be mapped, for all its cycle. -/
theorem shop_does_not_fail : Source.Wrapped Source.shopIndex Source.shop Source.shopSources ∧
    Source.Distinct Source.shopSources ∧
    (∀ message ∈ allMessages Source.shopSources, message.CountsForward) ∧
    Source.shopIndex.WellTyped ∧
    ¬ ∃ fault, ofDescriptors Source.shopSettings Source.shopIndex Source.shop = .error fault :=
  ⟨Source.shop_wrapped, Source.shop_distinct, Source.shop_countsForward,
    Source.shopIndex_wellTyped, fun h => shop_resolvable
      ((ofDescriptors_fails_iff_unresolvable _ _ _ _ Source.shop_wrapped Source.shop_distinct
        Source.shop_countsForward Source.shopIndex_wellTyped).1.mp h)⟩

end ProtoSdl.Mapping

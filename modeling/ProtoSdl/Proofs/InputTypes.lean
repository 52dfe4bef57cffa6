import ProtoSdl.Proofs.Resolution

/-! Which messages have inputs. The messages below the requests are found by a search in the graph,
the inputs are built by a walk along the references from there; both come to the messages that the
requests depend on. -/
namespace ProtoSdl.Mapping

open Outcome Relation Dependency
open Source (allMessages allServices)

variable {settings : Settings} {files : List Source.File} {mapping : Mapping}

def inputOf? (mapping : Mapping) (name : String) : Option Schema.Composite :=
  (mapping.inputs.get? name).map (·.input mapping.naming)

def oneofInputOf? (mapping : Mapping) (name : String) (oneof : Source.Oneof) :
    Option Schema.Composite :=
  (mapping.inputs.get? name).bind fun body =>
    (body.choices.find? (·.oneof = oneof)).map (body.choiceInput mapping.naming)

/-- The message is the request of a method that becomes a field with an argument. -/
def IsRequest (files : List Source.File) (message : Source.Message) : Prop :=
  message ∈ allMessages files ∧ message.fields ≠ [] ∧
    ∃ service method, Exposed files service method ∧ method.input = message.fullName

theorem inputOf?_isSome {name : String} :
    (mapping.inputOf? name).isSome = true ↔ name ∈ mapping.inputs.keys := by
  rw [inputOf?, Option.isSome_map, Option.isSome_iff_exists, Table.mem_keys_iff]

private theorem mem_requests (hd : Source.Distinct files) {found : List Source.Message}
    (h : requests (Catalog.ofFiles files) = .ok found) {message : Source.Message} :
    message ∈ found ↔ IsRequest files message := by
  rw [mem_requests_iff h]
  constructor
  · rintro ⟨hfields, service, hs, method, hmethod, hmapped, hrequest⟩
    have hfound := (Catalog.message_eq_ok hd).mp hrequest
    exact ⟨hfound.1, hfields, service, method,
      (exposed_iff hd).mpr ⟨hs, hmethod, hmapped⟩, hfound.2.symm⟩
  · rintro ⟨hm, hfields, service, method, he, hinput⟩
    obtain ⟨hs, hmethod, hmapped⟩ := (exposed_iff hd).mp he
    exact ⟨hfields, service, hs, method, hmethod, hmapped,
      (Catalog.message_eq_ok hd).mpr ⟨hm, hinput.symm⟩⟩

theorem mem_messageNames_of_depends {messages : List Source.Message}
    (hclosed : ∀ a b, Refers messages a b → b ∈ messageNames messages) {a b : String}
    (ha : a ∈ messageNames messages) (h : Depends messages a b) : b ∈ messageNames messages := by
  rcases ReflTransGen.cases_tail h with rfl | ⟨last, -, hlast⟩
  · exact ha
  · exact hclosed last b hlast

/-- The search in a graph that lacks no message finds what the roots depend on. -/
theorem mem_orderBelow {messages : List Source.Message} (hn : (messageNames messages).Nodup)
    (hclosed : ∀ a b, Refers messages a b → b ∈ messageNames messages) {roots : List String}
    (hroots : ∀ root ∈ roots, root ∈ messageNames messages) {name : String} :
    name ∈ (Graph.ofMessages messages).orderBelow roots ↔
      ∃ root ∈ roots, Depends messages root name := by
  have hwithin : RefersWithin messages = Refers messages := by
    funext a b
    rw [RefersWithin, eq_iff_iff, and_iff_left_iff_imp]
    exact hclosed a b
  rw [mem_orderBelow_iff hn, LiesBelow, hwithin]
  constructor
  · rintro ⟨-, root, hr, -, path⟩
    exact ⟨root, hr, path⟩
  · rintro ⟨root, hr, path⟩
    have hroot := hroots root hr
    exact ⟨mem_messageNames_of_depends hclosed hroot path, root, hr,
      mem_numbering.mpr (Or.inl hroot), path⟩

namespace Built

/-- The walk from known names on builds the inputs of all that they depend on. -/
theorem mem_inputs_keys (hd : Source.Distinct files)
    (hp : ∀ message ∈ allMessages files, message.Placed)
    (h : Built settings (Catalog.ofFiles files) mapping) {names : List String}
    (hnames : ∀ name ∈ names, KnownMessage files name)
    (hb : BodiesFrom settings (Catalog.ofFiles files) .input names mapping.inputs) {name : String} :
    name ∈ mapping.inputs.keys ↔ ∃ start ∈ names, Depends (allMessages files) start name := by
  have hstep : (fun a b => .ok (some b) ∈ following (Catalog.ofFiles files)
      (references (Catalog.ofFiles files) .input) a) = Refers (allMessages files) := by
    funext a b
    rw [mem_following_input hd, eq_iff_iff, and_iff_left_iff_imp]
    exact h.known_of_refers hd hp
  rw [hb.mem_keys_iff
    (fun a b hab => Catalog.mem_keys_messages.mpr ((mem_following_input hd).mp hab).2)
    (fun start hs => Catalog.mem_keys_messages.mpr (hnames start (mem_visits.mp hs))), hstep]
  simp only [mem_visits]
  rfl

theorem inputs_of_none (hd : Source.Distinct files)
    (hp : ∀ message ∈ allMessages files, message.Placed)
    (h : Built settings (Catalog.ofFiles files) mapping) (hmode : settings.inputMode = .none)
    (name : String) : mapping.inputOf? name = none := by
  obtain ⟨names, hnames, hb⟩ := h.inputs
  rw [inputNames, h.settings_eq, hmode] at hnames
  cases hnames
  rw [← Option.not_isSome_iff_eq_none, inputOf?_isSome, h.mem_inputs_keys hd hp (by simp) hb]
  simp

theorem inputs_of_all (h : Built settings (Catalog.ofFiles files) mapping)
    (hmode : settings.inputMode = .all) {message : Source.Message}
    (hm : message ∈ allMessages files) : (mapping.inputOf? message.fullName).isSome = true := by
  rw [inputOf?_isSome]
  exact h.mem_inputs_of_all (h.settings_eq ▸ hmode) ⟨message, hm, rfl⟩

theorem inputs_of_service (hd : Source.Distinct files)
    (hp : ∀ message ∈ allMessages files, message.Placed)
    (h : Built settings (Catalog.ofFiles files) mapping) (hmode : settings.inputMode = .service)
    {name : String} : (mapping.inputOf? name).isSome = true ↔ ∃ request,
      IsRequest files request ∧ Depends (allMessages files) request.fullName name := by
  obtain ⟨names, hnames, hb⟩ := h.inputs
  rw [inputNames, h.settings_eq, hmode, h.catalog_eq] at hnames
  obtain ⟨found, hfound, hnames⟩ := bind_eq_ok.mp hnames
  cases hnames
  rw [Catalog.messages_values hd] at hb
  have hclosed : ∀ a b, Refers (allMessages files) a b → b ∈ messageNames (allMessages files) :=
    fun a b hab => List.mem_map.mpr (h.known_of_refers hd hp hab)
  have hbelow : ∀ other, other ∈ (Graph.ofMessages (allMessages files)).orderBelow
      (found.map (·.fullName)) ↔ ∃ request, IsRequest files request ∧
        Depends (allMessages files) request.fullName other := by
    intro other
    rw [mem_orderBelow hd.messageNames hclosed (fun root hroot => ?_)]
    · simp only [List.mem_map, exists_exists_and_eq_and, mem_requests hd hfound]
    · obtain ⟨request, hr, rfl⟩ := List.mem_map.mp hroot
      exact List.mem_map_of_mem ((mem_requests hd hfound).mp hr).1
  rw [inputOf?_isSome, h.mem_inputs_keys hd hp ?_ hb]
  · -- the walk starts at all that the requests depend on, so it finds nothing else
    constructor
    · rintro ⟨start, hs, path⟩
      obtain ⟨request, hr, before⟩ := (hbelow start).mp hs
      exact ⟨request, hr, before.trans path⟩
    · rintro ⟨request, hr, path⟩
      exact ⟨name, (hbelow name).mpr ⟨request, hr, path⟩, .refl⟩
  · intro start hs
    obtain ⟨request, hr, path⟩ := (hbelow start).mp hs
    exact List.mem_map.mp
      (mem_messageNames_of_depends hclosed (List.mem_map_of_mem hr.1) path)

private theorem oneofInputOf?_isSome (hd : Source.Distinct files)
    (hp : ∀ message ∈ allMessages files, message.Placed)
    (h : Built settings (Catalog.ofFiles files) mapping) {message : Source.Message}
    (hm : message ∈ allMessages files) {oneof : Source.Oneof} (ho : oneof ∈ message.choices) :
    (mapping.oneofInputOf? message.fullName oneof).isSome =
      (mapping.inputOf? message.fullName).isSome := by
  obtain ⟨names, -, hb⟩ := h.inputs
  rw [oneofInputOf?, inputOf?]
  cases hbody : mapping.inputs.get? message.fullName with
  | none => rfl
  | some body =>
    obtain ⟨other, hother, hname, hof⟩ := hb.body_of_get? hbody
    rw [hd.message_unique hother hm hname] at hof
    have hsound := (Body.ofMessage_ok (hp message hm) hof).1
    rw [← hsound.oneofs] at ho
    obtain ⟨choice, hc, rfl⟩ := List.mem_map.mp ho
    simp only [Option.bind_some, Option.isSome_map, Option.map_some, Option.isSome_some,
      List.find?_isSome]
    exact ⟨choice, hc, by simp⟩

private theorem arguments_of_none (hd : Source.Distinct files)
    (h : Built settings (Catalog.ofFiles files) mapping) (hmode : settings.inputMode = .none)
    {name : String} {plan : ServicePlan} (hplan : mapping.services.get? name = some plan)
    {root : Schema.Composite} (hroot : root ∈ plan.roots mapping.naming) {field : Schema.Field}
    (hf : field ∈ root.fields) : field.arguments = [] := by
  obtain ⟨service, -, -, -, hof⟩ := h.plan_of_get? hplan
  have hsound := (ServicePlan.ofService_ok hd hof).1
  obtain ⟨operation, -, rfl⟩ := List.mem_map.mp hroot
  obtain ⟨planned, hm, rfl⟩ := List.mem_map.mp hf
  have hempty := hsound.callable planned (List.mem_of_mem_filter hm) hmode
  simp [MethodPlan.field, Source.Message.slots_isEmpty, hempty]

end Built

/-- Without inputs no message has one and no root field takes an argument; with all, every message
has one; with those of services, exactly the messages that a request with fields depends on. The
oneofs of a message have inputs if the message has one. -/
theorem inputs_are_those_needed (settings : Settings) (index : Options.Index)
    (described : List Descriptor.File) (files : List Source.File) (mapping : Mapping)
    (hw : Source.Wrapped index described files) (hd : Source.Distinct files)
    (h : ofDescriptors settings index described = .ok mapping) :
    (settings.inputMode = .none → (∀ name, mapping.inputOf? name = none) ∧
      ∀ name plan, mapping.services.get? name = some plan →
        ∀ root ∈ plan.roots mapping.naming, ∀ field ∈ root.fields, field.arguments = []) ∧
    (settings.inputMode = .all →
      ∀ message ∈ allMessages files, (mapping.inputOf? message.fullName).isSome = true) ∧
    (settings.inputMode = .service → ∀ message ∈ allMessages files,
      ((mapping.inputOf? message.fullName).isSome = true ↔ ∃ request,
        IsRequest files request ∧
          Depends (allMessages files) request.fullName message.fullName)) ∧
    ∀ message ∈ allMessages files, ∀ oneof ∈ message.choices,
      ((mapping.oneofInputOf? message.fullName oneof).isSome = true ↔
        (mapping.inputOf? message.fullName).isSome = true) := by
  have hb := ofDescriptors_built hw h
  refine ⟨fun hmode => ⟨hb.inputs_of_none hd hw.placed hmode, ?_⟩,
    fun hmode message hm => hb.inputs_of_all hmode hm,
    fun hmode message _ => hb.inputs_of_service hd hw.placed hmode,
    fun message hm oneof ho => by rw [hb.oneofInputOf?_isSome hd hw.placed hm ho]⟩
  intro name plan hplan root hroot field hf
  exact hb.arguments_of_none hd hmode hplan hroot hf

/-- In the shop the orders that can be asked for hold lines, and those hold timestamps; shelves are
only referred to by a key. -/
theorem shop_inputs : ∃ mapping,
    Source.Wrapped Source.shopIndex Source.shop Source.shopSources ∧
    Source.Distinct Source.shopSources ∧
    ofDescriptors Source.shopSettings Source.shopIndex Source.shop = .ok mapping ∧
    (mapping.inputOf? ".google.protobuf.Timestamp").isSome = true ∧
    ¬ (mapping.inputOf? ".shop.Shelf").isSome = true := by
  obtain ⟨mapping, hmapping⟩ := exists_mapping Source.shop_wrapped Source.shop_distinct
    Source.shop_countsForward Source.shopIndex_wellTyped shop_resolvable
  have hinputs := (inputs_are_those_needed _ _ _ _ mapping Source.shop_wrapped
    Source.shop_distinct hmapping).2.2.1 rfl
  refine ⟨mapping, Source.shop_wrapped, Source.shop_distinct, hmapping, ?_, ?_⟩
  · have hknown : KnownMessage Source.shopSources ".google.protobuf.Timestamp" := by decide
    have hrequest : ∃ request ∈ allMessages Source.shopSources, request.fields ≠ [] ∧
        request.fullName = ".shop.Order" ∧ ∃ service ∈ allServices Source.shopSources,
          ∃ method ∈ service.methods, method.input = ".shop.Order" ∧
            service.skip.isSet = false ∧ method.skip.isSet = false ∧
            method.operation ≠ .text "none" ∧ method.isStreaming = false := by decide
    have hline : Refers (allMessages Source.shopSources) ".shop.Order" ".shop.Line" := by
      unfold Refers
      decide
    have hsold : Refers (allMessages Source.shopSources) ".shop.Line"
        ".google.protobuf.Timestamp" := by
      unfold Refers
      decide
    obtain ⟨message, hm, hname⟩ := hknown
    obtain ⟨request, hr, hfields, hown, service, hs, method, hmethod, hinput, hrest⟩ := hrequest
    rw [← hname, hinputs message hm, hname]
    refine ⟨request, ⟨hr, hfields, service, method, ⟨hs, hmethod, hrest.1, hrest.2.1, hrest.2.2.1,
      hrest.2.2.2⟩, hinput.trans hown.symm⟩, ?_⟩
    rw [hown]
    exact .tail (.tail .refl hline) hsold
  · have hknown : KnownMessage Source.shopSources ".shop.Shelf" := by decide
    have hinput : ∀ service ∈ allServices Source.shopSources, ∀ method ∈ service.methods,
        method.input ≠ ".shop.Shelf" := by decide
    have hfield : ∀ message ∈ allMessages Source.shopSources, ∀ field ∈ message.fields,
        field.kind = .message → field.typeName ≠ ".shop.Shelf" := by decide
    obtain ⟨message, hm, hname⟩ := hknown
    rw [← hname, hinputs message hm, hname]
    rintro ⟨request, ⟨-, -, service, method, he, hasks⟩, path⟩
    rcases ReflTransGen.cases_tail path with hown | ⟨last, -, other, ho, -, field, hf, hkind, htype⟩
    · exact hinput service he.serviceMem method he.methodMem (hasks.trans hown.symm)
    · exact hfield other ho field hf hkind htype

end ProtoSdl.Mapping

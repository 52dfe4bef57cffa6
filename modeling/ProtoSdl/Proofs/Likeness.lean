import ProtoSdl.Mapping.Basic
import ProtoSdl.Proofs.ServicePlans

/-! Declarations of one file that stands at different places among the input files. Bodies and plans
formed from such declarations are alike, and what they declare is the same as long as no namespace
is a list, which would grow with every name formed before. -/
namespace ProtoSdl

namespace Source

/-- Whether the names under a namespace do not depend on those formed before. -/
def isSteady : Json → Bool
  | .list (_ :: _) => false
  | _ => true

def Home.Steady (home : Home) : Prop := isSteady home.nameSpace = true

/-- No file has a namespace that grows. -/
def SteadyNames (index : Options.Index) (described : List Descriptor.File) : Prop :=
  ∀ file ∈ described, isSteady (index.file file.name).nameSpace = true

instance (index : Options.Index) (described : List Descriptor.File) :
    Decidable (SteadyNames index described) :=
  inferInstanceAs (Decidable (∀ file ∈ described, _))

section Wrapped

variable {index : Options.Index} {described : List Descriptor.File} {files : List File}

theorem Wrapped.steady (hw : Wrapped index described files) (h : SteadyNames index described)
    {file : File} (hf : file ∈ files) : file.home.Steady := by
  have hname : file.home.name ∈ described.map (·.name) := by
    rw [← hw.names]
    exact List.mem_map_of_mem hf
  obtain ⟨source, hs, heq⟩ := List.mem_map.mp hname
  unfold Home.Steady
  rw [(hw.coherent hf).nameSpace, ← heq]
  exact h source hs

theorem Wrapped.steady_message (hw : Wrapped index described files)
    (h : SteadyNames index described) {message : Message} (hm : message ∈ allMessages files) :
    message.home.Steady := by
  obtain ⟨file, hf, hin⟩ := List.mem_flatMap.mp hm
  rw [((hw.coherent hf).messages message hin).1]
  exact hw.steady h hf

theorem Wrapped.steady_enum (hw : Wrapped index described files)
    (h : SteadyNames index described) {enum : Enum} (he : enum ∈ allEnums files) :
    enum.home.Steady := by
  obtain ⟨file, hf, hin⟩ := List.mem_flatMap.mp he
  rw [((hw.coherent hf).enums enum hin).1]
  exact hw.steady h hf

theorem Wrapped.steady_service (hw : Wrapped index described files)
    (h : SteadyNames index described) {service : Service} (hs : service ∈ allServices files) :
    service.home.Steady := by
  obtain ⟨file, hf, hin⟩ := List.mem_flatMap.mp hs
  rw [((hw.coherent hf).services service hin).1]
  exact hw.steady h hf

end Wrapped

def Home.movedTo (position : Nat) (home : Home) : Home :=
  { home with position }

def Message.movedTo (position : Nat) (message : Message) : Message :=
  { message with home := message.home.movedTo position }

def Enum.movedTo (position : Nat) (enum : Enum) : Enum :=
  { enum with home := enum.home.movedTo position }

def Service.movedTo (position : Nat) (service : Service) : Service :=
  { service with home := service.home.movedTo position }

variable (P : Home → Prop)

/-- The same message, except for the place of its file; the file has the property `P`. -/
def Message.Alike (a b : Message) : Prop := P a.home ∧ ∃ position, b = a.movedTo position

@[inherit_doc Message.Alike]
def Enum.Alike (a b : Enum) : Prop := P a.home ∧ ∃ position, b = a.movedTo position

@[inherit_doc Message.Alike]
def Service.Alike (a b : Service) : Prop := P a.home ∧ ∃ position, b = a.movedTo position

end Source

namespace Mapping

open Outcome

variable (P : Source.Home → Prop)

/-- Whatever the one catalog finds, the other finds too. -/
structure Catalog.Includes (a b : Catalog) : Prop where
  messages : ∀ name message, a.messages.get? name = some message →
    ∃ other, b.messages.get? name = some other ∧ message.Alike P other
  enums : ∀ name enum, a.enums.get? name = some enum →
    ∃ other, b.enums.get? name = some other ∧ enum.Alike P other

inductive Referent.Alike : Referent → Referent → Prop
  | builtIn (scalar : Schema.BuiltIn) : Alike (.builtIn scalar) (.builtIn scalar)
  | enum {a b : Source.Enum} (h : a.Alike P b) : Alike (.enum a) (.enum b)
  | message {a b : Source.Message} (h : a.Alike P b) : Alike (.message a) (.message b)

structure TypedField.Alike (a b : TypedField) : Prop where
  field : b.field = a.field
  referent : a.referent.Alike P b.referent

structure Companion.Alike (a b : Companion) : Prop where
  key : b.key = a.key
  target : a.target.Alike P b.target

inductive Member.Alike : Member → Member → Prop
  | plain {a b : TypedField} {c d : Option Companion} (h : a.Alike P b)
      (hc : Option.Rel (Companion.Alike P) c d) : Alike (.plain a c) (.plain b d)
  | oneof (place : Source.Membership) (comments : String) :
      Alike (.oneof place comments) (.oneof place comments)

structure Choice.Alike (a b : Choice) : Prop where
  oneof : b.oneof = a.oneof
  members : List.Forall₂ (TypedField.Alike P) a.members b.members
  comments : b.comments = a.comments

structure Body.Alike (a b : Body) : Prop where
  message : a.message.Alike P b.message
  members : List.Forall₂ (Member.Alike P) a.members b.members
  choices : List.Forall₂ (Choice.Alike P) a.choices b.choices

structure MethodPlan.Alike (a b : MethodPlan) : Prop where
  method : b.method = a.method
  operation : b.operation = a.operation
  request : a.request.Alike P b.request
  response : a.response.Alike P b.response

structure ServicePlan.Alike (a b : ServicePlan) : Prop where
  service : a.service.Alike P b.service
  methods : List.Forall₂ (MethodPlan.Alike P) a.methods b.methods

section Formation

variable {P} {settings : Settings} {a b : Catalog}

theorem Catalog.Includes.message (h : a.Includes P b) {referrer name : String}
    {message : Source.Message} (hm : a.message referrer name = .ok message) :
    ∃ other, b.message referrer name = .ok other ∧ message.Alike P other := by
  unfold Catalog.message at hm ⊢
  split at hm
  · rename_i found hfound
    cases hm
    obtain ⟨other, hother, halike⟩ := h.messages _ _ hfound
    exact ⟨other, by rw [hother], halike⟩
  · cases hm

theorem Catalog.Includes.enum (h : a.Includes P b) {referrer name : String}
    {enum : Source.Enum} (he : a.enum referrer name = .ok enum) :
    ∃ other, b.enum referrer name = .ok other ∧ enum.Alike P other := by
  unfold Catalog.enum at he ⊢
  split at he
  · rename_i found hfound
    cases he
    obtain ⟨other, hother, halike⟩ := h.enums _ _ hfound
    exact ⟨other, by rw [hother], halike⟩
  · cases he

/-- What alike messages have in common is found in both catalogs. -/
theorem Catalog.Includes.map_messages {β : Type} (h : a.Includes P b)
    {view view' : Source.Message → β} (hview : ∀ a b, a.Alike P b → view' b = view a)
    {name : String} {found : β} (hf : (a.messages.get? name).map view = some found) :
    (b.messages.get? name).map view' = some found := by
  obtain ⟨message, hm, rfl⟩ := Option.map_eq_some_iff.mp hf
  obtain ⟨other, hother, halike⟩ := h.messages _ _ hm
  rw [hother, Option.map_some, hview _ _ halike]

theorem Catalog.Includes.map_enums {β : Type} (h : a.Includes P b)
    {view view' : Source.Enum → β} (hview : ∀ a b, a.Alike P b → view' b = view a)
    {name : String} {found : β} (hf : (a.enums.get? name).map view = some found) :
    (b.enums.get? name).map view' = some found := by
  obtain ⟨enum, he, rfl⟩ := Option.map_eq_some_iff.mp hf
  obtain ⟨other, hother, halike⟩ := h.enums _ _ he
  rw [hother, Option.map_some, hview _ _ halike]

variable {parent parent' : Source.Message} {position : Nat}

theorem TypedField.ofField_alike (h : a.Includes P b) {field : Source.Field} {typed : TypedField}
    (ht : ofField settings a parent field = .ok typed) :
    ∃ other, ofField settings b (parent.movedTo position) field = .ok other ∧
      typed.Alike P other := by
  unfold ofField at ht ⊢
  split at ht
  · cases ht
    exact ⟨_, rfl, rfl, .builtIn _⟩
  · split at ht
    · obtain ⟨enum, henum, ht⟩ := bind_eq_ok.mp ht
      cases ht
      obtain ⟨other, hother, halike⟩ := h.enum henum
      exact ⟨_, bind_eq_ok.mpr ⟨other, hother, rfl⟩, rfl, .enum halike⟩
    · obtain ⟨message, hmessage, ht⟩ := bind_eq_ok.mp ht
      cases ht
      obtain ⟨other, hother, halike⟩ := h.message hmessage
      exact ⟨_, bind_eq_ok.mpr ⟨other, hother, rfl⟩, rfl, .message halike⟩
    · cases ht

theorem Companion.ofField?_alike (h : a.Includes P b) {field : Source.Field}
    {companion : Option Companion} (hc : ofField? a parent field = .ok companion) :
    ∃ other, ofField? b (parent.movedTo position) field = .ok other ∧
      Option.Rel (Companion.Alike P) companion other := by
  unfold ofField? at hc ⊢
  split at hc
  · cases hc
    exact ⟨none, rfl, .none⟩
  · obtain ⟨target, htarget, hc⟩ := bind_eq_ok.mp hc
    cases hc
    obtain ⟨other, hother, halike⟩ := h.message htarget
    exact ⟨_, bind_eq_ok.mpr ⟨other, hother, rfl⟩, .some ⟨rfl, halike⟩⟩

theorem Member.ofSlot_alike (h : a.Includes P b) {slot : Source.Slot} {member : Member}
    (hm : ofSlot settings a parent slot = .ok member) :
    ∃ other, ofSlot settings b (parent.movedTo position) slot = .ok other ∧
      member.Alike P other := by
  cases slot with
  | field field =>
    obtain ⟨typed, htyped, hm⟩ := bind_eq_ok.mp hm
    obtain ⟨companion, hcompanion, hm⟩ := bind_eq_ok.mp hm
    cases hm
    obtain ⟨typed', htyped', halike⟩ := TypedField.ofField_alike h htyped
    obtain ⟨companion', hcompanion', hrel⟩ := Companion.ofField?_alike h hcompanion
    exact ⟨_, bind_eq_ok.mpr ⟨typed', htyped', bind_eq_ok.mpr ⟨companion', hcompanion', rfl⟩⟩,
      .plain halike hrel⟩
  | oneof place comments =>
    cases hm
    exact ⟨_, rfl, .oneof place comments⟩

theorem Choice.ofOneof_alike (h : a.Includes P b) {oneof : Source.Oneof} {choice : Choice}
    (hc : ofOneof settings a parent oneof = .ok choice) :
    ∃ other, ofOneof settings b (parent.movedTo position) oneof = .ok other ∧
      choice.Alike P other := by
  have hslots : (parent.movedTo position).slots = parent.slots := rfl
  unfold ofOneof at hc ⊢
  rw [hslots]
  split at hc
  · cases hc
  · obtain ⟨members, hmembers, hc⟩ := bind_eq_ok.mp hc
    cases hc
    obtain ⟨members', hmembers', halike⟩ :=
      mapM_related (fun _ _ => TypedField.ofField_alike h) hmembers
    exact ⟨_, bind_eq_ok.mpr ⟨members', hmembers', rfl⟩, rfl, halike, rfl⟩

theorem Body.ofMessage_alike (h : a.Includes P b) (hp : parent.Alike P parent') {body : Body}
    (hb : ofMessage settings a parent = .ok body) :
    ∃ other, ofMessage settings b parent' = .ok other ∧ body.Alike P other := by
  obtain ⟨hhome, position, rfl⟩ := hp
  obtain ⟨members, hmembers, hb⟩ := bind_eq_ok.mp hb
  obtain ⟨choices, hchoices, hb⟩ := bind_eq_ok.mp hb
  cases hb
  obtain ⟨members', hmembers', hrel⟩ := mapM_related (fun _ _ => Member.ofSlot_alike h) hmembers
  obtain ⟨choices', hchoices', halike⟩ := mapM_related (fun _ _ => Choice.ofOneof_alike h) hchoices
  exact ⟨_, bind_eq_ok.mpr ⟨members', hmembers', bind_eq_ok.mpr ⟨choices', hchoices', rfl⟩⟩,
    ⟨hhome, position, rfl⟩, hrel, halike⟩

variable {service service' : Source.Service}

private theorem callablePlan_alike (h : a.Includes P b) {method : Source.Method}
    {plan : Option MethodPlan}
    (hm : callablePlan a service method = .ok plan) :
    ∃ other, callablePlan b (service.movedTo position) method = .ok other ∧
      Option.Rel (MethodPlan.Alike P) plan other := by
  obtain ⟨operation, hoperation, hm⟩ := bind_eq_ok.mp hm
  obtain ⟨request, hrequest, hm⟩ := bind_eq_ok.mp hm
  obtain ⟨response, hresponse, hm⟩ := bind_eq_ok.mp hm
  cases hm
  obtain ⟨request', hrequest', hlike⟩ := h.message hrequest
  obtain ⟨response', hresponse', hlike'⟩ := h.message hresponse
  exact ⟨_, bind_eq_ok.mpr ⟨operation, hoperation, bind_eq_ok.mpr ⟨request', hrequest',
    bind_eq_ok.mpr ⟨response', hresponse', rfl⟩⟩⟩, .some ⟨rfl, rfl, hlike, hlike'⟩⟩

theorem MethodPlan.ofMethod?_alike (h : a.Includes P b) {method : Source.Method}
    {plan : Option MethodPlan} (hm : ofMethod? settings a service method = .ok plan) :
    ∃ other, ofMethod? settings b (service.movedTo position) method = .ok other ∧
      Option.Rel (MethodPlan.Alike P) plan other := by
  by_cases hmapped : method.isMapped = true
  · by_cases hmode : settings.inputMode = .none
    · rw [ofMethod?_without_inputs hmapped hmode] at hm ⊢
      obtain ⟨request, hrequest, hm⟩ := bind_eq_ok.mp hm
      obtain ⟨other, hother, -, place, rfl⟩ := h.message hrequest
      split at hm
      · rename_i hempty
        obtain ⟨result, hresult, hrel⟩ := callablePlan_alike h hm
        exact ⟨result, bind_eq_ok.mpr ⟨_, hother, (if_pos hempty).trans hresult⟩, hrel⟩
      · rename_i hfields
        cases hm
        exact ⟨none, bind_eq_ok.mpr ⟨_, hother, if_neg hfields⟩, .none⟩
    · rw [ofMethod?_of_inputs hmapped hmode] at hm ⊢
      exact callablePlan_alike h hm
  · rw [ofMethod?, if_neg hmapped] at hm ⊢
    cases hm
    exact ⟨none, rfl, .none⟩

theorem ServicePlan.ofService_alike (h : a.Includes P b) (hs : service.Alike P service')
    {plan : ServicePlan} (hp : ofService settings a service = .ok plan) :
    ∃ other, ofService settings b service' = .ok other ∧ plan.Alike P other := by
  obtain ⟨hhome, position, rfl⟩ := hs
  obtain ⟨methods, hmethods, hp⟩ := bind_eq_ok.mp hp
  obtain ⟨methods', hmethods', hrel⟩ :=
    mapM_related (fun _ _ => MethodPlan.ofMethod?_alike h) hmethods
  have hplans : List.Forall₂ (MethodPlan.Alike P) (methods.filterMap id) (methods'.filterMap id) :=
    List.rel_filterMap (fun _ _ hplan => hplan) hrel
  have hempty : (methods'.filterMap id).isEmpty = (methods.filterMap id).isEmpty := by
    rw [Bool.eq_iff_iff, List.isEmpty_iff_length_eq_zero, List.isEmpty_iff_length_eq_zero,
      hplans.length_eq]
  simp only at hp
  split at hp
  · rename_i hsome
    obtain ⟨_, hcheck, hp⟩ := bind_eq_ok.mp hp
    cases hp
    refine ⟨⟨service.movedTo position, methods'.filterMap id⟩,
      bind_eq_ok.mpr ⟨methods', hmethods', ?_⟩, ⟨hhome, position, rfl⟩, hplans⟩
    simp only [hempty, hsome, if_true]
    exact bind_eq_ok.mpr ⟨(), hcheck, rfl⟩
  · rename_i hnone
    cases hp
    refine ⟨⟨service.movedTo position, methods'.filterMap id⟩,
      bind_eq_ok.mpr ⟨methods', hmethods', ?_⟩, ⟨hhome, position, rfl⟩, hplans⟩
    simp only [hempty, hnone]
    rfl

end Formation

structure OneofTypes where
  name : String
  union : Schema.Union
  objects : List Schema.Composite
  input : Option Schema.Composite

structure MessageTypes where
  object : Schema.Composite
  input : Option Schema.Composite
  oneofs : List OneofTypes

structure ServiceTypes where
  queries : Option Schema.Composite
  mutations : Option Schema.Composite
  subscriptions : Option Schema.Composite
  roots : List Schema.Composite
  extensions : List Schema.Composite
  loaders : Table (List Options.Loader)

def Body.oneofTypes (naming : Naming) (hasInput : Bool) (body : Body) (choice : Choice) :
    OneofTypes :=
  { name := choice.oneof.name
    union := body.choiceUnion naming choice
    objects := body.choiceWrappers naming choice
    input := if hasInput then some (body.choiceInput naming choice) else none }

def Body.types (naming : Naming) (hasInput : Bool) (body : Body) : MessageTypes :=
  { object := body.object naming
    input := if hasInput then some (body.input naming) else none
    oneofs := body.choices.map (body.oneofTypes naming hasInput) }

theorem Body.input_oneofTypes {naming : Naming} {hasInput : Bool} {body : Body} {choice : Choice}
    {input : Schema.Composite} : (body.oneofTypes naming hasInput choice).input = some input ↔
      hasInput = true ∧ body.choiceInput naming choice = input := by
  simp [Body.oneofTypes]

theorem Body.input_types {naming : Naming} {hasInput : Bool} {body : Body}
    {input : Schema.Composite} : (body.types naming hasInput).input = some input ↔
      hasInput = true ∧ body.input naming = input := by
  simp [Body.types]

def ServicePlan.types (naming : Naming) (plan : ServicePlan) : ServiceTypes :=
  { queries := plan.root? naming .query
    mutations := plan.root? naming .mutation
    subscriptions := plan.root? naming .subscription
    roots := plan.roots naming
    extensions := plan.extensions naming
    loaders := plan.loaders }

section Declarations

open Source (Home)

variable {naming naming' : Naming}

theorem Naming.typeName_moved (hs : naming'.settings = naming.settings) {home : Home}
    (h : home.Steady) (position : Nat) (path : Name.TypePath) :
    naming'.typeName (home.movedTo position) path = naming.typeName home path := by
  have hspace : (home.movedTo position).nameSpace = home.nameSpace := rfl
  unfold Naming.typeName
  rw [hspace, hs]
  split
  · rename_i item items heq
    simp [Home.Steady, Source.isSteady, heq] at h
  · rfl
  · rfl

theorem Naming.object_alike (hs : naming'.settings = naming.settings) {a b : Source.Message}
    (h : a.Alike Home.Steady b) : naming'.object b = naming.object a := by
  obtain ⟨hhome, position, rfl⟩ := h
  exact typeName_moved hs hhome position _

theorem Naming.input_alike (hs : naming'.settings = naming.settings) {a b : Source.Message}
    (h : a.Alike Home.Steady b) : naming'.input b = naming.input a := by
  obtain ⟨hhome, position, rfl⟩ := h
  exact typeName_moved hs hhome position _

theorem Naming.enum_alike (hs : naming'.settings = naming.settings) {a b : Source.Enum}
    (h : a.Alike Home.Steady b) : naming'.enum b = naming.enum a := by
  obtain ⟨hhome, position, rfl⟩ := h
  exact typeName_moved hs hhome position _

theorem enumDeclaration_alike (hs : naming'.settings = naming.settings) {a b : Source.Enum}
    (h : a.Alike Home.Steady b) : enumDeclaration naming' b = enumDeclaration naming a := by
  have hname := Naming.enum_alike hs h
  obtain ⟨-, position, rfl⟩ := h
  unfold enumDeclaration
  rw [hname]
  rfl

variable {P : Home → Prop}

theorem TypedField.modifiers_alike {a b : Source.Message} (hp : a.Alike P b)
    {typed other : TypedField} (h : typed.Alike P other) (mode : Mode) :
    other.modifiers mode b = typed.modifiers mode a := by
  obtain ⟨-, position, rfl⟩ := hp
  obtain ⟨field, referent⟩ := typed
  obtain ⟨field', referent'⟩ := other
  obtain ⟨rfl, hreferent⟩ := h
  cases hreferent with
  | builtIn scalar => rfl
  | enum henum => rfl
  | message hmessage =>
    obtain ⟨-, place, rfl⟩ := hmessage
    rfl

theorem TypedField.referentName_alike (hs : naming'.settings = naming.settings)
    {typed other : TypedField} (h : typed.Alike Home.Steady other) (mode : Mode) :
    other.referentName naming' mode = typed.referentName naming mode := by
  obtain ⟨field, referent⟩ := typed
  obtain ⟨field', referent'⟩ := other
  obtain ⟨-, hreferent⟩ := h
  cases hreferent with
  | builtIn scalar => rfl
  | enum henum => exact Naming.enum_alike hs henum
  | message hmessage =>
    cases mode with
    | object => exact Naming.object_alike hs hmessage
    | input => exact Naming.input_alike hs hmessage

theorem TypedField.declare_alike (hs : naming'.settings = naming.settings) {a b : Source.Message}
    (hp : a.Alike Home.Steady b) {typed other : TypedField} (h : typed.Alike Home.Steady other)
    (mode : Mode) : other.declare naming' mode b = typed.declare naming mode a := by
  unfold TypedField.declare
  rw [h.field, hs, modifiers_alike hp h, referentName_alike hs h]

theorem Companion.declare_alike (hs : naming'.settings = naming.settings) {a b : Companion}
    (h : a.Alike Home.Steady b) (field : Source.Field) :
    b.declare naming' field = a.declare naming field := by
  unfold Companion.declare
  rw [h.key, hs, Naming.object_alike hs h.target]

theorem Body.nameOf_alike (hs : naming'.settings = naming.settings) {a b : Body}
    (h : a.Alike Home.Steady b) (path : Name.TypePath) :
    b.nameOf naming' path = a.nameOf naming path := by
  obtain ⟨hhome, position, hmessage⟩ := h.message
  unfold Body.nameOf
  rw [hmessage]
  exact Naming.typeName_moved hs hhome position path

theorem Body.path_alike {a b : Body} (h : a.Alike P b) : b.message.path = a.message.path := by
  obtain ⟨-, position, hmessage⟩ := h.message
  rw [hmessage]
  rfl

theorem Body.memberFields_alike (hs : naming'.settings = naming.settings) {a b : Body}
    (h : a.Alike Home.Steady b) {member other : Member} (hm : member.Alike Home.Steady other)
    (mode : Mode) : b.memberFields naming' mode other = a.memberFields naming mode member := by
  cases hm with
  | plain htyped hcompanion =>
    have hdeclare := TypedField.declare_alike hs h.message htyped mode
    cases mode with
    | input => simp only [Body.memberFields, hdeclare]
    | object =>
      cases hcompanion with
      | none => simp only [Body.memberFields, hdeclare, Option.map_none]
      | some hfound =>
        simp only [Body.memberFields, hdeclare, Option.map_some, htyped.field,
          Companion.declare_alike hs hfound]
  | oneof place comments =>
    simp only [Body.memberFields, hs, Body.nameOf_alike hs h, Body.oneofPath, Body.path_alike h]

theorem map_alike {α β : Type} {R : α → α → Prop} {f g : α → β} {items others : List α}
    (hf : ∀ a b, R a b → g b = f a) (h : List.Forall₂ R items others) :
    others.map g = items.map f := by
  induction h with
  | nil => rfl
  | cons hfirst _ ih => rw [List.map_cons, List.map_cons, hf _ _ hfirst, ih]

private theorem flatMap_alike {α β : Type} {R : α → α → Prop} {f g : α → List β}
    {items others : List α}
    (hf : ∀ a b, R a b → g b = f a) (h : List.Forall₂ R items others) :
    others.flatMap g = items.flatMap f := by
  rw [List.flatMap_def, List.flatMap_def, map_alike hf h]

section Body

variable {a b : Body}

theorem Body.fields_alike (hs : naming'.settings = naming.settings) (h : a.Alike Home.Steady b)
    (mode : Mode) : b.fields naming' mode = a.fields naming mode := by
  have hempty : b.members.isEmpty = a.members.isEmpty := by
    rw [Bool.eq_iff_iff, List.isEmpty_iff_length_eq_zero, List.isEmpty_iff_length_eq_zero,
      h.members.length_eq]
  have hfields : b.members.flatMap (b.memberFields naming' mode) =
      a.members.flatMap (a.memberFields naming mode) :=
    flatMap_alike (fun _ _ hm => memberFields_alike hs h hm mode) h.members
  unfold Body.fields
  rw [hempty, hfields]

theorem Body.comments_alike (h : a.Alike P b) : b.message.comments = a.message.comments := by
  obtain ⟨-, position, hmessage⟩ := h.message
  rw [hmessage]
  rfl

theorem Body.object_alike (hs : naming'.settings = naming.settings) (h : a.Alike Home.Steady b) :
    b.object naming' = a.object naming := by
  unfold Body.object
  rw [Naming.object_alike hs h.message, fields_alike hs h, comments_alike h]

theorem Body.input_alike (hs : naming'.settings = naming.settings) (h : a.Alike Home.Steady b) :
    b.input naming' = a.input naming := by
  unfold Body.input
  rw [Naming.input_alike hs h.message, fields_alike hs h, comments_alike h]

variable {choice other : Choice}

theorem Body.choiceWrappers_alike (hs : naming'.settings = naming.settings)
    (h : a.Alike Home.Steady b) (hc : choice.Alike Home.Steady other) :
    b.choiceWrappers naming' other = a.choiceWrappers naming choice := by
  refine map_alike (fun typed typed' ht => ?_) hc.members
  unfold Body.wrapper Body.wrapperPath
  rw [ht.field, hc.oneof, path_alike h, nameOf_alike hs h,
    TypedField.declare_alike hs h.message ht]

theorem Body.choiceUnion_alike (hs : naming'.settings = naming.settings)
    (h : a.Alike Home.Steady b) (hc : choice.Alike Home.Steady other) :
    b.choiceUnion naming' other = a.choiceUnion naming choice := by
  unfold Body.choiceUnion Body.oneofPath
  rw [choiceWrappers_alike hs h hc, hc.oneof, hc.comments, path_alike h, nameOf_alike hs h]

theorem Body.choiceInput_alike (hs : naming'.settings = naming.settings)
    (h : a.Alike Home.Steady b) (hc : choice.Alike Home.Steady other) :
    b.choiceInput naming' other = a.choiceInput naming choice := by
  have hfields : other.members.map (·.declare naming' .input b.message) =
      choice.members.map (·.declare naming .input a.message) :=
    map_alike (fun _ _ ht => TypedField.declare_alike hs h.message ht .input) hc.members
  unfold Body.choiceInput Body.oneofPath
  rw [hc.oneof, path_alike h, nameOf_alike hs h, hfields]

/-- Alike messages are declared in the same way, whatever names were formed before. -/
theorem Body.types_alike (hs : naming'.settings = naming.settings) (h : a.Alike Home.Steady b)
    (hasInput : Bool) : b.types naming' hasInput = a.types naming hasInput := by
  have honeofs : b.choices.map (b.oneofTypes naming' hasInput) =
      a.choices.map (a.oneofTypes naming hasInput) := by
    refine map_alike (fun choice other hc => ?_) h.choices
    unfold Body.oneofTypes
    rw [hc.oneof, choiceUnion_alike hs h hc, choiceWrappers_alike hs h hc,
      choiceInput_alike hs h hc]
  unfold Body.types
  rw [object_alike hs h, input_alike hs h, honeofs]

theorem Body.typedFields_alike (h : a.Alike P b) :
    List.Forall₂ (TypedField.Alike P) a.typedFields b.typedFields := by
  refine List.rel_append (List.rel_filterMap (fun member other hm => ?_) h.members)
    (List.rel_flatMap h.choices fun _ _ hc => hc.members)
  cases hm with
  | plain htyped _ => exact .some htyped
  | oneof place comments => exact .none

theorem Body.customScalars_alike (h : a.Alike P b) (settings : Settings) :
    b.customScalars settings = a.customScalars settings := by
  have hnames : b.typedFields.map (·.field.typeName) = a.typedFields.map (·.field.typeName) :=
    map_alike (fun _ _ ht => by rw [ht.field]) (typedFields_alike h)
  have hscalars := congrArg (List.filterMap (customScalar? settings)) hnames
  rw [List.filterMap_map, List.filterMap_map] at hscalars
  exact hscalars

end Body

section Plan

variable {a b : ServicePlan}

theorem MethodPlan.field_alike (hs : naming'.settings = naming.settings) {a b : MethodPlan}
    (h : a.Alike Home.Steady b) : b.field naming' = a.field naming := by
  have hrequest := Naming.input_alike hs h.request
  have hresponse := Naming.object_alike hs h.response
  obtain ⟨-, place, hin⟩ := h.request
  obtain ⟨-, place', hout⟩ := h.response
  have hslots : b.request.slots = a.request.slots := by rw [hin]; rfl
  have hslots' : b.response.slots = a.response.slots := by rw [hout]; rfl
  unfold MethodPlan.field
  rw [hrequest, hresponse, hslots, hslots', h.method, hs]

theorem ServicePlan.ofOperation_alike (h : a.Alike P b) (operation : Operation) :
    List.Forall₂ (MethodPlan.Alike P) (a.ofOperation operation) (b.ofOperation operation) := by
  refine List.rel_filter (fun plan other hplan => ?_) h.methods
  simp only [hplan.operation]

theorem ServicePlan.operations_alike (h : a.Alike P b) : b.operations = a.operations := by
  unfold ServicePlan.operations
  congr 1
  funext operation
  have hlength := (ofOperation_alike h operation).length_eq
  rw [Bool.eq_iff_iff]
  simp only [Bool.not_eq_true', List.isEmpty_eq_false_iff, ne_eq, ← List.length_eq_zero_iff,
    hlength]

theorem ServicePlan.root_alike (hs : naming'.settings = naming.settings)
    (h : a.Alike Home.Steady b) (operation : Operation) :
    b.root naming' operation = a.root naming operation := by
  have hfields : (b.ofOperation operation).map (·.field naming') =
      (a.ofOperation operation).map (·.field naming) :=
    map_alike (fun _ _ hplan => MethodPlan.field_alike hs hplan) (ofOperation_alike h operation)
  obtain ⟨hhome, position, hservice⟩ := h.service
  unfold ServicePlan.root
  rw [hfields, ServicePlan.rootPath, ServicePlan.rootPath, hservice]
  simp only [Source.Service.movedTo, Naming.typeName_moved hs hhome]

/-- Alike services are declared in the same way, whatever names were formed before. -/
theorem ServicePlan.types_alike (hs : naming'.settings = naming.settings)
    (h : a.Alike Home.Steady b) : b.types naming' = a.types naming := by
  have hoperations := operations_alike h
  have hroot : b.root naming' = a.root naming := funext fun operation => root_alike hs h operation
  have hroot? : ∀ operation, b.root? naming' operation = a.root? naming operation := by
    intro operation
    rw [ServicePlan.root?, ServicePlan.root?, hoperations, hroot]
  have hextensions : b.extensions naming' = a.extensions naming := by
    obtain ⟨-, position, hservice⟩ := h.service
    unfold ServicePlan.extensions
    rw [hs, hoperations, hroot, hservice]
    rfl
  have hloaders : b.loaders = a.loaders := by
    obtain ⟨-, position, hservice⟩ := h.service
    unfold ServicePlan.loaders
    rw [hservice]
    rfl
  unfold ServicePlan.types ServicePlan.roots
  rw [hroot?, hroot?, hroot?, hoperations, hroot, hextensions, hloaders]

end Plan

end Declarations

end Mapping

end ProtoSdl

import ProtoSdl.Output
import ProtoSdl.Proofs.InputTypes

/-! What the types of a mapping refer to. Names are given to types before there are bodies, so each
way in which a type is named is followed here to something that the mapping holds: a plain field, a
key, a oneof, a method, an extension. -/
namespace ProtoSdl.Mapping

open Outcome Dependency
open Source (allMessages allEnums allServices)
open Schema (Declaration TypeName)

variable {settings : Settings} {files : List Source.File} {mapping : Mapping}

/-- The names of the types that one side of the schema may refer to. -/
inductive Target (mapping : Mapping) (files : List Source.File) : Mode → TypeName → Prop
  | builtIn (mode : Mode) (scalar : Schema.BuiltIn) : Target mapping files mode scalar.name
  | scalar (mode : Mode) {name : String} (h : name ∈ mapping.scalars) :
      Target mapping files mode name
  | enum (mode : Mode) {enum : Source.Enum} (h : enum ∈ allEnums files) :
      Target mapping files mode (mapping.naming.enum enum)
  | object {message : Source.Message} (h : message ∈ allMessages files) :
      Target mapping files .object (mapping.naming.object message)
  | union {name : String} {body : Body} {choice : Choice}
      (hb : mapping.objects.get? name = some body) (hc : choice ∈ body.choices) :
      Target mapping files .object (body.choiceUnion mapping.naming choice).name
  | root {name : String} {plan : ServicePlan} {operation : Operation}
      (hp : mapping.services.get? name = some plan) (ho : operation ∈ plan.operations) :
      Target mapping files .object (plan.root mapping.naming operation).name
  | input {name : String} {body : Body} (hb : mapping.inputs.get? name = some body) :
      Target mapping files .input (body.input mapping.naming).name
  | choiceInput {name : String} {body : Body} {choice : Choice}
      (hb : mapping.inputs.get? name = some body) (hc : choice ∈ body.choices) :
      Target mapping files .input (body.choiceInput mapping.naming choice).name

/-- The side of the schema that the fields of a declaration belong to. -/
def sideOf : Schema.Form → Mode
  | .object => .object
  | .extension => .object
  | .input => .input

/-- The name is that of an object that wraps a member of a oneof. -/
def WrapperName (mapping : Mapping) (name : TypeName) : Prop :=
  ∃ key body, mapping.objects.get? key = some body ∧ ∃ choice ∈ body.choices,
    ∃ wrapper ∈ body.choiceWrappers mapping.naming choice, wrapper.name = name

def Grounded (mapping : Mapping) (files : List Source.File) : Declaration → Prop
  | .composite composite => ∀ field ∈ composite.fields,
      Target mapping files (sideOf composite.form) field.typeName ∧
        ∀ argument ∈ field.arguments, Target mapping files .input argument.typeName
  | .union union => ∀ name ∈ union.members, WrapperName mapping name
  | .scalar _ => True
  | .enum _ => True

private theorem grounded_extension {name : String} {plan : ServicePlan}
    (hplan : mapping.services.get? name = some plan) {extension : Schema.Composite}
    (he : extension ∈ plan.extensions mapping.naming) :
    Grounded mapping files (.composite extension) := by
  unfold ServicePlan.extensions at he
  split at he
  · simp at he
  · obtain ⟨operation, ho, rfl⟩ := List.mem_map.mp he
    intro field hf
    obtain rfl := List.mem_singleton.mp hf
    exact ⟨.root hplan ho, by simp⟩

namespace Built

section

variable (hd : Source.Distinct files) (hp : ∀ message ∈ allMessages files, message.Placed)
  (h : Built settings (Catalog.ofFiles files) mapping)
include hd hp h

/-- The body of an input is that of the object of the message. -/
theorem body_spec {mode : Mode} {name : String} {body : Body}
    (hb : (mapping.bodies mode).get? name = some body) :
    mapping.objects.get? name = some body ∧ body.message.fullName = name ∧
      body.message ∈ allMessages files ∧ body.Sound files body.message := by
  obtain ⟨message, hm, rfl, hof⟩ := h.body_of_get? hb
  obtain ⟨other, hother, hsame⟩ := h.exists_object hd hm
  cases hof.symm.trans hsame
  have hsound := (Body.ofMessage_ok (hp message hm) hof).1
  rw [hsound.message]
  exact ⟨hother, rfl, hm, hsound⟩

/-- The inputs refer to messages with inputs. -/
theorem exists_input_of_refers {a b : String} {body : Body}
    (hb : mapping.inputs.get? a = some body) (hab : Refers (allMessages files) a b) :
    ∃ found, mapping.inputs.get? b = some found := by
  have hknown := h.known_of_refers hd hp hab
  obtain ⟨names, -, hinputs⟩ := h.inputs
  rcases hinputs.visited a body hb with hnone | ⟨-, -, hnext⟩
  · simp at hnone
  · obtain ⟨target, heq, hdone⟩ := hnext _ ((mem_following_input hd).mpr ⟨hab, hknown⟩)
    cases heq
    exact Table.mem_keys_iff.mp (hdone b rfl (Catalog.mem_keys_messages.mpr hknown))

theorem declare_target {mode : Mode} {name : String} {body : Body}
    (hb : (mapping.bodies mode).get? name = some body) {typed : TypedField}
    (ht : typed ∈ body.typedFields) :
    Target mapping files mode (typed.declare mapping.naming mode body.message).typeName := by
  obtain ⟨hobject, hname, hmessage, hsound⟩ := h.body_spec hd hp hb
  obtain ⟨hfield, htyped⟩ := hsound.typed typed ht
  rw [declare_typeName]
  cases hcustom : customScalar? mapping.naming.settings typed.field.typeName with
  | some scalar =>
    refine .scalar mode ?_
    rw [scalars, mem_firstOccurrences, List.mem_flatMap]
    exact ⟨body, Table.mem_values_of_get? hobject, List.mem_filterMap.mpr ⟨typed, ht, hcustom⟩⟩
  | none =>
    cases hwrapped : wrapped? mapping.naming.settings typed.field.typeName with
    | some scalar => exact .builtIn mode scalar
    | none =>
      simp only [TypedField.referentName]
      cases hreferent : typed.referent with
      | builtIn scalar => exact .builtIn mode scalar
      | enum enum => exact .enum mode (htyped.enum enum hreferent)
      | message target =>
        obtain ⟨htarget, hkind, htype⟩ := htyped.message target hreferent
        cases mode with
        | object => exact .object htarget
        | input =>
          -- the input of the parent was built, so the walk went on to the message of the field
          obtain ⟨found, hfound⟩ := h.exists_input_of_refers hd hp hb
            ⟨body.message, hmessage, hname, typed.field, hfield, hkind, rfl⟩
          have hinput : (mapping.bodies .input).get? typed.field.typeName = some found := hfound
          obtain ⟨-, hown, hin, -⟩ := h.body_spec hd hp hinput
          rw [hd.message_unique htarget hin (htype.trans hown.symm)]
          exact .input hfound

theorem fields_target {mode : Mode} {name : String} {body : Body}
    (hb : (mapping.bodies mode).get? name = some body) {field : Schema.Field}
    (hf : field ∈ body.fields mapping.naming mode) :
    Target mapping files mode field.typeName ∧ field.arguments = [] := by
  obtain ⟨hobject, -, -, hsound⟩ := h.body_spec hd hp hb
  unfold Body.fields at hf
  split at hf
  · obtain rfl := List.mem_singleton.mp hf
    exact ⟨.builtIn mode .boolean, rfl⟩
  · obtain ⟨member, hm, hf⟩ := List.mem_flatMap.mp hf
    cases member with
    | plain typed companion =>
      rcases List.mem_cons.mp hf with rfl | hf
      · exact ⟨h.declare_target hd hp hb (Body.mem_typedFields.mpr (.inl ⟨companion, hm⟩)), rfl⟩
      · cases mode with
        | input => simp at hf
        | object =>
          cases companion with
          | none => simp at hf
          | some found =>
            obtain rfl : field = found.declare mapping.naming typed.field := by simpa using hf
            exact ⟨.object (hsound.companions typed found hm), rfl⟩
    | oneof place comments =>
      obtain rfl := List.mem_singleton.mp hf
      obtain ⟨choice, hc, hname⟩ := hsound.placed place comments hm
      -- the slot only has the name of a oneof; the type is that of the choice of this name
      refine ⟨?_, rfl⟩
      rw [← hname]
      cases mode with
      | object => exact .union hobject hc
      | input => exact .choiceInput hb hc

private theorem grounded_object {name : String} {body : Body}
    (hb : mapping.objects.get? name = some body) {declaration : Declaration}
    (hm : declaration ∈ body.objectDeclarations mapping.naming) :
    Grounded mapping files declaration := by
  have hobject : (mapping.bodies .object).get? name = some body := hb
  rcases List.mem_cons.mp hm with rfl | hm
  · intro field hf
    obtain ⟨htarget, harguments⟩ := h.fields_target hd hp hobject hf
    exact ⟨htarget, by simp [harguments]⟩
  · obtain ⟨choice, hc, hm⟩ := List.mem_flatMap.mp hm
    rcases List.mem_cons.mp hm with rfl | hm
    · intro member hmember
      obtain ⟨wrapper, hw, rfl⟩ := List.mem_map.mp hmember
      exact ⟨name, body, hb, choice, hc, wrapper, hw, rfl⟩
    · obtain ⟨wrapper, hw, rfl⟩ := List.mem_map.mp hm
      obtain ⟨member, hmember, rfl⟩ := List.mem_map.mp hw
      intro field hf
      rcases List.mem_cons.mp hf with rfl | hf
      · exact ⟨.builtIn .object .string, by simp [discriminator]⟩
      · obtain rfl := List.mem_singleton.mp hf
        have htyped := Body.mem_typedFields.mpr (.inr ⟨choice, hc, hmember⟩)
        exact ⟨h.declare_target hd hp hobject htyped, by simp [TypedField.declare]⟩

private theorem grounded_input {name : String} {body : Body}
    (hb : mapping.inputs.get? name = some body) {declaration : Declaration}
    (hm : declaration ∈ body.inputDeclarations mapping.naming) :
    Grounded mapping files declaration := by
  have hinput : (mapping.bodies .input).get? name = some body := hb
  rcases List.mem_cons.mp hm with rfl | hm
  · intro field hf
    obtain ⟨htarget, harguments⟩ := h.fields_target hd hp hinput hf
    exact ⟨htarget, by simp [harguments]⟩
  · obtain ⟨choice, hc, rfl⟩ := List.mem_map.mp hm
    intro field hf
    obtain ⟨member, hmember, rfl⟩ := List.mem_map.mp hf
    have htyped := Body.mem_typedFields.mpr (.inr ⟨choice, hc, hmember⟩)
    exact ⟨h.declare_target hd hp hinput htyped, by simp [TypedField.declare]⟩

/-- The requests that are arguments have inputs. -/
theorem exists_input_of_request {name : String} {plan : ServicePlan}
    (hplan : mapping.services.get? name = some plan) {planned : MethodPlan}
    (hm : planned ∈ plan.methods) (hfields : planned.request.fields ≠ []) :
    ∃ body, mapping.inputs.get? planned.request.fullName = some body := by
  obtain ⟨service, hs, hkept, -, hof⟩ := h.plan_of_get? hplan
  have hsound := (ServicePlan.ofService_ok hd hof).1
  obtain ⟨method, hmethod, hplanned⟩ := hsound.methods planned hm
  have hinput : (mapping.inputOf? planned.request.fullName).isSome = true := by
    cases hmode : settings.inputMode with
    | none => exact absurd (hsound.callable planned hm hmode) hfields
    | all => exact h.inputs_of_all hmode hplanned.request.1
    | service =>
      obtain ⟨hskip, hoperation, hsingle⟩ := isMapped_iff.mp hplanned.mapped
      exact (h.inputs_of_service hd hp hmode).mpr ⟨planned.request, ⟨hplanned.request.1, hfields,
        service, method, ⟨hs, hmethod, hkept, hskip, hoperation, hsingle⟩,
        hplanned.request.2.symm⟩, .refl⟩
  exact Table.mem_keys_iff.mp (inputOf?_isSome.mp hinput)

private theorem grounded_root {name : String} {plan : ServicePlan}
    (hplan : mapping.services.get? name = some plan) {root : Schema.Composite}
    (hr : root ∈ plan.roots mapping.naming) : Grounded mapping files (.composite root) := by
  obtain ⟨service, -, -, -, hof⟩ := h.plan_of_get? hplan
  have hsound := (ServicePlan.ofService_ok hd hof).1
  obtain ⟨operation, -, rfl⟩ := List.mem_map.mp hr
  intro field hf
  obtain ⟨planned, hm, rfl⟩ := List.mem_map.mp hf
  have hplanned := List.mem_of_mem_filter hm
  obtain ⟨method, -, hmethod⟩ := hsound.methods planned hplanned
  simp only [MethodPlan.field, Source.Message.slots_isEmpty]
  constructor
  · split
    · exact .builtIn .object .boolean
    · exact .object hmethod.response.1
  · intro argument ha
    split at ha
    · simp at ha
    · rename_i hfields
      obtain rfl := List.mem_singleton.mp ha
      obtain ⟨body, hbody⟩ := h.exists_input_of_request hd hp hplan hplanned
        (by simpa using hfields)
      have hinput : (mapping.bodies .input).get? planned.request.fullName = some body := hbody
      obtain ⟨-, hown, hin, -⟩ := h.body_spec hd hp hinput
      rw [hd.message_unique hmethod.request.1 hin hown.symm]
      exact .input hbody

/-- Whatever a file declares beyond scalars and enums refers to what the mapping holds. -/
theorem grounded_of_mem {file : Source.File} {declaration : Declaration}
    (hm : declaration ∈ Output.bodyDeclarations mapping file) :
    Grounded mapping files declaration := by
  simp only [Output.bodyDeclarations, List.mem_append] at hm
  rcases hm with ((hm | hm) | hm) | hm
  · obtain ⟨body, hb, hm⟩ := List.mem_flatMap.mp hm
    obtain ⟨name, -, hb⟩ := List.mem_filterMap.mp hb
    exact h.grounded_object hd hp hb hm
  · obtain ⟨body, hb, hm⟩ := List.mem_flatMap.mp hm
    obtain ⟨name, -, hb⟩ := List.mem_filterMap.mp hb
    exact h.grounded_input hd hp hb hm
  · obtain ⟨plan, hplan, hm⟩ := List.mem_flatMap.mp hm
    obtain ⟨service, -, hplan⟩ := List.mem_filterMap.mp hplan
    obtain ⟨root, hr, rfl⟩ := List.mem_map.mp hm
    exact h.grounded_root hd hp hplan hr
  · obtain ⟨plan, hplan, hm⟩ := List.mem_flatMap.mp hm
    obtain ⟨service, -, hplan⟩ := List.mem_filterMap.mp hplan
    obtain ⟨extension, he, rfl⟩ := List.mem_map.mp hm
    exact grounded_extension hplan he

end

end Built

end ProtoSdl.Mapping

import ProtoSdl.Mapping.Catalog
import ProtoSdl.Mapping.Naming
import ProtoSdl.Schema.Basic

/-!
# Types of a service

The mapped methods of a service are the fields of up to three root objects, one for each operation.
Where the settings name root types to extend, each root object becomes a field of one of them. As
with messages, a plan holds the methods with their references resolved, and the types are a function
of the plan.
-/

namespace ProtoSdl

/-- Whether a method becomes a field, as far as the method itself says. -/
def Source.Method.isMapped (method : Source.Method) : Bool :=
  let isNone := match method.operation with
    | .text "none" => true
    | _ => false
  !(method.skip.isSet || isNone || method.isStreaming)

namespace Mapping

inductive Operation
  | query
  | mutation
  | subscription
  deriving DecidableEq, Repr

namespace Operation

/-- The operations in the order of their root objects. -/
def all : List Operation := [query, mutation, subscription]

def rootName : Operation → String
  | query => "Query"
  | mutation => "Mutation"
  | subscription => "Subscription"

/-- The operation of a method; a query where none is given. -/
def ofValue (referrer : String) (value : Json) : Except Fault Operation :=
  if value.isSet then
    match value with
    | .text "query" => .ok query
    | .text "mutation" => .ok mutation
    | .text "subscription" => .ok subscription
    | .list _ | .object _ => .error (.defect .wrongKind)
    | other => .error (.mapping (.unknownOperation referrer other.display))
  else .ok query

end Operation

structure MethodPlan where
  method : Source.Method
  operation : Operation
  request : Source.Message
  response : Source.Message

structure ServicePlan where
  service : Source.Service
  methods : List MethodPlan

def requestOf (catalog : Catalog) (service : Source.Service) (method : Source.Method) :
    Except Fault Source.Message :=
  catalog.message (service.methodName method) method.input

/-- The plan of a method, nothing if the method is not mapped. Without inputs, a method whose
request has fields cannot be called. -/
def MethodPlan.ofMethod? (settings : Settings) (catalog : Catalog) (service : Source.Service)
    (method : Source.Method) : Except Fault (Option MethodPlan) :=
  if method.isMapped then do
    let needsInput ←
      if settings.inputMode = .none then do
        pure (!(← requestOf catalog service method).slots.isEmpty)
      else pure false
    if needsInput then return none
    let operation ← Operation.ofValue (service.methodName method) method.operation
    let request ← requestOf catalog service method
    let response ← catalog.message (service.methodName method) method.output
    return some { method, operation, request, response }
  else return none

/-- The plan of a service. Its roots are named last. -/
def ServicePlan.ofService (settings : Settings) (catalog : Catalog) (service : Source.Service) :
    Except Fault ServicePlan := do
  let methods ← service.methods.mapM (MethodPlan.ofMethod? settings catalog service)
  let methods := methods.filterMap id
  if !methods.isEmpty then Naming.check settings service.home
  return { service, methods }

/-- The field of a method. A request without fields is no argument, and a response without fields
is a nullable truth value. -/
def MethodPlan.field (naming : Naming) (plan : MethodPlan) : Schema.Field :=
  let arguments : List Schema.Argument :=
    if plan.request.slots.isEmpty then []
    else [{ name := "input", typeName := naming.input plan.request, modifiers := .required }]
  let (typeName, modifiers) : Schema.TypeName × Schema.Modifiers :=
    if plan.response.slots.isEmpty then (Schema.BuiltIn.boolean.name, .nullable)
    else (naming.object plan.response, .required)
  { name := naming.settings.methodName plan.method.name
    typeName
    modifiers
    arguments
    directives := Schema.deprecation plan.method.isDeprecated
    description := plan.method.comments }

namespace ServicePlan

/-- The messages that are the arguments of methods: the requests with fields. -/
def argumentNames (plan : ServicePlan) : List String :=
  (plan.methods.filter (!·.request.slots.isEmpty)).map (·.request.fullName)

def ofOperation (plan : ServicePlan) (operation : Operation) : List MethodPlan :=
  plan.methods.filter (·.operation = operation)

def operations (plan : ServicePlan) : List Operation :=
  Operation.all.filter fun operation => !(plan.ofOperation operation).isEmpty

def rootPath (plan : ServicePlan) (operation : Operation) : Name.TypePath :=
  { segments := [plan.service.name, operation.rootName] }

def root (naming : Naming) (plan : ServicePlan) (operation : Operation) : Schema.Composite :=
  { form := .object
    name := naming.typeName plan.service.home (plan.rootPath operation)
    fields := (plan.ofOperation operation).map (·.field naming)
    description := plan.service.comments }

def root? (naming : Naming) (plan : ServicePlan) (operation : Operation) :
    Option Schema.Composite :=
  if operation ∈ plan.operations then some (plan.root naming operation) else none

def roots (naming : Naming) (plan : ServicePlan) : List Schema.Composite :=
  plan.operations.map (plan.root naming)

/-- The extensions that make the root objects fields of the root types of the schema. -/
def extensions (naming : Naming) (plan : ServicePlan) : List Schema.Composite :=
  match naming.settings.rootPrefix with
  | none => []
  | some start =>
    plan.operations.map fun operation =>
      { form := .extension
        name := .text (start ++ operation.rootName)
        fields := [{
          name := naming.settings.methodName plan.service.name
          typeName := (plan.root naming operation).name
          modifiers := .required }] }

def loaders (plan : ServicePlan) : Table (List Options.Loader) :=
  Table.ofList ((plan.service.methods.filter (!·.loaders.isEmpty)).map fun method =>
    (method.name, method.loaders))

end ServicePlan

end Mapping

end ProtoSdl

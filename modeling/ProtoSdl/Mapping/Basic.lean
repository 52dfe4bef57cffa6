import ProtoSdl.Dependency.Graph
import ProtoSdl.Mapping.MessageTypes
import ProtoSdl.Mapping.ServiceTypes
import ProtoSdl.Walk

/-!
# Mappings

A mapping holds what the schema types of a compilation are made from. It is formed in passes, and
the first fault in their order is the one reported: the names of the enums; the names of the
messages, with every reference checked on the way; the bodies of the objects, in dependency order;
the bodies of the inputs that are needed; the plans of the services.
-/

namespace ProtoSdl

open Mapping

structure Mapping where
  settings : Settings
  catalog : Catalog
  /-- The messages in dependency order. -/
  order : List String
  /-- The bodies of the objects, in the order in which they were built. -/
  objects : Table Body := {}
  /-- The bodies of the inputs, in the order in which they were built. -/
  inputs : Table Body := {}
  /-- The messages whose objects were begun. -/
  begunObjects : List String := []
  /-- The messages whose inputs were begun. -/
  begunInputs : List String := []
  /-- The plans of the services that are not skipped. -/
  services : Table ServicePlan := {}
  /-- The names formed so far. -/
  formed : List Formed := []

namespace Mapping

def fieldReferences (catalog : Catalog) (message : Source.Message) : List (Walk.Step Fault) :=
  (message.fields.filter (·.kind = .message)).map fun field =>
    (catalog.message (message.memberName field.name) field.typeName).map (some ·.fullName)

def keyReferences (catalog : Catalog) (message : Source.Message) : List (Walk.Step Fault) :=
  message.slots.filterMap fun
    | .oneof _ _ => none
    | .field field => field.foreignKey.map fun key =>
      (catalog.message (message.memberName field.name) key.target).map (some ·.fullName)

/-- The references of a message to enums; there is nothing to visit behind them. -/
def enumReferences (catalog : Catalog) (message : Source.Message) : List (Walk.Step Fault) :=
  (message.fields.filter (·.kind = .enum)).map fun field =>
    (catalog.enum (message.memberName field.name) field.typeName).map fun _ => none

/-- The references that the types of a message make on one side of the schema. -/
def references (catalog : Catalog) (mode : Mode) (message : Source.Message) :
    List (Walk.Step Fault) :=
  match mode with
  | .object => fieldReferences catalog message ++ keyReferences catalog message
  | .input => fieldReferences catalog message

def visits (names : List String) : List (Walk.Step Fault) :=
  names.map fun name => .ok (some name)

def following (catalog : Catalog) (next : Source.Message → List (Walk.Step Fault))
    (name : String) : List (Walk.Step Fault) :=
  match catalog.messages.get? name with
  | some message => next message
  | none => []

/-- Names all messages, each before those it refers to, and checks all references. -/
def nameMessages (settings : Settings) (catalog : Catalog) : Except Fault (Table Source.Home) := do
  let visit (name : String) : Except Fault Source.Home := do
    let message ← catalog.message name name
    Naming.check settings message.home
    return message.home
  let next := following catalog fun message =>
    references catalog .object message ++ enumReferences catalog message
  return (← Walk.run catalog.messages.keys visit next [] {} (visits catalog.messages.keys)).2

/-- The names formed for a message before its types are built. -/
def messageFormed (catalog : Catalog) (name : String) : List Formed :=
  match catalog.messages.get? name with
  | none => []
  | some message =>
    let path : Name.TypePath := { segments := message.path, isMap := message.isMap }
    [⟨message.home.name, path⟩, ⟨message.home.name, { path with isInput := true }⟩]

def bodiesFormed (mode : Mode) (bodies : List Body) : List Formed :=
  bodies.flatMap fun body => (body.oneofPaths mode).map fun path => ⟨body.message.home.name, path⟩

def bodies (mapping : Mapping) : Mode → Table Body
  | .object => mapping.objects
  | .input => mapping.inputs

def begun (mapping : Mapping) : Mode → List String
  | .object => mapping.begunObjects
  | .input => mapping.begunInputs

/-- Builds the bodies of messages, and of all that their types refer to, unless they were begun. -/
def build (mapping : Mapping) (mode : Mode) (names : List String) : Except Fault Mapping := do
  let catalog := mapping.catalog
  let visit (name : String) : Except Fault Body := do
    Body.ofMessage mapping.settings catalog (← catalog.message name name)
  let next := following catalog (references catalog mode)
  let before := mapping.bodies mode
  let (begun, after) ← Walk.run catalog.messages.keys visit next (mapping.begun mode) before
    (visits names)
  let added := after.values.drop before.entries.length
  let formed := mapping.formed ++ bodiesFormed mode added
  match mode with
  | .object => return { mapping with objects := after, begunObjects := begun, formed }
  | .input => return { mapping with inputs := after, begunInputs := begun, formed }

/-- The requests of the mapped methods that have fields. -/
def requests (catalog : Catalog) : Except Fault (List Source.Message) := do
  let requests ← catalog.services.mapM fun service =>
    (service.methods.filter (·.isMapped)).mapM (requestOf catalog service)
  return requests.flatten.filter (!·.slots.isEmpty)

/-- The messages whose inputs are built, in dependency order. -/
def inputNames (mapping : Mapping) (graph : Dependency.Graph) : Except Fault (List String) :=
  match mapping.settings.inputMode with
  | .none => .ok []
  | .all => .ok mapping.order
  | .service => do return graph.orderBelow ((← requests mapping.catalog).map (·.fullName))

/-- Adds the plan of a service, and builds the inputs of the requests that are arguments. -/
def addService (mapping : Mapping) (service : Source.Service) : Except Fault Mapping := do
  let plan ← ServicePlan.ofService mapping.settings mapping.catalog service
  let mapping ← mapping.build .input plan.argumentNames
  return { mapping with
    services := mapping.services.insert service.fullName plan
    formed := mapping.formed ++ plan.operations.map fun operation =>
      ⟨service.home.name, plan.rootPath operation⟩ }

def ofCatalog (settings : Settings) (catalog : Catalog) : Except Fault Mapping := do
  let _ ← catalog.enums.values.mapM fun enum => Naming.check settings enum.home
  let named ← nameMessages settings catalog
  let graph := Dependency.Graph.ofMessages catalog.messages.values
  let order := graph.order
  let formed := catalog.enums.values.map (fun enum => ⟨enum.home.name, { segments := enum.path }⟩)
    ++ named.keys.flatMap (messageFormed catalog)
  let mapping : Mapping := { settings, catalog, order, formed }
  let mapping ← mapping.build .object order
  let mapping ← mapping.build .input (← mapping.inputNames graph)
  catalog.services.foldlM addService mapping

def ofDescriptors (settings : Settings) (index : Options.Index) (files : List Descriptor.File) :
    Except Fault Mapping := do
  ofCatalog settings (← Catalog.ofDescriptors index files)

def naming (mapping : Mapping) : Naming :=
  { settings := mapping.settings, formed := mapping.formed }

/-- The custom scalars in the order of their first use. -/
def scalars (mapping : Mapping) : List String :=
  Dependency.firstOccurrences
    (mapping.objects.values.flatMap (·.customScalars mapping.settings))

def orderIn (mapping : Mapping) (file : Source.File) : List String :=
  mapping.order.filter fun name =>
    (mapping.catalog.messages.get? name).any (·.home.position = file.home.position)

end Mapping

end ProtoSdl

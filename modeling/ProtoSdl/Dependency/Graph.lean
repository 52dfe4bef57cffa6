import ProtoSdl.Fault
import ProtoSdl.Source.Basic
import ProtoSdl.Table
import ProtoSdl.Walk

/-!
# Dependency graphs

A message depends on the message types of its fields. The nodes of a graph are its members in their
order, then the types outside it in the order in which they are first named. Every node has a
number. Nodes that depend on each other form one component, and the least number in it counts for
the whole. The order takes, again and again, the component of least number that depends on nothing
left.
-/

namespace ProtoSdl.Dependency

structure Member where
  name : String
  number : Nat
  types : List String
  deriving DecidableEq, Repr

/-- Members, each name once. -/
structure Graph where
  members : List Member

/-- Each item once, at its first place. -/
def firstOccurrences : List String → List String
  | [] => []
  | item :: items => item :: (firstOccurrences items).filter (· ≠ item)

namespace Graph

/-- A graph from a list in which members may be named again. A member stands at its first mention,
but its last mention counts, for its types as for its number, and each mention gives out as a number
how many members there are so far. Two members may share a number then. -/
def ofMentions (mentions : List (String × List String)) : Graph :=
  let numbered : Table (Nat × List String) :=
    mentions.foldl (fun table (name, types) => table.insert name (table.entries.length, types)) {}
  { members := numbered.entries.map fun (name, number, types) => { name, number, types } }

def ofMessages (messages : List Source.Message) : Graph :=
  ofMentions (messages.map fun message => (message.fullName, message.messageTypes))

def names (graph : Graph) : List String :=
  graph.members.map (·.name)

def member? (graph : Graph) (name : String) : Option Member :=
  graph.members.find? (·.name = name)

/-- The types that a node depends on; outside types depend on nothing. -/
def dependencies (graph : Graph) (name : String) : List String :=
  ((graph.member? name).map (·.types)).getD []

def dependents (graph : Graph) (name : String) : List String :=
  (graph.members.filter (·.types.contains name)).map (·.name)

/-- The types outside the graph, in the order of their first mention. -/
def outside (graph : Graph) : List String :=
  let names := graph.names
  (firstOccurrences (graph.members.flatMap (·.types))).filter (· ∉ names)

def nodes (graph : Graph) : List String :=
  graph.names ++ graph.outside

/-- The number of a node. Outside types are numbered from the number of members on. -/
def number (graph : Graph) (name : String) : Nat :=
  match graph.member? name with
  | some member => member.number
  | none => graph.members.length + graph.outside.idxOf name

/-- The closure of each node: itself and all that it depends on, directly or not. -/
def closures (graph : Graph) : Table (List String) :=
  let nodes := graph.nodes
  { entries := nodes.map fun name => (name, reach graph.dependencies nodes [] [name]) }

/-- The component of a node, itself included: the nodes that it depends on and that depend on it. -/
def componentOf (closures : Table (List String)) (name : String) : List String :=
  let below := (closures.get? name).getD []
  (closures.entries.filter fun (other, belowOther) =>
    below.contains other && belowOther.contains name).map (·.1)

/-- The nodes in the order in which a walk along the dependents of each leaves them. -/
def finished (graph : Graph) : List String :=
  let nodes := graph.nodes
  finishOrder graph.dependents nodes [] (nodes.map .enter)

/-- The components as the walk leaves the last node of each. -/
def foundComponents (graph : Graph) : List (List String) :=
  let closures := graph.closures
  let finished := graph.finished
  finished.filterMap fun name =>
    let component := componentOf closures name
    if (finished.filter (component.contains ·)).getLast? = some name then some component else none

def leastNumber (graph : Graph) (component : List String) : Nat :=
  ((component.map graph.number).min?).getD 0

/-- The components in the order of their least numbers, each in the order of its numbers. Of two
components with the same least number the one left first by the walk comes first. -/
def components (graph : Graph) : List (List String) :=
  let sorted := graph.foundComponents.map fun component =>
    component.mergeSort fun a b => graph.number a ≤ graph.number b
  sorted.mergeSort fun a b => graph.leastNumber a ≤ graph.leastNumber b

/-- Whether a component is a cycle: several nodes, or one that depends on itself. -/
def isCycle (graph : Graph) (component : List String) : Bool :=
  1 < component.length || component.any fun name => (graph.dependencies name).contains name

/-- The components of messages that cannot be ordered. -/
def cycles (graph : Graph) : List (List String) :=
  graph.components.filter graph.isCycle

/-- Whether a component depends on no other of those left. -/
def isReady (graph : Graph) (left : List (List String)) (component : List String) : Bool :=
  component.all fun name => (graph.dependencies name).all fun type =>
    component.contains type || !left.any (·.contains type)

/-- Takes the first ready component until none is left; there are `count` of them. -/
def takeReady (graph : Graph) : Nat → List (List String) → List (List String)
  | 0, _ => []
  | count + 1, left =>
    match left.find? (graph.isReady left) with
    | none => []
    | some component => component :: graph.takeReady count (left.filter (· ≠ component))

/-- The members such that each comes after those it depends on, as far as cycles allow. -/
def order (graph : Graph) : List String :=
  let components := graph.components
  let names := graph.names
  (graph.takeReady components.length components).flatten.filter (names.contains ·)

def order? (graph : Graph) : Except CycleError (List String) :=
  let cycles := graph.cycles
  if cycles.isEmpty then .ok graph.order else .error { cycles }

/-- The members that the roots depend on, roots included, in order. -/
def orderBelow (graph : Graph) (roots : List String) : List String :=
  let reached := reach graph.dependencies graph.names [] roots
  graph.order.filter (reached.contains ·)

end Graph

end ProtoSdl.Dependency

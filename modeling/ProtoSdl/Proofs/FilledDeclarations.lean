import ProtoSdl.Proofs.RootFields

/-! Nothing is declared without a body. A message that has no fields gets a placeholder, a oneof
without members is not declared, and a root exists only for methods that become its fields. So every
object, input and extension is printed with a field between its braces, and every union with a
member. -/
namespace ProtoSdl

namespace Schema

end Schema

namespace Mapping

open Outcome
open Schema (Declaration)

def MessageTypes.declarations (types : MessageTypes) : List Declaration :=
  types.composites.map .composite ++ types.oneofs.map (.union ·.union)

def ServiceTypes.declarations (types : ServiceTypes) : List Declaration :=
  (types.queries.toList ++ types.mutations.toList ++ types.subscriptions.toList ++ types.roots ++
    types.extensions).map .composite

section Bodies

variable {settings : Settings} {catalog : Catalog} {message : Source.Message} {body : Body}

end Bodies

section Plans

variable {plan : ServicePlan}

end Plans

end Mapping

end ProtoSdl

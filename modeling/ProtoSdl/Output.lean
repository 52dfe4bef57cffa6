import ProtoSdl.Mapping.Basic
import ProtoSdl.Schema.Printer

/-!
# Output

The schema files of a compilation. The declarations of a file are its enums, objects, inputs, root
objects and extensions, in this order. A custom scalar is declared in front of them by the first
file that refers to it. A file without declarations gives no output.
-/

namespace ProtoSdl.Output

open Schema (Declaration)

def fileName (name : String) : String :=
  Text.dropEnd ".proto" name ++ "_pb.graphql"

/-- The enums of a file as the catalog has them. -/
def sourceEnums (mapping : Mapping) (file : Source.File) : List Source.Enum :=
  file.enums.filterMap fun enum => mapping.catalog.enums.get? enum.fullName

def enums (mapping : Mapping) (file : Source.File) : List Schema.Enum :=
  (sourceEnums mapping file).map (Mapping.enumDeclaration mapping.naming)

def objects (mapping : Mapping) (file : Source.File) : List Declaration :=
  ((mapping.orderIn file).filterMap mapping.objects.get?).flatMap
    (·.objectDeclarations mapping.naming)

def inputs (mapping : Mapping) (file : Source.File) : List Declaration :=
  ((mapping.orderIn file).filterMap mapping.inputs.get?).flatMap
    (·.inputDeclarations mapping.naming)

def plans (mapping : Mapping) (file : Source.File) : List Mapping.ServicePlan :=
  file.services.filterMap fun service => mapping.services.get? service.fullName

def roots (mapping : Mapping) (file : Source.File) : List Declaration :=
  (plans mapping file).flatMap fun plan => (plan.roots mapping.naming).map .composite

def extensions (mapping : Mapping) (file : Source.File) : List Declaration :=
  (plans mapping file).flatMap fun plan => (plan.extensions mapping.naming).map .composite

/-- The declarations of a file apart from scalars and enums. -/
def bodyDeclarations (mapping : Mapping) (file : Source.File) : List Declaration :=
  objects mapping file ++ inputs mapping file ++ roots mapping file ++ extensions mapping file

def references (mapping : Mapping) (file : Source.File) : List Schema.TypeName :=
  (bodyDeclarations mapping file).flatMap (·.references)

/-- The custom scalars among names, each once and without those already declared. Names are looked
up in order, which ends at a name that is a list. -/
def newScalars (mapping : Mapping) (declared : List String) (names : List Schema.TypeName) :
    List String :=
  let custom := mapping.scalars
  Dependency.firstOccurrences ((Schema.TypeName.leadingTexts names).filter fun name =>
    custom.contains name && !declared.contains name)

def declaredAfter (mapping : Mapping) (declared : List String) (name : String) : List String :=
  match mapping.catalog.files.get? name with
  | none => declared
  | some file => declared ++ newScalars mapping declared (references mapping file)

/-- The declarations of a file with the given enums, after the scalars that the file declares. A
type whose name is a list cannot be looked up. -/
def declarationsWith (mapping : Mapping) (declared : List String) (file : Source.File)
    (enums : List Schema.Enum) : Except Fault (List Declaration) :=
  let names := references mapping file
  if names.any (·.isList) then .error (.defect .wrongKind)
  else
    let scalars := newScalars mapping declared names
    .ok (scalars.map (fun name => .scalar { name }) ++ enums.map .enum
      ++ bodyDeclarations mapping file)

def findFile (mapping : Mapping) (name : String) : Except Fault Source.File :=
  match mapping.catalog.files.get? name with
  | none => .error (.mapping (.unknownFile name))
  | some file => .ok file

def fileDeclarations (mapping : Mapping) (declared : List String) (name : String) :
    Except Fault (List Declaration) := do
  let file ← findFile mapping name
  declarationsWith mapping declared file (enums mapping file)

/-- Whether a file has an enum value that is deprecated and cannot be marked so. -/
def hasUnmarkable (mapping : Mapping) (file : Source.File) : Bool :=
  (sourceEnums mapping file).any fun enum =>
    (Mapping.shownValues enum).any fun value => value.isDeprecated && !Mapping.isMarkable value

/-- Prints enums one after the other, given the marks set so far, and gives the marks set then. -/
def printEnums (naming : Mapping.Naming) (marked : List String) :
    List Source.Enum → List Schema.Enum × List String
  | [] => ([], marked)
  | enum :: enums =>
    let marked := marked ++ Mapping.marks enum
    let (printed, after) := printEnums naming marked enums
    (Mapping.printedEnum naming marked enum :: printed, after)

/-- What earlier files leave to later ones: the scalars they declared and the marks on the names of
enum values. -/
structure Progress where
  declared : List String := []
  marked : List String := []

/-- The declarations of a file as they are printed, and the progress after it. -/
def printFile (mapping : Mapping) (progress : Progress) (name : String) :
    Except Fault (List Declaration × Progress) := do
  let file ← findFile mapping name
  let (enums, marked) := printEnums mapping.naming progress.marked (sourceEnums mapping file)
  let declarations ← declarationsWith mapping progress.declared file enums
  if hasUnmarkable mapping file then .error (.defect .wrongKind)
  else
    return (declarations, { declared := declaredAfter mapping progress.declared name, marked })

/-- Writes the schema files of the named source files, after those already written. -/
def write (mapping : Mapping) (progress : Progress) (outputs : Table String) :
    List String → Except Fault (Table String)
  | [] => .ok outputs
  | name :: names => do
    let (declarations, progress) ← printFile mapping progress name
    let outputs :=
      if declarations.isEmpty then outputs
      else outputs.insert (fileName name) (Schema.schemaText declarations)
    write mapping progress outputs names

def generate (settings : Settings) (index : Options.Index) (files : List Descriptor.File)
    (names : List String) : Except Fault (Table String) := do
  write (← Mapping.ofDescriptors settings index files) {} {} names

end ProtoSdl.Output

import ProtoSdl.Mapping.FieldType
import ProtoSdl.Schema.Printer

/-!
# Types of a message

A message becomes an object and, where one is needed, an input. A oneof becomes a union of objects
that wrap its members, and an input with all members side by side. No type is without fields: a
message that has none gets a placeholder.
-/

namespace ProtoSdl.Mapping

/-- The only field of the types of a message without fields. -/
def placeholder : Schema.Field :=
  { name := "_", typeName := Schema.BuiltIn.boolean.name }

/-- The field that tells which member of a oneof is set. -/
def discriminator : Schema.Field :=
  { name := "case", typeName := Schema.BuiltIn.string.name, modifiers := .required }

namespace Body

def oneofPath (body : Body) (mode : Mode) (oneof : String) : Name.TypePath :=
  { segments := body.message.path ++ [oneof], isInput := mode = .input }

def wrapperPath (body : Body) (oneof member : String) : Name.TypePath :=
  { segments := body.message.path ++ [oneof, member] }

/-- The name of a type whose path starts at the message. -/
def nameOf (naming : Naming) (body : Body) (path : Name.TypePath) : Schema.TypeName :=
  naming.typeName body.message.home path

def memberFields (naming : Naming) (mode : Mode) (body : Body) : Member → List Schema.Field
  | .plain typed companion =>
    typed.declare naming mode body.message ::
      match mode with
      | .object => (companion.map (·.declare naming typed.field)).toList
      | .input => []
  | .oneof place comments =>
    [{ name := naming.settings.fieldName place.oneof
       typeName := body.nameOf naming (body.oneofPath mode place.oneof)
       description := comments }]

def fields (naming : Naming) (mode : Mode) (body : Body) : List Schema.Field :=
  if body.members.isEmpty then [placeholder]
  else body.members.flatMap (body.memberFields naming mode)

def object (naming : Naming) (body : Body) : Schema.Composite :=
  { form := .object
    name := naming.object body.message
    fields := body.fields naming .object
    description := body.message.comments }

def input (naming : Naming) (body : Body) : Schema.Composite :=
  { form := .input
    name := naming.input body.message
    fields := body.fields naming .input
    description := body.message.comments }

def wrapper (naming : Naming) (body : Body) (choice : Choice) (member : TypedField) :
    Schema.Composite :=
  { form := .object
    name := body.nameOf naming (body.wrapperPath choice.oneof.name member.field.name)
    fields := [discriminator, member.declare naming .object body.message]
    description := member.field.comments }

def choiceWrappers (naming : Naming) (body : Body) (choice : Choice) : List Schema.Composite :=
  choice.members.map (body.wrapper naming choice)

def choiceUnion (naming : Naming) (body : Body) (choice : Choice) : Schema.Union :=
  { name := body.nameOf naming (body.oneofPath .object choice.oneof.name)
    members := (body.choiceWrappers naming choice).map (·.name)
    description := choice.comments }

def choiceInput (naming : Naming) (body : Body) (choice : Choice) : Schema.Composite :=
  { form := .input
    name := body.nameOf naming (body.oneofPath .input choice.oneof.name)
    fields := choice.members.map (·.declare naming .input body.message) }

/-- The declarations of a message on the answering side. -/
def objectDeclarations (naming : Naming) (body : Body) : List Schema.Declaration :=
  .composite (body.object naming) :: body.choices.flatMap fun choice =>
    .union (body.choiceUnion naming choice) :: (body.choiceWrappers naming choice).map .composite

/-- The declarations of a message on the giving side. -/
def inputDeclarations (naming : Naming) (body : Body) : List Schema.Declaration :=
  .composite (body.input naming) ::
    body.choices.map fun choice => .composite (body.choiceInput naming choice)

/-- The paths of the names formed for the oneofs of a message, in order. -/
def oneofPaths (mode : Mode) (body : Body) : List Name.TypePath :=
  let slots := body.members.filterMap fun
    | .plain _ _ => none
    | .oneof place _ => some (body.oneofPath mode place.oneof)
  let choices := body.choices.flatMap fun choice =>
    match mode with
    | .object =>
      choice.members.map (fun member => body.wrapperPath choice.oneof.name member.field.name)
        ++ [body.oneofPath .object choice.oneof.name]
    | .input => [body.oneofPath .input choice.oneof.name]
  slots ++ choices

end Body

/-- The values of an enum, without those that the options skip. -/
def shownValues (enum : Source.Enum) : List Source.EnumValue :=
  enum.values.filter (!·.skip.isSet)

/-- The text of a name that may be any value. -/
def nameText : Json → String
  | .text text => text
  | other => other.display

/-- Whether a mark can follow the name of an enum value: the name must be a text, or a list of
texts. -/
def isMarkable (value : Source.EnumValue) : Bool :=
  match value.displayName with
  | .text _ => true
  | .list _ => true
  | _ => false

def enumDeclaration (naming : Naming) (enum : Source.Enum) : Schema.Enum :=
  { name := naming.enum enum
    values := (shownValues enum).map fun value =>
      { name := nameText value.displayName
        directives := Schema.deprecation value.isDeprecated
        description := value.comments }
    description := enum.comments }

/-- The identity of an enum value, under which its options stand. -/
def valueIdentity (enum : Source.Enum) (value : Source.EnumValue) : String :=
  enum.fullName ++ "." ++ value.name

/-- Whether the name of an enum value is a list that takes up the marks of the value. -/
def takesMarks (value : Source.EnumValue) : Bool :=
  match value.displayName with
  | .list _ => value.isDeprecated
  | _ => false

/-- The identities of the values that take up a mark each time their enum is printed. -/
def marks (enum : Source.Enum) : List String :=
  ((shownValues enum).filter takesMarks).map (valueIdentity enum)

/-- A name after so many marks: a list has the characters of each mark at its end. -/
def markedName (count : Nat) : Json → Json
  | .list items =>
    let mark := Schema.directivesText (Schema.deprecation true)
    .list (items ++ (List.replicate count mark).flatMap fun mark =>
      mark.toList.map fun c => .text (String.singleton c))
  | other => other

/-- The declaration of an enum as it is printed, given the marks that were set so far. -/
def printedEnum (naming : Naming) (marked : List String) (enum : Source.Enum) : Schema.Enum :=
  { enumDeclaration naming enum with
    values := (shownValues enum).map fun value =>
      { name := nameText (markedName (marked.count (valueIdentity enum value)) value.displayName)
        directives := Schema.deprecation (value.isDeprecated && !takesMarks value)
        description := value.comments } }

end ProtoSdl.Mapping

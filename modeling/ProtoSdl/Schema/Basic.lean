import ProtoSdl.Json.Basic

/-!
# Schema declarations

The declarations of a GraphQL schema as data: scalars, composites (objects, extensions of objects
and inputs), enums and unions, with the names they declare and the names they refer to.
-/

namespace ProtoSdl.Schema

/-- The name of a type. A list of values is a name of its own, other than the text it is written
as. -/
inductive TypeName
  | text (value : String)
  | list (items : List Json)
  deriving DecidableEq, Repr

instance : Coe String TypeName := ⟨TypeName.text⟩

namespace TypeName

def written : TypeName → String
  | text value => value
  | list items => (Json.list items).display

def isList : TypeName → Bool
  | text _ => false
  | list _ => true

/-- The names in front of the first one that is a list. -/
def leadingTexts : List TypeName → List String
  | text value :: names => value :: leadingTexts names
  | _ => []

end TypeName

/-- Marks on a type reference. In a list, `nonNull` speaks of the items and `nonNullList` of the
list itself. -/
structure Modifiers where
  nonNull : Bool := false
  list : Bool := false
  nonNullList : Bool := false
  deriving DecidableEq, Repr

def Modifiers.nullable : Modifiers := {}

def Modifiers.required : Modifiers := { nonNull := true }

structure Argument where
  name : String
  typeName : TypeName
  modifiers : Modifiers := {}
  default : String := ""
  deriving DecidableEq, Repr

structure Field where
  name : String
  typeName : TypeName
  modifiers : Modifiers := {}
  arguments : List Argument := []
  directives : List String := []
  description : String := ""
  deriving DecidableEq, Repr

structure EnumValue where
  name : String
  directives : List String := []
  description : String := ""
  deriving DecidableEq, Repr

inductive Form
  | object
  | extension
  | input
  deriving DecidableEq, Repr

structure Composite where
  form : Form
  name : TypeName
  fields : List Field := []
  description : String := ""
  deriving DecidableEq, Repr

structure Scalar where
  name : String
  description : String := ""
  deriving DecidableEq, Repr

structure Enum where
  name : TypeName
  values : List EnumValue := []
  description : String := ""
  deriving DecidableEq, Repr

structure Union where
  name : TypeName
  members : List TypeName := []
  description : String := ""
  deriving DecidableEq, Repr

inductive Declaration
  | scalar (scalar : Scalar)
  | composite (composite : Composite)
  | enum (enum : Enum)
  | union (union : Union)
  deriving DecidableEq, Repr

/-- The names of the scalars that need no declaration. -/
inductive BuiltIn
  | int
  | float
  | string
  | boolean
  deriving DecidableEq, Repr

def BuiltIn.name : BuiltIn → String
  | int => "Int"
  | float => "Float"
  | string => "String"
  | boolean => "Boolean"

def deprecated : String := "deprecated"

def deprecation (isDeprecated : Bool) : List String :=
  if isDeprecated then [deprecated] else []

/-- The types a field refers to: its own, then those of its arguments. -/
def Field.references (field : Field) : List TypeName :=
  field.typeName :: field.arguments.map (·.typeName)

namespace Declaration

def name : Declaration → TypeName
  | scalar s => s.name
  | composite c => c.name
  | enum e => e.name
  | union u => u.name

/-- The fields of a declaration; only composites have any. -/
def fields : Declaration → List Field
  | composite c => c.fields
  | scalar _ => []
  | enum _ => []
  | union _ => []

def references (declaration : Declaration) : List TypeName :=
  declaration.fields.flatMap Field.references

end Declaration

end ProtoSdl.Schema

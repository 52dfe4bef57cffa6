import ProtoSdl.Fault
import ProtoSdl.Table

/-!
# The index of options

Options are looked up by the identity of the declaration they belong to: a file by its name, a
service by its qualified name, and fields, enum values and methods by the qualified name of their
parent and their own name. Values are kept as they were given and fail only where they are used.
-/

namespace ProtoSdl.Options

structure FileNote where
  nameSpace : Json := .text ""

structure FieldNote where
  foreignKey : Json := .text ""

structure EnumValueNote where
  name : Json := .text ""
  skip : Json := .bool false
  deprecated : Json := .bool false

structure ServiceNote where
  skip : Json := .bool false

structure MethodNote where
  operation : Json := .text ""
  skip : Json := .bool false
  loadOne : Json := .text ""
  loadMany : Json := .text ""

structure Index where
  files : Table FileNote := {}
  fields : Table FieldNote := {}
  enumValues : Table EnumValueNote := {}
  services : Table ServiceNote := {}
  methods : Table MethodNote := {}

namespace Index

def file (index : Index) (name : String) : FileNote := (index.files.get? name).getD {}

def field (index : Index) (name : String) : FieldNote := (index.fields.get? name).getD {}

def enumValue (index : Index) (name : String) : EnumValueNote :=
  (index.enumValues.get? name).getD {}

def service (index : Index) (name : String) : ServiceNote := (index.services.get? name).getD {}

def method (index : Index) (name : String) : MethodNote := (index.methods.get? name).getD {}

end Index

/-- The value of a number or truth value, for comparison. -/
def value? : Json → Option Decimal.Extended
  | .bool value => some (.fraction (if value then 1 else 0) 1)
  | .int value => some (.fraction value 1)
  | .decimal value => value.value?
  | _ => none

/-- Whether two names of sections are the same: texts by their characters, numbers by their value.
What is no number is the same as itself. -/
def sameName (a b : Json) : Bool :=
  match a, b with
  | .text a, .text b => a = b
  | .null, .null => true
  | .decimal .nan, .decimal .nan => true
  | a, b =>
    match value? a, value? b with
    | some x, some y => x.le y && y.le x
    | _, _ => false

def notAfter (a b : Json) : Bool :=
  match a, b with
  | .text a, .text b => !(b < a)
  | a, b =>
    match value? a, value? b with
    | some x, some y => x.le y
    | _, _ => true

def distinctNames : List Json → List Json
  | [] => []
  | name :: names => name :: (distinctNames names).filter (!sameName name ·)

def isText : Json → Bool
  | .text _ => true
  | _ => false

def isNumber : Json → Bool
  | .bool _ => true
  | .int _ => true
  | .decimal _ => true
  | _ => false

/-- Whether names can be put in order: one alone always, several if all are texts or all are
numbers. -/
def areSortable (names : List Json) : Bool :=
  names.length ≤ 1 || names.all isText || names.all isNumber

/-- Whether a value can name a section: a list or an object cannot. -/
def isName : Json → Bool
  | .list _ => false
  | .object _ => false
  | _ => true

/-- The names of the sections that a document has: the keys of an object, the items of a list, the
characters of a text. -/
def sectionNames : Json → Except Fault (List Json)
  | .object entries => .ok (entries.map fun entry => .text entry.1)
  | .list items => if items.all isName then .ok items else .error (.defect .wrongKind)
  | .text text => .ok (text.toList.map fun c => .text (String.singleton c))
  | _ => .error (.defect .wrongKind)

def isSectionName : Json → Bool
  | .text name => Section.all.any (·.key = name)
  | _ => false

def checkSections (names : List Json) : Except Fault Unit :=
  let unknown := distinctNames (names.filter (!isSectionName ·))
  if unknown.isEmpty then .ok ()
  else if areSortable unknown then
    .error (.options (.unknownSections ((unknown.mergeSort notAfter).map Json.display)))
  else .error (.defect .wrongKind)

/-- The first key of an entry that it may not have. -/
def entryFault? (place : Section) (keys : List String) : Option EntryFault :=
  keys.findSome? fun key =>
    if key = "self" then some (.reservedKey key)
    else if place.entryKeys.contains key then none
    else some (.unknownKey key)

/-- The values of an entry, after its keys were found good. -/
def entryValues (place : Section) (identity : String) : Json →
    Except Fault (List (String × Json))
  | .object entries =>
    match entryFault? place (entries.map (·.1)) with
    | some fault => .error (.options (.badEntry place identity fault))
    | none => .ok entries
  | value => .error (.options (.badEntry place identity (.notObject value.kindName)))

/-- The entries of a section; one that is not set is empty. -/
def sectionEntries (document : List (String × Json)) (place : Section) :
    Except Fault (List (String × Json)) :=
  match Json.entry? place.key document with
  | none => .ok []
  | some value =>
    if value.isSet then
      match value with
      | .object entries => .ok entries
      | _ => .error (.defect .noSuchOperation)
    else .ok []

def readSection {α : Type} (document : List (String × Json)) (place : Section)
    (note : List (String × Json) → α) : Except Fault (Table α) := do
  let entries ← sectionEntries document place
  let notes ← entries.mapM fun (identity, value) => do
    return (identity, note (← entryValues place identity value))
  return Table.ofList notes

def valueOr (key : String) (default : Json) (values : List (String × Json)) : Json :=
  (Json.entry? key values).getD default

def Index.ofDocument (document : Json) : Except Fault Index := do
  checkSections (← sectionNames document)
  match document with
  | .object sections => do
    let files ← readSection sections .files fun values =>
      { nameSpace := valueOr "namespace" (.text "") values : FileNote }
    let fields ← readSection sections .fields fun values =>
      { foreignKey := valueOr "foreign_key" (.text "") values : FieldNote }
    let enumValues ← readSection sections .enumValues fun values =>
      { name := valueOr "name" (.text "") values
        skip := valueOr "skip" (.bool false) values
        deprecated := valueOr "deprecated" (.bool false) values : EnumValueNote }
    let services ← readSection sections .services fun values =>
      { skip := valueOr "skip" (.bool false) values : ServiceNote }
    let methods ← readSection sections .methods fun values =>
      { operation := valueOr "operation" (.text "") values
        skip := valueOr "skip" (.bool false) values
        loadOne := valueOr "load_one" (.text "") values
        loadMany := valueOr "load_many" (.text "") values : MethodNote }
    return { files, fields, enumValues, services, methods }
  | _ => .error (.defect .noSuchOperation)

end ProtoSdl.Options

import ProtoSdl.Fault

/-!
# Foreign keys and loaders

An option can name the message that a key field refers to, and the way in which a method loads
a message. Both are short texts of parts between colons.
-/

namespace ProtoSdl.Options

/-- The object that a key field refers to, and the name of the field that shows it. -/
structure ForeignKey where
  target : String
  fieldName : String
  deriving DecidableEq, Repr

/-- How a method loads a message, alone or many at once, by paths into its request, its response
and the loaded object. -/
structure Loader where
  target : String
  many : Bool
  requestPath : List String
  responsePath : List String
  keyPath : List String
  deriving DecidableEq, Repr

def qualify (name : String) : String :=
  if name.toList.head? = some '.' then name else "." ++ name

/-- The foreign key of a text: a message and a field name. -/
def ForeignKey.ofText (text : String) : Except Error (Option ForeignKey) :=
  if text = "" then .ok none
  else match Text.split ':' text with
    | [target, fieldName] => .ok (some { target := qualify target, fieldName })
    | _ => .error (.badForeignKey text)

/-- The loader of a text: a message and three paths. -/
def Loader.ofText (many : Bool) (text : String) : Except Error (Option Loader) :=
  if text = "" then .ok none
  else match Text.split ':' text with
    | [target, request, response, key] =>
      .ok (some {
        target := qualify target
        many
        requestPath := Text.split '.' request
        responsePath := Text.split '.' response
        keyPath := Text.split '.' key })
    | _ => .error (.badLoader text)

/-- Reads the value of an option as text, where one is given. -/
def readText {α : Type} (read : String → Except Error (Option α)) (value : Json) :
    Except Fault (Option α) :=
  if value.isSet then
    match value with
    | .text text => (read text).mapError Fault.options
    | _ => .error (.defect .noSuchOperation)
  else .ok none

def ForeignKey.ofValue (value : Json) : Except Fault (Option ForeignKey) :=
  readText ForeignKey.ofText value

def Loader.ofValue (many : Bool) (value : Json) : Except Fault (Option Loader) :=
  readText (Loader.ofText many) value

end ProtoSdl.Options

import ProtoSdl.Fault
import ProtoSdl.Name.TypeName
import ProtoSdl.Schema.Basic
import ProtoSdl.Source.Basic

/-!
# Naming

The names of schema types. The stem of a file's names is its namespace option where that is a text,
and its package where no namespace is given. A namespace that is a list has no stem of its own: each
name formed in the file appends its letters to the list, and the whole list is the one name of all
types of the file. No other value can be a namespace.
-/

namespace ProtoSdl.Mapping

/-- A name that was formed: the file it belongs to and what it adds to the stem. -/
structure Formed where
  file : String
  path : Name.TypePath

/-- What the names of a compilation depend on: the settings, and the names formed so far. -/
structure Naming where
  settings : Settings
  formed : List Formed := []

namespace Naming

/-- The letters that the names formed in a file have appended. -/
def letters (naming : Naming) (file : String) : List Char :=
  (naming.formed.filter (·.file = file)).flatMap (·.path.extension)

def grown (naming : Naming) (file : String) (items : List Json) : List Json :=
  items ++ (naming.letters file).map fun letter => .text (String.singleton letter)

def typeName (naming : Naming) (home : Source.Home) (path : Name.TypePath) :
    Schema.TypeName :=
  match home.nameSpace with
  | .list (item :: items) => .list (naming.grown home.name (item :: items))
  | .text space => Name.typeName naming.settings.trim (Name.stem space home.package) path
  | _ => Name.typeName naming.settings.trim (Name.packageStem home.package) path

/-- Refuses a file whose namespace option allows no names. -/
def check (settings : Settings) (home : Source.Home) : Except Fault Unit :=
  if home.nameSpace.isSet then
    match home.nameSpace with
    | .text _ => .ok ()
    | .list _ => if settings.trim = "" then .ok () else .error (.defect .noSuchOperation)
    | _ => .error (.defect .wrongKind)
  else .ok ()

def object (naming : Naming) (message : Source.Message) : Schema.TypeName :=
  naming.typeName message.home { segments := message.path, isMap := message.isMap }

def input (naming : Naming) (message : Source.Message) : Schema.TypeName :=
  naming.typeName message.home { segments := message.path, isMap := message.isMap, isInput := true }

def enum (naming : Naming) (enum : Source.Enum) : Schema.TypeName :=
  naming.typeName enum.home { segments := enum.path }

end Naming

end ProtoSdl.Mapping

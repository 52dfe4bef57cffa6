import ProtoSdl.Name.Words
import ProtoSdl.Text.Quoted
import ProtoSdl.Text.Split

/-!
# Settings

The settings of a compilation, read from a text of `key=value` parts between commas. A later part
wins over an earlier one of its key, and empty parts are skipped.
-/

namespace ProtoSdl

inductive InputMode
  /-- None; methods whose request has fields are left out. -/
  | none
  /-- Those that the mapped methods need. -/
  | service
  /-- All. -/
  | all
  deriving DecidableEq, Repr

inductive LongType
  | string
  | number
  deriving DecidableEq, Repr

inductive MemberNaming
  | lowerCamel
  | preserve
  deriving DecidableEq, Repr

structure Settings where
  /-- The scalar that stands for timestamps. -/
  timestamp : Option String := none
  /-- The scalar that stands for durations. -/
  duration : Option String := none
  /-- The scalar that stands for free-form structures. -/
  struct : Option String := none
  /-- Whether wrapper messages are nullable scalars. -/
  nullWrappers : Bool := false
  inputMode : InputMode := .service
  longType : LongType := .string
  /-- The start of the names of the root types to extend; without it none is extended. -/
  rootPrefix : Option String := none
  memberNaming : MemberNaming := .lowerCamel
  /-- A start to cut off type names. -/
  trim : String := ""
  /-- The path of the options document. -/
  optionsPath : String := ""
  deriving DecidableEq, Repr

namespace Settings

inductive Error
  | missingType (key : String)
  | missingPath
  | badChoice (key value : String) (allowed : List String)
  | unknownKey (key : String)
  deriving DecidableEq, Repr

def Error.message : Error → String
  | missingType key => "missing type for " ++ key
  | missingPath => "missing path for options"
  | badChoice key value allowed =>
    "invalid value for " ++ key ++ ": " ++ Text.quote value ++ ", expected one of "
      ++ ", ".intercalate allowed
  | unknownKey key => "unknown parameter: " ++ key

def inputModes : List (String × InputMode) :=
  [("none", .none), ("service", .service), ("all", .all)]

def longTypes : List (String × LongType) :=
  [("string", .string), ("number", .number)]

def memberNamings : List (String × MemberNaming) :=
  [("lower_camel_case", .lowerCamel), ("preserve", .preserve)]

def wordOf {α : Type} [DecidableEq α] (words : List (String × α)) (choice : α) : String :=
  ((words.find? (·.2 = choice)).map (·.1)).getD ""

def choose {α : Type} (key : String) (words : List (String × α)) (value : String) :
    Except Error α :=
  match words.find? (·.1 = value) with
  | some (_, choice) => .ok choice
  | none => .error (.badChoice key value (words.map (·.1)))

def require (error : Error) (value : String) : Except Error String :=
  if value = "" then .error error else .ok value

def set (settings : Settings) (key value : String) : Except Error Settings :=
  match key with
  | "timestamp" => do return { settings with timestamp := ← require (.missingType key) value }
  | "duration" => do return { settings with duration := ← require (.missingType key) value }
  | "struct" => do return { settings with struct := ← require (.missingType key) value }
  | "null_wrappers" => .ok { settings with nullWrappers := true }
  | "input_mode" => do return { settings with inputMode := ← choose key inputModes value }
  | "js_64bit_type" => do return { settings with longType := ← choose key longTypes value }
  | "root_type_prefix" => .ok { settings with rootPrefix := value }
  | "field_name" => do return { settings with memberNaming := ← choose key memberNamings value }
  | "trim_prefix" => .ok { settings with trim := value }
  | "options" => do return { settings with optionsPath := ← require .missingPath value }
  | _ => .error (.unknownKey key)

def applyParts (settings : Settings) : List String → Except Error Settings
  | [] => .ok settings
  | part :: parts =>
    if part = "" then settings.applyParts parts
    else do
      let (key, value) := Text.cut '=' part
      (← settings.set key value).applyParts parts

def ofText (text : String) : Except Error Settings :=
  ({} : Settings).applyParts (Text.split ',' text)

def fieldName (settings : Settings) (name : String) : String :=
  match settings.memberNaming with
  | .preserve => name
  | .lowerCamel => String.ofList (Name.underscoreToLowerCamel name.toList)

/-- The name of a method or service after the chosen naming. -/
def methodName (settings : Settings) (name : String) : String :=
  match settings.memberNaming with
  | .preserve => name
  | .lowerCamel => String.ofList (Name.capitalToLowerCamel name.toList)

end Settings

end ProtoSdl

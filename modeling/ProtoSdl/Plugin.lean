import ProtoSdl.Options.Document
import ProtoSdl.Output

/-!
# Plugins

The compiler as a plugin of a protobuf compiler: a request with described files is answered by
schema files, or by the message of a diagnostic. A response never has both.
-/

namespace ProtoSdl.Plugin

structure Request where
  /-- All files, each with what it imports. -/
  files : List Descriptor.File := []
  /-- The names of the files to generate schema files for. -/
  names : List String := []
  /-- The text of the settings. -/
  parameter : String := ""

structure Response where
  error : Option String := none
  /-- The names and contents of the schema files. -/
  files : List (String × String) := []
  deriving DecidableEq, Repr

/-- The one feature of the plugin protocol that is supported: optional fields of the third
version. -/
def supportedFeatures : Nat := 1

/-- The schema files of a request. The options document is read by `read`, and a limit to its levels
may be given. -/
def compile (read : String → Except ReadError String) (request : Request)
    (limit : Option Nat := none) : Except Fault (Table String) := do
  let settings ← (Settings.ofText request.parameter).mapError Fault.settings
  let path := settings.optionsPath
  let index ← Options.Index.ofContent path (read path) limit
  Output.generate settings index request.files request.names

/-- The answer to a request; only a defect leaves it without one. -/
def respond (read : String → Except ReadError String) (request : Request)
    (limit : Option Nat := none) : Except Defect Response :=
  match compile read request limit with
  | .ok outputs => .ok { files := outputs.entries }
  | .error (.diagnostic diagnostic) => .ok { error := some diagnostic.message }
  | .error (.defect defect) => .error defect

def name : String := "protoc-gen-graphql"

def corruptRequest : String :=
  name ++ ": error parsing input: Error parsing message with type "
    ++ "'google.protobuf.compiler.CodeGeneratorRequest': Wire format was corrupt\n"

end ProtoSdl.Plugin

import ProtoSdl.Options.Error
import ProtoSdl.Json.Basic
import ProtoSdl.Settings

/-!
# Faults

The causes for which a compilation fails. A diagnostic explains itself to the reader of the
compiler's output; a defect is a use of a value for which no diagnostic exists.
-/

namespace ProtoSdl

/-- Why declarations have no schema. A referrer is the qualified name of the field or method that
holds the reference. -/
inductive MappingError
  | unknownMessage (referrer name : String)
  | unknownEnum (referrer name : String)
  | unexpectedKind (referrer kindName : String)
  /-- The operation is shown as it stands in the message. -/
  | unknownOperation (referrer shown : String)
  | unknownFile (name : String)
  deriving DecidableEq, Repr

def MappingError.message : MappingError → String
  | unknownMessage referrer name => referrer ++ ": unknown message type " ++ name
  | unknownEnum referrer name => referrer ++ ": unknown enum type " ++ name
  | unexpectedKind referrer kindName =>
    referrer ++ ": unexpected protobuf descriptor type: TYPE_" ++ kindName
  | unknownOperation referrer shown => referrer ++ ": unknown operation " ++ shown
  | unknownFile name => "file to generate " ++ name ++ " is not among the input files"

/-- Sets of messages that depend on each other, so that no order has each after those it needs. -/
structure CycleError where
  cycles : List (List String)
  deriving DecidableEq, Repr

def CycleError.message (e : CycleError) : String :=
  "messages contain unorderable cycles: "
    ++ (Json.list (e.cycles.map fun cycle => .list (cycle.map .text))).display

/-- A failure that the compiler explains. -/
inductive Diagnostic
  | settings (error : Settings.Error)
  | options (error : Options.Error)
  | cycle (error : CycleError)
  | mapping (error : MappingError)
  deriving DecidableEq, Repr

def Diagnostic.message : Diagnostic → String
  | settings error => error.message
  | options error => error.message
  | cycle error => error.message
  | mapping error => error.message

/-- A failure without an explanation. -/
inductive Defect
  /-- An index that points at nothing. -/
  | indexOutOfRange
  /-- A key that is not there. -/
  | missingKey
  /-- The value of an option, of a kind that its use does not allow. -/
  | wrongKind
  /-- The value of an option, without the operation that its use needs. -/
  | noSuchOperation
  /-- A oneof whose members name it only from the end. -/
  | unplacedOneof
  /-- A path that no file can have. -/
  | unusablePath
  /-- What is no text: the bytes of a file, or half of a surrogate pair. -/
  | notText
  /-- A number with too many digits. -/
  | tooManyDigits
  /-- A document nested too deeply, found at a list or at an object. -/
  | nestedTooDeeply (cause : Json.SyntaxCause)
  deriving DecidableEq, Repr

inductive Fault
  | diagnostic (diagnostic : Diagnostic)
  | defect (defect : Defect)
  deriving DecidableEq, Repr

namespace Fault

def settings (error : Settings.Error) : Fault := diagnostic (.settings error)

def options (error : Options.Error) : Fault := diagnostic (.options error)

def mapping (error : MappingError) : Fault := diagnostic (.mapping error)

end Fault

end ProtoSdl

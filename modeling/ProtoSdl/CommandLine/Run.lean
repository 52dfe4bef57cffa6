import ProtoSdl.CommandLine.Usage
import ProtoSdl.Options.Document
import ProtoSdl.Output

/-!
# Runs of the command line

What the program does with its arguments, apart from how files are read and written. These
operations come from a host: a tree of files in memory, or the file system.
-/

namespace ProtoSdl.CommandLine

inductive DecodeError
  | path (error : PathError)
  | corrupt
  deriving DecidableEq, Repr

def corruptSet : String :=
  "Error parsing message with type 'google.protobuf.FileDescriptorSet': Wire format was corrupt"

/-- The operations on files that a run needs. -/
structure Host (m : Type → Type) where
  readText : String → m (Except ReadError String)
  readDescriptors : String → m (Except DecodeError (List Descriptor.File))
  /-- Whether a path leads to something. -/
  leads : String → m Bool
  /-- Whether a path leads to a directory. -/
  leadsToDirectory : String → m Bool
  /-- Makes one directory. -/
  makeDirectory : String → m (Except PathError Unit)
  write : String → String → m (Except PathError Unit)
  /-- How many levels a document may have, if there is a limit. -/
  levels : Option Nat := none

/-- What a run leaves behind apart from files. -/
structure Outcome where
  exit : Nat := 0
  stdout : String := ""
  stderr : String := ""
  deriving DecidableEq, Repr

/-- Why a run ends early: with a message, or by a defect. -/
inductive Failure
  | fatal (message : String)
  | defect (defect : Defect)
  deriving DecidableEq, Repr

namespace Failure

/-- Defects end a run without a message, save one. -/
def ofFault : Fault → Failure
  | .diagnostic diagnostic => fatal diagnostic.message
  | .defect (.nestedTooDeeply cause) => fatal cause.message
  | .defect d => defect d

def ofPath (error : PathError) : Failure :=
  if error.fault = .nulCharacter then defect .unusablePath else fatal error.message

def ofDecode : DecodeError → Failure
  | .path error => ofPath error
  | .corrupt => fatal corruptSet

end Failure

/-- The report on a source that would first have to be compiled to descriptors. -/
def noCompiler : String :=
  "'protoc' not found. Please install Protocol Buffers compiler and ensure it is in PATH."

/-- Whether a file belongs to the well-known types, which are left out unless asked for. -/
def isWellKnown (file : Descriptor.File) : Bool :=
  Text.startsWith "google/protobuf/" file.name

/-- The names of the files to generate: those asked for, else all but the well-known ones. -/
def filesToGenerate (asked : List Value) (files : List Descriptor.File) : List Value :=
  if asked.isEmpty then (files.filter (!isWellKnown ·)).map fun file => .text file.name else asked

/-- The texts before the first value that has none. -/
def leadingTexts : List Value → List String
  | .text text :: values => text :: leadingTexts values
  | _ => []

/-- Whether a text can be passed to another program. -/
def isPassable : Value → Bool
  | .text text => '\x00' ∉ text.toList
  | .nothing => true

section

variable {m : Type → Type} [Monad m]

def orExplain {ε α : Type} (explain : ε → Failure) (result : Except ε α) : ExceptT Failure m α :=
  ExceptT.mk (pure (result.mapError explain))

def attempt {ε α : Type} (explain : ε → Failure) (operation : m (Except ε α)) :
    ExceptT Failure m α := do
  orExplain explain (← ExceptT.lift operation)

/-- The descriptors that the arguments name. An empty source path stands for none. -/
def readSource (host : Host m) (arguments : Arguments) :
    ExceptT Failure m (List Descriptor.File) :=
  match arguments.proto, arguments.descriptorSet with
  | some (.text path), _ =>
    throw (
      if path = "" then .defect .wrongKind
      else if (Value.text path :: arguments.includes).all isPassable then .fatal noCompiler
      else .defect .unusablePath)
  | none, some (.text path) => attempt Failure.ofDecode (host.readDescriptors path)
  | _, _ => throw (.defect .wrongKind)

def readSettings (arguments : Arguments) : ExceptT Failure m Settings :=
  match arguments.parameter with
  | .text text => orExplain Failure.ofFault ((Settings.ofText text).mapError Fault.settings)
  | .nothing => throw (.defect .noSuchOperation)

/-- The path of the options document. Where the arguments have none, the settings may. -/
def optionsPath (arguments : Arguments) (settings : Settings) : String :=
  match arguments.options with
  | .text path => if path = "" then settings.optionsPath else path
  | .nothing => settings.optionsPath

/-- Makes a directory that may be there already. -/
def ensureDirectory (host : Host m) (path : String) : m (Except PathError Unit) := do
  match ← host.makeDirectory path with
  | .ok _ => return .ok ()
  | .error error => return if ← host.leadsToDirectory path then .ok () else .error error

/-- Whether the directories above one may be there after an attempt to make them. Something else in
the place of one shows when the next is made. -/
def maySucceed : Except PathError Unit → Bool
  | .ok _ => true
  | .error error => error.fault = .alreadyExists

/-- Makes a directory, after those above it if they lead nowhere. Every step cuts the path shorter,
so its length is fuel enough. -/
def ensureDirectories (host : Host m) : Nat → String → m (Except PathError Unit)
  | 0, path => ensureDirectory host path
  | fuel + 1, path => do
    let (head, last) := Path.cutLast path
    let (head, last) := if last = "" then Path.cutLast head else (head, last)
    if head = "" ∨ last = "" then ensureDirectory host path
    else if ← host.leads head then ensureDirectory host path
    else
      let above ← ensureDirectories host fuel head
      if !maySucceed above then return above
      else if last = "." then return .ok ()
      else ensureDirectory host path

def writeOutput (host : Host m) (directory : Value) (name content : String) :
    ExceptT Failure m String := do
  match directory with
  | .nothing => throw (.defect .wrongKind)
  | .text directory =>
    let path := Path.join directory name
    let directory := Path.directory path
    attempt Failure.ofPath (ensureDirectories host directory.length directory)
    attempt Failure.ofPath (host.write path content)
    return path

/-- The schema files of the named source files. A name that is no text ends the work on them. -/
def generate (settings : Settings) (index : Options.Index) (files : List Descriptor.File)
    (names : List Value) : Except Fault (Table String) := do
  let outputs ← Output.generate settings index files (leadingTexts names)
  if names.contains .nothing then .error (.defect .wrongKind) else .ok outputs

def compile (host : Host m) (arguments : Arguments) : ExceptT Failure m (List String) := do
  let files ← readSource host arguments
  let settings ← readSettings arguments
  let path := optionsPath arguments settings
  let content ← ExceptT.lift (host.readText path)
  let index ← orExplain Failure.ofFault (Options.Index.ofContent path content host.levels)
  let outputs ← orExplain Failure.ofFault
    (generate settings index files (filesToGenerate arguments.files files))
  outputs.entries.mapM fun (name, content) => writeOutput host arguments.out name content

def report (paths : List String) : String :=
  if paths.isEmpty then "No GraphQL types generated.\n"
  else String.join (paths.map fun path => "  Generated: " ++ path ++ "\n") ++ "Done!\n"

/-- Runs the program; only a defect leaves a run without an outcome. -/
def run (host : Host m) (texts : List String) : m (Except Defect Outcome) := do
  match Arguments.ofTexts texts with
  | .error .help => return .ok { stdout := helpText }
  | .error (.usage error) => return .ok { exit := 2, stderr := error.report }
  | .ok arguments =>
    match ← (compile host arguments).run with
    | .ok paths => return .ok { stdout := report paths }
    | .error (.fatal message) => return .ok { exit := 1, stderr := "FATAL: " ++ message ++ "\n" }
    | .error (.defect defect) => return .error defect

end

end ProtoSdl.CommandLine

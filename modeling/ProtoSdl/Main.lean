import ProtoSdl.CommandLine.Run
import ProtoSdl.Wire.Descriptors

/-!
# Programs

The compiler as a program. Under the name of the plugin it answers the request on its standard
input; under any other name it runs the command line.
-/

namespace ProtoSdl.Program

def pathFault : IO.Error → PathFault
  | .noFileOrDirectory _ _ _ => .missing
  | .alreadyExists _ _ _ => .alreadyExists
  | .inappropriateType _ code text =>
    if code = 20 then .notDirectory
    else if code = 21 then .isDirectory
    else .other code.toNat text
  | .permissionDenied _ code text => .other code.toNat text
  | .otherError code text => .other code.toNat text
  | error => .other 5 error.toString

def onPath {α : Type} (path : String) (operation : IO α) : IO (Except PathError α) := do
  match ← operation.toBaseIO with
  | .ok value => return .ok value
  | .error error => return .error ⟨pathFault error, path⟩

def readBytes (path : String) : IO (Except PathError ByteArray) :=
  let shown := Path.normalize path
  onPath shown (IO.FS.readBinFile shown)

def readText (path : String) : IO (Except ReadError String) := do
  match ← readBytes path with
  | .error error => return .error (.path error)
  | .ok bytes =>
    match String.fromUTF8? bytes with
    | some text => return .ok text
    | none => return .error .notText

/-- How deeply documents may be nested: the reader goes down one call for each level. -/
def documentLevels : Nat := 990

def host : CommandLine.Host IO where
  levels := some documentLevels
  readText := readText
  readDescriptors path := do
    match ← readBytes path with
    | .error error => return .error (.path error)
    | .ok bytes =>
      match Wire.readDescriptorSet bytes.data.toList with
      | some files => return .ok files
      | none => return .error .corrupt
  leads path := do return (← onPath path (IO.FS.realPath path)).toOption.isSome
  leadsToDirectory path := do
    match ← onPath path (IO.FS.realPath path) with
    | .ok place => place.isDir
    | .error _ => return false
  makeDirectory path := onPath path (IO.FS.createDir path)
  write path content :=
    let shown := Path.normalize path
    onPath shown (IO.FS.writeFile shown content)

/-- The report on an input that the compiler has no diagnostic for. -/
def defectReport (name : String) : String :=
  name ++ ": a value in the input has a form that its use does not allow\n"

def plugin : IO UInt32 := do
  let bytes ← (← IO.getStdin).readBinToEnd
  match Wire.readRequest bytes.data.toList with
  | none =>
    IO.eprint Plugin.corruptRequest
    return 1
  | some request =>
    let path := match Settings.ofText request.parameter with
      | .ok settings => settings.optionsPath
      | .error _ => ""
    let content ← readText path
    match Plugin.respond (fun _ => content) request (some documentLevels) with
    | .ok response =>
      let stdout ← IO.getStdout
      stdout.write ⟨(Wire.writeResponse response).toArray⟩
      stdout.flush
      return 0
    | .error _ =>
      IO.eprint (defectReport Plugin.name)
      return 1

def commandLine (arguments : List String) : IO UInt32 := do
  match ← CommandLine.run host arguments with
  | .ok outcome =>
    IO.print outcome.stdout
    IO.eprint outcome.stderr
    return UInt32.ofNat outcome.exit
  | .error _ =>
    IO.eprint (defectReport CommandLine.programName)
    return 1

end ProtoSdl.Program

def main (arguments : List String) : IO UInt32 := do
  let name := (← IO.appPath).fileName.getD ""
  if name = ProtoSdl.Plugin.name then ProtoSdl.Program.plugin
  else ProtoSdl.Program.commandLine arguments

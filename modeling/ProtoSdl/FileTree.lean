import ProtoSdl.Text.Quoted
import ProtoSdl.Text.Split

/-!
# File trees

The files below a working directory, with reading, making directories and writing. Directories
exist as far as files or made directories lie in them. Nothing is known of what lies outside the
working directory: the directories above it and the root are there, and all else is absent until it
is made.
-/

namespace ProtoSdl

inductive PathFault
  | missing
  | alreadyExists
  | notDirectory
  | isDirectory
  | nameTooLong
  /-- The path holds the character that no name can hold. -/
  | nulCharacter
  /-- Any other cause, with its number and its text. -/
  | other (code : Nat) (text : String)
  deriving DecidableEq, Repr

def PathFault.message : PathFault → String
  | missing => "[Errno 2] No such file or directory"
  | alreadyExists => "[Errno 17] File exists"
  | notDirectory => "[Errno 20] Not a directory"
  | isDirectory => "[Errno 21] Is a directory"
  | nameTooLong => "[Errno 36] File name too long"
  | nulCharacter => "embedded null byte"
  | other code text => "[Errno " ++ toString code ++ "] " ++ text

structure PathError where
  fault : PathFault
  path : String
  deriving DecidableEq, Repr

def PathError.message (e : PathError) : String :=
  e.fault.message ++ ": " ++ Text.quote e.path

inductive ReadError
  | path (error : PathError)
  /-- The bytes of the file are no text. -/
  | notText
  deriving DecidableEq, Repr

namespace Path

def components (path : String) : List String :=
  (Text.split '/' path).filter (· ≠ "")

/-- The components of a path that lead somewhere: a single dot stays where it is. -/
def steps (path : String) : List String :=
  (components path).filter (· ≠ ".")

def isAbsolute (path : String) : Bool :=
  path.toList.head? = some '/'

/-- The root that a path starts at: two slashes alone are a root of their own. -/
def root (path : String) : String :=
  match path.toList.takeWhile (· = '/') with
  | [] => ""
  | ['/', '/'] => "//"
  | _ => "/"

/-- A path without single dots and repeated slashes; the empty path is the directory it starts
at. -/
def normalize (path : String) : String :=
  let plain := root path ++ "/".intercalate (steps path)
  if plain = "" then "." else plain

/-- A path below a directory. An absolute path stands for itself. -/
def join (directory path : String) : String :=
  if isAbsolute path || directory = "" then path
  else if directory.toList.getLast? = some '/' then directory ++ path
  else directory ++ "/" ++ path

/-- A path cut after its last slash: the directory without the slashes at its end, unless it is
nothing but slashes, and the last component. -/
def cutLast (path : String) : String × String :=
  let reversed := path.toList.reverse
  let last := (reversed.takeWhile (· ≠ '/')).reverse
  let before := reversed.dropWhile (· ≠ '/')
  let trimmed := before.dropWhile (· = '/')
  (String.ofList (if trimmed = [] then before else trimmed).reverse, String.ofList last)

def directory (path : String) : String :=
  (cutLast path).1

def maxNameSize : Nat := 255

def maxSize : Nat := 4095

/-- What is wrong with a path whatever the files are. -/
def fault? (path : String) : Option PathFault :=
  if '\x00' ∈ path.toList then some .nulCharacter
  else if path = "" then some .missing
  else if maxSize < path.utf8ByteSize then some .nameTooLong
  else none

end Path

/-- Where steps start: so many levels above the working directory, or at the root. -/
inductive Base
  | above (levels : Nat)
  | root
  deriving DecidableEq, Repr

structure Location where
  base : Base := .above 0
  steps : List String := []
  deriving DecidableEq, Repr

namespace Location

/-- The directory that a place lies in; the root lies in itself. -/
def parent (location : Location) : Location :=
  match location.base, location.steps with
  | .above levels, [] => { base := .above (levels + 1) }
  | .root, [] => location
  | base, steps => { base, steps := steps.dropLast }

def child (location : Location) (name : String) : Location :=
  { location with steps := location.steps ++ [name] }

/-- Whether a place is a directory on the way to another, or that other itself. -/
def leadsTo (location other : Location) : Bool :=
  location.base = other.base && location.steps.isPrefixOf other.steps

def start (path : String) : Location :=
  { base := if Path.isAbsolute path then .root else .above 0 }

end Location

structure FileTree (α : Type) where
  files : List (Location × α) := []
  directories : List Location := []

namespace FileTree

variable {α : Type}

inductive Entry (α : Type)
  | file (location : Location) (content : α)
  | directory (location : Location)

def content? (tree : FileTree α) (location : Location) : Option α :=
  (tree.files.find? (·.1 = location)).map (·.2)

/-- Whether a place is a directory: the one that steps start at, one that was made, or one on the
way to a file. -/
def isDirectory (tree : FileTree α) (location : Location) : Bool :=
  location.steps = [] || tree.directories.any (location.leadsTo ·)
    || tree.files.any fun file => location.leadsTo file.1 && location ≠ file.1

def step (tree : FileTree α) (here : Location) (component : String) :
    Except PathFault (Entry α) :=
  if component = "." then .ok (.directory here)
  else if component = ".." then .ok (.directory here.parent)
  else if Path.maxNameSize < component.utf8ByteSize then .error .nameTooLong
  else
    let there := here.child component
    match tree.content? there with
    | some content => .ok (.file there content)
    | none => if tree.isDirectory there then .ok (.directory there) else .error .missing

def walk (tree : FileTree α) : Entry α → List String → Except PathFault (Entry α)
  | entry, [] => .ok entry
  | .file _ _, _ :: _ => .error .notDirectory
  | .directory here, component :: components => do
    walk tree (← tree.step here component) components

def entry (tree : FileTree α) (path : String) : Except PathFault (Entry α) :=
  match Path.fault? path with
  | some fault => .error fault
  | none => tree.walk (.directory (Location.start path)) (Path.components path)

/-- The content of the file at a path. Errors show the path in normal form. -/
def read (tree : FileTree α) (path : String) : Except PathError α :=
  let shown := Path.normalize path
  match tree.entry shown with
  | .ok (.file _ content) => .ok content
  | .ok (.directory _) => .error ⟨.isDirectory, shown⟩
  | .error fault => .error ⟨fault, shown⟩

/-- The place of something new at a path: its directory must be there and itself must not. -/
def newLocation (tree : FileTree α) (path : String) : Except PathFault Location :=
  match Path.fault? path, (Path.components path).getLast? with
  | some fault, _ => .error fault
  | none, none => .error .alreadyExists
  | none, some last => do
    let above := (Path.components path).dropLast
    match ← tree.walk (.directory (Location.start path)) above with
    | .file _ _ => .error .notDirectory
    | .directory here =>
      match tree.step here last with
      | .ok _ => .error .alreadyExists
      | .error .missing => .ok (here.child last)
      | .error fault => .error fault

def makeDirectory (tree : FileTree α) (path : String) : Except PathError (FileTree α) :=
  match tree.newLocation path with
  | .ok location => .ok { tree with directories := tree.directories ++ [location] }
  | .error fault => .error ⟨fault, path⟩

def leads (tree : FileTree α) (path : String) : Bool :=
  match tree.entry path with
  | .ok _ => true
  | .error _ => false

def leadsToDirectory (tree : FileTree α) (path : String) : Bool :=
  match tree.entry path with
  | .ok (.directory _) => true
  | _ => false

def write (tree : FileTree α) (path : String) (content : α) : Except PathError (FileTree α) :=
  let shown := Path.normalize path
  match tree.entry shown with
  | .ok (.directory _) => .error ⟨.isDirectory, shown⟩
  | .ok (.file location _) =>
    .ok { tree with
      files := tree.files.map fun file => if file.1 = location then (location, content) else file }
  | .error _ =>
    match tree.newLocation shown with
    | .ok location => .ok { tree with files := tree.files ++ [(location, content)] }
    | .error fault => .error ⟨fault, shown⟩

def ofFiles (files : List (String × α)) : FileTree α :=
  { files := files.map fun file => ({ steps := Path.steps file.1 }, file.2) }

/-- The files below the working directory that another tree does not have, by their paths. -/
def newFiles (before after : FileTree α) : List (String × α) :=
  (after.files.filter fun file =>
    file.1.base = .above 0 && (before.content? file.1).isNone).map fun file =>
      ("/".intercalate file.1.steps, file.2)

end FileTree

end ProtoSdl

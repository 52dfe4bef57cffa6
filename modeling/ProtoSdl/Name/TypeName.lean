import ProtoSdl.Name.CamelCase
import ProtoSdl.Text.Split

/-!
# Type names

A type name is a stem, taken from a namespace or a package, followed by the camel case of each
segment of the declaration's path, each after an underscore, and by marks for map entries and
inputs. A given start is cut off the whole.
-/

namespace ProtoSdl.Name

/-- What a type name is made of, apart from its stem. -/
structure TypePath where
  segments : List String
  isMap : Bool := false
  isInput : Bool := false
  deriving DecidableEq, Repr

/-- The stem that a package gives: the camel case of its parts. -/
def packageStem (package : String) : List Char :=
  if package = "" then [] else camelCaseJoined (Text.splitChars '.' package.toList)

/-- The stem of the names of a file: the namespace, or the package where there is none. -/
def stem (space package : String) : List Char :=
  if space = "" then packageStem package else space.toList

/-- Takes the word `Entry` off the end of the last segment. -/
def dropEntry : List String → List String
  | [] => []
  | [last] => [Text.dropEnd "Entry" last]
  | segment :: segments => segment :: dropEntry segments

def TypePath.extension (path : TypePath) : List Char :=
  let segments := if path.isMap then dropEntry path.segments else path.segments
  segments.flatMap (fun segment => '_' :: camelCase segment.toList)
    ++ (if path.isMap then "_Map".toList else [])
    ++ (if path.isInput then "_Input".toList else [])

/-- The type name of a path on a stem, without the start `trim`. -/
def typeName (trim : String) (stem : List Char) (path : TypePath) : String :=
  Text.dropStart trim (String.ofList (stem ++ path.extension))

theorem typeName_untrimmed (stem : List Char) (path : TypePath) :
    typeName "" stem path = String.ofList (stem ++ path.extension) := by
  simp [typeName, Text.dropStart, Text.afterStart?]

end ProtoSdl.Name

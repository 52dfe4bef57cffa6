import ProtoSdl.Fault
import ProtoSdl.Source.File
import ProtoSdl.Table

/-!
# Catalogs

All source declarations of a compilation by name: files by their names, messages and enums by their
qualified names. Of two declarations with one name the later one counts, at the place of the
earlier. A look-up is made for a referrer, which an error names.
-/

namespace ProtoSdl.Mapping

structure Catalog where
  files : Table Source.File := {}
  messages : Table Source.Message := {}
  enums : Table Source.Enum := {}

namespace Catalog

def add (catalog : Catalog) (file : Source.File) : Catalog :=
  { files := catalog.files.insert file.home.name file
    messages := file.messages.foldl (fun table m => table.insert m.fullName m) catalog.messages
    enums := file.enums.foldl (fun table e => table.insert e.fullName e) catalog.enums }

def ofFiles (files : List Source.File) : Catalog :=
  files.foldl add {}

def ofDescriptors (index : Options.Index) (files : List Descriptor.File) :
    Except Fault Catalog := do
  let files ← files.zipIdx.mapM fun (file, position) =>
    Source.File.ofDescriptor index position file
  return ofFiles files

def message (catalog : Catalog) (referrer name : String) : Except Fault Source.Message :=
  match catalog.messages.get? name with
  | some message => .ok message
  | none => .error (.mapping (.unknownMessage referrer name))

def enum (catalog : Catalog) (referrer name : String) : Except Fault Source.Enum :=
  match catalog.enums.get? name with
  | some enum => .ok enum
  | none => .error (.mapping (.unknownEnum referrer name))

/-- The services of all files, without those that the options skip. -/
def services (catalog : Catalog) : List Source.Service :=
  (catalog.files.values.flatMap (·.services)).filter (!·.skip.isSet)

end Catalog

end ProtoSdl.Mapping

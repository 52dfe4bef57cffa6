import ProtoSdl.CommandLine.Run
import ProtoSdl.Wire.Descriptors
import ProtoSdl.Wire.DescriptorSet

/-!
# Runs in memory

A host that keeps its files in a tree. A file holds text, or descriptors that need no decoding.
-/

namespace ProtoSdl.CommandLine

inductive Content
  | text (value : String)
  | descriptors (files : List Descriptor.File)

/-- The text of a file. Descriptors are read in their binary form. -/
def Content.toText : Content → Except ReadError String
  | .text value => .ok value
  | .descriptors files =>
    match Wire.ofTextBytes (Wire.writeDescriptorSet files) with
    | some value => .ok value
    | none => .error .notText

def Content.toDescriptors : Content → Except DecodeError (List Descriptor.File)
  | .descriptors files => .ok files
  | .text value =>
    match Wire.readDescriptorSet (Wire.textBytes value) with
    | some files => .ok files
    | none => .error .corrupt

namespace Memory

/-- A change of the tree, which stays as it was where the change fails. -/
def change (f : FileTree Content → Except PathError (FileTree Content)) :
    StateM (FileTree Content) (Except PathError Unit) :=
  fun tree =>
    match f tree with
    | .ok tree => (.ok (), tree)
    | .error e => (.error e, tree)

def host : Host (StateM (FileTree Content)) where
  readText path := fun tree =>
    (((tree.read path).mapError ReadError.path).bind Content.toText, tree)
  readDescriptors path := fun tree =>
    (((tree.read path).mapError DecodeError.path).bind Content.toDescriptors, tree)
  leads path := fun tree => (tree.leads path, tree)
  leadsToDirectory path := fun tree => (tree.leadsToDirectory path, tree)
  makeDirectory path := change (·.makeDirectory path)
  write path content := change (·.write path (.text content))

end Memory

end ProtoSdl.CommandLine

import ProtoSdl.Comment
import ProtoSdl.Fault

/-!
# Addresses of comments

A location names a declaration by a path of numbers: the field number of a list in the description
and a position in it, again and again. Following the path gives the declaration that the comment
belongs to, nothing where no declaration of interest is named, or a defect where an index points
at nothing.
-/

namespace ProtoSdl.Source

/-- A declaration that a comment can belong to. Messages are named by their address and their parts
by positions; a oneof is named by the index it was addressed with. -/
inductive Target
  | message (address : List Nat)
  | field (address : List Nat) (position : Nat)
  | oneof (address : List Nat) (index : Int)
  | enum (owner : List Nat) (position : Nat)
  | enumValue (owner : List Nat) (position value : Nat)
  | service (position : Nat)
  | method (service position : Nat)
  deriving DecidableEq, Repr

namespace Address

def item {α : Type} (items : List α) (index : Int) : Except Defect (Nat × α) :=
  match Descriptor.position? items.length index with
  | none => .error .indexOutOfRange
  | some position =>
    match items[position]? with
    | none => .error .indexOutOfRange
    | some value => .ok (position, value)

/-- The position of the field that a name stands for: the first plain field of that name, else the
first member in the order of the oneofs. -/
def fieldPosition? (message : Descriptor.Message) (name : String) : Option Nat :=
  let named := message.fields.zipIdx.filter fun (field, _) => field.name = name
  let plain := named.find? fun (field, _) => !field.isMember
  let members := (List.range message.oneofs.length).findSome? fun position =>
    named.find? fun (field, _) => field.isMember &&
      (field.oneofIndex.bind (Descriptor.position? message.oneofs.length)) = some position
  (plain <|> members).map (·.2)

def inEnum (owner : List Nat) (position : Nat) (enum : Descriptor.Enum) :
    List Int → Except Defect (Option Target)
  | [] => .ok (some (.enum owner position))
  | [2, index] => do
    let (value, _) ← item enum.values index
    return some (.enumValue owner position value)
  | _ => .ok none

def inMessage (address : List Nat) (message : Descriptor.Message) :
    List Int → Except Defect (Option Target)
  | [] => .ok (some (.message address))
  | [_] => .error .indexOutOfRange
  | kind :: index :: rest =>
    if kind = 2 then do
      let (_, field) ← item message.fields index
      if rest = [] then return (fieldPosition? message field.name).map (.field address)
      else return none
    else if kind = 3 then do
      let (position, nested) ← item message.nested index
      inMessage (address ++ [position]) nested rest
    else if kind = 4 then do
      let (position, enum) ← item message.enums index
      inEnum address position enum rest
    else if kind = 8 ∧ rest = [] then .ok (some (.oneof address index))
    else .ok none

def inService (position : Nat) (service : Descriptor.Service) :
    List Int → Except Defect (Option Target)
  | [] => .ok (some (.service position))
  | [2, index] => do
    let (method, _) ← item service.methods index
    return some (.method position method)
  | _ => .ok none

def inFile (file : Descriptor.File) : List Int → Except Defect (Option Target)
  | kind :: index :: rest =>
    if kind = 4 then do
      let (position, message) ← item file.messages index
      inMessage [position] message rest
    else if kind = 5 then do
      let (position, enum) ← item file.enums index
      inEnum [] position enum rest
    else if kind = 6 then do
      let (position, service) ← item file.services index
      inService position service rest
    else .ok none
  | _ => .ok none

end Address

/-- Comments by the declaration they belong to, latest first. -/
abbrev Notes := List (Target × String)

namespace Notes

/-- The comment of a declaration: that of the last location that names it. -/
def get (notes : Notes) (target : Target) : String :=
  ((notes.find? (·.1 = target)).map (·.2)).getD ""

/-- The comments of the oneofs of a message by index, latest first. -/
def oneofs (notes : Notes) (address : List Nat) : List (Int × String) :=
  notes.filterMap fun (target, comment) =>
    match target with
    | .oneof owner index => if owner = address then some (index, comment) else none
    | _ => none

def ofLocations (file : Descriptor.File) (notes : Notes) :
    List Descriptor.Location → Except Defect Notes
  | [] => .ok notes
  | location :: locations =>
    if location.isCommented then do
      match ← Address.inFile file location.path with
      | some target => ofLocations file ((target, location.comment) :: notes) locations
      | none => ofLocations file notes locations
    else ofLocations file notes locations

def ofFile (file : Descriptor.File) : Except Defect Notes :=
  ofLocations file [] file.locations

end Notes

end ProtoSdl.Source

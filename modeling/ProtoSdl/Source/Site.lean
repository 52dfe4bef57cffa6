import ProtoSdl.Descriptor

/-!
# Sites of nested declarations

Messages and enums listed with the place where they stand. A message comes before the messages
nested in it; the enums nested in inner messages come before those of the outer one.
-/

namespace ProtoSdl.Source

structure MessageSite where
  /-- The positions that lead to the message. -/
  address : List Nat
  /-- The names that lead to the message, its own included. -/
  path : List String
  message : Descriptor.Message

structure EnumSite where
  /-- The address of the message around it; empty at the top of a file. -/
  owner : List Nat
  /-- The path of the message around it. -/
  ownerPath : List String
  position : Nat
  enum : Descriptor.Enum

def EnumSite.path (site : EnumSite) : List String :=
  site.ownerPath ++ [site.enum.name]

def enumSites (owner : List Nat) (ownerPath : List String) (enums : List Descriptor.Enum) :
    List EnumSite :=
  enums.zipIdx.map fun (enum, position) => { owner, ownerPath, position, enum }

mutual

/-- The sites of a message and of those nested in it, outer before inner. -/
def messageSites (address : List Nat) (path : List String) : Descriptor.Message → List MessageSite
  | message@⟨name, _, nested, _, _, _⟩ =>
    { address, path := path ++ [name], message } :: messageSitesFrom address (path ++ [name]) 0 nested

/-- The sites of a list of messages with a common owner, the first of them at `position`. -/
def messageSitesFrom (owner : List Nat) (path : List String) (position : Nat) :
    List Descriptor.Message → List MessageSite
  | [] => []
  | message :: messages =>
    messageSites (owner ++ [position]) path message
      ++ messageSitesFrom owner path (position + 1) messages

end

mutual

/-- The sites of the enums in a message: first those of the messages nested in it. -/
def messageEnumSites (address : List Nat) (path : List String) :
    Descriptor.Message → List EnumSite
  | ⟨name, _, nested, enums, _, _⟩ =>
    messageEnumSitesFrom address (path ++ [name]) 0 nested
      ++ enumSites address (path ++ [name]) enums

def messageEnumSitesFrom (owner : List Nat) (path : List String) (position : Nat) :
    List Descriptor.Message → List EnumSite
  | [] => []
  | message :: messages =>
    messageEnumSites (owner ++ [position]) path message
      ++ messageEnumSitesFrom owner path (position + 1) messages

end

def fileMessageSites (file : Descriptor.File) : List MessageSite :=
  messageSitesFrom [] [] 0 file.messages

/-- The enums of a file: those in messages, then those at its top. -/
def fileEnumSites (file : Descriptor.File) : List EnumSite :=
  messageEnumSitesFrom [] [] 0 file.messages ++ enumSites [] [] file.enums

end ProtoSdl.Source

import ProtoSdl.Source.File

/-! Paths into a description. A description is a tree whose declarations list others under field
numbers. A path whose indexes are in range is followed to the declaration it leads to, or to none if
it leads to no declaration; only a path that goes one number beyond a message cannot be followed. -/
namespace ProtoSdl.Source

/-- A description as a tree. The declarations that hold no others are its parts. -/
inductive Tree
  | file (file : Descriptor.File)
  | message (message : Descriptor.Message)
  | enum (enum : Descriptor.Enum)
  | service (service : Descriptor.Service)
  | part

namespace Tree

/-- The declarations listed under a field number, if it is the number of such a list. -/
def items : Tree → Int → Option (List Tree)
  | .file described, 4 => some (described.messages.map .message)
  | .file described, 5 => some (described.enums.map .enum)
  | .file described, 6 => some (described.services.map .service)
  | .message described, 2 => some (described.fields.map fun _ => .part)
  | .message described, 3 => some (described.nested.map .message)
  | .message described, 4 => some (described.enums.map .enum)
  | .message described, 8 => some (described.oneofs.map fun _ => .part)
  | .enum described, 2 => some (described.values.map fun _ => .part)
  | .service described, 2 => some (described.methods.map fun _ => .part)
  | _, _ => none

def item? (items : List Tree) : Int → Option Tree
  | .ofNat position => items[position]?
  | .negSucc _ => none

def child? (tree : Tree) (kind index : Int) : Option Tree :=
  (tree.items kind).bind fun items => item? items index

def at? : Tree → List Int → Option Tree
  | tree, [] => some tree
  | _, [_] => none
  | tree, kind :: index :: path => (tree.child? kind index).bind fun item => item.at? path

/-- Whether the indexes of a path are in range wherever they select a declaration. -/
def inRange : Tree → List Int → Bool
  | tree, kind :: index :: path =>
    (tree.items kind).isNone || (tree.child? kind index).any fun item => item.inRange path
  | _, _ => true

def isMessage : Tree → Bool
  | .message _ => true
  | _ => false

/-- Whether a path leads to a message and has one number after it. -/
def stopsShort (tree : Tree) (path : List Int) : Bool :=
  !path.isEmpty && (tree.at? path.dropLast).any isMessage

@[simp] theorem at?_nil (tree : Tree) : tree.at? [] = some tree := by
  rw [at?]

@[simp] theorem at?_cons_cons (tree : Tree) (kind index : Int) (path : List Int) :
    tree.at? (kind :: index :: path) =
      (tree.child? kind index).bind fun item => item.at? path := by
  rw [at?]

@[simp] theorem stopsShort_single (tree : Tree) (number : Int) :
    tree.stopsShort [number] = tree.isMessage := by
  simp [stopsShort]

theorem stopsShort_cons_cons (tree : Tree) (kind index : Int) (path : List Int) :
    tree.stopsShort (kind :: index :: path) =
      (tree.child? kind index).any fun item => item.stopsShort path := by
  cases path with
  | nil => cases tree.child? kind index <;> simp [stopsShort, at?]
  | cons number path =>
    simp only [stopsShort, List.isEmpty_cons, List.dropLast_cons_cons, at?_cons_cons]
    cases tree.child? kind index <;> simp

theorem child?_eq {tree : Tree} {kind index : Int} {listed : List Tree}
    (h : tree.items kind = some listed) : tree.child? kind index = item? listed index := by
  simp [child?, h]

/-- In a path that is in range, an index into a list of declarations selects one of them. -/
theorem item?_of_inRange {tree : Tree} {kind index : Int} {path : List Int} {listed : List Tree}
    (h : tree.inRange (kind :: index :: path) = true) (hl : tree.items kind = some listed) :
    ∃ item, item? listed index = some item ∧ item.inRange path = true := by
  simpa [inRange, hl, child?_eq hl, Option.any_eq_true] using h

@[simp] theorem child?_part (kind index : Int) : part.child? kind index = none := by
  simp [child?, items]

@[simp] theorem stopsShort_part (path : List Int) : part.stopsShort path = false := by
  match path with
  | [] => rfl
  | [_] => rfl
  | kind :: index :: path => rw [stopsShort_cons_cons, child?_part, Option.any_none]

/-- Only messages hold messages, and files. -/
theorem stopsShort_of_parts {tree : Tree} (hm : tree.isMessage = false)
    (h : ∀ kind index item, tree.child? kind index = some item → item = .part) (path : List Int) :
    tree.stopsShort path = false := by
  match path with
  | [] => rfl
  | [_] => rw [stopsShort_single, hm]
  | kind :: index :: path =>
    rw [stopsShort_cons_cons]
    cases hc : tree.child? kind index with
    | none => rfl
    | some item => rw [h kind index item hc, Option.any_some, stopsShort_part]

theorem exists_listed {tree item : Tree} {kind index : Int}
    (h : tree.child? kind index = some item) :
    ∃ listed, tree.items kind = some listed ∧ item ∈ listed := by
  obtain ⟨listed, hl, hi⟩ := Option.bind_eq_some_iff.mp h
  cases index with
  | ofNat position => exact ⟨listed, hl, List.mem_of_getElem? hi⟩
  | negSucc _ => cases hi

private theorem stopsShort_enum (described : Descriptor.Enum) (path : List Int) :
    (enum described).stopsShort path = false := by
  refine stopsShort_of_parts rfl (fun kind index item h => ?_) path
  obtain ⟨listed, hl, hi⟩ := exists_listed h
  unfold items at hl
  grind

private theorem stopsShort_service (described : Descriptor.Service) (path : List Int) :
    (service described).stopsShort path = false := by
  refine stopsShort_of_parts rfl (fun kind index item h => ?_) path
  obtain ⟨listed, hl, hi⟩ := exists_listed h
  unfold items at hl
  grind

private theorem eq_part_of_child? {described : Descriptor.Message} {item : Tree} {kind index : Int}
    (h3 : kind ≠ 3) (h4 : kind ≠ 4) (h : (message described).child? kind index = some item) :
    item = .part := by
  obtain ⟨listed, hl, hi⟩ := exists_listed h
  unfold items at hl
  grind

end Tree

def declares (file : Descriptor.File) (path : List Int) : Bool :=
  !path.isEmpty && ((Tree.file file).at? path).isSome

namespace Address

/-- What following a path gives, as the tree has it: a fault where the path stops short, and nothing
where it leads to no declaration. -/
def Follows (tree : Tree) (path : List Int) (result : Except Defect (Option Target)) : Prop :=
  if tree.stopsShort path then result = .error .indexOutOfRange
  else ∃ found, result = .ok found ∧ (tree.at? path = none → found = none)

theorem Follows.of_ok {tree : Tree} {path : List Int} {found : Option Target}
    (hs : tree.stopsShort path = false) (h : tree.at? path = none → found = none) :
    Follows tree path (.ok found) := by
  rw [Follows, hs]
  exact ⟨found, rfl, h⟩

theorem Follows.step {tree item : Tree} {kind index : Int} {path : List Int}
    {result : Except Defect (Option Target)} (hc : tree.child? kind index = some item)
    (h : Follows item path result) : Follows tree (kind :: index :: path) result := by
  rw [Follows, Tree.stopsShort_cons_cons, Tree.at?_cons_cons, hc]
  exact h

variable {address owner : List Nat} {position : Nat} {path : List Int}

theorem item_natCast {α : Type} {items : List α} {position : Nat} {value : α}
    (h : items[position]? = some value) : item items position = .ok (position, value) := by
  have hlt : position < items.length := (List.getElem?_eq_some_iff.mp h).1
  have hposition : Descriptor.position? items.length position = some position := by
    simp [Descriptor.position?, hlt]
  simp only [item, hposition, h]

/-- An index that selects a declaration is the position of an item. -/
theorem item_of_item? {α : Type} {items : List α} {node : α → Tree} {index : Int} {tree : Tree}
    (h : Tree.item? (items.map node) index = some tree) :
    ∃ position value, index = .ofNat position ∧ items[position]? = some value ∧
      tree = node value ∧ item items index = .ok (position, value) := by
  cases index with
  | negSucc _ => cases h
  | ofNat position =>
    obtain ⟨value, hvalue, rfl⟩ : ∃ value, items[position]? = some value ∧ node value = tree := by
      simpa [Tree.item?] using h
    exact ⟨position, value, rfl, hvalue, rfl, item_natCast hvalue⟩

/-- Where a path is in range, selecting an item succeeds, and what follows is the item's. -/
theorem follows_of_item {α : Type} {items : List α} {node : α → Tree} {tree : Tree}
    {kind index : Int} {next : Nat × α → Except Defect (Option Target)}
    (hl : tree.items kind = some (items.map node))
    (h : tree.inRange (kind :: index :: path) = true)
    (hnext : ∀ position value, (node value).inRange path = true →
      Follows (node value) path (next (position, value))) :
    Follows tree (kind :: index :: path) (item items index >>= next) := by
  obtain ⟨chosen, hitem, hrest⟩ := Tree.item?_of_inRange h hl
  obtain ⟨position, value, -, -, rfl, hok⟩ := item_of_item? hitem
  rw [hok]
  exact (hnext position value hrest).step ((Tree.child?_eq hl).trans hitem)

theorem inEnum_follows {enum : Descriptor.Enum} (h : (Tree.enum enum).inRange path = true) :
    Follows (.enum enum) path (inEnum owner position enum path) := by
  fun_cases inEnum owner position enum path with
  | case1 => exact .of_ok rfl (by simp)
  | case2 index => exact follows_of_item rfl h fun _ _ _ => .of_ok rfl (by simp)
  | case3 => exact .of_ok (Tree.stopsShort_enum enum path) fun _ => rfl

private theorem inService_follows {service : Descriptor.Service}
    (h : (Tree.service service).inRange path = true) :
    Follows (.service service) path (inService position service path) := by
  fun_cases inService position service path with
  | case1 => exact .of_ok rfl (by simp)
  | case2 index => exact follows_of_item rfl h fun _ _ _ => .of_ok rfl (by simp)
  | case3 => exact .of_ok (Tree.stopsShort_service service path) fun _ => rfl

private theorem inMessage_follows {message : Descriptor.Message}
    (h : (Tree.message message).inRange path = true) :
    Follows (.message message) path (inMessage address message path) := by
  fun_induction inMessage address message path with
  | case1 address message => exact .of_ok rfl (by simp)
  | case2 address message number => simp [Follows, Tree.isMessage]
  | case3 address message index rest =>
    refine follows_of_item rfl h fun position field _ => ?_
    by_cases hrest : rest = []
    · subst hrest
      exact .of_ok rfl (by simp)
    · simp only [hrest, if_false]
      exact .of_ok (Tree.stopsShort_part rest) fun _ => rfl
  | case4 address message index rest _ ih =>
    exact follows_of_item rfl h fun position nested hin => ih position nested hin
  | case5 address message index rest _ _ =>
    exact follows_of_item rfl h fun position enum hin => inEnum_follows hin
  | case6 address message kind index rest _ _ _ honeof =>
    obtain ⟨rfl, rfl⟩ := honeof
    obtain ⟨item, hitem, -⟩ := Tree.item?_of_inRange h rfl
    have hchild : (Tree.message message).child? 8 index = some item :=
      (Tree.child?_eq rfl).trans hitem
    exact .step hchild (.of_ok rfl (by simp))
  | case7 address message kind index rest h2 h3 h4 h8 =>
    refine .of_ok ?_ fun _ => rfl
    rw [Tree.stopsShort_cons_cons]
    cases hc : (Tree.message message).child? kind index with
    | none => rfl
    | some item => rw [Tree.eq_part_of_child? h3 h4 hc, Option.any_some, Tree.stopsShort_part]

theorem inFile_follows {file : Descriptor.File} (h : (Tree.file file).inRange path = true) :
    Follows (.file file) path (inFile file path) := by
  fun_cases inFile file path with
  | case1 index rest =>
    exact follows_of_item rfl h fun position message hin => inMessage_follows hin
  | case2 index rest =>
    exact follows_of_item rfl h fun position enum hin => inEnum_follows hin
  | case3 index rest =>
    exact follows_of_item rfl h fun position service hin => inService_follows hin
  | case4 kind index rest h4 h5 h6 =>
    have hnone : (Tree.file file).child? kind index = none := by
      unfold Tree.child? Tree.items
      split <;> simp_all
    exact .of_ok (by rw [Tree.stopsShort_cons_cons, hnone, Option.any_none]) fun _ => rfl
  | case5 path hshort =>
    refine .of_ok ?_ fun _ => rfl
    match path with
    | [] => rfl
    | [_] => rfl
    | kind :: index :: rest => exact (hshort kind index rest rfl).elim

theorem inFile_of_stopsShort {file : Descriptor.File} (h : (Tree.file file).inRange path = true)
    (hs : (Tree.file file).stopsShort path = true) :
    inFile file path = .error .indexOutOfRange := by
  have hfollows := inFile_follows h
  rwa [Follows, if_pos hs] at hfollows

theorem exists_inFile {file : Descriptor.File} (h : (Tree.file file).inRange path = true)
    (hs : (Tree.file file).stopsShort path = false) : ∃ found, inFile file path = .ok found := by
  have hfollows := inFile_follows h
  rw [Follows, hs] at hfollows
  obtain ⟨found, hfound, -⟩ := hfollows
  exact ⟨found, hfound⟩

theorem inFile_of_stray {file : Descriptor.File} (h : (Tree.file file).inRange path = true)
    (hs : (Tree.file file).stopsShort path = false) (hd : declares file path = false) :
    inFile file path = .ok none := by
  have hfollows := inFile_follows h
  rw [Follows, hs] at hfollows
  obtain ⟨found, hfound, hnone⟩ := hfollows
  cases path with
  | nil => rfl
  | cons kind rest => rw [hfound, hnone (by simpa [declares] using hd)]

end Address

namespace Notes

variable {file : Descriptor.File} {location : Descriptor.Location} {found : Option Target}

/-- The notes with the comment of a location on what its path was followed to. -/
def add (notes : Notes) (location : Descriptor.Location) : Option Target → Notes
  | none => notes
  | some target => (target, location.comment) :: notes

theorem ofLocations_cons_of_not_commented (notes : Notes) (hc : location.isCommented = false)
    (locations : List Descriptor.Location) :
    ofLocations file notes (location :: locations) = ofLocations file notes locations := by
  rw [ofLocations, hc]
  rfl

theorem ofLocations_cons_of_ok (notes : Notes) (hc : location.isCommented = true)
    (hf : Address.inFile file location.path = .ok found) (locations : List Descriptor.Location) :
    ofLocations file notes (location :: locations) =
      ofLocations file (notes.add location found) locations := by
  rw [ofLocations, if_pos hc, hf]
  cases found <;> rfl

theorem ofLocations_cons_of_error (notes : Notes) {defect : Defect}
    (hc : location.isCommented = true)
    (hf : Address.inFile file location.path = .error defect)
    (locations : List Descriptor.Location) :
    ofLocations file notes (location :: locations) = .error defect := by
  rw [ofLocations, if_pos hc, hf]
  rfl

/-- Which declarations comments belong to does not depend on the locations that a file holds. -/
theorem ofLocations_of_locations (notes : Notes) (held locations : List Descriptor.Location) :
    ofLocations { file with locations := held } notes locations =
      ofLocations file notes locations := by
  have hfile : ∀ path, Address.inFile { file with locations := held } path =
      Address.inFile file path := fun _ => rfl
  induction locations generalizing notes with
  | nil => rfl
  | cons location locations ih =>
    rw [ofLocations, ofLocations, hfile]
    simp only [ih]

end Notes

/-- Files that differ only in their locations, and have the same notes, are read in the same way. -/
theorem File.ofDescriptor_of_notes {index : Options.Index} {position : Nat} {file : Descriptor.File}
    {locations : List Descriptor.Location}
    (h : Notes.ofLocations file [] locations = Notes.ofFile file) :
    File.ofDescriptor index position { file with locations } =
      File.ofDescriptor index position file := by
  have hnotes : Notes.ofFile { file with locations } = Notes.ofFile file :=
    (Notes.ofLocations_of_locations [] locations locations).trans h
  rw [File.ofDescriptor, File.ofDescriptor, hnotes]
  rfl

section Kennel

/-- A file to try results on: a message with a plain field, a oneof, an optional field in a oneof of
its own, a nested message and a nested enum; an enum and a service. -/
def kennel : Descriptor.File :=
  { name := "kennel.proto"
    package := "kennel"
    syntaxName := "proto3"
    messages := [
      { name := "Pet"
        fields := [
          { name := "name", kind := .string },
          { name := "dog", kind := .string, oneofIndex := some 0 },
          { name := "cat", kind := .string, oneofIndex := some 0 },
          { name := "nick", kind := .string, oneofIndex := some 1, proto3Optional := true }]
        nested := [{ name := "Owner", fields := [{ name := "city", kind := .string }] }]
        enums := [{ name := "Size", values := [{ name := "SMALL" }, { name := "LARGE" }] }]
        oneofs := ["kind", "_nick"] }]
    enums := [{ name := "Role", values := [{ name := "GUEST" }, { name := "KEEPER" }] }]
    services := [
      { name := "Pets"
        methods := [{ name := "Get", input := ".kennel.Pet", output := ".kennel.Pet" }] }] }

end Kennel

end ProtoSdl.Source

import Mathlib.Data.List.Induction
import ProtoSdl.Name.TypeName
import ProtoSdl.Proofs.Catalogs
import ProtoSdl.Proofs.FlattenedFiles

/-! The places that names take. What is declared in a message stands below the place of the message,
so where no scope spells two names alike, no two declarations have one place, and what lies on the
way to a place are messages. -/
namespace ProtoSdl.Source

open Outcome

section Owners

variable {index : Options.Index} {described : List Descriptor.File} {files : List File}

/-- A message stands at the top of its file or in another message of it. -/
theorem Wrapped.message_owner (hw : Wrapped index described files) {message : Message}
    (hm : message ∈ allMessages files) :
    (∃ name, message.path = [name] ∧ message.parent = none) ∨
      ∃ owner ∈ allMessages files, owner.home = message.home ∧
        message.parent = some owner.fullName ∧ ∃ name, message.path = owner.path ++ [name] := by
  obtain ⟨file, hf, hin⟩ := List.mem_flatMap.mp hm
  obtain ⟨⟨source, position⟩, -, hof⟩ := exists_of_mem_results hw hf
  have hhomes := (hw.coherent hf).messages
  obtain ⟨origin, hlies⟩ := File.exists_liesIn_of_message hof hin
  rcases hlies.owner with ⟨-, hparent, hpath⟩ | ⟨owner, ho, -, hparent, hpath⟩
  · exact .inl ⟨origin.name, hpath, hparent⟩
  · exact .inr ⟨owner, List.mem_flatMap.mpr ⟨file, hf, ho⟩,
      (hhomes owner ho).1.trans (hhomes message hin).1.symm, hparent, origin.name, hpath⟩

/-- An enum stands at the top of its file or in a message of it. -/
theorem Wrapped.enum_owner (hw : Wrapped index described files) {enum : Enum}
    (he : enum ∈ allEnums files) :
    (∃ name, enum.path = [name] ∧ enum.parent = none) ∨
      ∃ owner ∈ allMessages files, owner.home = enum.home ∧
        enum.parent = some owner.fullName ∧ ∃ name, enum.path = owner.path ++ [name] := by
  obtain ⟨file, hf, hin⟩ := List.mem_flatMap.mp he
  obtain ⟨⟨source, position⟩, -, hof⟩ := exists_of_mem_results hw hf
  have hcoherent := hw.coherent hf
  obtain ⟨origin, hlies⟩ := File.exists_liesIn_of_enum hof hin
  rcases hlies.owner with ⟨-, hparent, hpath⟩ | ⟨owner, ho, -, hparent, hpath⟩
  · exact .inl ⟨origin.name, hpath, hparent⟩
  · exact .inr ⟨owner, List.mem_flatMap.mpr ⟨file, hf, ho⟩,
      (hcoherent.messages owner ho).1.trans (hcoherent.enums enum hin).1.symm, hparent,
      origin.name, hpath⟩

end Owners

/-- What takes up a place among names. A map entry takes up a second one, under its name without the
word `Entry`. -/
inductive Node
  | message (message : Message)
  | entry (message : Message)
  | oneof (message : Message) (oneof : Oneof)
  | enum (enum : Enum)
  | service (service : Service)

/-- Where a name stands: in a package, as far as its stem tells, or in a message. -/
inductive Scope
  | package (stem : List Char)
  | message (name : String)
  deriving DecidableEq

def cased (name : String) : List Char := Name.camelCase name.toList

namespace Node

def home : Node → Home
  | message owner => owner.home
  | entry owner => owner.home
  | oneof owner _ => owner.home
  | enum owner => owner.home
  | service owner => owner.home

def path : Node → List String
  | message owner => owner.path
  | entry owner => Name.dropEntry owner.path
  | oneof owner own => owner.path ++ [own.name]
  | enum owner => owner.path
  | service owner => [owner.name]

def stem (node : Node) : List Char := Name.packageStem node.home.package

/-- The words of a name, where no word holds an underscore. -/
def place (node : Node) : List (List Char) := node.stem :: node.path.map cased

def spelling (node : Node) : List Char := cased (node.path.getLast?.getD "")

def parent : Node → Option String
  | message owner => owner.parent
  | entry owner => owner.parent
  | oneof owner _ => some owner.fullName
  | enum owner => owner.parent
  | service _ => none

def scope (node : Node) : Scope :=
  match node.parent with
  | none => .package node.stem
  | some name => .message name

end Node

def oneofNodes (files : List File) : List Node :=
  (allMessages files).flatMap fun message => message.choices.map (.oneof message)

def typeNodes (files : List File) : List Node :=
  (allMessages files).map .message ++ oneofNodes files ++ (allEnums files).map .enum ++
    (allServices files).map .service

def fieldNodes (files : List File) : List Node :=
  ((allMessages files).filter (·.isMap)).map .entry ++ oneofNodes files

/-- In no scope are two names spelled alike. -/
structure DistinctSpellings (files : List File) : Prop where
  types : ((typeNodes files).map fun node => (node.scope, node.spelling)).Nodup
  fields : ((fieldNodes files).map fun node => (node.scope, node.spelling)).Nodup
  members : ∀ message ∈ allMessages files, ∀ oneof ∈ message.choices,
    (oneof.members.map fun field => cased field.name).Nodup

namespace Node

inductive IsOf (files : List File) : Node → Prop
  | message {message : Message} (hm : message ∈ allMessages files) : IsOf files (.message message)
  | entry {message : Message} (hm : message ∈ allMessages files) (hmap : message.isMap = true) :
      IsOf files (.entry message)
  | oneof {message : Message} {oneof : Oneof} (hm : message ∈ allMessages files)
      (ho : oneof ∈ message.choices) : IsOf files (.oneof message oneof)
  | enum {enum : Enum} (he : enum ∈ allEnums files) : IsOf files (.enum enum)
  | service {service : Service} (hs : service ∈ allServices files) : IsOf files (.service service)

variable {index : Options.Index} {described : List Descriptor.File} {files : List File}
  {node : Node}

theorem mem_oneofNodes {message : Message} {oneof : Oneof} (hm : message ∈ allMessages files)
    (ho : oneof ∈ message.choices) : .oneof message oneof ∈ oneofNodes files :=
  List.mem_flatMap.mpr ⟨message, hm, List.mem_map_of_mem ho⟩

theorem IsOf.mem_typeNodes (h : IsOf files node) (hne : ∀ message, node ≠ .entry message) :
    node ∈ typeNodes files := by
  simp only [typeNodes, List.mem_append]
  cases h with
  | message hm => exact .inl (.inl (.inl (List.mem_map_of_mem hm)))
  | entry hm hmap => exact absurd rfl (hne _)
  | oneof hm ho => exact .inl (.inl (.inr (mem_oneofNodes hm ho)))
  | enum he => exact .inl (.inr (List.mem_map_of_mem he))
  | service hs => exact .inr (List.mem_map_of_mem hs)

theorem IsOf.exists_file (hw : Wrapped index described files) (h : IsOf files node) :
    ∃ file ∈ files, node.home = file.home := by
  cases h with
  | message hm | entry hm _ | oneof hm _ =>
    obtain ⟨file, hf, hin⟩ := List.mem_flatMap.mp hm
    exact ⟨file, hf, ((hw.coherent hf).messages _ hin).1⟩
  | enum he =>
    obtain ⟨file, hf, hin⟩ := List.mem_flatMap.mp he
    exact ⟨file, hf, ((hw.coherent hf).enums _ hin).1⟩
  | service hs =>
    obtain ⟨file, hf, hin⟩ := List.mem_flatMap.mp hs
    exact ⟨file, hf, ((hw.coherent hf).services _ hin).1⟩

private theorem place_of_single {name : String} (h : node.path = [name]) :
    node.place = [node.stem, node.spelling] := by
  simp [place, spelling, h]

private theorem place_of_concat {owner : Message} {name : String} (hhome : owner.home = node.home)
    (h : node.path = owner.path ++ [name]) :
    node.place = (Node.message owner).place ++ [node.spelling] := by
  have hplace : (Node.message owner).place = node.stem :: owner.path.map cased := by
    rw [stem, ← hhome]
    rfl
  have hspelling : node.spelling = cased name := by simp [spelling, h]
  rw [hplace, hspelling, place, h, List.map_append]
  rfl

end Node

theorem dropEntry_concat (path : List String) (name : String) :
    Name.dropEntry (path ++ [name]) = path ++ [Text.dropEnd "Entry" name] := by
  induction path with
  | nil => rfl
  | cons first path ih =>
    cases hrest : path ++ [name] with
    | nil => simp at hrest
    | cons second rest =>
      rw [List.cons_append, hrest, Name.dropEntry, ← hrest, ih]
      · rfl
      · simp

namespace Node

variable {index : Options.Index} {described : List Descriptor.File} {files : List File}
  {node : Node}

private theorem owner_of_parent (h : (∃ name, node.path = [name] ∧ node.parent = none) ∨
    ∃ owner ∈ allMessages files, owner.home = node.home ∧ node.parent = some owner.fullName ∧
      ∃ name, node.path = owner.path ++ [name]) :
    (node.scope = .package node.stem ∧ node.place = [node.stem, node.spelling]) ∨
      ∃ owner ∈ allMessages files, node.scope = .message owner.fullName ∧
        node.place = (Node.message owner).place ++ [node.spelling] := by
  rcases h with ⟨name, hpath, hparent⟩ | ⟨owner, ho, hhome, hparent, name, hpath⟩
  · exact .inl ⟨by rw [scope, hparent], place_of_single hpath⟩
  · exact .inr ⟨owner, ho, by rw [scope, hparent], place_of_concat hhome hpath⟩

/-- A node stands in a package or right below the place of a message. -/
theorem IsOf.owner (hw : Wrapped index described files) (h : IsOf files node) :
    (node.scope = .package node.stem ∧ node.place = [node.stem, node.spelling]) ∨
      ∃ owner ∈ allMessages files, node.scope = .message owner.fullName ∧
        node.place = (Node.message owner).place ++ [node.spelling] := by
  apply owner_of_parent
  cases h with
  | message hm => exact hw.message_owner hm
  | entry hm _ =>
    rcases hw.message_owner hm with
      ⟨name, hpath, hparent⟩ | ⟨owner, ho, hhome, hparent, name, hpath⟩
    · exact .inl ⟨_, congrArg Name.dropEntry hpath, hparent⟩
    · have hentry := congrArg Name.dropEntry hpath
      rw [dropEntry_concat] at hentry
      exact .inr ⟨owner, ho, hhome, hparent, _, hentry⟩
  | oneof hm _ => exact .inr ⟨_, hm, rfl, rfl, _, rfl⟩
  | enum he => exact hw.enum_owner he
  | service _ => exact .inl ⟨_, rfl, rfl⟩

theorem IsOf.two_le_length (hw : Wrapped index described files) (h : IsOf files node) :
    2 ≤ node.place.length := by
  rcases h.owner hw with ⟨-, hplace⟩ | ⟨owner, -, -, hplace⟩
  · simp [hplace]
  · rw [hplace, List.length_append]
    simp [place]

/-- What lies on the way to a place, from the package on, are messages. -/
theorem IsOf.exists_message (hw : Wrapped index described files) (h : IsOf files node)
    {front rest : List (List Char)} (hplace : node.place = front ++ rest) (hrest : rest ≠ [])
    (hfront : 2 ≤ front.length) :
    ∃ message ∈ allMessages files, (Node.message message).place = front := by
  -- from the end of the place: the owner of the node is one word nearer to the front
  induction rest using List.reverseRecOn generalizing node with
  | nil => exact absurd rfl hrest
  | append_singleton rest word ih =>
    rcases h.owner hw with ⟨-, hown⟩ | ⟨owner, ho, -, hown⟩
    · have hlength := congrArg List.length (hown.symm.trans hplace)
      simp only [List.length_cons, List.length_nil, List.length_append] at hlength
      omega
    · rw [hown, ← List.append_assoc] at hplace
      obtain ⟨hplace, -⟩ := List.append_inj' hplace rfl
      by_cases hnil : rest = []
      · exact ⟨owner, ho, by rw [hplace, hnil, List.append_nil]⟩
      · exact ih (.message ho) hplace hnil

/-- Nodes of one place stand in one scope, if the messages of one place are the same. -/
theorem IsOf.scoped_eq (hw : Wrapped index described files) {a b : Node} (ha : IsOf files a)
    (hb : IsOf files b) (hplace : a.place = b.place)
    (hmessages : ∀ m ∈ allMessages files, ∀ n ∈ allMessages files,
      (Node.message m).place = (Node.message n).place →
        (Node.message m).place.length < a.place.length → m = n) :
    (a.scope, a.spelling) = (b.scope, b.spelling) := by
  rcases ha.owner hw with ⟨hscope, hown⟩ | ⟨owner, ho, hscope, hown⟩ <;>
    rcases hb.owner hw with ⟨hscope', hown'⟩ | ⟨owner', ho', hscope', hown'⟩
  · rw [hown, hown'] at hplace
    simp only [List.cons.injEq, and_true] at hplace
    rw [hscope, hscope', hplace.1, hplace.2]
  · have hlength := (IsOf.message ho').two_le_length hw
    have heq := congrArg List.length (hown.symm.trans (hplace.trans hown'))
    simp only [List.length_cons, List.length_nil, List.length_append] at heq
    omega
  · have hlength := (IsOf.message ho).two_le_length hw
    have heq := congrArg List.length (hown.symm.trans (hplace.trans hown'))
    simp only [List.length_cons, List.length_nil, List.length_append] at heq
    omega
  · have hlast := hown.symm.trans (hplace.trans hown')
    obtain ⟨hplaces, hspelling⟩ := List.append_inj' hlast rfl
    obtain rfl := hmessages owner ho owner' ho' hplaces (by simp [hown])
    rw [hscope, hscope', List.singleton_inj.mp hspelling]

/-- No two types have one place. -/
theorem IsOf.eq_of_place (hw : Wrapped index described files) (hd : DistinctSpellings files)
    {a b : Node} (ha : IsOf files a) (hb : IsOf files b) (hne : ∀ message, a ≠ .entry message)
    (hne' : ∀ message, b ≠ .entry message) (hplace : a.place = b.place) : a = b := by
  -- shorter places first, so that the messages around both nodes are known to be the same
  induction hlength : a.place.length using Nat.strongRecOn generalizing a b with
  | ind length ih =>
    refine List.inj_on_of_nodup_map hd.types (ha.mem_typeNodes hne) (hb.mem_typeNodes hne')
      (ha.scoped_eq hw hb hplace fun m hm n hn hsame hlt => ?_)
    have hnode := ih _ (hlength ▸ hlt) (.message hm) (.message hn) (by simp) (by simp) hsame rfl
    exact Node.message.inj hnode

/-- No two of the places named after fields are the same. -/
theorem IsOf.eq_of_place_of_fields (hw : Wrapped index described files)
    (hd : DistinctSpellings files) {a b : Node} (ha : IsOf files a) (hb : IsOf files b)
    (hfa : a ∈ fieldNodes files) (hfb : b ∈ fieldNodes files) (hplace : a.place = b.place) :
    a = b := by
  refine List.inj_on_of_nodup_map hd.fields hfa hfb
    (ha.scoped_eq hw hb hplace fun m hm n hn hsame _ => ?_)
  exact Node.message.inj
    (IsOf.eq_of_place hw hd (.message hm) (.message hn) (by simp) (by simp) hsame)

end Node

end ProtoSdl.Source

import ProtoSdl.Mapping.Basic
import ProtoSdl.Proofs.NamePlaces

/-! Names of types as words between underscores. The words of a name are those of its node and a
mark, for instance of inputs; where all words can be told apart, so can the names. -/
namespace ProtoSdl

namespace Name

private theorem camelTail_append_entry (inWord : Bool) (cs : List Char) :
    ∃ rest, camelTail inWord (cs ++ "Entry".toList) = camelTail inWord cs ++ rest := by
  induction cs generalizing inWord with
  | nil => exact ⟨_, rfl⟩
  | cons c cs ih =>
    -- an underscore at the end stays, and so it does before the capital
    have hhead : (cs ++ "Entry".toList).head?.any Char.isLower = cs.head?.any Char.isLower := by
      cases cs <;> rfl
    obtain ⟨rest, hrest⟩ := ih true
    obtain ⟨rest', hrest'⟩ := ih false
    rw [List.cons_append, camelTail, camelTail, hhead, hrest, hrest']
    split
    · exact ⟨rest, rfl⟩
    · split
      · exact ⟨rest', rfl⟩
      · split
        · exact ⟨rest', rfl⟩
        · exact ⟨rest, rfl⟩

private theorem camelCase_append_entry (cs : List Char) :
    ∃ rest, camelCase (cs ++ "Entry".toList) = camelCase cs ++ rest := by
  unfold camelCase
  split
  · rename_i first heq
    cases cs with
    | nil => simp at heq
    | cons c cs =>
      obtain ⟨rfl, rfl⟩ := List.cons.inj heq
      obtain ⟨rest, hrest⟩ := camelTail_append_entry false cs
      exact ⟨rest, congrArg ('X' :: ·) hrest⟩
  · rename_i hfirst
    split
    · exact absurd rfl (hfirst _)
    · exact camelTail_append_entry false cs

end Name

namespace Source

private theorem toList_dropEnd_entry (name : String) : Text.dropEnd "Entry" name = name ∨
    name.toList = (Text.dropEnd "Entry" name).toList ++ "Entry".toList := by
  by_cases h : "Entry".toList <:+ name.toList
  · obtain ⟨rest, hrest⟩ := h
    rw [Text.dropEnd_append hrest.symm, String.toList_ofList]
    exact .inr hrest.symm
  · exact .inl (Text.dropEnd_of_not_suffix h)

/-- A name without the word `Entry` gains no underscore. -/
theorem cased_dropEnd_entry {name : String} (h : '_' ∉ cased name) :
    '_' ∉ cased (Text.dropEnd "Entry" name) := by
  rcases toList_dropEnd_entry name with heq | heq
  · rwa [heq]
  · obtain ⟨rest, hrest⟩ := Name.camelCase_append_entry (Text.dropEnd "Entry" name).toList
    rw [cased, heq, hrest] at h
    exact fun hm => h (List.mem_append_left _ hm)

/-- The names of types can be told apart: they are spelled without underscores and differently in
one scope, and nothing in a message is spelled like the marks of maps and inputs. -/
structure WellSpelled (files : List File) : Prop extends DistinctSpellings files where
  plain : ∀ node ∈ typeNodes files, ∀ word ∈ node.place, '_' ∉ word
  types_reserved : ∀ node ∈ typeNodes files, node.scope ≠ .package node.stem →
    node.spelling ≠ "Map".toList ∧ node.spelling ≠ "Input".toList
  members_reserved : ∀ message ∈ allMessages files, ∀ oneof ∈ message.choices,
    ∀ field ∈ oneof.members, cased field.name ≠ "Input".toList

theorem WellSpelled.place_plain {files : List File} (hs : WellSpelled files) {node : Node}
    (h : node.IsOf files) : ∀ word ∈ node.place, '_' ∉ word := by
  by_cases hentry : ∃ message, node = .entry message
  · obtain ⟨message, rfl⟩ := hentry
    cases h with
    | entry hm hmap =>
      have hplain := hs.plain _ (Node.IsOf.mem_typeNodes (.message hm) (by simp))
      intro word hword
      rcases List.mem_cons.mp hword with rfl | hword
      · exact hplain _ List.mem_cons_self
      obtain ⟨name, hname, rfl⟩ := List.mem_map.mp hword
      rcases List.eq_nil_or_concat message.path with hnil | ⟨front, last, hpath⟩
      · simp [Node.path, hnil, Name.dropEntry] at hname
      · rw [List.concat_eq_append] at hpath
        have hsegment : ∀ segment ∈ message.path, '_' ∉ cased segment := fun segment hsegment =>
          hplain _ (List.mem_cons_of_mem _ (List.mem_map_of_mem hsegment))
        simp only [Node.path, hpath, dropEntry_concat, List.mem_append, List.mem_singleton] at hname
        rcases hname with hname | rfl
        · exact hsegment name (by simp [hpath, hname])
        · exact cased_dropEnd_entry (hsegment last (by simp [hpath]))
  · exact hs.plain node (h.mem_typeNodes fun message heq => hentry ⟨message, heq⟩)

end Source

namespace Mapping

open Source (Node WellSpelled cased allMessages)

/-- What follows the words of a node in the name of a type. -/
inductive Mark
  | bare
  | input
  | member (field : Source.Field)
  | root (operation : Operation)

structure Label where
  node : Node
  mark : Mark

namespace Label

/-- The parts of a name after the place of its node. -/
def ending (label : Label) : List (List Char) :=
  (match label.node with
    | .entry _ => ["Map".toList]
    | _ => []) ++
  match label.mark with
  | .bare => []
  | .input => ["Input".toList]
  | .member field => [cased field.name]
  | .root operation => [operation.rootName.toList]

def text (label : Label) : String :=
  String.ofList (['_'].intercalate (label.node.place ++ label.ending))

def endingWords (label : Label) : List (List Char) :=
  label.ending.flatMap (Text.splitChars '_')

inductive Fits : Label → Prop
  | object (message : Source.Message) : Fits ⟨.message message, .bare⟩
  | input (message : Source.Message) : Fits ⟨.message message, .input⟩
  | map (message : Source.Message) : Fits ⟨.entry message, .bare⟩
  | mapInput (message : Source.Message) : Fits ⟨.entry message, .input⟩
  | union (message : Source.Message) (oneof : Source.Oneof) : Fits ⟨.oneof message oneof, .bare⟩
  | unionInput (message : Source.Message) (oneof : Source.Oneof) :
      Fits ⟨.oneof message oneof, .input⟩
  | wrapper (message : Source.Message) {oneof : Source.Oneof} {field : Source.Field}
      (hf : field ∈ oneof.members) : Fits ⟨.oneof message oneof, .member field⟩
  | enum (enum : Source.Enum) : Fits ⟨.enum enum, .bare⟩
  | root (service : Source.Service) (operation : Operation) :
      Fits ⟨.service service, .root operation⟩

end Label

section Words

variable {index : Options.Index} {described : List Descriptor.File} {files : List Source.File}
  {a b : Label}

/-- A name is read as the words of its place and of its ending. -/
theorem Label.splitChars_text (hs : WellSpelled files) (h : a.node.IsOf files) :
    Text.splitChars '_' a.text.toList = a.node.place ++ a.endingWords := by
  rw [text, String.toList_ofList, Text.splitChars_intercalate '_' (by simp [Node.place]),
    List.flatMap_append, Text.flatMap_splitChars (hs.place_plain h), endingWords]

/-- A name that goes on with the mark of maps is one of those named after fields. -/
theorem Label.Fits.mem_fieldNodes (h : a.Fits) (hi : a.node.IsOf files) {rest : List (List Char)}
    (hwords : a.endingWords = "Map".toList :: rest) : a.node ∈ Source.fieldNodes files := by
  cases h with
  | object | input | enum => cases hwords
  | map | mapInput =>
    cases hi with
    | entry hm hmap =>
      exact List.mem_append_left _ (List.mem_map_of_mem (List.mem_filter.mpr ⟨hm, hmap⟩))
  | union | unionInput | wrapper =>
    cases hi with
    | oneof hm ho => exact List.mem_append_right _ (Node.mem_oneofNodes hm ho)
  | root service operation => cases operation <;> cases hwords

theorem Label.Fits.map_of_entry (h : a.Fits) {message : Source.Message}
    (hentry : a.node = .entry message) : ∃ rest, a.endingWords = "Map".toList :: rest := by
  cases h with
  | map | mapInput => exact ⟨_, rfl⟩
  | object | input | union | unionInput | wrapper | enum | root => cases hentry

theorem splitChars_injective {cs ds : List Char}
    (h : Text.splitChars '_' cs = Text.splitChars '_' ds) : cs = ds := by
  rw [← Text.intercalate_splitChars '_' cs, h, Text.intercalate_splitChars]

theorem Label.endingWords_member (message : Source.Message) (oneof : Source.Oneof)
    (field : Source.Field) : endingWords ⟨.oneof message oneof, .member field⟩ =
      Text.splitChars '_' (cased field.name) := by
  simp [endingWords, ending]

/-- A member is neither without a name nor called like the mark of inputs. -/
theorem WellSpelled.member_words_ne (hs : WellSpelled files) {message : Source.Message}
    {oneof : Source.Oneof} (h : (Node.oneof message oneof).IsOf files) {field : Source.Field}
    (hf : field ∈ oneof.members) : Text.splitChars '_' (cased field.name) ≠ [] ∧
      Text.splitChars '_' (cased field.name) ≠ ["Input".toList] := by
  refine ⟨Text.splitChars_ne_nil _ _, fun heq => ?_⟩
  have hinput : Text.splitChars '_' "Input".toList = ["Input".toList] := rfl
  cases h with
  | oneof hm ho =>
    exact hs.members_reserved message hm oneof ho field hf
      (splitChars_injective (heq.trans hinput.symm))

/-- The types named after one node are told apart by their marks. -/
theorem Label.eq_of_node (hs : WellSpelled files) (h : a.node.IsOf files) (ha : a.Fits)
    (hb : b.Fits) (hnode : a.node = b.node) (hwords : a.endingWords = b.endingWords) : a = b := by
  obtain ⟨node, mark⟩ := a
  obtain ⟨_, mark'⟩ := b
  cases hnode
  cases ha with
  | object => cases hb with
    | object => rfl
    | input => cases hwords
  | input => cases hb with
    | object => cases hwords
    | input => rfl
  | map => cases hb with
    | map => rfl
    | mapInput => cases hwords
  | mapInput => cases hb with
    | map => cases hwords
    | mapInput => rfl
  | union message oneof => cases hb with
    | union => rfl
    | unionInput => cases hwords
    | wrapper _ hf =>
      rw [endingWords_member] at hwords
      exact absurd hwords.symm (WellSpelled.member_words_ne hs h hf).1
  | unionInput message oneof => cases hb with
    | union => cases hwords
    | unionInput => rfl
    | wrapper _ hf =>
      rw [endingWords_member] at hwords
      exact absurd hwords.symm (WellSpelled.member_words_ne hs h hf).2
  | @wrapper message oneof field hf =>
    rw [endingWords_member] at hwords
    cases hb with
    | union => exact absurd hwords (WellSpelled.member_words_ne hs h hf).1
    | unionInput => exact absurd hwords (WellSpelled.member_words_ne hs h hf).2
    | @wrapper _ _ field' hf' =>
      rw [endingWords_member] at hwords
      cases h with
      | oneof hm ho =>
        have hnodup := hs.members message hm oneof ho
        rw [List.inj_on_of_nodup_map hnodup hf hf' (splitChars_injective hwords)]
  | enum => cases hb with
    | enum => rfl
  | root service operation => cases hb with
    | root _ operation' => cases operation <;> cases operation' <;> first | rfl | cases hwords

/-- Nothing below the place of a message is spelled like a mark. -/
theorem WellSpelled.spelling_ne (hw : Source.Wrapped index described files)
    (hs : WellSpelled files) {node : Node} (h : node.IsOf files)
    (hne : ∀ message, node ≠ .entry message) {front : List (List Char)} {word : List Char}
    (hplace : node.place = front ++ [word]) (hfront : 2 ≤ front.length) :
    word ≠ "Map".toList ∧ word ≠ "Input".toList := by
  rcases h.owner hw with ⟨-, hown⟩ | ⟨owner, -, hscope, hown⟩
  · have hlength := congrArg List.length (hown.symm.trans hplace)
    simp only [List.length_cons, List.length_nil, List.length_append] at hlength
    omega
  · obtain ⟨-, hword⟩ := List.append_inj' (hplace.symm.trans hown) rfl
    rw [List.singleton_inj.mp hword]
    exact hs.types_reserved node (h.mem_typeNodes hne) (by simp [hscope])

theorem Label.node_eq (hw : Source.Wrapped index described files) (hs : WellSpelled files)
    (ha : a.node.IsOf files) (hb : b.node.IsOf files) (fa : a.Fits) (fb : b.Fits)
    (hplace : a.node.place = b.node.place) (hwords : a.endingWords = b.endingWords) :
    a.node = b.node := by
  by_cases hmap : ∃ rest, a.endingWords = "Map".toList :: rest
  · obtain ⟨rest, hrest⟩ := hmap
    exact ha.eq_of_place_of_fields hw hs.toDistinctSpellings hb (fa.mem_fieldNodes ha hrest)
      (fb.mem_fieldNodes hb (hwords.symm.trans hrest)) hplace
  · refine ha.eq_of_place hw hs.toDistinctSpellings hb (fun message heq => ?_)
      (fun message heq => ?_) hplace
    · exact hmap (fa.map_of_entry heq)
    · rw [hwords] at hmap
      exact hmap (fb.map_of_entry heq)

/-- Where the place of one label goes on from that of another, the other ends in marks only. -/
theorem Label.marks_of_message_place (hw : Source.Wrapped index described files)
    (hs : WellSpelled files) (ha : a.node.IsOf files) (fa : a.Fits) {message : Source.Message}
    (hm : message ∈ allMessages files) (hsame : (Node.message message).place = a.node.place) :
    (∀ word ∈ a.endingWords, word = "Map".toList ∨ word = "Input".toList) ∧
      "Map".toList ∉ a.endingWords.tail := by
  have hnode : (∀ other, a.node ≠ .entry other) → a.node = .message message := fun hne =>
    (Node.IsOf.eq_of_place hw hs.toDistinctSpellings (.message hm) ha (by simp) hne hsame).symm
  have hmarks : ∀ words ∈ [[], ["Input".toList], ["Map".toList], ["Map".toList, "Input".toList]],
      (∀ word ∈ words, word = "Map".toList ∨ word = "Input".toList) ∧
        "Map".toList ∉ words.tail := by decide
  cases fa with
  | object => exact hmarks [] (by decide)
  | input => exact hmarks ["Input".toList] (by decide)
  | map => exact hmarks ["Map".toList] (by decide)
  | mapInput => exact hmarks ["Map".toList, "Input".toList] (by decide)
  | union | unionInput | wrapper | enum | root => exact nomatch hnode (by simp)

/-- Labels with one name are the same, where the place of one goes on from that of the other. -/
theorem Label.eq_of_words (hw : Source.Wrapped index described files) (hs : WellSpelled files)
    (ha : a.node.IsOf files) (hb : b.node.IsOf files) (fa : a.Fits) (fb : b.Fits)
    {between : List (List Char)} (hplace : b.node.place = a.node.place ++ between)
    (hwords : a.endingWords = between ++ b.endingWords) : a = b := by
  rcases List.eq_nil_or_concat between with rfl | ⟨front, last, rfl⟩
  · rw [List.append_nil] at hplace
    exact eq_of_node hs ha fa fb (node_eq hw hs ha hb fa fb hplace.symm hwords) hwords
  · -- then there is a message on the way, and the name goes on with a mark
    exfalso
    rw [List.concat_eq_append] at hplace hwords
    have hlength := ha.two_le_length hw
    obtain ⟨message, hm, hsame⟩ := hb.exists_message hw hplace (by simp) hlength
    obtain ⟨hmarks, hmap⟩ := marks_of_message_place hw hs ha fa hm hsame
    have hne : ∀ message, b.node ≠ .entry message := by
      intro message heq
      obtain ⟨rest, hrest⟩ := fb.map_of_entry heq
      apply hmap
      rw [hwords, hrest]
      cases front <;> simp
    rw [← List.append_assoc] at hplace
    have hspelling := WellSpelled.spelling_ne hw hs hb hne hplace (by simp; omega)
    rcases hmarks last (by simp [hwords]) with hlast | hlast
    · exact hspelling.1 hlast
    · exact hspelling.2 hlast

/-- No two types have one name. -/
theorem Label.eq_of_text (hw : Source.Wrapped index described files) (hs : WellSpelled files)
    (ha : a.node.IsOf files) (hb : b.node.IsOf files) (fa : a.Fits) (fb : b.Fits)
    (htext : a.text = b.text) : a = b := by
  have hwords := congrArg (fun text => Text.splitChars '_' text.toList) htext
  simp only [splitChars_text hs ha, splitChars_text hs hb] at hwords
  rcases List.append_eq_append_iff.mp hwords with ⟨between, hplace, hend⟩ | ⟨between, hplace, hend⟩
  · exact eq_of_words hw hs ha hb fa fb hplace hend
  · exact (eq_of_words hw hs hb ha fb fa hplace hend).symm

end Words

end Mapping

end ProtoSdl

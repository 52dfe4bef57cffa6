import ProtoSdl.Mapping.ServiceTypes
import ProtoSdl.Proofs.CanonicalWords

/-! Names of methods and services. Such a name is cut before its capitals, and its pieces are
lowered and joined again. A capital inside the name stood at the start of a piece and comes back
with it, so that the first letter alone can change. -/
namespace ProtoSdl.Name

def IsAscii (cs : List Char) : Prop :=
  ∀ c ∈ cs, c.toNat < 0x80

instance (cs : List Char) : Decidable (IsAscii cs) :=
  List.decidableBAll _ cs

/-- The names differ at most in the case of their first letter. -/
structure AlikeButFirst (name other : List Char) : Prop where
  first : name.head?.map Char.toLower = other.head?.map Char.toLower
  rest : name.tail = other.tail

/-! ### Pieces between capitals -/

/-- A piece does not go on over a capital. -/
theorem isUpper_eq_false_of_mem_tail {name piece : List Char} (h : piece ∈ cutAtCapitals name) :
    ∀ c ∈ piece.tail, c.isUpper = false := by
  induction name generalizing piece with
  | nil => simp [cutAtCapitals] at h
  | cons c cs ih =>
    rw [cutAtCapitals] at h
    split at h
    · simp_all
    · rename_i next pieces hpieces
      rw [hpieces] at ih
      split at h
      · rcases List.mem_cons.mp h with rfl | h
        · simp
        · exact ih h
      · rename_i hgoes
        rcases List.mem_cons.mp h with rfl | h
        · -- The piece behind `c` is taken in whole, with a first character that is no capital.
          cases next with
          | nil => simp
          | cons d ds =>
            have hd : d.isUpper = false := by simpa using hgoes
            exact List.forall_mem_cons.mpr ⟨hd, ih List.mem_cons_self⟩
        · exact ih (List.mem_cons_of_mem _ h)

/-- Every piece but the first begins at a capital. -/
theorem isUpper_head_of_mem_tail {name piece : List Char}
    (h : piece ∈ (cutAtCapitals name).tail) : piece.head?.any Char.isUpper = true := by
  induction name with
  | nil => simp [cutAtCapitals] at h
  | cons c cs ih =>
    rw [cutAtCapitals] at h
    split at h
    · simp at h
    · rename_i next pieces hpieces
      rw [hpieces] at ih
      split at h
      · rename_i hupper
        rcases List.mem_cons.mp h with rfl | h
        · exact hupper
        · exact ih h
      · exact ih h

section Piece

variable {c : Char} {cs : List Char} (hascii : IsAscii (c :: cs))
  (hplain : ∀ d ∈ cs, d.isUpper = false)

include hascii hplain

/-- Lowering a piece lowers its first character. -/
theorem flatMap_lower_piece : (c :: cs).flatMap Text.lower = c.toLower :: cs := by
  rw [Text.flatMap_lower_ascii hascii, List.map_cons]
  congr 1
  refine (List.map_congr_left fun d hd => ?_).trans (List.map_id cs)
  exact toLower_eq_self (hplain d hd)

private theorem openingWord_piece :
    openingWord ((c :: cs).flatMap Text.lower) = lowerFirst (c :: cs) := by
  rw [flatMap_lower_piece hascii hplain, lowerFirst, Text.lower_ascii (hascii c List.mem_cons_self)]
  simp [openingWord]

/-- A piece that begins at a capital gets it back. -/
theorem capitalWord_piece (hupper : c.isUpper = true) :
    capitalWord ((c :: cs).flatMap Text.lower) = c :: cs := by
  have halpha : c.isAlpha = true := isAlpha_of_isUpper hupper
  have hlowered : c.toLower.toNat < 0x80 :=
    toNat_lt_of_isNameChar (isNameChar_toLower (isNameChar_of_isAlpha halpha))
  rw [flatMap_lower_piece hascii hplain]
  rcases toLower_cases c with ⟨-, hlower, hback⟩ | ⟨hplain, -⟩
  · simp [capitalWord, hlower, upperFirst, Text.upper_ascii hlowered, hback]
  · simp [hupper] at hplain

end Piece

section Ascii

variable {name : List Char} (h : IsAscii name)

include h

theorem exists_piece {piece : List Char} (hpiece : piece ∈ cutAtCapitals name) :
    ∃ c cs, piece = c :: cs ∧ IsAscii (c :: cs) ∧ ∀ d ∈ cs, d.isUpper = false := by
  obtain ⟨c, cs, rfl⟩ := List.exists_cons_of_ne_nil (ne_nil_of_mem_cutAtCapitals hpiece)
  exact ⟨c, cs, rfl, fun d hd => h d (mem_of_mem_cutAtCapitals hpiece hd),
    isUpper_eq_false_of_mem_tail hpiece⟩

/-- All pieces but the first come back as they were. -/
theorem capitalWord_of_mem_tail {piece : List Char} (hpiece : piece ∈ (cutAtCapitals name).tail) :
    capitalWord (piece.flatMap Text.lower) = piece := by
  have hupper := isUpper_head_of_mem_tail hpiece
  obtain ⟨c, cs, rfl, hascii, hplain⟩ := exists_piece h (List.mem_of_mem_tail hpiece)
  exact capitalWord_piece hascii hplain (by simpa using hupper)

/-- Cut at its capitals and joined in lower camel case, a name changes in its first character. -/
theorem capitalToLowerCamel_eq_lowerFirst : capitalToLowerCamel name = lowerFirst name := by
  have hflat := flatten_cutAtCapitals name
  rw [capitalToLowerCamel, capitalWords]
  cases hpieces : cutAtCapitals name with
  | nil =>
    rw [hpieces] at hflat
    rw [← hflat]
    rfl
  | cons piece pieces =>
    obtain ⟨c, cs, rfl, hascii, hplain⟩ := exists_piece h (hpieces ▸ List.mem_cons_self)
    have hrest : (pieces.map (·.flatMap Text.lower)).flatMap capitalWord = pieces.flatten := by
      rw [List.flatMap_map, List.flatten_eq_flatMap]
      refine List.flatMap_congr fun other hother => capitalWord_of_mem_tail h ?_
      rwa [hpieces]
    rw [List.map_cons, joinLowerCamel, openingWord_piece hascii hplain, hrest, ← hflat, hpieces,
      List.flatten_cons]
    simp [lowerFirst]

private theorem nil_not_mem_capitalWords : [] ∉ capitalWords name := by
  intro hnil
  obtain ⟨piece, hpiece, hlowered⟩ := List.mem_map.mp hnil
  obtain ⟨c, cs, rfl, hascii, hplain⟩ := exists_piece h hpiece
  rw [flatMap_lower_piece hascii hplain] at hlowered
  cases hlowered

private theorem joinLowerCamel?_capitalWords :
    joinLowerCamel? (capitalWords name) = some (lowerFirst name) := by
  rw [joinLowerCamel?, if_neg (nil_not_mem_capitalWords h), ← capitalToLowerCamel,
    capitalToLowerCamel_eq_lowerFirst h]

/-- Lowering the first character leaves what it was, but for its case, and all behind it. -/
theorem lowerFirst_spec :
    (lowerFirst name).head? = name.head?.map Char.toLower ∧
      (lowerFirst name).tail = name.tail := by
  cases name with
  | nil => exact ⟨rfl, rfl⟩
  | cons c cs => simp [lowerFirst, Text.lower_ascii (h c List.mem_cons_self)]

end Ascii

private theorem alikeButFirst_of_lowerFirst {name other : List Char} (hname : IsAscii name)
    (hother : IsAscii other) (h : lowerFirst name = lowerFirst other) :
    AlikeButFirst name other := by
  obtain ⟨hfirst, hrest⟩ := lowerFirst_spec hname
  obtain ⟨hofirst, horest⟩ := lowerFirst_spec hother
  constructor
  · rw [← hfirst, h, hofirst]
  · rw [← hrest, h, horest]

end ProtoSdl.Name

namespace ProtoSdl.Mapping

open Name (IsAscii AlikeButFirst)

/-- A name of the source, and the name that stands for it in the types of a service: that of a
method in a root object, or that of the service itself in an extension. -/
inductive ServicePlan.Shows (naming : Naming) (plan : ServicePlan) : String → String → Prop
  | method {operation : Operation} {method : MethodPlan} (h : method ∈ plan.ofOperation operation) :
      Shows naming plan method.method.name (method.field naming).name
  | service {extension : Schema.Composite} {field : Schema.Field}
      (he : extension ∈ plan.extensions naming) (hf : field ∈ extension.fields) :
      Shows naming plan plan.service.name field.name

theorem ServicePlan.Shows.eq_methodName {naming : Naming} {plan : ServicePlan}
    {source shown : String} (h : plan.Shows naming source shown) :
    shown = naming.settings.methodName source := by
  cases h with
  | method h => rfl
  | service he hf =>
    unfold extensions at he
    split at he
    · cases he
    · obtain ⟨operation, -, rfl⟩ := List.mem_map.mp he
      cases List.mem_singleton.mp hf
      rfl

/-- Whatever the naming of members, names that meet are alike. -/
theorem alikeButFirst_of_methodName (settings : Settings) {name other : String}
    (hname : IsAscii name.toList) (hother : IsAscii other.toList)
    (h : settings.methodName name = settings.methodName other) :
    AlikeButFirst name.toList other.toList := by
  unfold Settings.methodName at h
  split at h
  · rw [h]
    exact ⟨rfl, rfl⟩
  · rw [String.ofList_inj, Name.capitalToLowerCamel_eq_lowerFirst hname,
      Name.capitalToLowerCamel_eq_lowerFirst hother] at h
    exact Name.alikeButFirst_of_lowerFirst hname hother h

/-- The casing of methods and services touches the first letter alone. So two names become the same
only if they are alike but for the case of that letter, be they of methods, of services or of one of
each. -/
theorem method_casing_is_of_first_letter :
    (∀ name : List Char, IsAscii name →
      Name.joinLowerCamel? (Name.capitalWords name) = some (Name.lowerFirst name) ∧
        Name.capitalToLowerCamel name = Name.lowerFirst name) ∧
    (∀ (settings : Settings) (name other : String), IsAscii name.toList → IsAscii other.toList →
      settings.methodName name = settings.methodName other →
        AlikeButFirst name.toList other.toList) ∧
    ∀ (naming : Naming) (plan others : ServicePlan) (name other shown : String),
      IsAscii name.toList → IsAscii other.toList → plan.Shows naming name shown →
      others.Shows naming other shown → AlikeButFirst name.toList other.toList := by
  refine ⟨fun name h =>
      ⟨Name.joinLowerCamel?_capitalWords h, Name.capitalToLowerCamel_eq_lowerFirst h⟩,
    fun settings name other hname hother h => alikeButFirst_of_methodName settings hname hother h,
    fun naming plan others name other shown hname hother hshown hsame => ?_⟩
  apply alikeButFirst_of_methodName naming.settings hname hother
  rw [← hshown.eq_methodName, ← hsame.eq_methodName]

section Relay

def relayHome : Source.Home :=
  { position := 0, name := "relay.proto", package := "", syntaxName := "proto3"
    nameSpace := .null }

/-- A method whose request and response have no fields. -/
def relayMethod (name : String) : MethodPlan :=
  let nothing : Source.Message :=
    { home := relayHome, address := [0], path := ["Nothing"], fullName := ".Nothing", parent := none
      nested := [], enums := [], isMap := false, fields := [], oneofNames := [] }
  { method := {
      name, input := ".Nothing", output := ".Nothing", isStreaming := false, isDeprecated := false
      operation := .null, skip := .null, loaders := [] }
    operation := .query
    request := nothing
    response := nothing }

def relay (name method : String) : ServicePlan :=
  { service := {
      home := relayHome, name, fullName := "." ++ name, skip := .null
      methods := [(relayMethod method).method] }
    methods := [relayMethod method] }

def relaySettings : Settings := { rootPrefix := some "" }

/-- A method and a service whose names differ in one capital are shown by one name. -/
theorem relayed_names_are_alike :
    IsAscii "GetURL_2v".toList ∧ IsAscii "getURL_2v".toList ∧
      Name.capitalToLowerCamel "GetURL_2v".toList = "getURL_2v".toList ∧
      (relay "Relay" "GetURL_2v").Shows { settings := relaySettings } "GetURL_2v" "getURL_2v" ∧
      (relay "getURL_2v" "Ping").Shows { settings := relaySettings } "getURL_2v" "getURL_2v" ∧
      AlikeButFirst "GetURL_2v".toList "getURL_2v".toList := by
  have hname : IsAscii "GetURL_2v".toList := by decide
  have hother : IsAscii "getURL_2v".toList := by decide
  have hlowered : Name.lowerFirst "GetURL_2v".toList = "getURL_2v".toList := by decide
  have hnamed : relaySettings.methodName "GetURL_2v" = "getURL_2v" := by decide
  have hsame : relaySettings.methodName "getURL_2v" = "getURL_2v" := by decide
  obtain ⟨extension, hextension, field, hfield⟩ :
      ∃ extension ∈ (relay "getURL_2v" "Ping").extensions { settings := relaySettings },
        ∃ field, field ∈ extension.fields := ⟨_, List.mem_cons_self, _, List.mem_cons_self⟩
  have hmethod : (relay "Relay" "GetURL_2v").Shows { settings := relaySettings } "GetURL_2v"
      (relaySettings.methodName "GetURL_2v") :=
    @ServicePlan.Shows.method _ _ .query (relayMethod "GetURL_2v") List.mem_cons_self
  have hservice := ServicePlan.Shows.service hextension hfield
  rw [hnamed] at hmethod
  rw [hservice.eq_methodName.trans hsame] at hservice
  obtain ⟨hlower, -, hshown⟩ := method_casing_is_of_first_letter
  exact ⟨hname, hother, (hlower _ hname).2.trans hlowered, hmethod, hservice,
    hshown _ _ _ _ _ _ hname hother hmethod hservice⟩

end Relay

-- Beyond ASCII a capital is no place to cut at, and is lowered for good.
example : Name.capitalToLowerCamel ['a', 'É'] = ['a', 'é'] := by decide

end ProtoSdl.Mapping

import Mathlib.Data.List.Nodup
import Mathlib.Logic.Function.Basic
import ProtoSdl.Proofs.Outcomes
import ProtoSdl.Settings

/-! Settings of joined texts. A part is refused, or gives one field a value, whatever the settings
were before. So the parts of a text act on each field by the last of them that has its key. -/
namespace ProtoSdl.Settings

open Outcome

/-! ### Fields -/

inductive Field
  | timestamp
  | duration
  | struct
  | nullWrappers
  | inputMode
  | longType
  | rootPrefix
  | memberNaming
  | trim
  | optionsPath
  deriving DecidableEq, Repr

namespace Field

def key : Field → String
  | timestamp => "timestamp"
  | duration => "duration"
  | struct => "struct"
  | nullWrappers => "null_wrappers"
  | inputMode => "input_mode"
  | longType => "js_64bit_type"
  | rootPrefix => "root_type_prefix"
  | memberNaming => "field_name"
  | trim => "trim_prefix"
  | optionsPath => "options"

def Value : Field → Type
  | timestamp | duration | struct | rootPrefix => Option String
  | nullWrappers => Bool
  | inputMode => InputMode
  | longType => LongType
  | memberNaming => MemberNaming
  | trim | optionsPath => String

def read : (field : Field) → String → Except Error field.Value
  | timestamp, value => (require (.missingType timestamp.key) value).map some
  | duration, value => (require (.missingType duration.key) value).map some
  | struct, value => (require (.missingType struct.key) value).map some
  | nullWrappers, _ => .ok true
  | inputMode, value => choose inputMode.key inputModes value
  | longType, value => choose longType.key longTypes value
  | rootPrefix, value => .ok (some value)
  | memberNaming, value => choose memberNaming.key memberNamings value
  | trim, value => .ok value
  | optionsPath, value => require .missingPath value

private theorem key_injective : Function.Injective key := by
  intro a b
  cases a <;> cases b <;> simp [key]

end Field

def get (settings : Settings) : (field : Field) → field.Value
  | .timestamp => settings.timestamp
  | .duration => settings.duration
  | .struct => settings.struct
  | .nullWrappers => settings.nullWrappers
  | .inputMode => settings.inputMode
  | .longType => settings.longType
  | .rootPrefix => settings.rootPrefix
  | .memberNaming => settings.memberNaming
  | .trim => settings.trim
  | .optionsPath => settings.optionsPath

def put (settings : Settings) : (field : Field) → field.Value → Settings
  | .timestamp, value => { settings with timestamp := value }
  | .duration, value => { settings with duration := value }
  | .struct, value => { settings with struct := value }
  | .nullWrappers, value => { settings with nullWrappers := value }
  | .inputMode, value => { settings with inputMode := value }
  | .longType, value => { settings with longType := value }
  | .rootPrefix, value => { settings with rootPrefix := value }
  | .memberNaming, value => { settings with memberNaming := value }
  | .trim, value => { settings with trim := value }
  | .optionsPath, value => { settings with optionsPath := value }

private theorem eq_of_get {settings others : Settings} (h : settings.get = others.get) :
    settings = others := by
  have hfield := fun field => congrFun h field
  cases settings
  cases others
  congr
  · exact hfield .timestamp
  · exact hfield .duration
  · exact hfield .struct
  · exact hfield .nullWrappers
  · exact hfield .inputMode
  · exact hfield .longType
  · exact hfield .rootPrefix
  · exact hfield .memberNaming
  · exact hfield .trim
  · exact hfield .optionsPath

theorem get_put (settings : Settings) (field : Field) (value : field.Value) :
    (settings.put field value).get = Function.update settings.get field value := by
  funext other
  by_cases h : other = field
  · subst h
    rw [Function.update_self]
    cases other <;> rfl
  · rw [Function.update_of_ne h]
    cases field <;> cases other <;> first | rfl | exact absurd rfl h

/-! ### Parts -/

/-- A part with the key of a field gives it a value, or fails to. -/
theorem set_key (settings : Settings) (field : Field) (value : String) :
    settings.set field.key value = (field.read value).map (settings.put field) := by
  cases field with
  | nullWrappers | rootPrefix | trim => rfl
  | timestamp | duration | struct =>
    simp only [Field.key, set, Field.read]
    cases require _ value <;> rfl
  | inputMode | longType | memberNaming | optionsPath => exact bind_pure_comp _ _

private theorem set_of_ne_key (settings : Settings) {key : String}
    (h : ∀ field : Field, field.key ≠ key)
    (value : String) : settings.set key value = .error (.unknownKey key) := by
  unfold set
  split
  · exact absurd rfl (h .timestamp)
  · exact absurd rfl (h .duration)
  · exact absurd rfl (h .struct)
  · exact absurd rfl (h .nullWrappers)
  · exact absurd rfl (h .inputMode)
  · exact absurd rfl (h .longType)
  · exact absurd rfl (h .rootPrefix)
  · exact absurd rfl (h .memberNaming)
  · exact absurd rfl (h .trim)
  · exact absurd rfl (h .optionsPath)
  · rfl

/-- The key of a part: what stands before its first equals sign. -/
def partKey (part : String) : String := (Text.cut '=' part).1

def partKeys (parts : List String) : List String := (parts.filter (· ≠ "")).map partKey

private theorem partKeys_empty (parts : List String) : partKeys ("" :: parts) = partKeys parts := by
  simp [partKeys]

private theorem partKeys_cons {part : String} (h : part ≠ "") (parts : List String) :
    partKeys (part :: parts) = partKey part :: partKeys parts := by
  simp [partKeys, h]

theorem applyParts_empty (settings : Settings) (parts : List String) :
    settings.applyParts ("" :: parts) = settings.applyParts parts := by
  simp [applyParts]

theorem applyParts_cons {part : String} (h : part ≠ "") (settings : Settings)
    (parts : List String) : settings.applyParts (part :: parts) =
      settings.set (partKey part) (Text.cut '=' part).2 >>= (·.applyParts parts) := by
  rw [applyParts, if_neg h]
  rfl

/-- A part that gives the field of its key a value, whatever the settings are. -/
structure Gives (part : String) (field : Field) (value : field.Value) : Prop where
  key_eq : field.key = partKey part
  applyParts_eq (settings : Settings) (parts : List String) :
    settings.applyParts (part :: parts) = (settings.put field value).applyParts parts

/-- A part that is refused, whatever the settings are. -/
def Refused (part : String) (error : Error) : Prop :=
  ∀ (settings : Settings) (parts : List String),
    settings.applyParts (part :: parts) = .error error

/-- What a part can do: it is refused, or it gives the field of its key a value. -/
theorem refused_or_gives {part : String} (h : part ≠ "") :
    (∃ error, Refused part error) ∨ ∃ field value, Gives part field value := by
  by_cases hkey : ∃ field : Field, field.key = partKey part
  · obtain ⟨field, hfield⟩ := hkey
    cases hread : field.read (Text.cut '=' part).2 with
    | error error =>
      refine .inl ⟨error, fun settings parts => ?_⟩
      rw [applyParts_cons h, ← hfield, set_key, hread]
      rfl
    | ok value =>
      refine .inr ⟨field, value, hfield, fun settings parts => ?_⟩
      rw [applyParts_cons h, ← hfield, set_key, hread]
      rfl
  · refine .inl ⟨.unknownKey (partKey part), fun settings parts => ?_⟩
    rw [applyParts_cons h, set_of_ne_key settings fun field hfield => hkey ⟨field, hfield⟩]
    rfl

/-- Induction over parts by what the first of them does. -/
@[elab_as_elim]
theorem parts_induction {motive : List String → Prop} (parts : List String) (nil : motive [])
    (empty : ∀ parts, motive parts → motive ("" :: parts))
    (refused : ∀ part parts error, part ≠ "" → Refused part error → motive (part :: parts))
    (gives : ∀ part parts field value, part ≠ "" → Gives part field value → motive parts →
      motive (part :: parts)) : motive parts := by
  induction parts with
  | nil => exact nil
  | cons part parts ih =>
    by_cases hempty : part = ""
    · rw [hempty]
      exact empty parts ih
    · rcases refused_or_gives hempty with ⟨error, hrefused⟩ | ⟨field, value, hgives⟩
      · exact refused part parts error hempty hrefused
      · exact gives part parts field value hempty hgives ih

theorem applyParts_append (settings : Settings) (parts others : List String) :
    settings.applyParts (parts ++ others) =
      settings.applyParts parts >>= (·.applyParts others) := by
  induction parts using parts_induction generalizing settings with
  | nil => rfl
  | empty parts ih => rw [List.cons_append, applyParts_empty, applyParts_empty, ih]
  | refused part parts error _ h =>
    rw [List.cons_append, h, h]
    rfl
  | gives part parts field value _ h ih =>
    rw [List.cons_append, h.applyParts_eq, h.applyParts_eq, ih]

/-- The refusal of parts does not depend on the settings they are applied to. -/
theorem applyParts_eq_error {settings : Settings} {parts : List String} {error : Error}
    (h : settings.applyParts parts = .error error) (others : Settings) :
    others.applyParts parts = .error error := by
  induction parts using parts_induction generalizing settings others with
  | nil => cases h
  | empty parts ih =>
    rw [applyParts_empty] at h ⊢
    exact ih h others
  | refused part parts own _ hrefused =>
    rw [hrefused] at h ⊢
    exact h
  | gives part parts field value _ hgives ih =>
    rw [hgives.applyParts_eq] at h ⊢
    exact ih h _

/-- Parts are accepted together if each of them is. -/
theorem exists_applyParts_iff {settings : Settings} {parts : List String} :
    (∃ result, settings.applyParts parts = .ok result) ↔
      ∀ part ∈ parts, ∃ result, ({} : Settings).applyParts [part] = .ok result := by
  induction parts using parts_induction generalizing settings with
  | nil => simp [applyParts]
  | empty parts ih =>
    rw [applyParts_empty, ih, List.forall_mem_cons]
    simp [applyParts]
  | refused part parts error _ h => simp [h settings parts, h {} []]
  | gives part parts field value _ h ih =>
    rw [h.applyParts_eq, ih, List.forall_mem_cons, h.applyParts_eq]
    simp [applyParts]

/-- Parts that one run accepts are accepted by every run. -/
theorem exists_applyParts {settings result : Settings} {parts : List String}
    (h : settings.applyParts parts = .ok result) (others : Settings) :
    ∃ result, others.applyParts parts = .ok result :=
  exists_applyParts_iff.mpr (exists_applyParts_iff.mp ⟨result, h⟩)

/-- A field keeps its value where no part has its key. -/
theorem get_applyParts_of_not_mem {settings result : Settings} {parts : List String}
    (h : settings.applyParts parts = .ok result) {field : Field}
    (hfield : field.key ∉ partKeys parts) : result.get field = settings.get field := by
  induction parts using parts_induction generalizing settings with
  | nil =>
    cases h
    rfl
  | empty parts ih =>
    rw [applyParts_empty] at h
    rw [partKeys_empty] at hfield
    exact ih h hfield
  | refused part parts error _ hrefused =>
    rw [hrefused] at h
    cases h
  | gives part parts other value hne hgives ih =>
    rw [hgives.applyParts_eq] at h
    rw [partKeys_cons hne, List.mem_cons, not_or] at hfield
    have hother : field ≠ other := by
      rintro rfl
      exact hfield.1 hgives.key_eq
    rw [ih h hfield.2, get_put, Function.update_of_ne hother]

/-! ### The last part of a key -/

/-- The last part with a key; an empty part has none. -/
def lastPart? (key : String) (parts : List String) : Option String :=
  parts.findRev? fun part => part ≠ "" && partKey part = key

theorem lastPart?_eq_none_iff {key : String} {parts : List String} :
    lastPart? key parts = none ↔ key ∉ partKeys parts := by
  rw [lastPart?, List.findRev?_eq_find?_reverse, List.find?_eq_none]
  simp [partKeys]

theorem of_lastPart? {key part : String} {parts : List String}
    (h : lastPart? key parts = some part) : part ≠ "" ∧ partKey part = key ∧
      ∃ before after, parts = before ++ part :: after ∧ key ∉ partKeys after := by
  rw [lastPart?, List.findRev?_eq_find?_reverse, List.find?_eq_some_iff_append] at h
  obtain ⟨hpart, later, earlier, hparts, hlater⟩ := h
  obtain ⟨hne, hkey⟩ : part ≠ "" ∧ partKey part = key := by simpa using hpart
  refine ⟨hne, hkey, earlier.reverse, later.reverse, ?_, ?_⟩
  · rw [← List.reverse_reverse parts, hparts]
    simp
  · simpa [partKeys, or_iff_not_imp_left] using hlater

/-- The last part with the key of a field alone gives the field its value. -/
theorem get_applyParts_of_last {settings result : Settings} {parts : List String}
    (h : settings.applyParts parts = .ok result) {field : Field} {part : String}
    (hlast : lastPart? field.key parts = some part) :
    ∃ alone, ({} : Settings).applyParts [part] = .ok alone ∧
      result.get field = alone.get field := by
  obtain ⟨hne, hkey, before, after, rfl, hafter⟩ := of_lastPart? hlast
  rw [applyParts_append] at h
  obtain ⟨middle, -, h⟩ := bind_eq_ok.mp h
  rcases refused_or_gives hne with ⟨error, hrefused⟩ | ⟨other, value, hgives⟩
  · rw [hrefused] at h
    cases h
  · obtain rfl : other = field := Field.key_injective (hgives.key_eq.trans hkey)
    rw [hgives.applyParts_eq] at h
    refine ⟨_, hgives.applyParts_eq {} [], ?_⟩
    rw [get_applyParts_of_not_mem h hafter, get_put, get_put, Function.update_self,
      Function.update_self]

/-- Runs over parts with the same last part for a field agree on it, if they did before or if there
is such a part. -/
theorem get_applyParts_eq {settings result others outcome : Settings} {parts more : List String}
    (h : settings.applyParts parts = .ok result) (hother : others.applyParts more = .ok outcome)
    {field : Field} (hlast : lastPart? field.key parts = lastPart? field.key more)
    (hstart : settings.get field = others.get field ∨ field.key ∈ partKeys parts) :
    result.get field = outcome.get field := by
  cases hpart : lastPart? field.key parts with
  | none =>
    have hnone := lastPart?_eq_none_iff.mp hpart
    have hmore := lastPart?_eq_none_iff.mp (hlast.symm.trans hpart)
    rw [get_applyParts_of_not_mem h hnone, get_applyParts_of_not_mem hother hmore]
    exact hstart.resolve_right hnone
  | some part =>
    obtain ⟨alone, halone, hvalue⟩ := get_applyParts_of_last h hpart
    obtain ⟨same, hsame, hvalue'⟩ := get_applyParts_of_last hother (hlast.symm.trans hpart)
    cases halone.symm.trans hsame
    rw [hvalue, hvalue']

/-- Where no key is repeated, the last part with a key is the only one. -/
theorem lastPart?_eq_some_iff {key part : String} {parts : List String}
    (hkeys : (partKeys parts).Nodup) :
    lastPart? key parts = some part ↔ part ∈ parts ∧ part ≠ "" ∧ partKey part = key := by
  constructor
  · intro h
    obtain ⟨hne, hkey, before, after, rfl, -⟩ := of_lastPart? h
    exact ⟨by simp, hne, hkey⟩
  · rintro ⟨hpart, hne, hkey⟩
    have hfull : part ∈ parts.filter (· ≠ "") := List.mem_filter.mpr ⟨hpart, by simpa⟩
    cases hlast : lastPart? key parts with
    | none =>
      have hmem : key ∈ partKeys parts := List.mem_map.mpr ⟨part, hfull, hkey⟩
      exact absurd hmem (lastPart?_eq_none_iff.mp hlast)
    | some other =>
      obtain ⟨hne', hkey', before, after, hparts, -⟩ := of_lastPart? hlast
      have hother : other ∈ parts.filter (· ≠ "") :=
        List.mem_filter.mpr ⟨by simp [hparts], by simpa⟩
      rw [List.inj_on_of_nodup_map hkeys hother hfull (hkey'.trans hkey.symm)]

private theorem lastPart?_eq_of_perm {parts others : List String} (h : parts.Perm others)
    (hkeys : (partKeys parts).Nodup) (key : String) :
    lastPart? key parts = lastPart? key others := by
  have hperm : (partKeys parts).Perm (partKeys others) := (h.filter _).map _
  ext part
  rw [lastPart?_eq_some_iff hkeys, lastPart?_eq_some_iff (hkeys.perm hperm), h.mem_iff]

/-! ### Settings of texts -/

/-- A text of one part gives a field the value in it. -/
theorem ofText_part (field : Field) {value : String} (h : ',' ∉ value.toList) :
    ofText (field.key ++ "=" ++ value) = (field.read value).map (({} : Settings).put field) := by
  have hkey : ',' ∉ field.key.toList ∧ '=' ∉ field.key.toList := by cases field <;> decide
  have hchars : (field.key ++ "=" ++ value).toList = field.key.toList ++ '=' :: value.toList := by
    simp
  have hne : field.key ++ "=" ++ value ≠ "" := by
    intro hempty
    rw [hempty] at hchars
    simp at hchars
  have hsplit : Text.split ',' (field.key ++ "=" ++ value) = [field.key ++ "=" ++ value] := by
    rw [Text.split, Text.splitChars_of_not_mem (by simp [hchars, hkey.1, h]), List.map_singleton,
      String.ofList_toList]
  have hcut : Text.cut '=' (field.key ++ "=" ++ value) = (field.key, value) := by
    rw [Text.cut, hchars, Text.cutChars_append_cons hkey.2]
    simp
  rw [ofText, hsplit, applyParts_cons hne, partKey, hcut, set_key]
  cases field.read value <;> rfl

private theorem split_joined (a b : String) :
    Text.split ',' (a ++ "," ++ b) = Text.split ',' a ++ Text.split ',' b := by
  have hcomma : ",".toList = [','] := rfl
  simp only [Text.split, String.toList_append, hcomma, List.append_assoc, List.singleton_append,
    Text.splitChars_append_sep, List.map_append]

theorem ofText_joined (a b : String) :
    ofText (a ++ "," ++ b) = ofText a >>= (·.applyParts (Text.split ',' b)) := by
  rw [ofText, split_joined, applyParts_append]
  rfl

/-- Settings of joined texts take from the second what it has a part for. -/
theorem exists_ofText_joined {a b : String} {first second : Settings} (ha : ofText a = .ok first)
    (hb : ofText b = .ok second) :
    ∃ result, ofText (a ++ "," ++ b) = .ok result ∧ ∀ field, result.get field =
      if field.key ∈ partKeys (Text.split ',' b) then second.get field else first.get field := by
  obtain ⟨result, hresult⟩ := exists_applyParts hb first
  refine ⟨result, ?_, fun field => ?_⟩
  · rw [ofText_joined, ha]
    exact hresult
  · split
    · rename_i hkey
      exact get_applyParts_eq hresult hb rfl (.inr hkey)
    · rename_i hkey
      exact get_applyParts_of_not_mem hresult hkey

private theorem eq_of_lastPart? {text other : String} {settings others : Settings}
    (h : ofText text = .ok settings) (hother : ofText other = .ok others)
    (hlast : ∀ key, lastPart? key (Text.split ',' text) = lastPart? key (Text.split ',' other)) :
    settings = others := by
  apply eq_of_get
  funext field
  exact get_applyParts_eq h hother (hlast field.key) (.inl rfl)

/-- A text made of parts of an accepted one is accepted. -/
theorem exists_ofText_of_subset {text other : String} {settings : Settings}
    (h : ofText text = .ok settings) (hsubset : Text.split ',' other ⊆ Text.split ',' text) :
    ∃ others, ofText other = .ok others := by
  have haccepted := exists_applyParts_iff.mp ⟨settings, h⟩
  exact exists_applyParts_iff.mpr fun part hpart => haccepted part (hsubset hpart)

/-- Texts of settings compose. A part gives its field a value. Two texts joined are accepted exactly
if both are; each field is then that of the second text if it has a part for it, else that of the
first. If one is refused, so are both, and the first refusal counts. So of accepted parts only the
last of each key matters, also when others are left out, and parts with different keys may stand in
any order. -/
theorem texts_of_settings_compose :
    (∀ (field : Field) (value : String), ',' ∉ value.toList →
      ofText (field.key ++ "=" ++ value) = (field.read value).map (({} : Settings).put field)) ∧
    (∀ a b : String,
      ((∃ result, ofText (a ++ "," ++ b) = .ok result) ↔
        (∃ first, ofText a = .ok first) ∧ ∃ second, ofText b = .ok second) ∧
      (∀ first second result, ofText a = .ok first → ofText b = .ok second →
        ofText (a ++ "," ++ b) = .ok result → ∀ field, result.get field =
          if field.key ∈ partKeys (Text.split ',' b) then second.get field else first.get field) ∧
      (∀ error, ofText a = .error error → ofText (a ++ "," ++ b) = .error error) ∧
      (∀ first error, ofText a = .ok first → ofText b = .error error →
        ofText (a ++ "," ++ b) = .error error)) ∧
    (∀ text other settings others, ofText text = .ok settings → ofText other = .ok others →
      (∀ key, lastPart? key (Text.split ',' text) = lastPart? key (Text.split ',' other)) →
        settings = others) ∧
    (∀ text other settings, ofText text = .ok settings →
      Text.split ',' other ⊆ Text.split ',' text →
      (∀ key, lastPart? key (Text.split ',' text) = lastPart? key (Text.split ',' other)) →
        ofText other = .ok settings) ∧
    (∀ text other settings, ofText text = .ok settings →
      (Text.split ',' text).Perm (Text.split ',' other) →
      (partKeys (Text.split ',' text)).Nodup → ofText other = .ok settings) := by
  have hsubset : ∀ text other settings, ofText text = .ok settings →
      Text.split ',' other ⊆ Text.split ',' text →
      (∀ key, lastPart? key (Text.split ',' text) = lastPart? key (Text.split ',' other)) →
        ofText other = .ok settings := by
    intro text other settings h hparts hlast
    obtain ⟨others, hother⟩ := exists_ofText_of_subset h hparts
    rw [hother, eq_of_lastPart? h hother hlast]
  refine ⟨fun field _ => ofText_part field, fun a b => ⟨⟨?_, ?_⟩, ?_, ?_, ?_⟩, ?_, hsubset, ?_⟩
  · rintro ⟨result, h⟩
    obtain ⟨first, ha, h⟩ := bind_eq_ok.mp (ofText_joined a b ▸ h)
    exact ⟨⟨first, ha⟩, exists_applyParts h {}⟩
  · rintro ⟨⟨first, ha⟩, second, hb⟩
    obtain ⟨result, hresult, -⟩ := exists_ofText_joined ha hb
    exact ⟨result, hresult⟩
  · intro first second result ha hb h
    obtain ⟨found, hfound, hget⟩ := exists_ofText_joined ha hb
    cases h.symm.trans hfound
    exact hget
  · intro error ha
    rw [ofText_joined, ha]
    rfl
  · intro first error ha hb
    rw [ofText_joined, ha]
    exact applyParts_eq_error hb first
  · intro text other settings others h hother hlast
    exact eq_of_lastPart? h hother hlast
  · intro text other settings h hperm hkeys
    exact hsubset text other settings h hperm.symm.subset (lastPart?_eq_of_perm hperm hkeys)

theorem later_struct_wins :
    ofText (Field.struct.key ++ "=" ++ "Map") = .ok { struct := "Map" } ∧
      ofText "struct=Map,null_wrappers" = .ok { struct := "Map", nullWrappers := true } ∧
      ofText ",struct=a=b" = .ok { struct := "a=b" } ∧
      (∃ result, ofText ("struct=Map,null_wrappers" ++ "," ++ ",struct=a=b") = .ok result ∧
        result.struct = some "a=b" ∧ result.nullWrappers = true) ∧
      ofText ("struct=" ++ "," ++ "colour") = .error (.missingType "struct") ∧
      ofText ("struct=Map" ++ "," ++ "colour") = .error (.unknownKey "colour") ∧
      ofText "struct=Any,struct=Map" = .ok { struct := "Map" } ∧
      ofText "struct=Map" = .ok { struct := "Map" } ∧
      ofText "null_wrappers,struct=Map" = .ok { struct := "Map", nullWrappers := true } := by
  have hfirst : ofText "struct=Map,null_wrappers" =
    .ok { struct := "Map", nullWrappers := true } := by rfl
  have hsecond : ofText ",struct=a=b" = .ok { struct := "a=b" } := by rfl
  have htwice : ofText "struct=Any,struct=Map" = .ok { struct := "Map" } := by rfl
  have hlast : ∀ key, lastPart? key (Text.split ',' "struct=Any,struct=Map") =
      lastPart? key (Text.split ',' "struct=Map") := by
    have hboth : partKeys (Text.split ',' "struct=Any,struct=Map") = ["struct", "struct"] := by rfl
    have hone : partKeys (Text.split ',' "struct=Map") = ["struct"] := by rfl
    intro key
    by_cases hkey : key = "struct"
    · subst hkey
      rfl
    · rw [lastPart?_eq_none_iff.mpr (by simp [hboth, hkey]),
        lastPart?_eq_none_iff.mpr (by simp [hone, hkey])]
  obtain ⟨result, hresult⟩ := (texts_of_settings_compose.2.1 _ _).1.mpr ⟨⟨_, hfirst⟩, _, hsecond⟩
  have hget := (texts_of_settings_compose.2.1 _ _).2.1 _ _ _ hfirst hsecond hresult
  refine ⟨?_, hfirst, hsecond, ⟨result, hresult, hget .struct, hget .nullWrappers⟩, ?_, ?_, htwice,
    ?_, ?_⟩
  · exact texts_of_settings_compose.1 .struct "Map" (by decide)
  · exact (texts_of_settings_compose.2.1 _ _).2.2.1 _ rfl
  · exact (texts_of_settings_compose.2.1 _ _).2.2.2 { struct := "Map" } _ rfl rfl
  · exact texts_of_settings_compose.2.2.2.1 _ _ _ htwice (by decide) hlast
  · exact texts_of_settings_compose.2.2.2.2 _ _ _ hfirst (by decide) (by decide)

end ProtoSdl.Settings

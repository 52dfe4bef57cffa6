import ProtoSdl.Text.CaseMap
import ProtoSdl.Text.Split

/-!
# Words of a name

A `lower_underscore` name is cut at its underscores, an `UpperCamel` name before its capitals.
Words are joined again in lower or upper camel case. Case changes touch the first character of a
word only, and only when it is an ASCII letter of the other case.
-/

namespace ProtoSdl.Name

def lowerFirst : List Char → List Char
  | [] => []
  | c :: cs => Text.lower c ++ cs

def upperFirst : List Char → List Char
  | [] => []
  | c :: cs => Text.upper c ++ cs

/-- The pieces of a name that begin at its start and at each capital. -/
def cutAtCapitals : List Char → List (List Char)
  | [] => []
  | c :: cs =>
    match cutAtCapitals cs with
    | [] => [[c]]
    | piece :: pieces =>
      if piece.head?.any Char.isUpper then [c] :: piece :: pieces else (c :: piece) :: pieces

/-- The lower-case words of a `lower_underscore` name. -/
def underscoreWords (name : List Char) : List (List Char) :=
  ((Text.splitChars '_' name).filter (· ≠ [])).map (·.flatMap Text.lower)

/-- The lower-case words of an `UpperCamel` name. -/
def capitalWords (name : List Char) : List (List Char) :=
  (cutAtCapitals name).map (·.flatMap Text.lower)

def openingWord (word : List Char) : List Char :=
  if word.head?.any Char.isUpper then lowerFirst word else word

/-- A word that follows another, or opens an upper camel name. -/
def capitalWord (word : List Char) : List Char :=
  if word.head?.any Char.isLower then upperFirst word else word

def joinLowerCamel : List (List Char) → List Char
  | [] => []
  | word :: words => openingWord word ++ words.flatMap capitalWord

def joinUpperCamel (words : List (List Char)) : List Char :=
  words.flatMap capitalWord

/-- Joins words given from outside, where an empty word is refused: it has no first letter. -/
def joinLowerCamel? (words : List (List Char)) : Option (List Char) :=
  if [] ∈ words then none else some (joinLowerCamel words)

def joinUpperCamel? (words : List (List Char)) : Option (List Char) :=
  if [] ∈ words then none else some (joinUpperCamel words)

/-- `order_id` becomes `orderId`. -/
def underscoreToLowerCamel (name : List Char) : List Char :=
  joinLowerCamel (underscoreWords name)

/-- `GetUser` becomes `getUser`. -/
def capitalToLowerCamel (name : List Char) : List Char :=
  joinLowerCamel (capitalWords name)

/-- Cutting a name at its capitals loses nothing. -/
theorem flatten_cutAtCapitals (name : List Char) : (cutAtCapitals name).flatten = name := by
  induction name with
  | nil => rfl
  | cons c cs ih =>
    rw [cutAtCapitals]
    split
    · rename_i h
      rw [h] at ih
      simp_all
    · rename_i piece pieces h
      rw [h] at ih
      split <;> simp_all

theorem mem_of_mem_cutAtCapitals {name piece : List Char} (h : piece ∈ cutAtCapitals name)
    {c : Char} (hc : c ∈ piece) : c ∈ name := by
  rw [← flatten_cutAtCapitals name]
  exact List.mem_flatten_of_mem h hc

end ProtoSdl.Name

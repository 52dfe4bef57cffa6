import ProtoSdl.Decimal.Shortest
import ProtoSdl.Text.Quoted

/-!
# Documents

The values of an options document. An option may hold any of them; it is an error only
where a value of another kind is needed. `isSet` tells which values count as given, `display` is
the text of a value in a message.
-/

namespace ProtoSdl

inductive Json
  | null
  | bool (value : Bool)
  | int (value : Int)
  | decimal (value : Decimal)
  | text (value : String)
  | list (items : List Json)
  | object (entries : List (String × Json))
  deriving Repr

namespace Json

instance : Inhabited Json := ⟨null⟩

/-- Whether a value counts as given: null, false, zero and everything empty do not. -/
def isSet : Json → Bool
  | null => false
  | bool value => value
  | int value => value ≠ 0
  | decimal value => !value.isZero
  | text value => value ≠ ""
  | list items => !items.isEmpty
  | object entries => !entries.isEmpty

def kindName : Json → String
  | null => "NoneType"
  | bool _ => "bool"
  | int _ => "int"
  | decimal _ => "float"
  | text _ => "str"
  | list _ => "list"
  | object _ => "dict"

mutual

def display : Json → String
  | null => "None"
  | bool true => "True"
  | bool false => "False"
  | int value => toString value
  | decimal value => value.text
  | text value => Text.quote value
  | list items => "[" ++ ", ".intercalate (displayItems items) ++ "]"
  | object entries => "\x7b" ++ ", ".intercalate (displayEntries entries) ++ "\x7d"

def displayItems : List Json → List String
  | [] => []
  | item :: items => display item :: displayItems items

def displayEntries : List (String × Json) → List String
  | [] => []
  | (key, value) :: entries => (Text.quote key ++ ": " ++ display value) :: displayEntries entries

end

mutual

/-- Equality of values. Objects are equal if they have the same entries in the same order. -/
def decEq (a b : Json) : Decidable (a = b) :=
  match a with
  | null =>
    match b with
    | null => .isTrue rfl
    | bool _ | int _ | decimal _ | text _ | list _ | object _ => .isFalse (by simp)
  | bool x =>
    match b with
    | bool y => decidable_of_iff (x = y) (by simp)
    | null | int _ | decimal _ | text _ | list _ | object _ => .isFalse (by simp)
  | int x =>
    match b with
    | int y => decidable_of_iff (x = y) (by simp)
    | null | bool _ | decimal _ | text _ | list _ | object _ => .isFalse (by simp)
  | decimal x =>
    match b with
    | decimal y => decidable_of_iff (x = y) (by simp)
    | null | bool _ | int _ | text _ | list _ | object _ => .isFalse (by simp)
  | text x =>
    match b with
    | text y => decidable_of_iff (x = y) (by simp)
    | null | bool _ | int _ | decimal _ | list _ | object _ => .isFalse (by simp)
  | list xs =>
    match b with
    | list ys =>
      match decEqItems xs ys with
      | .isTrue h => .isTrue (by rw [h])
      | .isFalse h => .isFalse (by simp [h])
    | null | bool _ | int _ | decimal _ | text _ | object _ => .isFalse (by simp)
  | object xs =>
    match b with
    | object ys =>
      match decEqEntries xs ys with
      | .isTrue h => .isTrue (by rw [h])
      | .isFalse h => .isFalse (by simp [h])
    | null | bool _ | int _ | decimal _ | text _ | list _ => .isFalse (by simp)

def decEqItems : (xs ys : List Json) → Decidable (xs = ys)
  | [], [] => .isTrue rfl
  | [], _ :: _ => .isFalse (by simp)
  | _ :: _, [] => .isFalse (by simp)
  | x :: xs, y :: ys =>
    match decEq x y with
    | .isFalse h => .isFalse (by simp [h])
    | .isTrue h =>
      match decEqItems xs ys with
      | .isTrue hs => .isTrue (by rw [h, hs])
      | .isFalse hs => .isFalse (by simp [hs])

def decEqEntries : (xs ys : List (String × Json)) → Decidable (xs = ys)
  | [], [] => .isTrue rfl
  | [], _ :: _ => .isFalse (by simp)
  | _ :: _, [] => .isFalse (by simp)
  | (k, x) :: xs, (l, y) :: ys =>
    if hk : k = l then
      match decEq x y with
      | .isFalse h => .isFalse (by simp [h])
      | .isTrue h =>
        match decEqEntries xs ys with
        | .isTrue hs => .isTrue (by rw [hk, h, hs])
        | .isFalse hs => .isFalse (by simp [hs])
    else .isFalse (by simp [hk])

end

instance : DecidableEq Json := decEq

def entry? (key : String) : List (String × Json) → Option Json
  | [] => none
  | (k, value) :: entries => if k = key then some value else entry? key entries

end Json

end ProtoSdl

/-!
# Camel case of an identifier

The camel case of a protobuf identifier: an underscore before an ASCII lower-case letter goes and
the letter is raised, a leading underscore becomes `X`, and digits stand for themselves and end a
word.
-/

namespace ProtoSdl.Name

/-- Camel case after the first character. Inside a word lower-case letters stay as they are. -/
def camelTail : Bool → List Char → List Char
  | _, [] => []
  | inWord, c :: cs =>
    if inWord && c.isLower then c :: camelTail true cs
    else if c = '_' && cs.head?.any Char.isLower then camelTail false cs
    else if c.isDigit then c :: camelTail false cs
    else c.toUpper :: camelTail true cs

/-- `_my_field_name_2` becomes `XMyFieldName_2`. -/
def camelCase : List Char → List Char
  | '_' :: cs => 'X' :: camelTail false cs
  | cs => camelTail false cs

def camelCaseJoined (parts : List (List Char)) : List Char :=
  camelCase (['_'].intercalate parts)

end ProtoSdl.Name

import ProtoSdl.Schema.Basic
import ProtoSdl.Text.Blank
import ProtoSdl.Text.Split

/-!
# Schema text

The text of a declaration is a list of lines: its description as a block string, a head, and its
members between braces if it has any. Members stand in the order given, indented by two blanks.
-/

namespace ProtoSdl.Schema

def memberIndent : String := "  "

def Modifiers.apply (modifiers : Modifiers) (typeName : TypeName) : String :=
  let item := if modifiers.nonNull then typeName.written ++ "!" else typeName.written
  if modifiers.list then
    if modifiers.nonNullList then "[" ++ item ++ "]!" else "[" ++ item ++ "]"
  else item

def Argument.text (argument : Argument) : String :=
  let typed := argument.name ++ ": " ++ argument.modifiers.apply argument.typeName
  if argument.default = "" then typed else typed ++ " = " ++ argument.default

def directivesText : List String → String
  | [] => ""
  | directive :: directives => " @" ++ directive ++ directivesText directives

/-- The arguments in parentheses, or nothing if there are none. -/
def argumentsText (arguments : List Argument) : String :=
  if arguments.isEmpty then "" else "(" ++ ", ".intercalate (arguments.map Argument.text) ++ ")"

def Field.text (field : Field) : String :=
  field.name ++ argumentsText field.arguments ++ ": " ++ field.modifiers.apply field.typeName
    ++ directivesText field.directives

def EnumValue.text (value : EnumValue) : String :=
  value.name ++ directivesText value.directives

/-- Three quotes in a row would end a block string and are escaped, from left to right. -/
def escapeQuotes : List Char → List Char
  | '"' :: '"' :: '"' :: rest => '\\' :: '"' :: '"' :: '"' :: escapeQuotes rest
  | c :: rest => c :: escapeQuotes rest
  | [] => []

/-- One line of a block string; a blank line is left empty. -/
def blockLine (indent line : String) : String :=
  if Text.isBlankText line then "" else indent ++ line

/-- The lines of a description as a block string, or none if it is empty. -/
def descriptionLines (indent description : String) : List String :=
  if description = "" then []
  else
    let lines := Text.split '\n' (String.ofList (escapeQuotes description.toList))
    (indent ++ "\"\"\"") :: lines.map (blockLine indent) ++ [indent ++ "\"\"\""]

/-- A head with its members between braces, or the head alone if there are none. -/
def block (head : String) (members : List (List String)) : List String :=
  if members.isEmpty then [head] else (head ++ " \x7b") :: members.flatten ++ ["\x7d"]

def member (description text : String) : List String :=
  descriptionLines memberIndent description ++ [memberIndent ++ text]

def Form.keyword : Form → String
  | object => "type"
  | extension => "extend type"
  | input => "input"

namespace Declaration

def description : Declaration → String
  | scalar s => s.description
  | composite c => c.description
  | enum e => e.description
  | union u => u.description

def bodyLines : Declaration → List String
  | scalar s => ["scalar " ++ s.name]
  | composite c =>
    block (c.form.keyword ++ " " ++ c.name.written) (c.fields.map fun f => member f.description f.text)
  | enum e => block ("enum " ++ e.name.written) (e.values.map fun v => member v.description v.text)
  | union u => ["union " ++ u.name.written ++ " = " ++ " | ".intercalate (u.members.map (·.written))]

def lines (declaration : Declaration) : List String :=
  descriptionLines "" declaration.description ++ declaration.bodyLines

/-- The text of a declaration, without a line end after its last line. -/
def text (declaration : Declaration) : String :=
  "\n".intercalate declaration.lines

end Declaration

/-- The text of a schema: its declarations with an empty line between them and a line end after
the last. -/
def schemaText (declarations : List Declaration) : String :=
  if declarations.isEmpty then "" else "\n\n".intercalate (declarations.map Declaration.text) ++ "\n"

end ProtoSdl.Schema

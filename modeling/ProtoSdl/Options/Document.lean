import ProtoSdl.Options.Index

/-!
# Option documents

The index of the options in a file. Without a path there are no options.
-/

namespace ProtoSdl.Options

/-- Writes every line end as a line feed alone. -/
def unifyLineEnds : List Char → List Char
  | '\r' :: '\n' :: rest => '\n' :: unifyLineEnds rest
  | '\r' :: rest => '\n' :: unifyLineEnds rest
  | c :: rest => c :: unifyLineEnds rest
  | [] => []

def readFault (path : String) : ReadError → Fault
  | .notText => .defect .notText
  | .path cause =>
    if cause.fault = .nulCharacter then .defect .unusablePath else .options (.unreadable path cause)

/-- Why a text is no document, as a fault. A text beyond the limits of the reader, or with half of a
surrogate pair in it, has no diagnostic. -/
def syntaxFault (path : String) (error : Json.SyntaxError) : Fault :=
  match error.cause with
  | .tooManyDigits => .defect .tooManyDigits
  | .loneSurrogate => .defect .notText
  | .deepList => .defect (.nestedTooDeeply .deepList)
  | .deepObject => .defect (.nestedTooDeeply .deepObject)
  | _ => .options (.malformed path error)

/-- The index of the file at a path, given the content of the file and perhaps a limit to the levels
of a document. -/
def Index.ofContent (path : String) (content : Except ReadError String)
    (limit : Option Nat := none) : Except Fault Index := do
  if path = "" then return {}
  else
    let text ← content.mapError (readFault path)
    let source := String.ofList (unifyLineEnds text.toList)
    Index.ofDocument (← (Json.ofText source limit).mapError (syntaxFault path))

end ProtoSdl.Options

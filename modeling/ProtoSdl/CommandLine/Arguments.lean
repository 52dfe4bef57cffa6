import ProtoSdl.Text.Digit
import ProtoSdl.Text.Quoted
import ProtoSdl.Text.Split

/-!
# Arguments

The arguments of the command line. Each argument is first sorted by its form: a known option, an
unknown one, or a value. A long option may be cut short as long as only one option starts that way,
and may carry its value after an equality sign; options of one letter may stand in one cluster, with
the value of the last one attached. Then the options are taken in order, with the value next to them
where they need one.
-/

namespace ProtoSdl.CommandLine

inductive Flag
  | help | descriptorSet | proto | includes | file | out | parameter | options | verbose
  deriving DecidableEq, Repr

/-- The spellings of the options in the order in which they are declared. -/
def spellings : List (String × Flag) :=
  [("-h", .help), ("--help", .help), ("--descriptor-set", .descriptorSet), ("--proto", .proto),
   ("-I", .includes), ("--include", .includes), ("--file", .file), ("--out", .out),
   ("--parameter", .parameter), ("--options", .options), ("--verbose", .verbose)]

namespace Flag

def ofSpelling? (spelling : String) : Option Flag :=
  (spellings.find? (·.1 = spelling)).map (·.2)

/-- The name of an option in a message: all its spellings. -/
def name (flag : Flag) : String :=
  "/".intercalate ((spellings.filter (·.2 = flag)).map (·.1))

def takesValue : Flag → Bool
  | help | verbose => false
  | _ => true

end Flag

inductive UsageError
  | ambiguous (argument : String) (candidates : List String)
  | expectedValue (flag : Flag)
  | ignoredValue (flag : Flag) (value : String)
  | conflict (flag other : Flag)
  | missingOut
  | missingSource
  | unrecognized (arguments : List String)
  deriving DecidableEq, Repr

def UsageError.message : UsageError → String
  | ambiguous argument candidates =>
    "ambiguous option: " ++ argument ++ " could match " ++ ", ".intercalate candidates
  | expectedValue flag => "argument " ++ flag.name ++ ": expected one argument"
  | ignoredValue flag value =>
    "argument " ++ flag.name ++ ": ignored explicit argument " ++ Text.quote value
  | conflict flag other =>
    "argument " ++ flag.name ++ ": not allowed with argument " ++ other.name
  | missingOut => "the following arguments are required: " ++ Flag.out.name
  | missingSource =>
    "one of the arguments " ++ Flag.descriptorSet.name ++ " " ++ Flag.proto.name ++ " is required"
  | unrecognized arguments => "unrecognized arguments: " ++ " ".intercalate arguments

inductive Token
  | value (text : String)
  /-- Two dashes: what follows are values. -/
  | separator
  /-- An option on its own, or a long one with a text assigned to it. -/
  | option (flag : Flag) (assigned : Option String)
  /-- An option of one letter with a text attached to it: its value, or more letters. -/
  | letters (flag : Flag) (text : String)
  | unknown (text : String)
  deriving DecidableEq, Repr

namespace Token

/-- Whether characters are digits, or digits around a point; before the point there may be none. -/
def isDecimal (cs : List Char) : Bool :=
  let whole := cs.takeWhile Text.isDigit
  match cs.dropWhile Text.isDigit with
  | [] => !whole.isEmpty
  | '.' :: decimals => !decimals.isEmpty && decimals.all Text.isDigit
  | _ => false

/-- Characters without one line feed at their end. -/
def dropLineEnd (cs : List Char) : List Char :=
  if cs.getLast? = some '\n' then cs.dropLast else cs

/-- Whether a text is a negative number, which is a value although it starts with a dash. A line
feed may follow it. -/
def isNegativeNumber : List Char → Bool
  | '-' :: digits => isDecimal (dropLineEnd digits)
  | _ => false

/-- Whether a text that starts with a dash starts with two. -/
def isLong (text : String) : Bool :=
  Text.startsWith "--" text

/-- The text after the first equality sign, if there is one. -/
def assigned? (text : String) : Option String :=
  if '=' ∈ text.toList then some (Text.cut '=' text).2 else none

/-- The options that a long text may stand for without spelling one in full. -/
def candidates (text : String) : List (String × Flag) :=
  spellings.filter fun (spelling, _) => Text.startsWith (Text.cut '=' text).1 spelling

/-- Sorts a text that starts with a dash and is no spelling of an option. -/
def ofUnknown (text : String) : Token :=
  if isNegativeNumber text.toList || ' ' ∈ text.toList then value text else unknown text

def ofLong (text : String) : Except UsageError Token :=
  match Flag.ofSpelling? (Text.cut '=' text).1 with
  | some flag => .ok (option flag (assigned? text))
  | none =>
    match candidates text with
    | [(_, flag)] => .ok (option flag (assigned? text))
    | [] => .ok (ofUnknown text)
    | many => .error (.ambiguous text (many.map (·.1)))

/-- Sorts a text that starts with one dash and has more to it. An equality sign may stand between
the letter and the text attached to it. -/
def ofShort (text : String) : Token :=
  match Flag.ofSpelling? (String.ofList (text.toList.take 2)) with
  | none => ofUnknown text
  | some flag =>
    match text.toList.drop 2 with
    | [] => option flag none
    | '=' :: rest => letters flag (String.ofList rest)
    | rest => letters flag (String.ofList rest)

def ofText (text : String) : Except UsageError Token :=
  if isLong text then ofLong text
  else if Text.startsWith "-" text && text ≠ "-" then .ok (ofShort text)
  else .ok (value text)

def ofTexts : List String → Except UsageError (List Token)
  | [] => .ok []
  | text :: texts =>
    if text = "--" then .ok (.separator :: texts.map .value)
    else do
      let token ← ofText text
      return token :: (← ofTexts texts)

def text : Token → String
  | value text => text
  | unknown text => text
  | _ => "--"

end Token

/-- The value of an option: a text, or nothing at all where two dashes are attached to the option. -/
inductive Value
  | text (text : String)
  | nothing
  deriving DecidableEq, Repr

def Value.ofAttached (attached : String) : Value :=
  if attached = "--" then nothing else text attached

structure Arguments where
  descriptorSet : Option Value := none
  proto : Option Value := none
  includes : List Value := []
  files : List Value := []
  out : Value := .text ""
  parameter : Value := .text ""
  options : Value := .text ""
  verbose : Bool := false
  deriving DecidableEq, Repr

/-- Why no compilation follows the arguments. -/
inductive Stop
  | help
  | usage (error : UsageError)
  deriving DecidableEq, Repr

/-- What one argument stands for: options that take no value, then one more option, perhaps with a
text attached to it. -/
structure Cluster where
  flags : List Flag := []
  last : Flag
  attached : Option String := none

namespace Cluster

def cons (flag : Flag) (cluster : Cluster) : Cluster :=
  { cluster with flags := flag :: cluster.flags }

/-- An option with a text that can only be its value. -/
def ofAssigned (flag : Flag) (text : String) : Except UsageError Cluster :=
  if flag.takesValue then .ok { last := flag, attached := text }
  else .error (.ignoredValue flag text)

/-- An option of one letter with a text attached to it. Where the option takes no value, the text
starts with the letter of the next option. -/
def ofLetters (flag : Flag) : List Char → Except UsageError Cluster
  | [] => ofAssigned flag ""
  | c :: cs =>
    match flag.takesValue, Flag.ofSpelling? (String.ofList ['-', c]), cs with
    | false, some next, [] => .ok { flags := [flag], last := next }
    | false, some next, cs => (ofLetters next cs).map (cons flag)
    | _, _, cs => ofAssigned flag (String.ofList (c :: cs))

def ofToken? : Token → Except UsageError (Option Cluster)
  | .option flag none => .ok (some { last := flag })
  | .option flag (some text) => (ofAssigned flag text).map some
  | .letters flag text => (ofLetters flag text.toList).map some
  | _ => .ok none

end Cluster

/-- The arguments taken so far: whether a directory was given, and what was not recognized. -/
structure Taken where
  arguments : Arguments := {}
  hasOut : Bool := false
  extras : List String := []

namespace Taken

def addExtra (taken : Taken) (text : String) : Taken :=
  { taken with extras := taken.extras ++ [text] }

/-- Takes an option with its value; options without one ignore it. -/
def take (taken : Taken) (flag : Flag) (value : Value) : Except Stop Taken :=
  let a := taken.arguments
  match flag with
  | .help => .error .help
  | .descriptorSet =>
    if a.proto.isSome then .error (.usage (.conflict .descriptorSet .proto))
    else .ok { taken with arguments := { a with descriptorSet := value } }
  | .proto =>
    if a.descriptorSet.isSome then .error (.usage (.conflict .proto .descriptorSet))
    else .ok { taken with arguments := { a with proto := value } }
  | .includes => .ok { taken with arguments := { a with includes := a.includes ++ [value] } }
  | .file => .ok { taken with arguments := { a with files := a.files ++ [value] } }
  | .out => .ok { taken with arguments := { a with out := value }, hasOut := true }
  | .parameter => .ok { taken with arguments := { a with parameter := value } }
  | .options => .ok { taken with arguments := { a with options := value } }
  | .verbose => .ok { taken with arguments := { a with verbose := true } }

def takeCluster (taken : Taken) (cluster : Cluster) (value : Value) : Except Stop Taken := do
  let taken ← cluster.flags.foldlM (fun taken flag => taken.take flag .nothing) taken
  taken.take cluster.last value

/-- Takes all arguments in order. A cluster waits where its last option needs the next argument as
its value. -/
def takeTokens (taken : Taken) : Option Cluster → List Token → Except Stop Taken
  | none, [] => .ok taken
  | some cluster, [] => .error (.usage (.expectedValue cluster.last))
  | some cluster, token :: tokens =>
    match token with
    | .value text => do (← taken.takeCluster cluster (.text text)).takeTokens none tokens
    | _ => .error (.usage (.expectedValue cluster.last))
  | none, token :: tokens => do
    match ← (Cluster.ofToken? token).mapError Stop.usage with
    | none => (taken.addExtra token.text).takeTokens none tokens
    | some cluster =>
      match cluster.attached with
      | some text => (← taken.takeCluster cluster (.ofAttached text)).takeTokens none tokens
      | none =>
        if cluster.last.takesValue then taken.takeTokens (some cluster) tokens
        else (← taken.takeCluster cluster .nothing).takeTokens none tokens

/-- The arguments, if all that is needed was given and nothing else. -/
def finish (taken : Taken) : Except Stop Arguments :=
  let arguments := taken.arguments
  if !taken.hasOut then .error (.usage .missingOut)
  else if arguments.descriptorSet.isNone && arguments.proto.isNone then
    .error (.usage .missingSource)
  else if !taken.extras.isEmpty then .error (.usage (.unrecognized taken.extras))
  else .ok arguments

end Taken

def Arguments.ofTexts (texts : List String) : Except Stop Arguments := do
  let tokens ← (Token.ofTexts texts).mapError Stop.usage
  (← ({} : Taken).takeTokens none tokens).finish

end ProtoSdl.CommandLine

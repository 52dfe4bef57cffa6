import ProtoSdl.Descriptor
import ProtoSdl.Text.Blank
import ProtoSdl.Text.Split

/-!
# Comments

The text of a comment loses the one blank that stands after the comment mark on each line. The
comment of a declaration is its leading and its trailing comment, trimmed, with an empty line
between them.
-/

namespace ProtoSdl.Comment

/-- A line without the one blank at its start. -/
def dropBlank (line : String) : String :=
  Text.dropStart " " line

/-- A comment with the blank after the comment mark taken off each line. -/
def format (comment : String) : String :=
  "\n".intercalate ((Text.split '\n' comment).map dropBlank)

/-- A leading and a trailing comment as one text; an empty one is left out. -/
def combine (leading trailing : String) : String :=
  "\n\n".intercalate
    ([Text.strip (format leading), Text.strip (format trailing)].filter (· ≠ ""))

end ProtoSdl.Comment

namespace ProtoSdl.Descriptor.Location

def isCommented (location : Location) : Bool :=
  location.leading ≠ "" || location.trailing ≠ ""

def comment (location : Location) : String :=
  Comment.combine location.leading location.trailing

end ProtoSdl.Descriptor.Location

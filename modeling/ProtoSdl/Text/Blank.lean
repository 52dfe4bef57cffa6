/-!
# Blank characters

The characters that count as white space when text is trimmed or a line is tested for being
blank: the Unicode property White_Space together with the four information separators.
-/

namespace ProtoSdl.Text

def blankRanges : List (Nat × Nat) :=
  [(0x09, 0x0d), (0x1c, 0x20), (0x85, 0x85), (0xa0, 0xa0), (0x1680, 0x1680), (0x2000, 0x200a),
   (0x2028, 0x2029), (0x202f, 0x202f), (0x205f, 0x205f), (0x3000, 0x3000)]

def isBlank (c : Char) : Bool :=
  blankRanges.any fun (first, last) => first ≤ c.toNat && c.toNat ≤ last

def stripChars (cs : List Char) : List Char :=
  ((cs.dropWhile isBlank).reverse.dropWhile isBlank).reverse

def strip (text : String) : String :=
  String.ofList (stripChars text.toList)

def isBlankText (text : String) : Bool :=
  text.toList.all isBlank

end ProtoSdl.Text

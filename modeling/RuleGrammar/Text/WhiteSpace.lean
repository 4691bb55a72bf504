import RuleGrammar.Text.CodeRange

/-!
# White space

The ranges of the characters with the White_Space property, the blanks that part tokens and are
trimmed from the end of a table row, as of version 17.0 of the Unicode character database.

* `whiteSpaceRanges`: the ranges, ascending.
* `isWhiteSpace`: membership of a character.
-/

namespace RuleGrammar.Text

/-- The ranges of the characters with the White_Space property, the blanks that part tokens and are
trimmed from the end of a table row. -/
def whiteSpaceRanges : List CodeRange :=
  [(0x9, 0xd), (0x20, 0x20), (0x85, 0x85), (0xa0, 0xa0), (0x1680, 0x1680), (0x2000, 0x200a),
   (0x2028, 0x2029), (0x202f, 0x202f), (0x205f, 0x205f), (0x3000, 0x3000)]

def isWhiteSpace (c : Char) : Bool :=
  CodeRange.covers whiteSpaceRanges c.toNat

end RuleGrammar.Text

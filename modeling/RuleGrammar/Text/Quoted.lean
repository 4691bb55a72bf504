import RuleGrammar.Text.GraphemeExtend
import RuleGrammar.Text.Unprintable

/-!
# Quotations in messages

A text shown in a message stands between quotes, and every character that could not be seen there
is written by an escape.

* `isAttached`: whether a character prints on top of the one before it.
* `escaped`: one character inside a quotation with a given quote.
* `quoted`: a whole text between double quotes.
* `quotedChar`: one character between single quotes.
-/

namespace RuleGrammar.Text

/-- The lower-case hexadecimal digits of a number, without leading zeros. -/
def hexadecimal (n : Nat) : String :=
  String.ofList (Nat.toDigits 16 n)

/-- The escape of a character by its code point, such as `\u{200b}`. -/
def codeEscape (c : Char) : String :=
  "\\u\x7b" ++ hexadecimal c.toNat ++ "\x7d"

/-- Whether a character is one of the two halfwidth sound marks, which extend a grapheme but are
printed in a place of their own. -/
def isHalfwidthMark (c : Char) : Bool := c == '\uff9e' || c == '\uff9f'

/-- Whether a character prints on top of the one before it: it extends a grapheme and is no
halfwidth mark. -/
def isAttached (c : Char) : Bool := isGraphemeExtend c && !isHalfwidthMark c

/-- One character inside a quotation: the usual short escapes, a backslash before the quote itself,
and the code point of what has no printed form or would attach to its neighbour. -/
def escaped (quote c : Char) : String :=
  if c = '\x00' then "\\0"
  else if c = '\t' then "\\t"
  else if c = '\r' then "\\r"
  else if c = '\n' then "\\n"
  else if c = '\\' then "\\\\"
  else if c = quote then String.ofList ['\\', c]
  else if isAttached c || isUnprintable c then codeEscape c
  else c.toString

def quoted (s : String) : String :=
  "\"" ++ String.join (s.toList.map (escaped '"')) ++ "\""

def quotedChar (c : Char) : String :=
  "'" ++ escaped '\'' c ++ "'"

end RuleGrammar.Text

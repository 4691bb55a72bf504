/-!
# Ranges of code points

A character class is a list of closed ranges of code points in ascending order.

* `CodeRange`: the first and the last code point of a range.
* `CodeRange.covers`: whether some range of an ascending list holds a code point.
-/

namespace RuleGrammar.Text

/-- A closed range of code points: its first and its last member. -/
abbrev CodeRange := Nat × Nat

/-- Whether an ascending list of ranges holds `n`; the search ends at the first range past `n`. -/
def CodeRange.covers : List CodeRange → Nat → Bool
  | [], _ => false
  | (first, last) :: rest, n =>
      if n < first then false
      else if n ≤ last then true
      else CodeRange.covers rest n

end RuleGrammar.Text

import RuleGrammar.Grammar.Text
import RuleGrammar.Listing
import RuleGrammar.NumberSet

/-!
# Lookaheads

A lookahead is the next terminal of a text, or the end of the text.  Sets of lookaheads are sets of
numbers: the end is zero, and a terminal is one more than its own number.

* `Lookahead`, with `slot` and `ofSlot` between lookaheads and numbers.
* `LookaheadSet`: the sets, listed with the end first and then by terminal number.
-/

namespace RuleGrammar

/-- The next symbol of a text. -/
inductive Lookahead where
  | finish
  | terminal (id : Nat)
deriving DecidableEq, Repr

namespace Lookahead

def slot : Lookahead → Nat
  | .finish => 0
  | .terminal id => id + 1

def ofSlot : Nat → Lookahead
  | 0 => .finish
  | id + 1 => .terminal id

@[simp] theorem ofSlot_slot (a : Lookahead) : ofSlot a.slot = a := by
  cases a <;> rfl

@[simp] theorem slot_ofSlot (n : Nat) : (ofSlot n).slot = n := by
  cases n <;> rfl

/-- A lookahead as it is written: a dollar sign for the end, or the terminal. -/
def name (g : Grammar) : Lookahead → String
  | .finish => "$"
  | .terminal id => g.ruleText (.terminal id)

def listing : Lookahead → String
  | .finish => "End"
  | .terminal id => "Terminal(TerminalId(" ++ Nat.repr id ++ "))"

end Lookahead

/-- A set of lookaheads by their numbers. -/
abbrev LookaheadSet := NumberSet

namespace LookaheadSet

/-- The lookaheads in a set, the end first and then by terminal number. -/
def members (s : LookaheadSet) : List Lookahead := s.toList.map Lookahead.ofSlot

def ofLookaheads (lookaheads : List Lookahead) : LookaheadSet :=
  NumberSet.ofList (lookaheads.map Lookahead.slot)

/-- The lookaheads in a set as they are written. -/
def names (g : Grammar) (s : LookaheadSet) : List String := (members s).map (Lookahead.name g)

def listing (s : LookaheadSet) : String := listedInBraces ((members s).map Lookahead.listing)

end LookaheadSet

end RuleGrammar

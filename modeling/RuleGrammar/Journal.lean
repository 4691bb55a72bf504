/-!
# Journal

What a run has to tell about its inner steps is a list of entries, each with a level and the part of
the program it comes from.

* `Journal.Level`: how urgent an entry is.
* `Journal.Entry`: an entry.
* `Journal.Entry.line`: an entry as it is printed on a terminal.
-/

namespace RuleGrammar.Journal

/-- How urgent an entry is, from the most to the least urgent. -/
inductive Level where
  | error
  | warn
  | info
  | debug
  | trace
deriving DecidableEq, Repr

namespace Level

def name : Level → String
  | .error => "ERROR"
  | .warn => "WARN"
  | .info => "INFO"
  | .debug => "DEBUG"
  | .trace => "TRACE"

def rank : Level → Nat
  | .error => 0
  | .warn => 1
  | .info => 2
  | .debug => 3
  | .trace => 4

end Level

structure Entry where
  level : Level
  origin : String
  message : String
deriving DecidableEq, Repr

/-- An entry as it is printed on a terminal: the levels for finding faults also name the thread and
the part of the program. -/
def Entry.line (e : Entry) : String :=
  " [" ++ e.level.name ++ "] " ++
    (if e.level.rank ≤ Level.info.rank then "" else "(1) " ++ e.origin ++ ": ") ++ e.message

/-- The printed entries of a journal that are at least as urgent as a level. -/
def lines (threshold : Level) (entries : List Entry) : List String :=
  (entries.filter fun e => e.level.rank ≤ threshold.rank).map Entry.line

end RuleGrammar.Journal

import RuleGrammar.Derivation
import RuleGrammar.NumberSet

/-!
# Recognizing words

A chart keeps, for each nonterminal and each position of a word, the positions at which a word of the
nonterminal that begins there can end.  The chart starts empty and grows until no rule adds anything,
so it also handles left recursion and ambiguity.  What order the end positions are found in makes no
difference to the full chart, so here each round takes all entries from the chart of the round before;
`Chart.Saturates` fills a chart in place, with no bound on the passes, and ends in the same chart.

* `Chart`: the end positions known so far.
* `Chart.ends`: where a tree that begins at a position can end.
* `Grammar.chart`: the full chart of a word.
* `Grammar.recognizes`, `Grammar.accepts`: whether a tree, or a nonterminal, derives a word.
* `Grammar.language`: all words up to a length that a nonterminal derives.
-/

namespace RuleGrammar

/-- The known end positions by nonterminal and begin position. -/
abbrev Chart := Array (Array NumberSet)

namespace Chart

/-- The chart without end positions, for a number of nonterminals and the length of a word. -/
def empty (count length : Nat) : Chart :=
  Array.replicate count (Array.replicate (length + 1) NumberSet.empty)

def get (chart : Chart) (nt start : Nat) : NumberSet :=
  match chart[nt]? with
  | some row => (row[start]?).getD NumberSet.empty
  | none => NumberSet.empty

/-- Where a tree that begins at `start` can end in a word, by what the chart knows.  An iteration
runs through at most as many rounds as the word has positions. -/
def ends (chart : Chart) (word : Word) : Rule → Nat → NumberSet
  | .terminal t, start =>
      if t = 0 then .singleton start
      else if word[start]? = some t then .singleton (start + 1)
      else .empty
  | .semantic _, start => .singleton start
  | .reference nt _, start => chart.get nt start
  | .seq l r, start => (chart.ends word l start).unionMap (chart.ends word r)
  | .alt l r, start => (chart.ends word l start).union (chart.ends word r start)
  | .iter l r, start =>
      NumberSet.closure (fun middle => (chart.ends word r middle).unionMap (chart.ends word l))
        (word.length + 1) (chart.ends word l start)

/-- The chart with everything added that the rules give from it. -/
def grow (g : Grammar) (word : Word) (chart : Chart) : Chart :=
  chart.mapIdx fun nt row =>
    match g.rule? nt with
    | some rule => row.mapIdx fun start known => known.union (chart.ends word rule start)
    | none => row

/-- The chart after growing until nothing is added, or for a number of rounds. -/
def saturate (g : Grammar) (word : Word) : Nat → Chart → Chart
  | 0, chart => chart
  | rounds + 1, chart =>
      let larger := chart.grow g word
      if larger = chart then chart else saturate g word rounds larger

end Chart

namespace Grammar

/-- The chart of a word.  Each round but the last adds an end position, and there are no more of them
than nonterminals times begin positions times end positions. -/
def chart (g : Grammar) (word : Word) : Chart :=
  let positions := word.length + 1
  Chart.saturate g word (g.nonterminals.size * positions * positions + 1)
    (Chart.empty g.nonterminals.size word.length)

/-- Whether a tree derives a word. -/
def recognizes (g : Grammar) (t : Rule) (word : Word) : Bool :=
  ((g.chart word).ends word t 0).contains word.length

def accepts (g : Grammar) (nt : Nat) (word : Word) : Bool :=
  g.recognizes (.reference nt false) word

/-- The words of a length over an alphabet, in lexicographic order. -/
def wordsOfLength (alphabet : List Nat) : Nat → List Word
  | 0 => [[]]
  | n + 1 => alphabet.flatMap fun a => (wordsOfLength alphabet n).map (a :: ·)

/-- The words up to a length that a nonterminal derives, by length and then in lexicographic order
over all terminals but the empty one. -/
def language (g : Grammar) (nt maxLength : Nat) : List Word :=
  let alphabet := g.terminals.ids.tail
  (List.range (maxLength + 1)).flatMap fun n =>
    (wordsOfLength alphabet n).filter (g.accepts nt)

end Grammar

end RuleGrammar

import RuleGrammar.Automaton.Path
import RuleGrammar.Document.Phrase
import RuleGrammar.Grammar.WellFormed
import RuleGrammar.Main
import RuleGrammar.ParseTree
import RuleGrammar.Recognizer
import RuleGrammar.Token.Blank
import RuleGrammar.Proofs.Names
import RuleGrammar.Proofs.Recognition
import RuleGrammar.Proofs.Automaton.PathLanguage
import RuleGrammar.Proofs.Automaton.Walk
import RuleGrammar.Proofs.Automaton.Reduction
import RuleGrammar.Proofs.Automaton.Regex
import RuleGrammar.Proofs.Convergence
import RuleGrammar.Proofs.Expansion
import RuleGrammar.Proofs.Saturation
import RuleGrammar.Proofs.Lookahead
import RuleGrammar.Proofs.Contention
import RuleGrammar.Proofs.Prediction
import RuleGrammar.Proofs.Characters
import RuleGrammar.Proofs.Lexing
import RuleGrammar.Proofs.Printing
import RuleGrammar.Proofs.Legibility
import RuleGrammar.Proofs.Building
import RuleGrammar.Proofs.NameLanguage
import RuleGrammar.Proofs.Revision
import RuleGrammar.Proofs.Revision.LeftRecursion
import RuleGrammar.Proofs.Revision.Factoring
import RuleGrammar.Proofs.EndToEnd
import RuleGrammar.Proofs.Coverage
import RuleGrammar.Proofs.Unambiguity
import RuleGrammar.Proofs.Realisation
import RuleGrammar.Proofs.Rereading
import RuleGrammar.Proofs.Acceptance
import RuleGrammar.Proofs.Numbering
import RuleGrammar.Proofs.Revision.Recognition
import RuleGrammar.Proofs.Revision.Amendment
import RuleGrammar.Proofs.Invariance
import RuleGrammar.Proofs.Inlining
import RuleGrammar.Proofs.Renumbering
import RuleGrammar.Proofs.PassBound
import RuleGrammar.Proofs.Revision.Usefulness
import RuleGrammar.Proofs.Opening
import RuleGrammar.Proofs.Revision.Straightening
import RuleGrammar.Proofs.Revision.Worklist
import RuleGrammar.Proofs.Revision.Cutoff
import RuleGrammar.Proofs.Revision.Branching
import RuleGrammar.Proofs.Revision.Predictability
import RuleGrammar.Proofs.Viability
import RuleGrammar.Proofs.Location
import RuleGrammar.Proofs.Diagnosis
import RuleGrammar.Proofs.Openability
import RuleGrammar.Proofs.TreeText
import RuleGrammar.Proofs.Automaton.RemovalOrder
import RuleGrammar.Proofs.RecordOrder
import RuleGrammar.Proofs.Quotation
import RuleGrammar.Proofs.Tiling
import RuleGrammar.Proofs.FreshNames
import RuleGrammar.Proofs.Charting

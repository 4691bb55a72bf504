import RuleGrammar.Revision.Factoring
import RuleGrammar.Revision.LeftRecursion
import RuleGrammar.Revision.Useless

/-!
# Transforms by name

* `Transform`: the three revisions of a whole grammar.
* `Transform.ofName?`: a transform by its name, in any case.
* `Transform.parse`: a list of names, where `all` stands for the three of them.
* `Transform.apply`: the revision, with a summary in its journal.
-/

namespace RuleGrammar

/-- The revisions of a whole grammar. -/
inductive Transform where
  | leftRecursion
  | factorize
  | useless
deriving DecidableEq, Repr

structure UnknownTransform where
  name : String
deriving DecidableEq, Repr

def UnknownTransform.message (e : UnknownTransform) : String :=
  "unknown transform " ++ Text.quoted e.name ++
    ", expected left-recursion, factorize, useless or all"

namespace Transform

/-- All transforms, in the order in which they are best applied. -/
def all : List Transform := [.leftRecursion, .factorize, .useless]

/-- The transform with a name, where the case of plain letters does not matter. -/
def ofName? (name : String) : Option Transform :=
  match String.ofList (name.toList.map Char.toLower) with
  | "left-recursion" => some .leftRecursion
  | "lr" => some .leftRecursion
  | "factorize" => some .factorize
  | "lf" => some .factorize
  | "useless" => some .useless
  | _ => none

/-- The transforms that a name stands for. -/
def expandName (name : String) : Except UnknownTransform (List Transform) :=
  if String.ofList (name.toList.map Char.toLower) = "all" then .ok all
  else
    match ofName? name with
    | some transform => .ok [transform]
    | none => .error ⟨name⟩

/-- The transforms that a list of names stands for, or the first name that stands for none. -/
def parse : List String → Except UnknownTransform (List Transform)
  | [] => .ok []
  | name :: names => do
      let first ← expandName name
      let rest ← parse names
      return first ++ rest

def summary (what : String) (count : Nat) (did : String) : Journal.Entry :=
  ⟨.info, "grammargens", what ++ ": " ++ Nat.repr count ++ " rules " ++ did⟩

/-- The revision of a grammar by a transform; it finds how many rules it concerned. -/
def apply (g : Grammar) : Transform → Revised Nat
  | .leftRecursion =>
      let r := LeftRecursion.eliminateAll g
      ⟨r.grammar, r.result.length,
        r.journal ++ [summary "left recursion" r.result.length "rewritten"]⟩
  | .factorize =>
      let r := Factoring.factorAll g
      ⟨r.grammar, r.result.length,
        r.journal ++ [summary "factorization" r.result.length "created"]⟩
  | .useless =>
      let r := Useless.removeUseless g
      ⟨r.grammar, r.result.length,
        r.journal ++ [summary "useless symbols" r.result.length "removed"]⟩

/-- The revision of a grammar by several transforms, one after the other. -/
def applyAll (g : Grammar) (transforms : List Transform) : Revised Nat :=
  transforms.foldl (fun r t => r.andThen (fun g => apply g t) (· + ·)) ⟨g, 0, []⟩

end Transform

end RuleGrammar

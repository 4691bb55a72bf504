/-!
# Symbol tables

A symbol table gives each name a number, in the order in which the names arrive.  It only grows, and
no name stands in it twice, so names and the numbers below the table's size correspond one to one.

* `SymbolTable`: the table, an array of distinct names.
* `slot`: the number a name has, or would get if it were added now.
* `insert`: the table with a name added.
* `freshName`: the first of `base`, `base1`, `base2`, … that is not in the table.
-/

namespace RuleGrammar

/-- Names numbered from zero in the order of their arrival. -/
structure SymbolTable where
  names : Array String
  distinct : names.toList.Nodup
deriving DecidableEq

namespace SymbolTable

def empty : SymbolTable := ⟨#[], List.nodup_nil⟩

instance : Inhabited SymbolTable := ⟨empty⟩

def size (t : SymbolTable) : Nat := t.names.size

def contains (t : SymbolTable) (name : String) : Bool := t.names.contains name

/-- The number a name has, or the next free number if it is not in the table. -/
def slot (t : SymbolTable) (name : String) : Nat := t.names.idxOf name

def id? (t : SymbolTable) (name : String) : Option Nat := t.names.idxOf? name

def name? (t : SymbolTable) (id : Nat) : Option String := t.names[id]?

def ids (t : SymbolTable) : List Nat := List.range t.size

/-- Adding a new name at the end keeps the names distinct. -/
theorem nodup_push {names : Array String} (h : names.toList.Nodup) {name : String}
    (hnew : ¬ name ∈ names) : (names.push name).toList.Nodup := by
  have hnot : ¬ name ∈ names.toList := by simpa using hnew
  simp only [Array.toList_push, List.nodup_append, List.nodup_cons, List.not_mem_nil,
    not_false_eq_true, List.nodup_nil, and_self, List.mem_singleton, true_and]
  exact ⟨h, fun a ha b hb hab => hnot (hb ▸ hab ▸ ha)⟩

/-- The table with a name added; a name that is there already keeps its number. -/
def insert (t : SymbolTable) (name : String) : SymbolTable :=
  if h : name ∈ t.names then t else ⟨t.names.push name, nodup_push t.distinct h⟩

/-! ### Fresh names -/

/-- The candidates for a fresh name: the base itself, then the base followed by 1, 2, …. -/
def candidate (base : String) : Nat → String
  | 0 => base
  | n + 1 => base ++ Nat.repr (n + 1)

/-- The first candidate from the `n`-th on that is not in the table, tried at most `tries` times
before the next one is taken as it comes. -/
def freshFrom (t : SymbolTable) (base : String) : Nat → Nat → String
  | 0, n => candidate base n
  | tries + 1, n =>
      if t.contains (candidate base n) then freshFrom t base tries (n + 1) else candidate base n

/-- The first candidate that is not in the table.  A table has room for as many of the candidates as
it has names, so the search needs no more tries than that. -/
def freshName (t : SymbolTable) (base : String) : String := freshFrom t base t.size 0

/-! ### Looking up what was added -/

theorem insert_of_mem {t : SymbolTable} {name : String} (h : name ∈ t.names) :
    t.insert name = t := by
  simp [insert, h]

theorem names_insert_of_not_mem {t : SymbolTable} {name : String} (h : ¬ name ∈ t.names) :
    (t.insert name).names = t.names.push name := by
  simp [insert, h]

/-- A number that is in use keeps its name when a name is added. -/
theorem name?_insert_of_some {t : SymbolTable} {id : Nat} {name : String} (h : t.name? id = some name)
    (added : String) : (t.insert added).name? id = some name := by
  by_cases hmem : added ∈ t.names
  · rwa [insert_of_mem hmem]
  · unfold name? at h ⊢
    rw [names_insert_of_not_mem hmem, Array.getElem?_push]
    have hlt : id < t.names.size := by
      rw [Array.getElem?_eq_some_iff] at h
      exact h.1
    rw [if_neg (by omega)]
    exact h

end SymbolTable

end RuleGrammar

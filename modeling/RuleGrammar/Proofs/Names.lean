import Mathlib.Data.List.Nodup
import RuleGrammar.SymbolTable

/-!
# Names and numbers

A symbol table is a one-to-one correspondence between its names and the numbers below its size, and
adding a name keeps it: old numbers keep their names, and the new name gets the next number.

* `name?_slot`, `slot_of_name?`: looking up a number and looking up a name undo each other.
* `id?_eq_some_iff`: the two ways of asking agree.
* `Extends`: a table that keeps all numbers of another one.
* `name?_insert_slot`: an added name stands at the number it was promised.
-/

namespace RuleGrammar.SymbolTable

variable {t t' t'' : SymbolTable} {name other : String} {i j : Nat}

/-! ### Looking up -/

theorem name?_eq_some_iff : t.name? i = some name ↔ t.names.toList[i]? = some name := by
  rw [name?, ← Array.getElem?_toList]

theorem lt_size_of_name? (h : t.name? i = some name) : i < t.size := by
  obtain ⟨hlt, _⟩ := Array.getElem?_eq_some_iff.1 h
  exact hlt

theorem exists_name?_of_lt (h : i < t.size) : ∃ name, t.name? i = some name :=
  ⟨t.names[i], Array.getElem?_eq_getElem h⟩

theorem mem_names_of_name? (h : t.name? i = some name) : name ∈ t.names :=
  Array.mem_of_getElem? h

theorem slot_eq_idxOf_toList (t : SymbolTable) (name : String) :
    t.slot name = t.names.toList.idxOf name := by
  rw [slot, ← List.idxOf_toArray, Array.toArray_toList]

theorem slot_le_size (t : SymbolTable) (name : String) : t.slot name ≤ t.size := by
  rw [slot_eq_idxOf_toList]
  exact List.idxOf_le_length

theorem slot_of_not_mem (h : ¬ name ∈ t.names) : t.slot name = t.size :=
  Array.idxOf_eq_size h

/-- A name of the table is found at its own number. -/
theorem name?_slot (h : name ∈ t.names) : t.name? (t.slot name) = some name := by
  rw [name?_eq_some_iff, slot_eq_idxOf_toList]
  have hlt : t.names.toList.idxOf name < t.names.toList.length :=
    List.idxOf_lt_length_of_mem (Array.mem_toList_iff.2 h)
  rw [List.getElem?_eq_getElem hlt, List.getElem_idxOf]

/-- The number of a name is the one place where it stands. -/
theorem slot_of_name? (h : t.name? i = some name) : t.slot name = i := by
  rw [name?_eq_some_iff] at h
  obtain ⟨hlt, rfl⟩ := List.getElem?_eq_some_iff.1 h
  rw [slot_eq_idxOf_toList]
  exact t.distinct.idxOf_getElem i hlt

theorem name?_injective (hi : t.name? i = some name) (hj : t.name? j = some name) : i = j := by
  rw [← slot_of_name? hi, slot_of_name? hj]

theorem id?_eq_some_iff : t.id? name = some i ↔ t.name? i = some name := by
  have hlist : t.id? name = t.names.toList.idxOf? name := by
    rw [id?, ← List.idxOf?_toArray, Array.toArray_toList]
  rw [hlist]
  constructor
  · intro h
    obtain ⟨hlt, hget, _⟩ := List.idxOf?_eq_some_iff.1 h
    rw [name?_eq_some_iff, List.getElem?_eq_getElem hlt]
    exact congrArg some hget
  · intro h
    rw [name?_eq_some_iff] at h
    obtain ⟨hlt, hget⟩ := List.getElem?_eq_some_iff.1 h
    refine List.idxOf?_eq_some_iff.2 ⟨hlt, hget, ?_⟩
    intro j hj heq
    have hsame := (List.Nodup.getElem_inj_iff t.distinct).1 (heq.trans hget.symm)
    omega

theorem contains_iff : t.contains name = true ↔ name ∈ t.names := Array.contains_iff_mem

/-! ### Adding names -/

/-- Every number of the first table has the same name in the second one. -/
def Extends (t t' : SymbolTable) : Prop :=
  ∀ (i : Nat) (name : String), t.name? i = some name → t'.name? i = some name

theorem Extends.refl (t : SymbolTable) : t.Extends t := fun _ _ hname => hname

theorem Extends.trans (h : t.Extends t') (h' : t'.Extends t'') : t.Extends t'' :=
  fun i name hname => h' i name (h i name hname)

theorem extends_insert (t : SymbolTable) (added : String) : t.Extends (t.insert added) :=
  fun _ _ hname => name?_insert_of_some hname added

theorem mem_names_insert : name ∈ (t.insert other).names ↔ name ∈ t.names ∨ name = other := by
  by_cases h : other ∈ t.names
  · rw [insert_of_mem h]
    constructor
    · exact Or.inl
    · rintro (hmem | rfl)
      · exact hmem
      · exact h
  · rw [names_insert_of_not_mem h, Array.mem_push]

/-- An added name stands at the number that it had or was to get. -/
theorem name?_insert_slot (t : SymbolTable) (name : String) :
    (t.insert name).name? (t.slot name) = some name := by
  by_cases h : name ∈ t.names
  · rw [insert_of_mem h]
    exact name?_slot h
  · rw [slot_of_not_mem h, name?, names_insert_of_not_mem h]
    exact Array.getElem?_push_size

theorem Extends.size_le (h : t.Extends t') : t.size ≤ t'.size := by
  by_contra hlt
  obtain ⟨name, hname⟩ := exists_name?_of_lt (t := t) (i := t'.size) (by omega)
  have := lt_size_of_name? (h _ _ hname)
  omega

/-- A name that a larger table has at a new number is not in the smaller one. -/
theorem Extends.not_mem_of_name? (h : t.Extends t') (hle : t.size ≤ i) (hname : t'.name? i = some name) :
    ¬ name ∈ t.names := by
  intro hmem
  have hslot : t.slot name < t.size := lt_size_of_name? (name?_slot hmem)
  have hsame : t.slot name = i := name?_injective (h _ _ (name?_slot hmem)) hname
  omega

/-- Every name of a table with one more name was there before or is the one that was added. -/
theorem name?_or_eq_of_insert (h : (t.insert other).name? i = some name) :
    t.name? i = some name ∨ name = other := by
  rcases mem_names_insert.1 (mem_names_of_name? h) with hmem | hother
  · left
    have hsame : t.slot name = i := name?_injective (extends_insert t other _ _ (name?_slot hmem)) h
    rw [← hsame]
    exact name?_slot hmem
  · exact Or.inr hother

theorem slot_lt_size_insert (t : SymbolTable) (name : String) :
    t.slot name < (t.insert name).size :=
  lt_size_of_name? (name?_insert_slot t name)

theorem size_insert_of_not_mem (h : ¬ name ∈ t.names) : (t.insert name).size = t.size + 1 := by
  rw [size, names_insert_of_not_mem h, Array.size_push]
  rfl

end RuleGrammar.SymbolTable

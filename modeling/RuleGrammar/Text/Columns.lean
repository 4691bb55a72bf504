import RuleGrammar.Text.WhiteSpace

/-!
# Tables in columns

A table is a list of rows of cells.  It is printed with every cell padded to the widest cell of its
column, a bar between cells, and no blanks at the end of a row.

* `columnWidths`: the width of each column.
* `padded`: a cell filled up with blanks on the right.
* `trimmedEnd`: a text without the white space at its end.
* `columns`: the printed table, rows parted by line breaks.
-/

namespace RuleGrammar.Text

/-- The width of each column: the longest cell in it, counted in characters. -/
def columnWidths (rows : List (List String)) : List Nat :=
  rows.foldl (fun widths row => widest widths (row.map String.length)) []
where
  -- the larger width at each place, where a missing width counts as zero
  widest : List Nat → List Nat → List Nat
    | [], widths => widths
    | widths, [] => widths
    | a :: as, b :: bs => max a b :: widest as bs

def padded (cell : String) (width : Nat) : String :=
  cell ++ String.ofList (List.replicate (width - cell.length) ' ')

def trimmedEnd (s : String) : String :=
  String.ofList (s.toList.reverse.dropWhile isWhiteSpace).reverse

def columnRow (widths : List Nat) (row : List String) : String :=
  trimmedEnd (" | ".intercalate (List.zipWith padded row widths))

/-- The printed table, one line a row. -/
def columns (rows : List (List String)) : String :=
  "\n".intercalate (rows.map (columnRow (columnWidths rows)))

end RuleGrammar.Text

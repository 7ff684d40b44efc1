/-
# Aligned columns

Tables are printed as rows of cells, one row a line. A column is as wide as its widest cell, counted
in characters, cells are divided by a bar, and blanks at the end of a line are dropped.
-/
import DeterministicParsing.Text.Blank

namespace DeterministicParsing.Text

/-- The width of a column: the length of its longest cell. -/
def columnWidth (rows : List (List String)) (column : Nat) : Nat :=
  ((rows.filterMap (·[column]?)).map String.length).foldl max 0

def columnWidths (rows : List (List String)) : List Nat :=
  (List.range ((rows.map List.length).foldl max 0)).map (columnWidth rows)

/-- Put a cell at the end of a line and fill it up to the width of its column. A bar divides it from
what stands on the line already. -/
def appendCell (line : String) (width : Nat) (cell : String) : String :=
  let divided := if line.isEmpty then line else line ++ " | "
  divided ++ cell ++ String.ofList (List.replicate (width - cell.length) ' ')

def rowLine (widths : List Nat) (row : List String) : String :=
  trimRight ((widths.zip row).foldl (fun line cell => appendCell line cell.1 cell.2) "")

/-- All rows, one a line, with their columns aligned. -/
def columns (rows : List (List String)) : String :=
  "\n".intercalate (rows.map (rowLine (columnWidths rows)))

end DeterministicParsing.Text

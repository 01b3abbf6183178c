import CanonicalLR.DisplayWidth
import CanonicalLR.Text

/-!
Tables drawn as a grid of cells. A column is as wide as its widest line, a row as
high as its highest cell, and a rule is drawn around and between all rows.
-/
namespace CanonicalLR

namespace Grid

/-- The lines of a text. A line ends at a line feed, or at the carriage return before it; what is
behind the last line feed is a line only if it is not empty. -/
def linesOf (text : String) : List String :=
  let pieces := text.splitOn "\n"
  let ended := pieces.dropLast.map fun line =>
    if line.endsWith "\r" then (line.dropEnd 1).toString else line
  match pieces.getLast? with
  | some "" | none => ended
  | some last => ended ++ [last]

/-- A cell, line by line. -/
abbrev Cell := List String

def cellWidth (cell : Cell) : Nat := (cell.map DisplayWidth.ofString).foldl max 0

/-- The width of each column of rows that are equally long. -/
def columnWidths : List (List Cell) → List Nat
  | [] => []
  | [row] => row.map cellWidth
  | row :: rest => List.zipWith max (row.map cellWidth) (columnWidths rest)

def spaces (n : Nat) : String := String.ofList (List.replicate n ' ')

/-- The text with spaces behind it up to the width. -/
def padded (width : Nat) (text : String) : String :=
  text ++ spaces (width - DisplayWidth.ofString text)

def rule (widths : List Nat) : String :=
  "+" ++ String.join (widths.map fun w => String.ofList (List.replicate (w + 2) '-') ++ "+") ++ "\n"

/-- One line of a row; a cell that is not so high is blank there. -/
def lineOf (widths : List Nat) (row : List Cell) (line : Nat) : String :=
  let cells := (row.zip widths).map fun (cell, width) =>
    " " ++ padded width ((cell[line]?).getD "") ++ " |"
  "|" ++ String.join cells ++ "\n"

def rowText (widths : List Nat) (row : List Cell) : String :=
  let height := (row.map List.length).foldl max 1
  String.join ((List.range height).map (lineOf widths row))

/-- The grid of rows that are equally long; none if some line cannot be measured. -/
def text? (rows : List (List String)) : Option String :=
  let rows := rows.map fun row => row.map linesOf
  let widths := columnWidths rows
  if rows.all fun row => row.all fun cell => cell.all DisplayWidth.isMeasurable then
    some (rule widths ++ String.join (rows.map fun row => rowText widths row ++ rule widths))
  else none

end Grid

namespace Table

/-- The heading: the number sign, then the names of the columns. -/
def heading (table : Table) : List String :=
  "#" :: table.terminals.map Prod.snd ++ table.nonTerminals.map Prod.snd

/-- The cells of a state; errors and missing successors are blank. -/
def cells (table : Table) (id : StateId) (row : Row) : List String :=
  let actions := table.terminals.map fun (t, _) =>
    match row.action t with
    | .error => ""
    | action => action.text
  let gotos := table.nonTerminals.map fun (n, _) =>
    match row.goto? n with
    | some target => toString target
    | none => ""
  toString id :: actions ++ gotos

def text? (table : Table) : Option String :=
  Grid.text? (table.heading :: table.rows.zipIdx.map fun (row, id) => table.cells id row)

end Table

end CanonicalLR

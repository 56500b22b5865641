import TreeSchema.Source
import TreeSchema.SyntaxError
import TreeSchema.Text.Split
import TreeSchema.Text.Width

/-! Showing an error in its source: the line it is in, with carets below it. -/
namespace TreeSchema.Snippet

/-- A line of a source. -/
structure SourceLine where
  /-- Counted from one. -/
  number : Nat
  /-- The byte at which the line starts. -/
  start : Nat
  text : List Char
  deriving Repr

/-- The line that has a byte of a source, or the last line. The given lines are
those from `number` on, the first of which starts at byte `start`. -/
def lineAt (position number start : Nat) : List (List Char) → SourceLine
  | [] => ⟨number, start, []⟩
  | text :: others =>
      let next := start + textSize text + 1
      if position < next || others.isEmpty then ⟨number, start, text⟩
      else lineAt position (number + 1) next others

/-- A character of a line, the byte at which it starts, counted from the start of
the line, and the columns it takes. -/
structure Cell where
  offset : Nat
  char : Char
  columns : Nat
  deriving Repr

/-- Tabs lead to the next multiple of this column. -/
def tabStop : Nat := 4

/-- The cells of a text that starts at a byte and a column of its line. -/
def cells (offset column : Nat) : List Char → List Cell
  | [] => []
  | c :: cs =>
      let columns := if c = '\t' then tabStop - column % tabStop else Text.width c
      ⟨offset, c, columns⟩ :: cells (offset + c.utf8Size) (column + columns) cs

/-- A cell as it is shown in its line. -/
def Cell.shown (cell : Cell) : List Char :=
  if cell.char = '\t' then List.replicate cell.columns ' ' else [cell.char]

/-- What is shown below a cell when the bytes from `start` to `stop` are marked. -/
def Cell.below (start stop : Nat) (cell : Cell) : List Char :=
  if start < cell.offset + cell.char.utf8Size && cell.offset < stop then
    List.replicate cell.columns '^'
  else if cell.offset < stop then List.replicate cell.columns ' '
  else []

/-- The row of carets below a line. An empty span is marked by one caret, also
after the end of the line. -/
def carets (line : List Char) (start stop : Nat) : String :=
  let afterEnd : Cell := ⟨textSize line, '\x00', 1⟩
  String.ofList ((cells 0 0 line ++ [afterEnd]).flatMap (Cell.below start (max stop (start + 1))))

/-- The lines that show an error in its source. -/
def rows (source : Source) (e : SyntaxError) : List String :=
  let line := lineAt e.span.start 1 0 (Text.pieces (· = '\n') source.text.toList)
  let shown := Text.dropEnd (fun c => c = '\r' || c = '\x00') line.text
  let column := ((cells 0 0 line.text).filter fun cell =>
    line.start + cell.offset + cell.char.utf8Size ≤ e.span.start).length + 1
  let number := toString line.number
  let margin := String.ofList (List.replicate number.length ' ')
  ["error: " ++ e.message,
    s!"{margin} ┌─ {source.name}:{number}:{column}",
    s!"{margin} │",
    s!"{number} │ {String.ofList ((cells 0 0 shown).flatMap Cell.shown)}",
    s!"{margin} │ {carets shown (e.span.start - line.start) (e.span.stop - line.start)}"] ++
  (if e.notes.isEmpty then []
    else s!"{margin} │" :: e.notes.map fun note => s!"{margin} = {note}") ++
  [""]

/-- An error shown in its source, with an empty line at the end. -/
def text (source : Source) (e : SyntaxError) : String :=
  String.join ((rows source e).map (· ++ "\n"))

end TreeSchema.Snippet

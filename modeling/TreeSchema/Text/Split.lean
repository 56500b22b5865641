/-! Cutting lists and texts at separators, and texts into lines. -/
namespace TreeSchema.Text

variable {α : Type}

/-- The pieces between the separators; one more than there are separators. -/
def pieces (isSeparator : α → Bool) : List α → List (List α)
  | [] => [[]]
  | x :: xs =>
      if isSeparator x then [] :: pieces isSeparator xs
      else
        match pieces isSeparator xs with
        | [] => [[x]]
        | piece :: others => (x :: piece) :: others

/-- A list without the elements at its end that `p` accepts. -/
def dropEnd (p : α → Bool) (xs : List α) : List α :=
  (xs.reverse.dropWhile p).reverse

/-- A list without the elements at its two ends that `p` accepts. -/
def trimBy (p : α → Bool) (xs : List α) : List α :=
  dropEnd p (xs.dropWhile p)

/-- The pieces of a string between the occurrences of a character. -/
def splitAt (separator : Char) (s : String) : List String :=
  (pieces (· = separator) s.toList).map String.ofList

/-- A line without the carriage return in front of its line feed. -/
def dropReturn (line : List Char) : List Char :=
  if line.getLast? = some '\r' then line.dropLast else line

/-- The lines of a text as they are shown: a line feed ends a line, also with a
carriage return in front, and nothing is left after the last one. -/
def lines (s : String) : List String :=
  let all := pieces (· = '\n') s.toList
  let ended := all.dropLast.map dropReturn
  let rest := all.drop ended.length
  (ended ++ rest.filter (!·.isEmpty)).map String.ofList

end TreeSchema.Text

/-! Escape sequences of terminals: marking a part of a text with them, and taking
them out of a text that is not written to a terminal. -/
namespace TreeSchema.Text

/-- A text set in a terminal's rendition, and a return to the usual one after it. -/
def rendered (rendition text : String) : String :=
  s!"\x1b[{rendition}m{text}\x1b[0m"

/-- Whether a character is shown outside of escape sequences: all but the control
characters of ASCII, of which those that set space stay. -/
def isShown (c : Char) : Bool :=
  (0x20 ≤ c.toNat && c.toNat ≠ 0x7F) || ['\t', '\n', '\x0c', '\r'].contains c

/-- How far an escape sequence has come. -/
inductive Escape where
  /-- Only the escape character. -/
  | opened
  /-- The escape character and intermediate characters. -/
  | intermediate
  /-- A control sequence, as for colours. -/
  | control
  | deviceControl
  | deviceParameters
  | deviceIntermediate
  /-- A string that the byte 0x9C ends. -/
  | controlString
  /-- A command to the system, which a bell ends. -/
  | systemCommand
  deriving DecidableEq, Repr

namespace Escape

/-- How far a sequence is with one more character; `none` where that ends it. -/
def next? (s : Escape) (c : Char) : Option Escape :=
  let within (low high : Nat) : Bool := low ≤ c.toNat && c.toNat ≤ high
  match s with
  | opened =>
      if within 0x20 0x2F then some intermediate
      else
        match c with
        | '[' => some control
        | ']' => some systemCommand
        | 'P' => some deviceControl
        | 'X' | '^' | '_' => some controlString
        | _ => if within 0x30 0x7E then none else some opened
  | intermediate => if within 0x30 0x7E then none else some intermediate
  | control => if within 0x40 0x7E then none else some control
  | deviceControl =>
      some (if within 0x20 0x2F then deviceIntermediate
        else if within 0x30 0x3F then deviceParameters
        else if within 0x40 0x7E then controlString
        else deviceControl)
  | deviceParameters =>
      some (if within 0x20 0x2F then deviceIntermediate
        else if within 0x3C 0x7E then controlString
        else deviceParameters)
  | deviceIntermediate =>
      some (if within 0x30 0x7E then controlString else deviceIntermediate)
  | controlString => if (String.utf8EncodeChar c).contains 0x9C then none else some controlString
  | systemCommand => if c = '\x07' then none else some systemCommand

/-- Whether characters that set space are shown within a sequence. They are not
where its content is free. -/
def showsSpace (s : Escape) : Bool :=
  [opened, intermediate, control].contains s

end Escape

/-- Where a reader of a text with escape sequences is. -/
inductive Place where
  | outside
  | inside (s : Escape)
  /-- Behind a space within a sequence. The text is shown from there on, up to a
  control character, with which the sequence goes on. -/
  | interrupted (s : Escape)
  deriving DecidableEq, Repr

namespace Place

/-- Where the reader is after a character, and whether that is shown. -/
def step (place : Place) (c : Char) : Place × Bool :=
  if c = '\x1b' then (inside .opened, false)
  else if c = '\x18' || c = '\x1a' then (outside, false)
  else
    match place with
    | outside => (outside, isShown c)
    | inside s =>
        if c.toNat < 0x20 && isShown c && s.showsSpace then (interrupted s, true)
        else
          match s.next? c with
          | some s => (inside s, false)
          | none => (outside, false)
    | interrupted s =>
        if !isShown c then (inside s, false)
        else if c.toNat < 0x80 then (interrupted s, true)
        else (outside, true)

/-- What is shown of a text. -/
def shown (place : Place) : List Char → List Char
  | [] => []
  | c :: cs =>
      match place.step c with
      | (next, true) => c :: next.shown cs
      | (next, false) => next.shown cs

end Place

/-- A text without its escape sequences and control characters. -/
def plain (s : String) : String :=
  String.ofList (Place.outside.shown s.toList)

end TreeSchema.Text

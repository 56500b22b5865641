import TreeSchema.SyntaxError
import TreeSchema.Text.Blank
import TreeSchema.Tree.Basic

/-! The written form of a tree: `nil`, or `<left.right>`. Blanks may stand
around its marks, and a text without marks is `nil`. The reader keeps the open
pairs on a list of its own, so the depth of a tree is not limited. -/
namespace TreeSchema.Tree

/-- Append the form of a tree and then `closers` closing marks to `written`.
The counter lets a long right spine be written in one pass. -/
def writeOnto (written : String) (closers : Nat) : Tree → String
  | nil => closers.repeat (·.push '>') (written ++ "nil")
  | node left right =>
      writeOnto ((writeOnto (written.push '<') 0 left).push '.') (closers + 1) right

def text (t : Tree) : String :=
  writeOnto "" 0 t

/-- The four marks of a written tree. -/
inductive Mark where
  | nil
  | opening
  | dot
  | closing
  deriving DecidableEq, Repr

def Mark.text : Mark → String
  | .nil => "nil"
  | .opening => "<"
  | .dot => "."
  | .closing => ">"

/-- A mark and where it stands. -/
abbrev PlacedMark := Mark × Span

/-- The marks of a text that starts at byte `position`, after those in `before`,
which are listed last first. -/
def marksFrom (position : Nat) (before : List PlacedMark) :
    List Char → Except SyntaxError (List PlacedMark)
  | [] => .ok before.reverse
  | 'n' :: 'i' :: 'l' :: rest =>
      marksFrom (position + 3) ((.nil, .ofSize position 3) :: before) rest
  | '<' :: rest => marksFrom (position + 1) ((.opening, .ofSize position 1) :: before) rest
  | '.' :: rest => marksFrom (position + 1) ((.dot, .ofSize position 1) :: before) rest
  | '>' :: rest => marksFrom (position + 1) ((.closing, .ofSize position 1) :: before) rest
  | c :: rest =>
      if Text.isBlank c then marksFrom (position + c.utf8Size) before rest
      else .error { cause := .unrecognised, span := .ofSize position c.utf8Size }

/-- A pair that is open: its left side is being read, or has been. -/
inductive Pending where
  | left
  | right (left : Tree)
  deriving DecidableEq, Repr

/-- The mark that must follow a complete tree inside a pair. -/
def Pending.follower : Pending → Mark
  | .left => .dot
  | .right _ => .closing

/-- How far the reading of a tree has come: the open pairs, innermost first, and
the tree that was just completed, if one was. Without one, a tree must start. -/
structure Progress where
  pending : List Pending
  complete : Option Tree
  deriving DecidableEq, Repr

namespace Progress

def start : Progress :=
  ⟨[], none⟩

def step (p : Progress) : PlacedMark → Except SyntaxError Progress
  | (mark, span) =>
      match p.complete, p.pending, mark with
      | none, pending, .nil => .ok ⟨pending, some .nil⟩
      | none, pending, .opening => .ok ⟨.left :: pending, none⟩
      | none, _, other => .error { cause := .unexpected other.text [], span }
      | some left, .left :: outer, .dot => .ok ⟨.right left :: outer, none⟩
      | some right, .right left :: outer, .closing => .ok ⟨outer, some (.node left right)⟩
      | some _, [], extra => .error { cause := .trailing extra.text, span }
      | some _, innermost :: _, other =>
          .error { cause := .unexpected other.text [innermost.follower.text], span }

/-- The tree that was read, when the text ends at byte `size`. -/
def finish (size : Nat) : Progress → Except SyntaxError Tree
  | ⟨[], some t⟩ => .ok t
  | ⟨innermost :: _, some _⟩ =>
      .error { cause := .ended [innermost.follower.text], span := .empty size }
  | ⟨_, none⟩ => .error { cause := .ended [], span := .empty size }

end Progress

def ofChars (cs : List Char) : Except SyntaxError Tree := do
  match ← marksFrom 0 [] cs with
  | [] => return nil
  | marks => (← marks.foldlM Progress.step .start).finish (textSize cs)

def ofText (text : String) : Except SyntaxError Tree :=
  ofChars text.toList

end TreeSchema.Tree

/-! Writing with a stack. A thing is laid out as an opening and pieces that follow it, each of them
a text or another thing. The writer keeps what is still to be written on a stack, so it needs no
recursion, however deep things lie inside of each other. It writes what recursion writes. -/
namespace TreeSchema

/-- What lies on a writer's stack: a text as it is, or a thing that is not yet laid out. -/
inductive Piece (α : Type) where
  | text (s : String)
  | thing (a : α)

namespace Piece

variable {α : Type}

/-- How much is still to be laid out on a stack, if `size` says how much a thing is. -/
def load (size : α → Nat) : List (Piece α) → Nat
  | [] => 0
  | text _ :: stack => load size stack
  | thing a :: stack => size a + load size stack

/-- The text that a stack comes to from its top on, if `form` gives the texts of things. -/
def written (form : α → String) : List (Piece α) → String
  | [] => ""
  | text s :: stack => s ++ written form stack
  | thing a :: stack => form a ++ written form stack

theorem load_append (size : α → Nat) (stack below : List (Piece α)) :
    load size (stack ++ below) = load size stack + load size below := by
  induction stack with
  | nil => exact (Nat.zero_add _).symm
  | cons piece stack ih => cases piece <;> simp only [List.cons_append, load, ih, Nat.add_assoc]

theorem written_append (form : α → String) (stack below : List (Piece α)) :
    written form (stack ++ below) = written form stack ++ written form below := by
  induction stack with
  | nil => exact String.empty_append.symm
  | cons piece stack ih =>
      cases piece <;> simp only [List.cons_append, written, ih, String.append_assoc]

end Piece

/-- How things of one kind are laid out. -/
structure Layout (α : Type) where
  opening : α → String
  /-- The pieces after the opening, the first of them on top. -/
  rest : α → List (Piece α)
  /-- A thing is laid out into things that are smaller than it, even when taken together. -/
  shrinks : ∃ size : α → Nat, ∀ a, Piece.load size (rest a) < size a

namespace Layout

variable {α : Type} (layout : Layout α)

/-- Write the pieces of a stack after what is `written`. When a thing comes to the top, its
opening is written, and the pieces after the opening are put in its place. -/
def writeOnto (written : String) : List (Piece α) → String
  | [] => written
  | .text s :: stack => writeOnto (written ++ s) stack
  | .thing a :: stack => writeOnto (written ++ layout.opening a) (layout.rest a ++ stack)
  termination_by stack => (Piece.load layout.shrinks.choose stack, stack.length)
  decreasing_by
    · exact Prod.Lex.right _ (Nat.lt_succ_self _)
    · apply Prod.Lex.left
      rw [Piece.load_append, Piece.load]
      exact Nat.add_lt_add_right (layout.shrinks.choose_spec a) _

def write (a : α) : String :=
  layout.writeOnto "" [.thing a]

/-- The texts that `form` gives are laid out in the same way, part by part. -/
def IsForm (form : α → String) : Prop :=
  ∀ a, form a = layout.opening a ++ Piece.written form (layout.rest a)

variable {layout} {form : α → String}

/-- What has been written and what the stack comes to are the same text at every step. -/
theorem writeOnto_eq (h : layout.IsForm form) (written : String) (stack : List (Piece α)) :
    layout.writeOnto written stack = written ++ Piece.written form stack := by
  fun_induction writeOnto layout written stack with
  | case1 written => exact String.append_empty.symm
  | case2 written s stack ih => rw [ih, Piece.written, String.append_assoc]
  | case3 written a stack ih =>
      rw [ih, Piece.written_append, Piece.written, h a, String.append_assoc, String.append_assoc]

/-- The writer writes the one form that is laid out in its way. -/
theorem write_eq (h : layout.IsForm form) (a : α) : layout.write a = form a := by
  rw [write, writeOnto_eq h, String.empty_append]
  exact String.append_empty

end Layout

end TreeSchema

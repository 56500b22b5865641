import TreeSchema.Tree.Text

/-! Reading a written tree by plain recursion: `nil`, or two trees between the marks of
a pair. The reader that keeps the open pairs on a list of its own gives the same answer
to every text, errors and their places included. -/
namespace TreeSchema.Tree

namespace Descent

/-- What is left of some marks once at least one of them has been read. -/
abbrev After (ms : List PlacedMark) : Type :=
  { rest : List PlacedMark // rest.length < ms.length }

/-- Pass the one mark that may come next, in a text that ends at byte `size`. -/
def pass (size : Nat) (wanted : Mark) : (ms : List PlacedMark) → Except SyntaxError (After ms)
  | [] => .error { cause := .ended [wanted.text], span := .empty size }
  | (mark, span) :: rest =>
      if mark = wanted then .ok ⟨rest, Nat.lt_succ_self _⟩
      else .error { cause := .unexpected mark.text [wanted.text], span }

/-- Read the tree that some marks start with. -/
def value (size : Nat) : (ms : List PlacedMark) → Except SyntaxError (Tree × After ms)
  | [] => .error { cause := .ended [], span := .empty size }
  | (.nil, _) :: rest => .ok (nil, ⟨rest, Nat.lt_succ_self _⟩)
  | (.opening, _) :: rest => do
      let (left, ⟨rest₁, h₁⟩) ← value size rest
      let ⟨rest₂, h₂⟩ ← pass size .dot rest₁
      let (right, ⟨rest₃, h₃⟩) ← value size rest₂
      let ⟨rest₄, h₄⟩ ← pass size .closing rest₃
      return (node left right, ⟨rest₄, by rw [List.length_cons]; omega⟩)
  | (other, span) :: _ => .error { cause := .unexpected other.text [], span }
  termination_by ms => ms.length
  decreasing_by
    all_goals
      rw [List.length_cons]
      omega

/-- Read a whole text as one tree, or as `nil` if there is no mark in it. -/
def ofText (text : String) : Except SyntaxError Tree := do
  let size := textSize text.toList
  match ← marksFrom 0 [] text.toList with
  | [] => return nil
  | marks =>
      let (t, ⟨rest, _⟩) ← value size marks
      match rest with
      | [] => return t
      | (extra, span) :: _ => .error { cause := .trailing extra.text, span }

end Descent

namespace Progress

/-- What comes of a text that ends at byte `size`, from the marks that are still to be read. -/
def outcome (size : Nat) (p : Progress) (ms : List PlacedMark) : Except SyntaxError Tree := do
  (← ms.foldlM step p).finish size

theorem outcome_cons (size : Nat) (p : Progress) (m : PlacedMark) (ms : List PlacedMark) :
    p.outcome size (m :: ms) = p.step m >>= fun p' => p'.outcome size ms := by
  unfold outcome
  rw [List.foldlM_cons, bind_assoc]

/-- The place after the mark that follows a complete tree inside a pair. -/
def beyond (complete : Tree) (outer : List Pending) : Pending → Progress
  | .left => ⟨.right complete :: outer, none⟩
  | .right left => ⟨outer, some (node left complete)⟩

/-- After a complete tree, the innermost pair lets one mark pass. -/
theorem outcome_complete (size : Nat) (t : Tree) (innermost : Pending) (outer : List Pending)
    (ms : List PlacedMark) :
    outcome size ⟨innermost :: outer, some t⟩ ms =
      Descent.pass size innermost.follower ms >>= fun rest =>
        (beyond t outer innermost).outcome size rest := by
  cases ms with
  | nil => cases innermost <;> rfl
  | cons m ms =>
      obtain ⟨mark, span⟩ := m
      rw [outcome_cons]
      cases innermost <;> cases mark <;> rfl

/-- Where a tree must start, the reader does what plain recursion does, and goes on
with the tree that was read at the same pairs as before. -/
theorem outcome_value (size : Nat) (pending : List Pending) (ms : List PlacedMark) :
    outcome size ⟨pending, none⟩ ms =
      Descent.value size ms >>= fun r => outcome size ⟨pending, some r.1⟩ r.2 := by
  match ms with
  | [] =>
      rw [Descent.value]
      cases pending <;> rfl
  | (.nil, _) :: rest =>
      rw [Descent.value, outcome_cons]
      rfl
  | (.dot, _) :: rest | (.closing, _) :: rest =>
      rw [Descent.value, outcome_cons]
      · rfl
      all_goals nofun
  | (.opening, _) :: rest =>
      rw [Descent.value, outcome_cons]
      change outcome size ⟨.left :: pending, none⟩ rest = _
      rw [outcome_value size _ rest, bind_assoc]
      apply bind_congr
      rintro ⟨left, rest₁, h₁⟩
      rw [outcome_complete, bind_assoc]
      apply bind_congr
      rintro ⟨rest₂, h₂⟩
      change outcome size ⟨.right left :: pending, none⟩ rest₂ = _
      rw [outcome_value size _ rest₂, bind_assoc]
      apply bind_congr
      rintro ⟨right, rest₃, h₃⟩
      rw [outcome_complete, bind_assoc]
      apply bind_congr
      rintro ⟨rest₄, h₄⟩
      rfl
  termination_by ms.length
  decreasing_by
    all_goals
      simp only [List.length_cons] at *
      omega

/-- After the last tree, only the end of the text is accepted. -/
theorem outcome_all (size : Nat) (t : Tree) (ms : List PlacedMark) :
    outcome size ⟨[], some t⟩ ms =
      match ms with
      | [] => .ok t
      | (extra, span) :: _ => .error { cause := .trailing extra.text, span } := by
  cases ms with
  | nil => rfl
  | cons m ms =>
      rw [outcome_cons]
      rfl

end Progress

/-- The reader with its list of open pairs is the plain recursive one: it returns the
same tree, or the same error at the same place, for every text. -/
theorem ofText_eq_descent (text : String) : ofText text = Descent.ofText text := by
  change marksFrom 0 [] text.toList >>= _ = marksFrom 0 [] text.toList >>= _
  apply bind_congr
  intro marks
  cases marks with
  | nil => rfl
  | cons m ms =>
      change Progress.outcome (textSize text.toList) .start (m :: ms) = _
      rw [Progress.start, Progress.outcome_value]
      apply bind_congr
      rintro ⟨t, rest, h⟩
      rw [Progress.outcome_all]
      rfl

end TreeSchema.Tree

import TreeSchema.Proofs.Except
import TreeSchema.Tree.Text

/-! Written trees are read back, and a text that is read is the written form of what it
is read as, with blanks added. Between text and tree stand the marks of a tree: the
writer writes them, and all that the reader holds at any place is the marks before it. -/
namespace TreeSchema.Tree

/-- The marks of a written tree, in order. -/
def marks : Tree → List Mark
  | nil => [.nil]
  | node left right => .opening :: (left.marks ++ .dot :: (right.marks ++ [.closing]))

/-- Marks written one after the other, with nothing between them. -/
def spelled (ms : List Mark) : List Char :=
  ms.flatMap (·.text.toList)

@[simp] theorem spelled_nil : spelled [] = [] := rfl

@[simp] theorem spelled_cons (m : Mark) (ms : List Mark) :
    spelled (m :: ms) = m.text.toList ++ spelled ms := rfl

@[simp] theorem spelled_append (ms ms' : List Mark) :
    spelled (ms ++ ms') = spelled ms ++ spelled ms' := List.flatMap_append

theorem spelled_eq_nil_iff {ms : List Mark} : spelled ms = [] ↔ ms = [] := by
  cases ms with
  | nil => simp
  | cons m ms => cases m <;> simp [Mark.text]

theorem toList_repeat_push (n : Nat) (c : Char) (s : String) :
    (n.repeat (·.push c) s).toList = s.toList ++ List.replicate n c := by
  induction n with
  | zero => simp [Nat.repeat]
  | succ n ih => simp [Nat.repeat, ih, List.replicate_succ']

/-- The closing marks that are still owed come right after the tree. -/
theorem toList_writeOnto (written : String) (closers : Nat) (t : Tree) :
    (writeOnto written closers t).toList =
      written.toList ++ (spelled t.marks ++ List.replicate closers '>') := by
  induction t generalizing written closers with
  | nil => simp [writeOnto, marks, Mark.text, toList_repeat_push]
  | node left right ihLeft ihRight =>
      simp [writeOnto, marks, Mark.text, ihLeft, ihRight, List.replicate_succ]

theorem toList_text (t : Tree) : (text t).toList = spelled t.marks := by
  simp [text, toList_writeOnto]

/-- Written marks are read as themselves. -/
theorem marksFrom_spelled (position : Nat) (before : List PlacedMark) (ms : List Mark) :
    ∃ placed, marksFrom position before (spelled ms) = .ok (before.reverse ++ placed) ∧
      placed.map Prod.fst = ms := by
  induction ms generalizing position before with
  | nil => exact ⟨[], by simp [marksFrom], rfl⟩
  | cons m ms ih =>
      have hStep : marksFrom position before (spelled (m :: ms)) =
          marksFrom (position + m.text.length)
            ((m, .ofSize position m.text.length) :: before) (spelled ms) := by
        cases m <;> exact marksFrom.eq_def _ _ _
      obtain ⟨placed, hRead, hMarks⟩ := ih (position + m.text.length)
        ((m, .ofSize position m.text.length) :: before)
      refine ⟨(m, .ofSize position m.text.length) :: placed, ?_, by rw [List.map_cons, hMarks]⟩
      rw [hStep, hRead]
      simp

theorem filter_mark (m : Mark) (cs : List Char) :
    (m.text.toList ++ cs).filter (!Text.isBlank ·) =
      m.text.toList ++ cs.filter (!Text.isBlank ·) := by
  have hMark : m.text.toList.filter (!Text.isBlank ·) = m.text.toList := by cases m <;> decide
  rw [List.filter_append, hMark]

/-- Marks that are read from a text spell it out, but for its blanks. -/
theorem spelled_of_marksFrom {position : Nat} {before ms : List PlacedMark} {cs : List Char}
    (h : marksFrom position before cs = .ok ms) :
    spelled (ms.map Prod.fst) =
      spelled (before.reverse.map Prod.fst) ++ cs.filter (!Text.isBlank ·) := by
  have hMark (m : Mark) (span : Span) (before : List PlacedMark) (rest : List Char) :
      spelled (((m, span) :: before).reverse.map Prod.fst) ++ rest.filter (!Text.isBlank ·) =
        spelled (before.reverse.map Prod.fst) ++
          (m.text.toList ++ rest).filter (!Text.isBlank ·) := by
    rw [filter_mark]
    simp
  fun_induction marksFrom position before cs with
  | case1 position before =>
      cases h
      simp
  | case2 position before rest ih => exact (ih h).trans (hMark .nil _ before rest)
  | case3 position before rest ih => exact (ih h).trans (hMark .opening _ before rest)
  | case4 position before rest ih => exact (ih h).trans (hMark .dot _ before rest)
  | case5 position before rest ih => exact (ih h).trans (hMark .closing _ before rest)
  | case6 position before c rest _ _ _ _ hBlank ih =>
      rw [ih h, List.filter_cons_of_neg (by simp [hBlank])]
  | case7 => cases h

namespace Progress

/-- The marks before a place inside open pairs. -/
def openMarks : List Pending → List Mark
  | [] => []
  | .left :: outer => openMarks outer ++ [.opening]
  | .right left :: outer => openMarks outer ++ .opening :: (left.marks ++ [.dot])

/-- The marks that have been read so far. -/
def marks (p : Progress) : List Mark :=
  openMarks p.pending ++ p.complete.elim [] Tree.marks

theorem marks_step {p p' : Progress} {m : PlacedMark} (h : p.step m = .ok p') :
    p'.marks = p.marks ++ [m.1] := by
  obtain ⟨pending, complete⟩ := p
  obtain ⟨mark, span⟩ := m
  simp only [step] at h
  split at h
  all_goals cases h
  all_goals simp [marks, openMarks, Tree.marks]

/-- What the reader holds is all that it has read. -/
theorem marks_foldlM {p p' : Progress} {ms : List PlacedMark} (h : ms.foldlM step p = .ok p') :
    p'.marks = p.marks ++ ms.map Prod.fst := by
  have hStep (next : Progress) (taken : List PlacedMark) (m : PlacedMark) (last : Progress)
      (hTaken : next.marks = p.marks ++ taken.map Prod.fst) (hNext : next.step m = .ok last) :
      last.marks = p.marks ++ (taken ++ [m]).map Prod.fst := by
    rw [marks_step hNext, hTaken, List.map_append, List.append_assoc]
    rfl
  have hStart : p.marks = p.marks ++ ([] : List PlacedMark).map Prod.fst := by simp
  exact invariant_of_foldlM hStep hStart h

theorem marks_finish {p : Progress} {size : Nat} {t : Tree} (h : p.finish size = .ok t) :
    p.marks = t.marks := by
  unfold finish at h
  split at h
  · cases h
    rfl
  · cases h
  · cases h

/-- The marks of a tree take the reader from where a tree must start to where it is complete. -/
theorem foldlM_marks {t : Tree} {ms : List PlacedMark} (h : ms.map Prod.fst = t.marks)
    (pending : List Pending) : ms.foldlM step ⟨pending, none⟩ = .ok ⟨pending, some t⟩ := by
  induction t generalizing ms pending with
  | nil =>
      obtain ⟨m, rfl, hMark⟩ := List.map_eq_singleton_iff.mp h
      obtain ⟨mark, span⟩ := m
      cases hMark
      rfl
  | node left right ihLeft ihRight =>
      obtain ⟨⟨_, _⟩, inside, rfl, rfl, hInside⟩ := List.map_eq_cons_iff.mp h
      obtain ⟨first, others, rfl, hLeft, hOthers⟩ := List.map_eq_append_iff.mp hInside
      obtain ⟨⟨_, _⟩, others, rfl, rfl, hRest⟩ := List.map_eq_cons_iff.mp hOthers
      obtain ⟨second, last, rfl, hRight, hLast⟩ := List.map_eq_append_iff.mp hRest
      obtain ⟨⟨_, _⟩, rfl, rfl⟩ := List.map_eq_singleton_iff.mp hLast
      rw [List.foldlM_cons]
      change (first ++ _).foldlM step ⟨.left :: pending, none⟩ = _
      rw [List.foldlM_append, ihLeft hLeft]
      change (second ++ _).foldlM step ⟨.right left :: pending, none⟩ = _
      rw [List.foldlM_append, ihRight hRight]
      rfl

end Progress

theorem marks_ne_nil (t : Tree) : t.marks ≠ [] := by
  cases t <;> exact List.cons_ne_nil _ _

theorem ofText_eq {text : String} {m : PlacedMark} {ms : List PlacedMark}
    (h : marksFrom 0 [] text.toList = .ok (m :: ms)) :
    ofText text =
      (m :: ms).foldlM Progress.step .start >>= Progress.finish (textSize text.toList) := by
  rw [ofText, ofChars, h]
  rfl

/-- The written form of a tree is read as the tree. -/
theorem ofText_of_toList_eq {s : String} {t : Tree} (h : s.toList = spelled t.marks) :
    ofText s = .ok t := by
  obtain ⟨placed, hRead, hMarks⟩ := marksFrom_spelled 0 [] t.marks
  rw [← h] at hRead
  cases placed with
  | nil => exact absurd hMarks.symm t.marks_ne_nil
  | cons m ms =>
      rw [ofText_eq hRead, Progress.start, Progress.foldlM_marks hMarks]
      rfl

/-- A text that is read has no marks, or the marks of the tree that it is read as. -/
theorem filter_eq_spelled_of_ofText {s : String} {t : Tree} (h : ofText s = .ok t) :
    (s.toList.filter (!Text.isBlank ·) = [] ∧ t = nil) ∨
      s.toList.filter (!Text.isBlank ·) = spelled t.marks := by
  cases hMarks : marksFrom 0 [] s.toList with
  | error e =>
      rw [ofText, ofChars, hMarks] at h
      cases h
  | ok ms =>
      have hSpelled := spelled_of_marksFrom hMarks
      rw [List.reverse_nil, List.map_nil, spelled_nil, List.nil_append] at hSpelled
      rw [← hSpelled]
      cases ms with
      | nil =>
          rw [ofText, ofChars, hMarks] at h
          cases h
          exact .inl ⟨rfl, rfl⟩
      | cons m ms =>
          right
          rw [ofText_eq hMarks] at h
          obtain ⟨p, hRun, hEnd⟩ := bind_eq_ok_iff.mp h
          rw [← Progress.marks_finish hEnd, Progress.marks_foldlM hRun]
          rfl

/-- Writing and reading are inverse: every tree is read back from its written form, and
a text that is read is, without its blanks, the written form of what it is read as. Only
a text of nothing but blanks is no written form; it is read as `nil`. -/
theorem ofText_text_and_text_of_ofText :
    (∀ t : Tree, ofText (text t) = .ok t) ∧
      ∀ (s : String) (t : Tree), ofText s = .ok t →
        ((∃ c ∈ s.toList, Text.isBlank c = false) →
          text t = String.ofList (s.toList.filter (!Text.isBlank ·))) ∧
        ((∀ c ∈ s.toList, Text.isBlank c = true) → t = nil) := by
  refine ⟨fun t => ofText_of_toList_eq (toList_text t), fun s t h => ⟨?_, ?_⟩⟩
  · rintro ⟨c, hMember, hBlank⟩
    have hShown : c ∈ s.toList.filter (!Text.isBlank ·) := by simp [hMember, hBlank]
    rcases filter_eq_spelled_of_ofText h with ⟨hNone, -⟩ | hSpelled
    · rw [hNone] at hShown
      cases hShown
    · rw [hSpelled, ← toList_text, String.ofList_toList]
  · intro hBlank
    have hNone : s.toList.filter (!Text.isBlank ·) = [] := by simpa using hBlank
    rcases filter_eq_spelled_of_ofText h with ⟨-, hNil⟩ | hSpelled
    · exact hNil
    · rw [hNone] at hSpelled
      exact absurd (spelled_eq_nil_iff.mp hSpelled.symm) t.marks_ne_nil

/-- A text with blanks of one to three bytes around its marks. -/
theorem text_of_ofText_blanks :
    ofText "\n< <nil.nil >\u00A0.\u3000nil>\t" = .ok (node (node nil nil) nil) ∧
      text (node (node nil nil) nil) = "<<nil.nil>.nil>" := by
  have hRead : ofText "\n< <nil.nil >\u00A0.\u3000nil>\t" = .ok (node (node nil nil) nil) := by
    rfl
  refine ⟨hRead, ?_⟩
  rw [(ofText_text_and_text_of_ofText.2 _ _ hRead).1 ⟨'n', by decide, by decide⟩]
  decide +kernel

end TreeSchema.Tree

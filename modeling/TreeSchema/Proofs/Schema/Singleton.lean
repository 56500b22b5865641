import TreeSchema.Proofs.Matching.Recursion
import TreeSchema.Proofs.Schema.Rereading
import TreeSchema.Proofs.Tree.Height
import TreeSchema.Proofs.Tree.RoundTrip

/-! Written trees as descriptions. The two written forms agree on trees: what is written
for a tree is also written for the schema that follows the tree, down to `nil`. That schema
describes the tree and no other, and its brackets are as deep as the tree is high. -/
namespace TreeSchema

namespace Tree

/-- The schema that follows a tree. -/
def asSchema : Tree → Schema
  | nil => .named "nil"
  | node left right => .pair left.asSchema right.asSchema

theorem toList_text_asSchema (t : Tree) : t.asSchema.text.toList = spelled t.marks := by
  induction t with
  | nil => rfl
  | node left right ihLeft ihRight =>
      simp [asSchema, Schema.text, marks, Mark.text, ihLeft, ihRight]

theorem text_asSchema (t : Tree) : t.asSchema.text = text t :=
  String.toList_injective (t.toList_text_asSchema.trans t.toList_text.symm)

theorem writable_asSchema (t : Tree) : t.asSchema.Writable := by
  induction t with
  | nil => exact Schema.writable_atom (by decide)
  | node left right ihLeft ihRight => exact ⟨ihLeft, ihRight⟩

/-- Each pair of a tree is written as a bracket. -/
theorem fits_asSchema (t : Tree) (depth : Nat) (hDepth : depth ≤ Description.maxNesting) :
    t.asSchema.Fits depth ↔ depth + t.height ≤ Description.maxNesting := by
  induction t generalizing depth with
  | nil => exact ⟨fun _ => hDepth, fun _ => ⟨trivial, trivial⟩⟩
  | node left right ihLeft ihRight =>
      simp only [asSchema, Schema.Fits, height]
      constructor
      · rintro ⟨hHere, hLeft, hRight⟩
        have := (ihLeft (depth + 1) hHere).mp hLeft
        have := (ihRight (depth + 1) hHere).mp hRight
        omega
      · intro hFits
        have hHere : depth < Description.maxNesting := by omega
        exact ⟨hHere, (ihLeft (depth + 1) hHere).mpr (by omega),
          (ihRight (depth + 1) hHere).mpr (by omega)⟩

theorem decode_asSchema_nil (definitions : Definitions) (expanding : List String) (u : Tree) :
    nil.asSchema.decode definitions expanding u = BuiltIn.nil.decode u :=
  Schema.decode_builtIn u rfl

/-- The tree itself is read as it stands. -/
theorem decode_asSchema_self (definitions : Definitions) (expanding : List String) (t : Tree) :
    t.asSchema.decode definitions expanding t = .fits (.ofTree t) := by
  induction t generalizing expanding with
  | nil =>
      rw [decode_asSchema_nil]
      rfl
  | node left right ihLeft ihRight =>
      rw [asSchema, Schema.decode_pair_node, ihLeft, ihRight]
      rfl

/-- No other tree is read without an error. -/
theorem eq_of_decode_asSchema {definitions : Definitions} {expanding : List String} {t u : Tree}
    (h : (t.asSchema.decode definitions expanding u).failed = false) : u = t := by
  induction t generalizing expanding u with
  | nil =>
      rw [decode_asSchema_nil, BuiltIn.decode] at h
      split at h
      · next hNil => exact hNil
      · cases h
  | node left right ihLeft ihRight =>
      cases u with
      | nil =>
          rw [asSchema, Schema.decode_pair_nil] at h
          cases h
      | node l r =>
          rw [asSchema, Schema.decode_pair_node] at h
          obtain ⟨hLeft, hRight⟩ := Bool.or_eq_false_iff.mp h
          rw [ihLeft hLeft, ihRight hRight]

/-- A written tree of at most 256 pairs above each other is a description of that tree
alone, and by it the tree is read as it stands. A higher tree is nested too deep. -/
theorem ofText_text_describes_self (t : Tree) :
    (t.height ≤ 256 → ∃ s, Schema.ofText (text t) = .ok s ∧ ∀ definitions u,
      ((s.read definitions u).failed = false ↔ u = t) ∧
      ((s.read definitions u).failed = false → (s.read definitions u).reading = .ofTree t)) ∧
    (256 < t.height → ∃ span,
      Schema.ofText (text t) = .error (Description.Progress.tooDeep span) ∧
      (Description.Progress.tooDeep span).message = "Type nesting too deep") := by
  obtain ⟨hReads, hStops⟩ := Schema.ofText_text_of_writable t.writable_asSchema
  rw [text_asSchema, t.fits_asSchema 0 (Nat.zero_le _), Nat.zero_add] at hReads hStops
  constructor
  · intro hHeight
    refine ⟨t.asSchema, hReads hHeight, fun definitions u => ?_⟩
    have hOnly (h : (t.asSchema.read definitions u).failed = false) : u = t :=
      eq_of_decode_asSchema h
    refine ⟨⟨hOnly, ?_⟩, fun h => ?_⟩
    · rintro rfl
      rw [Schema.read, decode_asSchema_self]
      rfl
    · rw [hOnly h, Schema.read, decode_asSchema_self]
      rfl
  · intro hHeight
    obtain ⟨span, hError⟩ := hStops (Nat.not_le_of_lt hHeight)
    exact ⟨span, hError, rfl⟩

/-- A tree that leans to the left. -/
def leaning (n : Nat) : Tree :=
  n.repeat (node · nil) nil

theorem height_leaning (n : Nat) : (leaning n).height = n := by
  induction n with
  | zero => rfl
  | succ n ih =>
      change max (leaning n).height 0 + 1 = n + 1
      rw [ih, Nat.max_zero]

/-- At the limit and right beyond it. -/
theorem ofText_text_describes_self_leaning :
    ((leaning 256).height ≤ 256 ∧
      ∃ s, Schema.ofText (text (leaning 256)) = .ok s ∧ ∀ definitions u,
        ((s.read definitions u).failed = false ↔ u = leaning 256) ∧
        ((s.read definitions u).failed = false →
          (s.read definitions u).reading = .ofTree (leaning 256))) ∧
    256 < (leaning 257).height ∧
      ∃ span, Schema.ofText (text (leaning 257)) = .error (Description.Progress.tooDeep span) ∧
        (Description.Progress.tooDeep span).message = "Type nesting too deep" := by
  have hFits : (leaning 256).height ≤ 256 := Nat.le_of_eq (height_leaning 256)
  have hDeep : 256 < (leaning 257).height :=
    Nat.lt_of_lt_of_eq (by decide) (height_leaning 257).symm
  exact ⟨⟨hFits, (ofText_text_describes_self (leaning 256)).1 hFits⟩, hDeep,
    (ofText_text_describes_self (leaning 257)).2 hDeep⟩

end Tree

end TreeSchema

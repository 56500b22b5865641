import TreeSchema.Proofs.Token.Spelling
import TreeSchema.Reading.Path

/-! Paths as they are written. No step is written as the beginning of another, not even an
index with more digits, so one written path begins another exactly if the path does. -/
namespace TreeSchema

namespace Step

theorem toList_text_item (index : Nat) :
    (item index).text.toList = '[' :: (index.repr.toList ++ [']']) := by
  simp [text, toString]

theorem toList_text_ne_nil (step : Step) : step.text.toList ≠ [] := by
  cases step with
  | left => decide
  | right => decide
  | item index =>
      rw [toList_text_item]
      exact List.cons_ne_nil _ _

/-- The digits of an index end at its bracket, so they are all in common. -/
theorem item_isPrefix_iff {index other : Nat} {cs ds : List Char} :
    (item index).text.toList ++ cs <+: (item other).text.toList ++ ds ↔
      index = other ∧ cs <+: ds := by
  constructor
  · rintro ⟨rest, hRest⟩
    have hRun (n : Nat) (after : List Char) :
        (n.repr.toList ++ ']' :: after).takeWhile Char.isDigit = n.repr.toList ∧
          (n.repr.toList ++ ']' :: after).dropWhile Char.isDigit = ']' :: after :=
      takeWhile_run (fun c hMember => isDigit_of_mem_repr hMember) (by simp)
    simp only [toList_text_item, List.cons_append, List.append_assoc, List.nil_append,
      List.cons.injEq, true_and] at hRest
    have hTake := congrArg (List.takeWhile Char.isDigit) hRest
    have hDrop := congrArg (List.dropWhile Char.isDigit) hRest
    rw [(hRun ..).1, (hRun ..).1, Nat.toList_repr, Nat.toList_repr] at hTake
    rw [(hRun ..).2, (hRun ..).2] at hDrop
    have hIndex := congrArg (Nat.ofDigitChars 10 · 0) hTake
    simp only [Nat.ofDigitChars_ten_toDigits] at hIndex
    exact ⟨hIndex, rest, (List.cons.inj hDrop).2⟩
  · rintro ⟨rfl, hRest⟩
    exact (List.prefix_append_right_inj _).mpr hRest

theorem isPrefix_iff {step other : Step} {cs ds : List Char} :
    step.text.toList ++ cs <+: other.text.toList ++ ds ↔ step = other ∧ cs <+: ds := by
  cases step <;> cases other
  case item.item => rw [item_isPrefix_iff, item.injEq]
  all_goals simp [text, toString]

end Step

namespace Path

theorem toList_text (path : Path) :
    path.text.toList = '$' :: path.flatMap (·.text.toList) := by
  have hFrom (written : String) : (path.foldl (fun written step => written ++ step.text)
      written).toList = written.toList ++ path.flatMap (·.text.toList) := by
    induction path generalizing written with
    | nil => simp
    | cons step path ih => simp [ih]
  exact hFrom "$"

/-- One written path begins another exactly if its steps are the first of the other. -/
theorem text_isPrefix_iff {path other : Path} :
    path.text.toList <+: other.text.toList ↔ path <+: other := by
  rw [toList_text, toList_text, List.cons_prefix_cons, eq_self_iff_true, true_and]
  induction path generalizing other with
  | nil => simp
  | cons step path ih =>
      cases other with
      | nil => simp [step.toList_text_ne_nil]
      | cons first others =>
          rw [List.flatMap_cons, List.flatMap_cons, Step.isPrefix_iff, List.cons_prefix_cons, ih]

/-- A path as it is written with `root` in the place of `$`. -/
def textFrom (root : String) (path : Path) : String :=
  path.foldl (fun written step => written ++ step.text) root

theorem text_append (above below : Path) :
    text (above ++ below) = below.textFrom above.text := by
  rw [text, List.foldl_append]
  rfl

end Path

namespace NodeError

/-- An error as it is reported: where, and what is wrong. -/
def reported (e : NodeError) : String × String :=
  (e.path.text, e.message)

/-- The same error, seen from the end of a path above. -/
def under (above : Path) (e : NodeError) : NodeError :=
  { e with path := above ++ e.path }

theorem under_below (above : Path) (step : Step) (e : NodeError) :
    (e.below step).under above = e.under (above ++ [step]) := by
  rw [under, below, under, List.append_assoc]
  rfl

theorem map_under_map_below (above : Path) (step : Step) (errors : List NodeError) :
    (errors.map (below step)).map (under above) = errors.map (under (above ++ [step])) := by
  rw [List.map_map]
  exact List.map_congr_left fun e _ => e.under_below above step

theorem map_under_nil (errors : List NodeError) : errors.map (under []) = errors :=
  List.map_id errors

theorem under_mk_nil (above : Path) (m : Mismatch) : (mk [] m).under above = ⟨above, m⟩ := by
  rw [under, List.append_nil]

theorem reported_under (above : Path) (e : NodeError) :
    (e.under above).reported = (e.path.textFrom above.text, e.message) := by
  rw [reported, under, Path.text_append]
  rfl

end NodeError

end TreeSchema

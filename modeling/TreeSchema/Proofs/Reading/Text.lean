import TreeSchema.Proofs.Text.Trim
import TreeSchema.Proofs.Token.Spelling
import TreeSchema.Reading.Text

/-! The written form of a reading, by the structure of the reading. It neither begins nor
ends with a blank. -/
namespace TreeSchema

open Text

namespace Reading

mutual

/-- The characters that a reading is written with. -/
def spelled : Reading → List Char
  | value v _ => v.text.toList
  | pair left right _ => '<' :: (left.spelled ++ '.' :: right.spelled ++ ['>'])
  | list [] _ => ['[', ']']
  | list (first :: others) _ => '[' :: (first.spelled ++ spelledRest others ++ [']'])

/-- The characters of further items, each with a comma before it. -/
def spelledRest : List Reading → List Char
  | [] => []
  | item :: others => ',' :: item.spelled ++ spelledRest others

end

mutual

theorem toList_writeOnto (written : String) : (r : Reading) →
    (writeOnto written r).toList = written.toList ++ r.spelled
  | value v _ => String.toList_append
  | pair left right _ => by
      simp only [writeOnto, spelled, String.toList_push, toList_writeOnto _ left,
        toList_writeOnto _ right, List.append_assoc, List.cons_append, List.nil_append]
  | list [] _ => String.toList_append
  | list (first :: others) _ => by
      simp only [writeOnto, spelled, String.toList_push, toList_writeRest _ others,
        toList_writeOnto _ first, List.append_assoc, List.cons_append, List.nil_append]

theorem toList_writeRest (written : String) : (items : List Reading) →
    (writeRest written items).toList = written.toList ++ spelledRest items
  | [] => (List.append_nil _).symm
  | item :: others => by
      simp only [writeRest, spelledRest, String.toList_push, toList_writeRest _ others,
        toList_writeOnto _ item, List.append_assoc, List.cons_append, List.nil_append]

end

theorem toList_text (r : Reading) : r.text.toList = r.spelled := by
  rw [text, toList_writeOnto, String.toList_empty, List.nil_append]

end Reading

theorem Value.isNameChar_of_mem {v : Value} {c : Char} (h : c ∈ v.text.toList) :
    isNameChar c = true := by
  cases v with
  | nil => exact List.all_eq_true.mp (by decide : "nil".toList.all isNameChar = true) c h
  | number n => exact isNameChar_of_isDigit (isDigit_of_mem_repr h)
  | boolean b =>
      cases b with
      | false => exact List.all_eq_true.mp (by decide : "false".toList.all isNameChar = true) c h
      | true => exact List.all_eq_true.mp (by decide : "true".toList.all isNameChar = true) c h

namespace Reading

theorem bare_spelled (r : Reading) : Bare isBlank r.spelled := by
  cases r with
  | value v remarks =>
      exact bare_of_forall fun c hMember => isBlank_of_isNameChar (Value.isNameChar_of_mem hMember)
  | pair left right remarks => exact bare_of_ends (by decide) (by decide)
  | list items remarks =>
      cases items with
      | nil => exact @bare_of_ends _ _ [] '[' ']' (by decide) (by decide)
      | cons first others => exact bare_of_ends (by decide) (by decide)

/-- A reading on a line of its own can be taken out of the line. -/
theorem trimmed_line (r : Reading) : trimmed (r.text ++ "\n") = r.text := by
  have hWraps : Wraps isBlank r.text.toList (r.text ++ "\n").toList :=
    ⟨[], ['\n'], List.forall_mem_nil _, List.forall_mem_singleton.mpr rfl, String.toList_append⟩
  have hBare : Bare isBlank r.text.toList := by
    rw [toList_text]
    exact r.bare_spelled
  rw [trimmed, trim, hBare.trimBy_of_wraps hWraps, String.ofList_toList]

end Reading

end TreeSchema

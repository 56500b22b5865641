import Mathlib.Data.List.TakeDrop
import TreeSchema.Proofs.Matching.Relevance
import TreeSchema.Proofs.Schema.Rereading
import TreeSchema.Proofs.Text.Trim
import TreeSchema.Proofs.Token.Spacing
import TreeSchema.Proofs.Token.Tiling

/-! Definitions that are given in one piece. What is in front of the first `=` is taken for a
name if it is a run of name characters. That lets in all names that the scanner knows, but
also runs that start with a digit, which no description can refer to. -/
namespace TreeSchema

open Text

/-- What is taken for a name consists of name characters. -/
theorem name_of_parseInline {text name description : String}
    (h : parseInline text = .ok (name, description)) :
    name.toList ≠ [] ∧ ∀ c ∈ name.toList, isNameChar c = true := by
  unfold parseInline at h
  split at h
  · cases h
  · dsimp only at h
    split at h
    · next hName =>
        cases h
        simpa using hName
    · cases h

/-- Name characters are neither blank nor an `=`, so a run of them is taken as it stands. -/
theorem parseInline_of_name {name : String} (hNonempty : name.toList ≠ [])
    (hChars : ∀ c ∈ name.toList, isNameChar c = true) (description : String) :
    parseInline (name ++ "=" ++ description) = .ok (name, trimmed description) := by
  have hText : (name ++ "=" ++ description).toList =
      name.toList ++ '=' :: description.toList := by simp
  obtain ⟨hBefore, hAfter⟩ : (name.toList ++ '=' :: description.toList).takeWhile (· != '=') =
        name.toList ∧
      (name.toList ++ '=' :: description.toList).dropWhile (· != '=') =
        '=' :: description.toList := by
    refine takeWhile_run (fun c hMember => ?_) (by simp)
    rw [bne_iff_ne]
    rintro rfl
    exact absurd (hChars '=' hMember) (by decide)
  have hBare : Bare isBlank name.toList :=
    bare_of_forall fun c hMember => isBlank_of_isNameChar (hChars c hMember)
  have hTrim : trim name.toList = name.toList := hBare.trimBy_eq
  have hAll : name.toList.all isNameChar = true := List.all_eq_true.mpr hChars
  simp only [parseInline, hText, List.span_eq_takeWhile_dropWhile, hBefore, hAfter, hTrim, hAll]
  rw [if_pos (by simpa using hNonempty), String.ofList_toList]
  rfl

/-- All names in a schema that can be written are known to the scanner. -/
theorem Alternative.Uses.isName {a : Alternative} {name : String} (h : a.Uses name)
    (hProper : a.ProperName) (hWritable : a.Everywhere WritableChoice) : IsName name := by
  induction h with
  | name name => exact hProper
  | member member uses ih =>
      exact ih (hWritable.1.names _ member) (Alternative.allEverywhere_iff.mp hWritable.2 _ member)
  | item uses ih => exact ih trivial hWritable
  | left uses ih => exact ih trivial hWritable.1
  | right uses ih => exact ih trivial hWritable.2

/-- A description only refers to names that the scanner knows. -/
theorem isName_of_uses {description name : String} {s : Schema}
    (hRead : Schema.ofText description = .ok s) (hUses : (Alternative.schema s).Uses name) :
    IsName name := by
  obtain ⟨ls, hNames, hDerived⟩ := Description.exists_derives_of_ofText hRead
  have hWritable : s.Writable := hDerived.writable hNames s List.mem_cons_self
  exact hUses.isName trivial hWritable

/-- A single identifier that takes up a whole text is that text. -/
theorem isName_of_tokens {name other : String}
    (h : tokens name = .ok [⟨.identifier other, .ofSize 0 name.utf8ByteSize⟩]) : IsName name := by
  have hTiling := (tokensFrom_eq_ok_iff 0 name.toList _).mp h
  obtain ⟨before, slice, after, hText, hSpan, ⟨rfl, hName⟩, -⟩ :=
    hTiling.spelled _ List.mem_cons_self
  have hSize := congrArg textSize hText
  rw [textSize_append, textSize_append, textSize_toList] at hSize
  -- the token is as long as the text, so nothing is in front of it or behind it
  obtain ⟨hStart, hStop⟩ := Span.mk.inj hSpan
  obtain rfl : before = [] := textSize_eq_zero_iff.mp (by omega)
  obtain rfl : after = [] := textSize_eq_zero_iff.mp (by omega)
  rw [List.nil_append, List.append_nil] at hText
  rw [String.toList_injective hText]
  exact hName

/-- A name that a definition is given under can be referred to if it starts with no digit, and
is then a description of itself. No description refers to it otherwise. Every name that the
scanner knows can be given a definition under, and any text stands behind the `=`. -/
theorem parseInline_names (name : String) :
    (∀ text description, parseInline text = .ok (name, description) →
      ((∀ c ∈ name.toList.head?, c.isDigit = false) ↔ Schema.ofText name = .ok (.named name)) ∧
      ((∀ c ∈ name.toList.head?, c.isDigit = false) ↔
        ∃ type s, Schema.ofText type = .ok s ∧ (Alternative.schema s).Uses name)) ∧
    ∀ other description,
      tokens name = .ok [⟨.identifier other, .ofSize 0 name.utf8ByteSize⟩] →
        parseInline (name ++ "=" ++ description) = .ok (name, trimmed description) := by
  have hSelf : (Alternative.schema (.named name)).Uses name :=
    .member List.mem_cons_self (.name name)
  constructor
  · intro text description hTaken
    obtain ⟨hNonempty, hChars⟩ := name_of_parseInline hTaken
    have hRead (hStart : ∀ c ∈ name.toList.head?, c.isDigit = false) :
        Schema.ofText name = .ok (.named name) :=
      Schema.ofText_name ⟨hNonempty, hChars, hStart⟩
    constructor
    · exact ⟨hRead, fun h => (isName_of_uses h hSelf).start⟩
    · refine ⟨fun hStart => ⟨name, .named name, hRead hStart, hSelf⟩, ?_⟩
      rintro ⟨type, s, hType, hUses⟩
      exact (isName_of_uses hType hUses).start
  · intro other description hTokens
    have hName := isName_of_tokens hTokens
    exact parseInline_of_name hName.nonempty hName.chars description

/-- A description can refer to `_1`, and none can refer to `1a`. -/
theorem parseInline_names_digit :
    (parseInline "_1 = int " = .ok ("_1", "int") ∧ Schema.ofText "_1" = .ok (.named "_1")) ∧
    (parseInline "1a=int" = .ok ("1a", "int") ∧
      ¬ ∃ type s, Schema.ofText type = .ok s ∧ (Alternative.schema s).Uses "1a") ∧
    tokens "_1" = .ok [⟨.identifier "_1", .ofSize 0 "_1".utf8ByteSize⟩] ∧
      parseInline "_1= a=b " = .ok ("_1", "a=b") := by
  have hKnown : parseInline "_1 = int " = .ok ("_1", "int") := rfl
  have hUnknown : parseInline "1a=int" = .ok ("1a", "int") := rfl
  have hTokens : tokens "_1" = .ok [⟨.identifier "_1", .ofSize 0 "_1".utf8ByteSize⟩] := by
    have hName : IsName "_1" := by decide
    exact tokensFrom_written 0 [.identifier "_1"] ⟨hName, id, trivial⟩
  obtain ⟨hTaken, hGiven⟩ := parseInline_names "_1"
  have hStart : ¬ ∀ c ∈ "1a".toList.head?, c.isDigit = false :=
    fun h => absurd (h '1' rfl) (by decide)
  refine ⟨⟨hKnown, (hTaken _ _ hKnown).1.mp ?_⟩, ⟨hUnknown, ?_⟩, hTokens,
    hGiven "_1" " a=b " hTokens⟩
  · rintro c ⟨⟩
    decide
  · exact fun h => hStart (((parseInline_names "1a").1 _ _ hUnknown).2.mpr h)

/-- A definition of `1a` is taken, though `1a` is no description of that name. -/
theorem parseInline_digit_first :
    parseInline "1a=int" = .ok ("1a", "int") ∧ Schema.ofText "1a" ≠ .ok (.named "1a") := by
  refine ⟨rfl, fun hRead => ?_⟩
  have hName : IsName "1a" := isName_of_uses hRead (.member List.mem_cons_self (.name "1a"))
  exact absurd hName (by decide)

end TreeSchema

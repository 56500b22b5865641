import TreeSchema.Span

/-! Spans that lie in a text. A part of a text has such a span, wherever the text is cut. -/
namespace TreeSchema

theorem utf8ByteSize_ofList (cs : List Char) : (String.ofList cs).utf8ByteSize = textSize cs := by
  induction cs with
  | nil => rfl
  | cons c cs ih =>
      have hSplit : String.ofList (c :: cs) = String.singleton c ++ String.ofList cs := by
        rw [String.singleton_eq_ofList, ← String.ofList_append]
        rfl
      rw [hSplit, String.utf8ByteSize_append, String.utf8ByteSize_singleton, ih, textSize_cons]

theorem isValid_textSize (before after : List Char) :
    (⟨textSize before⟩ : String.Pos.Raw).IsValid (String.ofList (before ++ after)) := by
  rw [String.Pos.Raw.isValid_iff_exists_append]
  refine ⟨String.ofList before, String.ofList after, String.ofList_append, ?_⟩
  rw [String.Pos.Raw.ext_iff, String.byteIdx_rawEndPos, utf8ByteSize_ofList]

/-- Whether a span is that of a part of a text. Both its ends stand between two
characters, or at an end of the text. -/
structure Span.LiesIn (span : Span) (text : String) : Prop where
  ordered : span.start ≤ span.stop
  within : span.stop ≤ text.utf8ByteSize
  start_valid : (⟨span.start⟩ : String.Pos.Raw).IsValid text
  stop_valid : (⟨span.stop⟩ : String.Pos.Raw).IsValid text

theorem Span.liesIn_ofSize {text : String} {before inside after : List Char}
    (h : text.toList = before ++ (inside ++ after)) :
    (Span.ofSize (textSize before) (textSize inside)).LiesIn text := by
  rw [← String.ofList_toList (s := text), h]
  constructor
  · exact Nat.le_add_right _ _
  · rw [utf8ByteSize_ofList, textSize_append, textSize_append]
    change textSize before + textSize inside ≤ _
    omega
  · exact isValid_textSize before _
  · have hStop := isValid_textSize (before ++ inside) after
    rw [textSize_append, List.append_assoc] at hStop
    exact hStop

/-- Where a span in a text ends, an empty one lies in the text too. -/
theorem Span.LiesIn.empty_stop {span : Span} {text : String} (h : span.LiesIn text) :
    (Span.empty span.stop).LiesIn text :=
  ⟨Nat.le_refl _, h.within, h.stop_valid, h.stop_valid⟩

end TreeSchema

import TreeSchema.Proofs.Schema.FirstError
import TreeSchema.Proofs.Span
import TreeSchema.Proofs.Token.Tiling

/-! Where errors in descriptions stand. An error of the scanner stands at the character it
names. An error of the reader stands at a token, or at the end of the last one: for a list
suffix that is nested too deep the reader keeps the span of its opening bracket. So all
errors lie in the text. -/
namespace TreeSchema

namespace Description

open Progress

/-- Whether a span is that of one of some tokens, or is empty and ends the last. -/
def StandsAt (ts : List Token) (span : Span) : Prop :=
  (∃ t ∈ ts, span = t.span) ∨ ∃ last, ts.getLast? = some last ∧ span = .empty last.span.stop

/-- Whether a list suffix has been opened, by a bracket with this span. -/
def Place.IsOpenedAt (opened : Span) : Place → Prop
  | .suffix _ _ _ span => span = opened
  | _ => False

variable {p p' : Progress} {t : Token} {ts : List Token} {e : SyntaxError} {opened : Span}

theorem not_isOpenedAt_of_stepAtom {levels : List Level} {earlier : List Alternative}
    (h : stepAtom levels earlier t = .ok p') : ¬ p'.place.IsOpenedAt opened := by
  unfold stepAtom enter at h
  repeat' split at h
  all_goals cases h
  all_goals exact id

theorem not_isOpenedAt_of_stepItem {levels : List Level} {before : List Schema}
    {outer : List Alternative} (h : stepItem levels before outer t = .ok p') :
    ¬ p'.place.IsOpenedAt opened := by
  unfold stepItem at h
  split at h
  · cases h
    exact id
  · cases h
    exact id
  · split at h
    · cases h
    · exact not_isOpenedAt_of_stepAtom h

theorem not_isOpenedAt_of_stepBracket {level : Level} {levels : List Level} {inside : Schema}
    {s : Symbol} (h : stepBracket level levels inside s = some p') :
    ¬ p'.place.IsOpenedAt opened := by
  unfold stepBracket at h
  repeat' split at h
  all_goals cases h
  all_goals exact id

/-- Only an opening bracket leads to the inside of a suffix, and its span is kept. -/
theorem eq_span_of_step (h : p.step t = .ok p') (hOpened : p'.place.IsOpenedAt opened) :
    opened = t.span := by
  unfold step at h
  split at h
  · exact absurd hOpened (not_isOpenedAt_of_stepAtom h)
  · exact absurd hOpened (not_isOpenedAt_of_stepItem h)
  · cases h
    exact hOpened.elim
  · split at h
    · cases h
    · cases h
      exact hOpened.elim
  · cases h
    exact hOpened.symm
  · cases h
    exact hOpened.elim
  · split at h
    · next level outer _ =>
        cases hNext : stepBracket level outer _ _ with
        | none =>
            rw [hNext] at h
            cases h
        | some next =>
            rw [hNext] at h
            cases h
            exact absurd hOpened (not_isOpenedAt_of_stepBracket hNext)
    · cases h
  · cases h

theorem exists_eq_span_of_foldlM (h : ts.foldlM step .start = .ok p)
    (hOpened : p.place.IsOpenedAt opened) : ∃ t ∈ ts, opened = t.span := by
  have hStart : ∀ opened, Progress.start.place.IsOpenedAt opened →
      ∃ t ∈ ([] : List Token), opened = t.span := fun _ hNone => hNone.elim
  have hRun := invariant_of_foldlM
    (p := fun p taken => ∀ opened, p.place.IsOpenedAt opened → ∃ t ∈ taken, opened = t.span)
    (fun _ _ t _ _ hStep opened hPlace =>
      ⟨t, List.mem_append_right _ List.mem_cons_self, eq_span_of_step hStep hPlace⟩) hStart h
  exact hRun opened hOpened

/-- An error of the reader stands at a token or at the end, and is none of the scanner. -/
theorem standsAt_of_read_error (h : read ts = .error e) :
    StandsAt ts e.span ∧ ∀ found, e.cause ≠ .stray found := by
  have hNonempty : ts ≠ [] := by
    rintro rfl
    cases h
  rw [read_eq_foldlM hNonempty] at h
  rcases bind_eq_error_iff.mp h with hRun | ⟨p, hRun, hFinish⟩
  · obtain ⟨before, t, after, p, rfl, hBefore, hStop⟩ := exists_step_of_foldlM_error hRun
    have hMember : t ∈ before ++ t :: after := List.mem_append_right _ List.mem_cons_self
    rcases step_eq_error_at hStop with rfl | rfl | ⟨earlier, core, suffixes, opened, hPlace, rfl⟩
    · exact ⟨.inl ⟨t, hMember, rfl⟩, fun found hStray => by cases hStray⟩
    · exact ⟨.inl ⟨t, hMember, rfl⟩, fun found hStray => by cases hStray⟩
    · have hOpened : p.place.IsOpenedAt opened := by
        rw [hPlace]
        rfl
      obtain ⟨u, hTaken, hSpan⟩ := exists_eq_span_of_foldlM hBefore hOpened
      exact ⟨.inl ⟨u, List.mem_append_left _ hTaken, hSpan⟩, fun found hStray => by cases hStray⟩
  · obtain ⟨last, hLast⟩ := Option.isSome_iff_exists.mp (List.getLast?_isSome.mpr hNonempty)
    have hEnd : endOf ts = last.span.stop := by
      rw [endOf, hLast]
      rfl
    rw [hEnd] at hFinish
    rcases finish_eq_error_at hFinish with rfl | rfl
    · exact ⟨.inr ⟨last, hLast, rfl⟩, fun found hStray => by cases hStray⟩
    · exact ⟨.inr ⟨last, hLast, rfl⟩, fun found hStray => by cases hStray⟩

end Description

theorem Token.SpelledIn.liesIn {text : String} {t : Token} (h : t.SpelledIn 0 text.toList) :
    t.span.LiesIn text := by
  obtain ⟨before, slice, after, hText, hSpan, -⟩ := h
  rw [hSpan, Nat.zero_add]
  exact Span.liesIn_ofSize hText

/-- Tokens lie in the text from which they are taken. -/
theorem liesIn_of_tokens {text : String} {ts : List Token} (h : tokens text = .ok ts) {t : Token}
    (hMember : t ∈ ts) : t.span.LiesIn text :=
  (((tokensFrom_eq_ok_iff 0 text.toList ts).mp h).spelled t hMember).liesIn

theorem Description.StandsAt.liesIn {text : String} {ts : List Token} {span : Span}
    (h : StandsAt ts span) (hTokens : tokens text = .ok ts) : span.LiesIn text := by
  rcases h with ⟨t, hMember, rfl⟩ | ⟨last, hLast, rfl⟩
  · exact liesIn_of_tokens hTokens hMember
  · exact (liesIn_of_tokens hTokens (List.mem_of_getLast? hLast)).empty_stop

/-- Whether an error stands where its cause is in a text: at the character that it names,
or else at a token of the text or at the end of the last one. -/
def SyntaxError.IsPlacedIn (e : SyntaxError) (text : String) : Prop :=
  match e.cause with
  | .stray found => ∃ before after, text.toList = before ++ found :: after ∧
      e.span = .ofSize (textSize before) found.utf8Size
  | _ => ∃ ts, tokens text = .ok ts ∧ Description.StandsAt ts e.span

namespace SyntaxError.IsPlacedIn

variable {text : String} {e : SyntaxError}

theorem inSource (h : e.IsPlacedIn text) (source : Nat) : (e.inSource source).IsPlacedIn text := h

theorem liesIn (h : e.IsPlacedIn text) : e.span.LiesIn text := by
  unfold IsPlacedIn at h
  split at h
  · next found hCause =>
      obtain ⟨before, after, hText, hSpan⟩ := h
      rw [hSpan, show found.utf8Size = textSize [found] from rfl]
      exact Span.liesIn_ofSize hText
  · obtain ⟨ts, hTokens, hPlace⟩ := h
    exact hPlace.liesIn hTokens

end SyntaxError.IsPlacedIn

theorem isPlacedIn_of_ofText {text : String} {e : SyntaxError}
    (h : Schema.ofText text = .error e) : e.IsPlacedIn text := by
  rcases bind_eq_error_iff.mp h with hScan | ⟨ts, hTokens, hRead⟩
  · obtain ⟨before, found, after, -, notes, hText, rfl, -⟩ :=
      exists_tiling_of_tokensFrom_error hScan
    refine ⟨before, after, hText, ?_⟩
    rw [Nat.zero_add]
    rfl
  · obtain ⟨hPlace, hCause⟩ := Description.standsAt_of_read_error hRead
    unfold SyntaxError.IsPlacedIn
    split
    · next found hStray => exact absurd hStray (hCause found)
    · exact ⟨ts, hTokens, hPlace⟩

end TreeSchema

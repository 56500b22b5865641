import TreeSchema.Case.Verdict
import TreeSchema.Proofs.Except

/-! What makes a case hold: that all it demands of the descriptions, or else of the reading of
its tree, is met. Where something is not met the case fails, and the first such thing is the
reason. -/
namespace TreeSchema

namespace Case

/-- Whether nothing is found wrong with a case. -/
def Holds (c : Case) : Prop :=
  c.verdict = .ok ()

/-- Whether the reading of the tree of a case is as the case demands. -/
structure MetBy (c : Case) (outcome : Outcome) : Prop where
  output : ∀ expected ∈ c.expectOutput, outcome.reading.text = Text.trimmed expected
  flag : ∀ expected ∈ c.expectError, outcome.failed = expected
  /-- A case that says nothing of mismatches has none. -/
  fits : c.expectError = none → c.expectMessages = [] → outcome.failed = false
  messages : ∀ expected ∈ c.expectMessages, ∃ e ∈ outcome.reading.errors, e.message = expected

/-- Whether all is as a case demands: that something is wrong with the descriptions, or that
everything can be read and the reading is as demanded. -/
def IsMet (c : Case) : Prop :=
  if c.expectSyntaxError = true then ∃ errors, compile c.type c.definitions = .error errors
  else ∃ compiled t, compile c.type c.definitions = .ok compiled ∧ Tree.ofText c.tree = .ok t ∧
    c.MetBy (compiled.schema.read compiled.definitions t)

section

variable {c : Case} {r : Reading} {failed : Bool} {errors : List NodeError}

/-! The three checks of a reading. -/

theorem checkOutput_eq_ok_iff :
    c.checkOutput r = .ok () ↔ ∀ expected ∈ c.expectOutput, r.text = Text.trimmed expected := by
  rw [checkOutput]
  cases c.expectOutput with
  | none => simp
  | some expected => simp

theorem checkFlag_eq_ok_iff :
    c.checkFlag failed errors = .ok () ↔
      (∀ expected ∈ c.expectError, failed = expected) ∧
        (c.expectError = none → c.expectMessages = [] → failed = false) := by
  rw [checkFlag]
  cases c.expectError with
  | none => cases failed <;> simp
  | some expected => simp [eq_comm]

/-- The messages up to the first one that is missing are there. -/
theorem checkMessages_of_missing {before after : List String} {missing : String}
    (hExpected : c.expectMessages = before ++ missing :: after)
    (hBefore : ∀ expected ∈ before, ∃ e ∈ errors, e.message = expected)
    (hMissing : ∀ e ∈ errors, e.message ≠ missing) :
    c.checkMessages errors = .error (.noMessage missing errors) := by
  have hNone : before.find? (fun expected => !errors.any (·.message = expected)) = none := by
    simpa using hBefore
  have hFirst : (missing :: after).find? (fun expected => !errors.any (·.message = expected)) =
      some missing := List.find?_cons_of_pos (by simpa using hMissing)
  rw [checkMessages, hExpected, List.find?_append, hNone, Option.none_or, hFirst]

theorem checkMessages_eq_ok_iff :
    c.checkMessages errors = .ok () ↔
      ∀ expected ∈ c.expectMessages, ∃ e ∈ errors, e.message = expected := by
  rw [checkMessages]
  split
  · next hNone => simpa using hNone
  · next missing hFound =>
      have hMissing : ∀ e ∈ errors, e.message ≠ missing := by
        simpa using List.find?_some hFound
      constructor
      · intro hOk
        cases hOk
      · intro hAll
        obtain ⟨e, hError, rfl⟩ := hAll missing (List.mem_of_find?_eq_some hFound)
        exact absurd rfl (hMissing e hError)

end

variable {c : Case} {compiled : Compiled} {t : Tree}

theorem holds_iff_of_expectSyntaxError (h : c.expectSyntaxError = true) :
    c.Holds ↔ ∃ errors, compile c.type c.definitions = .error errors := by
  rw [Holds, verdict, h]
  cases compile c.type c.definitions with
  | error errors => exact ⟨fun _ => ⟨errors, rfl⟩, fun _ => rfl⟩
  | ok compiled =>
      constructor
      · intro hHolds
        cases hHolds
      · rintro ⟨errors, hErrors⟩
        cases hErrors

section

variable (hSyntax : c.expectSyntaxError = false)
  (hCompiles : compile c.type c.definitions = .ok compiled) (hWritten : Tree.ofText c.tree = .ok t)

include hSyntax hCompiles hWritten

/-- Where everything can be read, what is expected of the reading decides. -/
theorem verdict_of_read :
    let outcome := compiled.schema.read compiled.definitions t
    c.verdict = (do
      c.checkOutput outcome.reading
      c.checkFlag outcome.failed outcome.reading.errors
      c.checkMessages outcome.reading.errors) := by
  rw [verdict, hSyntax, hCompiles]
  simp only [hWritten]
  rfl

theorem holds_iff_metBy :
    c.Holds ↔ c.MetBy (compiled.schema.read compiled.definitions t) := by
  rw [Holds, verdict_of_read hSyntax hCompiles hWritten]
  constructor
  · intro hHolds
    obtain ⟨⟨⟩, hOutput, hRest⟩ := bind_eq_ok_iff.mp hHolds
    obtain ⟨⟨⟩, hFlag, hMessages⟩ := bind_eq_ok_iff.mp hRest
    obtain ⟨hFlag, hFits⟩ := checkFlag_eq_ok_iff.mp hFlag
    exact ⟨checkOutput_eq_ok_iff.mp hOutput, hFlag, hFits, checkMessages_eq_ok_iff.mp hMessages⟩
  · rintro ⟨hOutput, hFlag, hFits, hMessages⟩
    rw [checkOutput_eq_ok_iff.mpr hOutput, checkFlag_eq_ok_iff.mpr ⟨hFlag, hFits⟩]
    exact checkMessages_eq_ok_iff.mpr hMessages

/-- Another output than the one that is expected makes a case fail, whatever else it expects. -/
theorem verdict_of_otherOutput {expected : String} (hExpected : c.expectOutput = some expected)
    (hOther : (compiled.schema.read compiled.definitions t).reading.text ≠
      Text.trimmed expected) :
    c.verdict = .error (.otherOutput (Text.trimmed expected)
      (compiled.schema.read compiled.definitions t).reading.text) := by
  rw [verdict_of_read hSyntax hCompiles hWritten, checkOutput, hExpected, Option.map_some]
  simp only [if_neg hOther]
  rfl

/-- So does a message that is missing, if the output and the flag are as expected. -/
theorem verdict_of_missing {before after : List String} {missing : String}
    (hOutput : c.checkOutput (compiled.schema.read compiled.definitions t).reading = .ok ())
    (hFlag : c.checkFlag (compiled.schema.read compiled.definitions t).failed
      (compiled.schema.read compiled.definitions t).reading.errors = .ok ())
    (hExpected : c.expectMessages = before ++ missing :: after)
    (hBefore : ∀ expected ∈ before,
      ∃ e ∈ (compiled.schema.read compiled.definitions t).reading.errors, e.message = expected)
    (hMissing : ∀ e ∈ (compiled.schema.read compiled.definitions t).reading.errors,
      e.message ≠ missing) :
    c.verdict = .error (.noMessage missing
      (compiled.schema.read compiled.definitions t).reading.errors) := by
  rw [verdict_of_read hSyntax hCompiles hWritten, hOutput, hFlag]
  exact checkMessages_of_missing hExpected hBefore hMissing

end

theorem holds_iff (hSyntax : c.expectSyntaxError = false) :
    c.Holds ↔ ∃ compiled t, compile c.type c.definitions = .ok compiled ∧
      Tree.ofText c.tree = .ok t ∧ c.MetBy (compiled.schema.read compiled.definitions t) := by
  constructor
  · intro hHolds
    cases hCompiles : compile c.type c.definitions with
    | error errors =>
        rw [Holds, verdict, hSyntax, hCompiles] at hHolds
        cases hHolds
    | ok compiled =>
        cases hWritten : Tree.ofText c.tree with
        | error error =>
            rw [Holds, verdict, hSyntax, hCompiles, hWritten] at hHolds
            cases hHolds
        | ok t =>
            exact ⟨compiled, t, rfl, rfl, (holds_iff_metBy hSyntax hCompiles hWritten).mp hHolds⟩
  · rintro ⟨compiled, t, hCompiles, hWritten, hMet⟩
    exact (holds_iff_metBy hSyntax hCompiles hWritten).mpr hMet

/-- A case holds exactly if all is as it demands. -/
theorem holds_iff_isMet : c.Holds ↔ c.IsMet := by
  rw [IsMet]
  split
  · next hSyntax => exact holds_iff_of_expectSyntaxError hSyntax
  · next hSyntax => exact holds_iff (Bool.eq_false_iff.mpr hSyntax)

end Case

end TreeSchema

import TreeSchema.Proofs.Matching.Recursion

/-! The reader as an iteration of one level, with a rule for names that can be
exchanged. A level makes calls through a parameter and returns nothing as soon as
one of them does not return. The fuel bounds the nesting of calls on schemas, so
readers that may run forever can be spoken of as well. -/
namespace TreeSchema

/-- What entering a name does to the names that are being expanded. A name for
which there is no result is refused as circular. -/
abbrev EntryRule := List String → String → Option (List String)

namespace EntryRule

/-- The rule of the reader: no name twice at a node. -/
def once : EntryRule := fun expanding name =>
  if name ∈ expanding then none else some (name :: expanding)

/-- Every name may be entered at any time, and nothing is remembered. -/
def free : EntryRule := fun _ _ => some []

end EntryRule

namespace Outcome

/-- The first outcome that fits, where an outcome is asked for only after those
before it have failed. -/
def firstFit? (run : Alternative → Option Outcome) : List Alternative → Option (Option Outcome)
  | [] => some none
  | first :: others =>
      match run first with
      | none => none
      | some outcome => if outcome.failed then firstFit? run others else some (some outcome)

/-- The outcome of a choice whose members may not return. -/
def choose? (t : Tree) (alternatives : List Alternative) (run : Alternative → Option Outcome) :
    Option Outcome :=
  match alternatives with
  | [only] => run only
  | _ => (firstFit? run alternatives).map (·.getD (.refuse t (.noneOf alternatives)))

end Outcome

/-- The calls by which a reader goes on. -/
abbrev Descent := List String → Schema → Tree → Option Outcome

/-- Read a tree by an alternative, with `descend` for the schemas below it. -/
def Alternative.decodeBy (rule : EntryRule) (definitions : Definitions) (descend : Descent)
    (expanding : List String) : Alternative → Tree → Option Outcome
  | .schema s, t => descend expanding s t
  | .atom (.number n), t => some (matchNumber (some n) t)
  | .atom (.named name), t =>
      match BuiltIn.ofName? name with
      | some builtIn => some (builtIn.decode t)
      | none =>
          match definitions.get? name with
          | none => some (.refuse t (.unknown name))
          | some s =>
              match rule expanding name with
              | none => some (.refuse t (.circular name))
              | some inside => (descend inside s t).map (·.viaName name)

/-- Read a tree by a schema, with `descend` for the schemas below it. -/
def Schema.decodeBy (rule : EntryRule) (definitions : Definitions) (descend : Descent)
    (expanding : List String) : Schema → Tree → Option Outcome
  | .choice alternatives, t =>
      Outcome.choose? t alternatives (·.decodeBy rule definitions descend expanding t)
  | .list item, t => (t.items.mapM (descend [] item)).map .ofItems
  | .pair _ _, .nil => some (.fails (.ofValue .nil) .notPair)
  | .pair left right, .node l r =>
      match descend [] left l, descend [] right r with
      | some outcomeLeft, some outcomeRight => some (.ofPair outcomeLeft outcomeRight)
      | _, _ => none

/-- Read a tree by a schema with at most `fuel` nested calls on schemas. -/
def Schema.decodeWithin (rule : EntryRule) (definitions : Definitions) : Nat → Descent
  | 0 => fun _ _ _ => none
  | fuel + 1 => fun expanding s t =>
      s.decodeBy rule definitions (decodeWithin rule definitions fuel) expanding t

/-! More calls that return do not change what was returned. -/

namespace Outcome

theorem firstFit?_mono {run more : Alternative → Option Outcome}
    (hMore : ∀ a o, run a = some o → more a = some o) {alternatives : List Alternative}
    {o : Option Outcome} (h : firstFit? run alternatives = some o) :
    firstFit? more alternatives = some o := by
  induction alternatives with
  | nil => exact h
  | cons first others ih =>
      unfold firstFit? at h ⊢
      cases hRun : run first with
      | none => simp [hRun] at h
      | some outcome =>
          rw [hMore first outcome hRun]
          simp only [hRun] at h ⊢
          split at h
          · next hFailed => rw [if_pos hFailed]; exact ih h
          · next hFits => rw [if_neg hFits]; exact h

theorem choose?_mono {run more : Alternative → Option Outcome}
    (hMore : ∀ a o, run a = some o → more a = some o) {t : Tree}
    {alternatives : List Alternative} {o : Outcome} (h : choose? t alternatives run = some o) :
    choose? t alternatives more = some o := by
  unfold choose? at h ⊢
  split at h
  · exact hMore _ _ h
  · obtain ⟨found, hFound, rfl⟩ := Option.map_eq_some_iff.mp h
    rw [firstFit?_mono hMore hFound]
    rfl

end Outcome

section

variable {rule : EntryRule} {definitions : Definitions} {descend more : Descent}

theorem Alternative.decodeBy_mono (hMore : ∀ e s t o, descend e s t = some o → more e s t = some o)
    {expanding : List String} {a : Alternative} {t : Tree} {o : Outcome}
    (h : a.decodeBy rule definitions descend expanding t = some o) :
    a.decodeBy rule definitions more expanding t = some o := by
  unfold Alternative.decodeBy at h ⊢
  split
  · exact hMore _ _ _ _ h
  · exact h
  · next name =>
      cases hName : BuiltIn.ofName? name with
      | some b => simpa [hName] using h
      | none =>
          simp only [hName] at h ⊢
          cases hFound : definitions.get? name with
          | none => simpa [hFound] using h
          | some s =>
              simp only [hFound] at h ⊢
              cases hRule : rule expanding name with
              | none => simpa [hRule] using h
              | some inside =>
                  simp only [hRule] at h ⊢
                  obtain ⟨inner, hInner, rfl⟩ := Option.map_eq_some_iff.mp h
                  rw [hMore _ _ _ _ hInner]
                  rfl

theorem mapM_mono {α β : Type} {run more : α → Option β}
    (hMore : ∀ a b, run a = some b → more a = some b) {as : List α} {bs : List β}
    (h : as.mapM run = some bs) : as.mapM more = some bs := by
  induction as generalizing bs with
  | nil => exact h
  | cons a as ih =>
      rw [List.mapM_cons] at h ⊢
      obtain ⟨b, hFirst, hOthers⟩ := Option.bind_eq_some_iff.mp h
      obtain ⟨rest, hRest, hAll⟩ := Option.bind_eq_some_iff.mp hOthers
      rw [hMore a b hFirst]
      rw [ih hRest]
      exact hAll

theorem Schema.decodeBy_mono (hMore : ∀ e s t o, descend e s t = some o → more e s t = some o)
    {expanding : List String} {s : Schema} {t : Tree} {o : Outcome}
    (h : s.decodeBy rule definitions descend expanding t = some o) :
    s.decodeBy rule definitions more expanding t = some o := by
  unfold Schema.decodeBy at h ⊢
  split
  · exact Outcome.choose?_mono (fun _ _ => Alternative.decodeBy_mono hMore) h
  · obtain ⟨items, hItems, rfl⟩ := Option.map_eq_some_iff.mp h
    rw [mapM_mono (hMore [] _) hItems]
    rfl
  · exact h
  · next left right l r =>
      cases hLeft : descend [] left l with
      | none => simp [hLeft] at h
      | some outcomeLeft =>
          cases hRight : descend [] right r with
          | none => simp [hRight] at h
          | some outcomeRight =>
              rw [hMore _ _ _ _ hLeft, hMore _ _ _ _ hRight]
              simpa [hLeft, hRight] using h

/-- A reader that returns also returns with more fuel, and the same. -/
theorem Schema.decodeWithin_mono {fuel enough : Nat} (hEnough : fuel ≤ enough)
    {expanding : List String} {s : Schema} {t : Tree} {o : Outcome}
    (h : s.decodeWithin rule definitions fuel expanding t = some o) :
    s.decodeWithin rule definitions enough expanding t = some o := by
  induction fuel generalizing enough expanding s t o with
  | zero => cases h
  | succ fuel ih =>
      cases enough with
      | zero => omega
      | succ enough =>
          exact Schema.decodeBy_mono (fun _ _ _ _ hReturns => ih (by omega) hReturns) h

end

end TreeSchema

/-! Computations that may fail: what an outcome says about the steps before it. -/
namespace TreeSchema

variable {ε α β σ τ : Type}

theorem bind_eq_ok_iff {x : Except ε α} {next : α → Except ε β} {b : β} :
    x >>= next = .ok b ↔ ∃ a, x = .ok a ∧ next a = .ok b := by
  cases x with
  | error e => simp [bind, Except.bind]
  | ok a => simp [bind, Except.bind]

theorem bind_eq_error_iff {x : Except ε α} {next : α → Except ε β} {e : ε} :
    x >>= next = .error e ↔ x = .error e ∨ ∃ a, x = .ok a ∧ next a = .error e := by
  cases x with
  | error e => simp [bind, Except.bind]
  | ok a => simp [bind, Except.bind]

theorem map_eq_ok_iff {x : Except ε α} {f : α → β} {b : β} :
    x.map f = .ok b ↔ ∃ a, x = .ok a ∧ f a = b := by
  cases x with
  | error e => simp [Except.map]
  | ok a => simp [Except.map]

theorem map_eq_error_iff {x : Except ε α} {f : α → β} {e : ε} :
    x.map f = .error e ↔ x = .error e := by
  cases x with
  | error e => simp [Except.map]
  | ok a => simp [Except.map]

theorem toOption_eq_some_iff {x : Except ε α} {a : α} :
    x.toOption = some a ↔ x = .ok a := by
  cases x with
  | error e => simp [Except.toOption]
  | ok b => simp [Except.toOption]

/-- A list of computations succeeds if each of them does, and with what each gives. -/
theorem mapM_eq_ok_iff {f : α → Except ε β} {as : List α} {bs : List β} :
    as.mapM f = .ok bs ↔ as.map f = bs.map .ok := by
  induction as generalizing bs with
  | nil =>
      cases bs with
      | nil => exact ⟨fun _ => rfl, fun _ => rfl⟩
      | cons b bs => constructor <;> intro h <;> cases h
  | cons a as ih =>
      rw [List.mapM_cons, List.map_cons]
      cases bs with
      | nil =>
          constructor
          · intro h
            obtain ⟨b, -, h⟩ := bind_eq_ok_iff.mp h
            obtain ⟨bs, -, h⟩ := bind_eq_ok_iff.mp h
            cases h
          · intro h
            cases h
      | cons b bs =>
          rw [List.map_cons, List.cons.injEq, ← ih]
          constructor
          · intro h
            obtain ⟨b', hFirst, h⟩ := bind_eq_ok_iff.mp h
            obtain ⟨bs', hOthers, h⟩ := bind_eq_ok_iff.mp h
            cases h
            exact ⟨hFirst, hOthers⟩
          · rintro ⟨hFirst, hOthers⟩
            rw [hFirst, hOthers]
            rfl

variable {step : σ → τ → Except ε σ} {s s' : σ} {ts : List τ}

/-- What each step keeps up about the state and what has been taken, a run keeps up. -/
theorem invariant_of_foldlM {p : σ → List τ → Prop}
    (hStep : ∀ s taken t s', p s taken → step s t = .ok s' → p s' (taken ++ [t]))
    {taken : List τ} (hBefore : p s taken) (h : ts.foldlM step s = .ok s') :
    p s' (taken ++ ts) := by
  induction ts generalizing s taken with
  | nil =>
      cases h
      simpa using hBefore
  | cons t ts ih =>
      rw [List.foldlM_cons] at h
      obtain ⟨next, hNext, hRest⟩ := bind_eq_ok_iff.mp h
      simpa using ih (hStep s taken t next hBefore hNext) hRest

/-- A run that fails takes some of a list and fails at the next. -/
theorem exists_step_of_foldlM_error {e : ε} (h : ts.foldlM step s = .error e) :
    ∃ before t after s', ts = before ++ t :: after ∧ before.foldlM step s = .ok s' ∧
      step s' t = .error e := by
  induction ts generalizing s with
  | nil => cases h
  | cons t ts ih =>
      rw [List.foldlM_cons] at h
      rcases bind_eq_error_iff.mp h with hStop | ⟨next, hNext, hRest⟩
      · exact ⟨[], t, ts, s, rfl, rfl, hStop⟩
      · obtain ⟨before, t', after, s', rfl, hRun, hStop⟩ := ih hRest
        refine ⟨t :: before, t', after, s', rfl, ?_, hStop⟩
        rw [List.foldlM_cons, hNext]
        exact hRun

end TreeSchema

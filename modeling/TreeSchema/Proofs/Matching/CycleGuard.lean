import TreeSchema.Proofs.Matching.Fuel

/-! The refusal of circular names is transparent. Without it, a run that comes to
a name for the second time at a node would have to finish that name in order to
finish it, and so never does. Where the run without the refusal returns, the
reader gives the same outcome and refuses no name on the way; where the reader
refuses a name, the run without the refusal never returns. -/
namespace TreeSchema

/-- The reader without the refusal of circular names, with bounded fuel. -/
def Schema.unguarded (definitions : Definitions) (fuel : Nat) (s : Schema) (t : Tree) :
    Option Outcome :=
  s.decodeWithin .free definitions fuel [] t

namespace Alternative

/-- The alternatives that are tried, up to the first that fits. -/
def tried (outcome : Alternative → Outcome) : List Alternative → List Alternative
  | [] => []
  | first :: others =>
      if (outcome first).failed then first :: tried outcome others else [first]

theorem mem_of_mem_tried {outcome : Alternative → Outcome} {alternatives : List Alternative}
    {a : Alternative} (h : a ∈ tried outcome alternatives) : a ∈ alternatives := by
  induction alternatives with
  | nil => exact h
  | cons first others ih =>
      unfold tried at h
      split at h
      · rcases List.mem_cons.mp h with rfl | hOthers
        · exact List.mem_cons_self
        · exact List.mem_cons_of_mem _ (ih hOthers)
      · rw [List.mem_singleton.mp h]
        exact List.mem_cons_self

/-- Whether a name is refused as circular while a tree is read, at this node or
below it, and also where the choice around it fits in the end. -/
inductive MeetsCircle (definitions : Definitions) :
    List String → Alternative → Tree → Prop where
  | circular {expanding : List String} {name : String} {s : Schema} {t : Tree}
      (other : BuiltIn.ofName? name = none) (found : definitions.get? name = some s)
      (pending : name ∈ expanding) : MeetsCircle definitions expanding (.atom (.named name)) t
  | defined {expanding : List String} {name : String} {s : Schema} {t : Tree}
      (other : BuiltIn.ofName? name = none) (found : definitions.get? name = some s)
      (fresh : name ∉ expanding)
      (meets : MeetsCircle definitions (name :: expanding) (.schema s) t) :
      MeetsCircle definitions expanding (.atom (.named name)) t
  | choice {expanding : List String} {alternatives : List Alternative} {a : Alternative}
      {t : Tree} (tried : a ∈ tried (·.decode definitions expanding t) alternatives)
      (meets : MeetsCircle definitions expanding a t) :
      MeetsCircle definitions expanding (.schema (.choice alternatives)) t
  | list {expanding : List String} {item : Schema} {t t' : Tree} (member : t' ∈ t.items)
      (meets : MeetsCircle definitions [] (.schema item) t') :
      MeetsCircle definitions expanding (.schema (.list item)) t
  | left {expanding : List String} {left right : Schema} {l r : Tree}
      (meets : MeetsCircle definitions [] (.schema left) l) :
      MeetsCircle definitions expanding (.schema (.pair left right)) (.node l r)
  | right {expanding : List String} {left right : Schema} {l r : Tree}
      (meets : MeetsCircle definitions [] (.schema right) r) :
      MeetsCircle definitions expanding (.schema (.pair left right)) (.node l r)

end Alternative

/-- Whether the reading of a tree refuses a name as circular anywhere. -/
def Schema.MeetsCircle (definitions : Definitions) (s : Schema) (t : Tree) : Prop :=
  (Alternative.schema s).MeetsCircle definitions [] t

namespace Outcome

variable {run : Alternative → Option Outcome} {outcome : Alternative → Outcome}

theorem firstFit?_eq_some {alternatives : List Alternative} {found : Option Outcome}
    (hSame : ∀ a ∈ alternatives, ∀ o, run a = some o → outcome a = o)
    (h : firstFit? run alternatives = some found) :
    (alternatives.map outcome).find? (!·.failed) = found ∧
      ∀ a ∈ Alternative.tried outcome alternatives, run a = some (outcome a) := by
  induction alternatives with
  | nil =>
      cases h
      exact ⟨rfl, by simp [Alternative.tried]⟩
  | cons first others ih =>
      rw [List.forall_mem_cons] at hSame
      obtain ⟨hFirst, hOthers⟩ := hSame
      unfold firstFit? at h
      cases hRun : run first with
      | none => simp [hRun] at h
      | some o =>
          have hOutcome := hFirst o hRun
          simp only [hRun] at h
          rw [List.map_cons, List.find?_cons, hOutcome, Alternative.tried, hOutcome]
          cases hFailed : o.failed with
          | false =>
              simp only [hFailed, Bool.false_eq_true, if_false, Option.some.injEq] at h
              simp [h, hRun, hOutcome]
          | true =>
              simp only [hFailed, if_true] at h
              obtain ⟨hFound, hTried⟩ := ih hOthers h
              simp only [if_true, Bool.not_true, List.forall_mem_cons]
              exact ⟨hFound, by rw [hRun, hOutcome], hTried⟩

theorem firstFit?_of_tried {alternatives : List Alternative}
    (h : ∀ a ∈ Alternative.tried outcome alternatives, run a = some (outcome a)) :
    firstFit? run alternatives = some ((alternatives.map outcome).find? (!·.failed)) := by
  induction alternatives with
  | nil => rfl
  | cons first others ih =>
      rw [Alternative.tried] at h
      rw [firstFit?, List.map_cons, List.find?_cons]
      cases hFailed : (outcome first).failed with
      | false =>
          simp only [hFailed, Bool.false_eq_true, if_false, List.mem_singleton, forall_eq] at h
          simp [h, hFailed]
      | true =>
          simp only [hFailed, if_true, List.forall_mem_cons] at h
          simp only [h.1, hFailed, if_true, Bool.not_true]
          exact ih h.2

theorem choose?_eq_some {t : Tree} {alternatives : List Alternative} {o : Outcome}
    (hSame : ∀ a ∈ alternatives, ∀ o, run a = some o → outcome a = o)
    (h : choose? t alternatives run = some o) :
    choose t alternatives outcome = o ∧
      ∀ a ∈ Alternative.tried outcome alternatives, run a = some (outcome a) := by
  unfold choose? at h
  unfold choose
  split at h
  · next only =>
      have hOutcome := hSame only (by simp) o h
      simp [Alternative.tried, hOutcome, h]
  · obtain ⟨found, hFound, rfl⟩ := Option.map_eq_some_iff.mp h
    obtain ⟨hFind, hTried⟩ := firstFit?_eq_some hSame hFound
    simp only [hFind]
    exact ⟨trivial, hTried⟩

theorem choose?_of_tried {t : Tree} {alternatives : List Alternative}
    (h : ∀ a ∈ Alternative.tried outcome alternatives, run a = some (outcome a)) :
    choose? t alternatives run = some (choose t alternatives outcome) := by
  rcases alternatives with _ | ⟨first, _ | ⟨second, others⟩⟩
  · rfl
  · exact h first (by simp [Alternative.tried])
  · rw [choose?, firstFit?_of_tried h]
    · rfl
    · simp

end Outcome

theorem mapM_eq_some_map {α β : Type} {run : α → Option β} {f : α → β} {as : List α}
    {bs : List β} (hSame : ∀ a ∈ as, ∀ b, run a = some b → f a = b)
    (h : as.mapM run = some bs) : as.map f = bs ∧ ∀ a ∈ as, run a = some (f a) := by
  induction as generalizing bs with
  | nil =>
      cases h
      exact ⟨rfl, by simp⟩
  | cons a as ih =>
      rw [List.forall_mem_cons] at hSame
      obtain ⟨hFirst, hOthers⟩ := hSame
      rw [List.mapM_cons] at h
      obtain ⟨b, hRun, hRest⟩ := Option.bind_eq_some_iff.mp h
      obtain ⟨rest, hMapped, hAll⟩ := Option.bind_eq_some_iff.mp hRest
      cases hAll
      obtain ⟨rfl, hReturn⟩ := ih hOthers hMapped
      rw [List.map_cons, hFirst b hRun, List.forall_mem_cons]
      exact ⟨rfl, by rw [hRun, hFirst b hRun], hReturn⟩

theorem mapM_of_forall {α β : Type} {run : α → Option β} {f : α → β} {as : List α}
    (h : ∀ a ∈ as, run a = some (f a)) : as.mapM run = some (as.map f) := by
  induction as with
  | nil => rfl
  | cons a as ih =>
      rw [List.forall_mem_cons] at h
      rw [List.mapM_cons, h.1, ih h.2]
      rfl

section

variable {definitions : Definitions}

/-- No name that is being expanded can be finished with less fuel than `fuel`. -/
def Unfinished (definitions : Definitions) (fuel : Nat) (expanding : List String) (t : Tree) :
    Prop :=
  ∀ name ∈ expanding, ∀ s, definitions.get? name = some s →
    ∀ less < fuel, s.unguarded definitions less t = none

theorem unfinished_nil (fuel : Nat) (t : Tree) : Unfinished definitions fuel [] t := by
  simp [Unfinished]

/-- Whatever returns has a least fuel with which it returns. -/
theorem Schema.exists_least_fuel {fuel : Nat} {s : Schema} {t : Tree} {o : Outcome}
    (h : s.unguarded definitions fuel t = some o) :
    ∃ least ≤ fuel, s.unguarded definitions least t = some o ∧
      ∀ less < least, s.unguarded definitions less t = none := by
  induction fuel with
  | zero => cases h
  | succ fuel ih =>
      cases hLess : s.unguarded definitions fuel t with
      | some o' =>
          have hSame := Schema.decodeWithin_mono (Nat.le_succ fuel) hLess
          rw [show s.decodeWithin .free definitions (fuel + 1) [] t = some o from h] at hSame
          cases hSame
          obtain ⟨least, hLe, hLeast⟩ := ih hLess
          exact ⟨least, by omega, hLeast⟩
      | none =>
          refine ⟨fuel + 1, Nat.le_refl _, h, fun less hBelow => ?_⟩
          cases hReturns : s.unguarded definitions less t with
          | none => rfl
          | some o' =>
              have hMore := Schema.decodeWithin_mono (Nat.le_of_lt_succ hBelow) hReturns
              rw [show s.decodeWithin .free definitions fuel [] t = none from hLess] at hMore
              cases hMore

/-- What is to be shown of a fuel: a run that returns with it agrees with the reader,
provided that no name in `expanding` could have been finished with less. -/
def Transparent (definitions : Definitions) (fuel : Nat) : Prop :=
  ∀ expanding s t o, Unfinished definitions fuel expanding t →
    s.unguarded definitions fuel t = some o →
    s.decode definitions expanding t = o ∧
      ¬ (Alternative.schema s).MeetsCircle definitions expanding t

theorem Unfinished.mono {fuel less : Nat} {expanding : List String} {t : Tree}
    (h : Unfinished definitions fuel expanding t) (hLe : less ≤ fuel) :
    Unfinished definitions less expanding t :=
  fun name hMember s hFound below hBelow => h name hMember s hFound below (by omega)

/-- A name that returns is not being expanded, since it would have had to return
with less fuel before. Its schema is then read with the least fuel that suffices. -/
theorem Alternative.transparent_defined {fuel : Nat}
    (hLess : ∀ less ≤ fuel, Transparent definitions less) {expanding : List String}
    {name : String} {s : Schema} {t : Tree} {inner : Outcome}
    (hUnfinished : Unfinished definitions (fuel + 1) expanding t)
    (hOther : BuiltIn.ofName? name = none) (hFound : definitions.get? name = some s)
    (h : s.unguarded definitions fuel t = some inner) :
    (Alternative.atom (.named name)).decode definitions expanding t = inner.viaName name ∧
      ¬ (Alternative.atom (.named name)).MeetsCircle definitions expanding t := by
  have hFresh : name ∉ expanding := by
    intro hPending
    have hNever := hUnfinished name hPending s hFound fuel (Nat.lt_succ_self _)
    rw [h] at hNever
    cases hNever
  obtain ⟨least, hLe, hReturns, hNever⟩ := Schema.exists_least_fuel h
  have hBelow : Unfinished definitions least (name :: expanding) t := by
    intro other hMember s' hFound' less hLt
    rcases List.mem_cons.mp hMember with rfl | hMember
    · rw [hFound] at hFound'
      cases hFound'
      exact hNever less hLt
    · exact hUnfinished other hMember s' hFound' less (by omega)
  obtain ⟨hSame, hStraight⟩ := hLess least hLe (name :: expanding) s t inner hBelow hReturns
  refine ⟨by rw [decode_defined t hOther hFound hFresh, hSame], fun hMeets => ?_⟩
  cases hMeets with
  | circular _ _ pending => exact hFresh pending
  | defined _ found _ meets =>
      rw [hFound] at found
      cases found
      exact hStraight meets

theorem Alternative.transparent {fuel : Nat}
    (hLess : ∀ less ≤ fuel, Transparent definitions less) {expanding : List String}
    {a : Alternative} {t : Tree} {o : Outcome}
    (hUnfinished : Unfinished definitions (fuel + 1) expanding t)
    (h : a.decodeBy .free definitions (Schema.decodeWithin .free definitions fuel) [] t = some o) :
    a.decode definitions expanding t = o ∧ ¬ a.MeetsCircle definitions expanding t := by
  unfold Alternative.decodeBy at h
  split at h
  · next s =>
      rw [decode_schema]
      exact hLess fuel (Nat.le_refl _) expanding s t o (hUnfinished.mono (Nat.le_succ _)) h
  · next n =>
      cases h
      exact ⟨decode_number .., fun hMeets => by cases hMeets⟩
  · next name =>
      cases hName : BuiltIn.ofName? name with
      | some b =>
          simp only [hName, Option.some.injEq] at h
          refine ⟨by rw [decode_builtIn t hName, h], fun hMeets => ?_⟩
          cases hMeets <;> simp_all
      | none =>
          simp only [hName] at h
          cases hFound : definitions.get? name with
          | none =>
              simp only [hFound, Option.some.injEq] at h
              refine ⟨by rw [decode_unknown t hName hFound, h], fun hMeets => ?_⟩
              cases hMeets <;> simp_all
          | some s =>
              simp only [hFound, EntryRule.free] at h
              obtain ⟨inner, hInner, rfl⟩ := Option.map_eq_some_iff.mp h
              exact transparent_defined hLess hUnfinished hName hFound hInner

/-- A run without the refusal that returns agrees with the reader. -/
theorem transparent (fuel : Nat) : Transparent definitions fuel := by
  induction fuel using Nat.strongRecOn with
  | ind fuel ih =>
      intro expanding s t o hUnfinished h
      cases fuel with
      | zero => cases h
      | succ fuel =>
          have hLess : ∀ less ≤ fuel, Transparent definitions less :=
            fun less hLe => ih less (by omega)
          change s.decodeBy .free definitions (Schema.decodeWithin .free definitions fuel) [] t =
            some o at h
          -- Below a node nothing is being expanded, so children have no condition.
          have hChild {s' : Schema} {t' : Tree} {o' : Outcome}
              (hReturns : s'.decodeWithin .free definitions fuel [] t' = some o') :=
            hLess fuel (Nat.le_refl _) [] s' t' o' (unfinished_nil fuel t') hReturns
          unfold Schema.decodeBy at h
          split at h
          · next alternatives =>
              have hMember (a : Alternative) (_ : a ∈ alternatives) (o' : Outcome)
                  (hReturns : a.decodeBy .free definitions
                    (Schema.decodeWithin .free definitions fuel) [] t = some o') :=
                (Alternative.transparent hLess hUnfinished hReturns).1
              obtain ⟨hChosen, hTried⟩ := Outcome.choose?_eq_some hMember h
              refine ⟨by rw [Schema.decode_choice, hChosen], fun hMeets => ?_⟩
              cases hMeets with
              | choice tried meets =>
                  exact (Alternative.transparent hLess hUnfinished (hTried _ tried)).2 meets
          · next item =>
              obtain ⟨items, hItems, rfl⟩ := Option.map_eq_some_iff.mp h
              obtain ⟨rfl, hReturn⟩ :=
                mapM_eq_some_map (fun t' _ o' hReturns => (hChild hReturns).1) hItems
              refine ⟨by rw [Schema.decode_list], fun hMeets => ?_⟩
              cases hMeets with
              | list member meets => exact (hChild (hReturn _ member)).2 meets
          · cases h
            exact ⟨by rw [Schema.decode_pair_nil], fun hMeets => by cases hMeets⟩
          · next left right l r =>
              split at h
              · next outcomeLeft outcomeRight hLeft hRight =>
                  cases h
                  refine ⟨?_, fun hMeets => ?_⟩
                  · rw [Schema.decode_pair_node, (hChild hLeft).1, (hChild hRight).1]
                  · cases hMeets with
                    | left meets => exact (hChild hLeft).2 meets
                    | right meets => exact (hChild hRight).2 meets
              · cases h

/-- A bound for finitely many fuels. -/
theorem exists_common_fuel {α : Type} {as : List α} (returns : Nat → α → Prop)
    (hMono : ∀ a fuel enough, fuel ≤ enough → returns fuel a → returns enough a)
    (h : ∀ a ∈ as, ∃ fuel, returns fuel a) : ∃ fuel, ∀ a ∈ as, returns fuel a := by
  induction as with
  | nil => exact ⟨0, by simp⟩
  | cons a as ih =>
      rw [List.forall_mem_cons] at h
      obtain ⟨⟨first, hFirst⟩, hOthers⟩ := h
      obtain ⟨others, hRest⟩ := ih hOthers
      refine ⟨max first others, List.forall_mem_cons.mpr ⟨?_, fun b hMember => ?_⟩⟩
      · exact hMono a first _ (Nat.le_max_left ..) hFirst
      · exact hMono b others _ (Nat.le_max_right ..) (hRest b hMember)

/-- A rule that lets every fresh name in returns with some fuel what the reader
returns, as long as it refuses the circular names that the reader comes to, if any.
The names that the rule has `seen` may be fewer than those being expanded. -/
theorem Alternative.exists_fuel (rule : EntryRule) (seen : List String → List String)
    (hTop : seen [] = [])
    (hEnter : ∀ expanding name, name ∉ expanding →
      rule (seen expanding) name = some (seen (name :: expanding)))
    (expanding : List String) (a : Alternative) (t : Tree)
    (hRefuse : a.MeetsCircle definitions expanding t →
      ∀ expanding, ∀ name ∈ expanding, rule (seen expanding) name = none) :
    ∃ fuel, a.decodeBy rule definitions (Schema.decodeWithin rule definitions fuel)
      (seen expanding) t = some (a.decode definitions expanding t) := by
  induction expanding, a, t using decode_induction definitions with
  | number expanding n t => exact ⟨0, by rw [decode_number]; rfl⟩
  | builtIn expanding name b t hName =>
      exact ⟨0, by rw [decode_builtIn t hName, decodeBy, hName]⟩
  | unknown expanding name t hOther hNone =>
      refine ⟨0, ?_⟩
      rw [decode_unknown t hOther hNone, decodeBy, hOther]
      simp only [hNone]
  | circular expanding name s t hOther hFound hPending =>
      have hNever := hRefuse (.circular hOther hFound hPending) expanding name hPending
      refine ⟨0, ?_⟩
      rw [decode_circular t hOther hFound hPending, decodeBy, hOther]
      simp only [hFound, hNever]
  | defined expanding name s t hOther hFound hFresh ih =>
      obtain ⟨fuel, hReturns⟩ := ih fun hMeets => hRefuse (.defined hOther hFound hFresh hMeets)
      rw [decode_schema] at hReturns
      change s.decodeWithin rule definitions fuel (seen (name :: expanding)) t = _ at hReturns
      refine ⟨fuel, ?_⟩
      rw [decode_defined t hOther hFound hFresh, decodeBy, hOther]
      simp only [hFound, hEnter expanding name hFresh]
      rw [hReturns, Option.map_some]
  | choice expanding alternatives t ih =>
      obtain ⟨fuel, hReturns⟩ := exists_common_fuel
        (fun fuel a => a.decodeBy rule definitions
          (Schema.decodeWithin rule definitions fuel) (seen expanding) t =
            some (a.decode definitions expanding t))
        (fun a fuel enough hLe => decodeBy_mono fun _ _ _ _ => Schema.decodeWithin_mono hLe)
        (fun a hTried => ih a (mem_of_mem_tried hTried) fun hMeets =>
          hRefuse (.choice hTried hMeets))
      refine ⟨fuel + 1, ?_⟩
      rw [decode_schema, Schema.decode_choice]
      exact Outcome.choose?_of_tried hReturns
  | list expanding item t ih =>
      simp only [decode_schema, hTop] at ih
      obtain ⟨fuel, hReturns⟩ := exists_common_fuel
        (fun fuel t' => item.decodeWithin rule definitions fuel [] t' =
          some (item.decode definitions [] t'))
        (fun t' fuel enough hLe => Schema.decodeWithin_mono hLe)
        (fun t' hMember => ih t' hMember fun hMeets => hRefuse (.list hMember hMeets))
      refine ⟨fuel + 1, ?_⟩
      rw [decode_schema, Schema.decode_list]
      exact congrArg (Option.map Outcome.ofItems) (mapM_of_forall hReturns)
  | leaf expanding left right => exact ⟨1, by rw [decode_schema, Schema.decode_pair_nil]; rfl⟩
  | pair expanding left right l r ihLeft ihRight =>
      rw [decode_schema, hTop] at ihLeft ihRight
      obtain ⟨fuelLeft, hLeft⟩ := ihLeft fun hMeets => hRefuse (.left hMeets)
      obtain ⟨fuelRight, hRight⟩ := ihRight fun hMeets => hRefuse (.right hMeets)
      have hBothLeft := Schema.decodeWithin_mono (Nat.le_max_left fuelLeft fuelRight) hLeft
      have hBothRight := Schema.decodeWithin_mono (Nat.le_max_right fuelLeft fuelRight) hRight
      refine ⟨max fuelLeft fuelRight + 1, ?_⟩
      rw [decode_schema, Schema.decode_pair_node]
      change (Schema.pair left right).decodeBy rule definitions
        (Schema.decodeWithin rule definitions (max fuelLeft fuelRight)) (seen expanding)
        (.node l r) = _
      rw [Schema.decodeBy, hBothLeft, hBothRight]

/-- The reader itself is the iteration with the rule `once`. -/
theorem Schema.exists_fuel_once (expanding : List String) (s : Schema) (t : Tree) :
    ∃ fuel, s.decodeWithin .once definitions fuel expanding t =
      some (s.decode definitions expanding t) := by
  obtain ⟨fuel, h⟩ := Alternative.exists_fuel .once id rfl
    (fun expanding name hFresh => if_neg hFresh) expanding (.schema s) t
    (fun _ expanding name hPending => if_pos hPending)
  rw [Alternative.decode_schema] at h
  exact ⟨fuel, h⟩

/-- Where the reader refuses no name, the run without the refusal returns. -/
theorem Schema.exists_fuel_free (s : Schema) (t : Tree)
    (hStraight : ¬ s.MeetsCircle definitions t) :
    ∃ fuel, s.unguarded definitions fuel t = some (s.read definitions t) := by
  obtain ⟨fuel, h⟩ := Alternative.exists_fuel .free (fun _ => []) rfl
    (fun _ _ _ => rfl) [] (.schema s) t (fun hMeets => absurd hMeets hStraight)
  rw [Alternative.decode_schema] at h
  exact ⟨fuel, h⟩

end

/-- Without the refusal a run returns exactly where the reader refuses no name, and
what it returns is the outcome of the reader, with everything noted on the reading.
Where the reader does refuse a name, no fuel is enough. -/
theorem Schema.unguarded_returns_iff (definitions : Definitions) (s : Schema) (t : Tree) :
    (∀ o, (∃ fuel, s.unguarded definitions fuel t = some o) ↔
      s.read definitions t = o ∧ ¬ s.MeetsCircle definitions t) ∧
    (s.MeetsCircle definitions t ↔ ∀ fuel, s.unguarded definitions fuel t = none) := by
  have hSound (fuel : Nat) (o : Outcome) (h : s.unguarded definitions fuel t = some o) :
      s.read definitions t = o ∧ ¬ s.MeetsCircle definitions t :=
    transparent fuel [] s t o (unfinished_nil fuel t) h
  refine ⟨fun o => ⟨?_, ?_⟩, ?_, ?_⟩
  · rintro ⟨fuel, h⟩
    exact hSound fuel o h
  · rintro ⟨rfl, hStraight⟩
    exact s.exists_fuel_free t hStraight
  · intro hMeets fuel
    cases h : s.unguarded definitions fuel t with
    | none => rfl
    | some o => exact absurd hMeets (hSound fuel o h).2
  · intro hNever
    by_cases hMeets : s.MeetsCircle definitions t
    · exact hMeets
    · obtain ⟨fuel, h⟩ := s.exists_fuel_free t hMeets
      rw [hNever fuel] at h
      cases h

end TreeSchema

import TreeSchema.Tree.Basic

/-! Trees that are numbers or booleans. A number is a spine whose left sides are
all `nil`, and it is read back exactly as long as it fits in 64 bits. The same is read by a
loop whose counter has no more than 64 bits and that ends where the counter is full. -/
namespace TreeSchema.Tree

theorem ofNat_injective : Function.Injective ofNat := by
  intro m n h
  induction m generalizing n with
  | zero =>
      cases n with
      | zero => rfl
      | succ n => cases h
  | succ m ih =>
      cases n with
      | zero => cases h
      | succ n => rw [ih (node.inj h).2]

/-- The count starts at what was counted before and grows by the nodes of the spine. -/
theorem count?_eq_some_iff (t : Tree) (counted n : Nat) :
    t.count? counted = some n ↔ ∃ k, n = counted + k ∧ t = ofNat k := by
  induction t generalizing counted with
  | nil =>
      rw [count?]
      constructor
      · intro h
        cases h
        exact ⟨0, rfl, rfl⟩
      · rintro ⟨k, rfl, hSpine⟩
        have hNone : k = 0 := ofNat_injective hSpine.symm
        rw [hNone]
        rfl
  | node left right _ ih =>
      cases left with
      | node l r =>
          rw [count?]
          constructor
          · intro h
            cases h
          · rintro ⟨k, -, hSpine⟩
            cases k <;> cases hSpine
      | nil =>
          rw [count?, ih]
          constructor
          · rintro ⟨k, rfl, rfl⟩
            exact ⟨k + 1, by omega, rfl⟩
          · rintro ⟨k, rfl, hSpine⟩
            cases k with
            | zero => cases hSpine
            | succ k => exact ⟨k, by omega, (node.inj hSpine).2⟩

theorem number?_eq_some_iff (t : Tree) (n : UInt64) : t.number? = some n ↔ t = ofNat n.toNat := by
  unfold number?
  constructor
  · intro h
    obtain ⟨counted, hCount, hFits⟩ := Option.bind_eq_some_iff.mp h
    obtain ⟨k, hSum, rfl⟩ := (count?_eq_some_iff t 0 counted).mp hCount
    split at hFits
    · cases hFits
      rw [UInt64.toNat_ofNatLT, hSum, Nat.zero_add]
    · cases hFits
  · intro h
    have hCount : t.count? 0 = some n.toNat := (count?_eq_some_iff t 0 _).mpr ⟨_, by omega, h⟩
    rw [hCount]
    simp [n.toNat_lt_size]

/-- A number is the list of as many `nil`s. -/
theorem ofList_replicate_nil (n : Nat) : ofList (List.replicate n nil) = ofNat n := by
  induction n with
  | zero => rfl
  | succ n ih =>
      rw [List.replicate_succ]
      exact congrArg (node nil) ih

/-- A spine of `nil`s is the number of its nodes. -/
theorem eq_ofNat_iff (t : Tree) : t = ofNat t.items.length ↔ ∀ item ∈ t.items, item = nil := by
  rw [← ofList_replicate_nil]
  constructor
  · intro h item hMember
    rw [h, items_ofList] at hMember
    exact List.eq_of_mem_replicate hMember
  · intro h
    have hItems : t.items = List.replicate t.items.length nil :=
      List.eq_replicate_iff.mpr ⟨rfl, h⟩
    rw [← hItems, ofList_items]

theorem length_items_ofNat (n : Nat) : (ofNat n).items.length = n := by
  rw [← ofList_replicate_nil, items_ofList, List.length_replicate]

/-- The only number that a tree can be is the length of its spine. -/
theorem eq_ofNat_iff_length (t : Tree) (n : Nat) :
    t = ofNat n ↔ (∀ item ∈ t.items, item = nil) ∧ t.items.length = n := by
  rw [← eq_ofNat_iff]
  constructor
  · rintro rfl
    rw [length_items_ofNat]
    exact ⟨rfl, rfl⟩
  · rintro ⟨hSpine, rfl⟩
    exact hSpine

theorem number?_eq_none_iff (t : Tree) :
    t.number? = none ↔ (∃ item ∈ t.items, item ≠ nil) ∨ UInt64.size ≤ t.items.length := by
  rw [Option.eq_none_iff_forall_ne_some]
  simp only [ne_eq, number?_eq_some_iff, eq_ofNat_iff_length]
  constructor
  · intro hNone
    by_cases hSpine : ∀ item ∈ t.items, item = nil
    · right
      apply Nat.le_of_not_lt
      intro hFits
      exact hNone (UInt64.ofNatLT t.items.length hFits) ⟨hSpine, UInt64.toNat_ofNatLT.symm⟩
    · left
      simpa only [Classical.not_forall, exists_prop] using hSpine
  · rintro (⟨item, hMember, hItem⟩ | hLong) n ⟨hSpine, hLength⟩
    · exact hItem (hSpine item hMember)
    · have hFits := n.toNat_lt_size
      omega

/-- The next number of 64 bits, if there is one. -/
def next? (n : UInt64) : Option UInt64 :=
  if n.toNat + 1 < UInt64.size then some (n + 1) else none

theorem next?_eq_some_iff (n next : UInt64) : next? n = some next ↔ next.toNat = n.toNat + 1 := by
  have hSum : (n + 1).toNat = (n.toNat + 1) % UInt64.size := UInt64.toNat_add n 1
  have hFits := next.toNat_lt_size
  rw [next?, Option.ite_none_right_eq_some, Option.some.injEq, ← UInt64.toNat_inj, hSum]
  constructor
  · rintro ⟨hRoom, hNext⟩
    rw [← hNext, Nat.mod_eq_of_lt hRoom]
  · intro hNext
    have hRoom : n.toNat + 1 < UInt64.size := hNext ▸ hFits
    exact ⟨hRoom, by rw [Nat.mod_eq_of_lt hRoom, hNext]⟩

/-- Count the nodes of the right spine, one after the other, on a counter of 64 bits. There is
no count if a left child is not `nil`, nor if the counter is full before the spine ends. -/
def tally? (counter : UInt64) : Tree → Option UInt64
  | nil => some counter
  | node nil right => next? counter >>= fun counter => right.tally? counter
  | node (node ..) _ => none

/-- The counter never wraps: what it comes to is what it started from and the nodes. -/
theorem tally?_eq_some_iff (t : Tree) (counter n : UInt64) :
    t.tally? counter = some n ↔
      (∀ item ∈ t.items, item = nil) ∧ counter.toNat + t.items.length = n.toNat := by
  induction t generalizing counter with
  | nil => simp [tally?, items, UInt64.toNat_inj]
  | node left right _ ih =>
      rw [items, List.forall_mem_cons, List.length_cons]
      cases left with
      | node l r => simp [tally?]
      | nil =>
          simp only [tally?, Option.bind_eq_bind, Option.bind_eq_some_iff, next?_eq_some_iff, ih,
            true_and]
          constructor
          · rintro ⟨next, hNext, hSpine, hCount⟩
            exact ⟨hSpine, by omega⟩
          · rintro ⟨hSpine, hCount⟩
            have hFits := n.toNat_lt_size
            have hRoom : counter.toNat + 1 < UInt64.size := by omega
            refine ⟨UInt64.ofNatLT (counter.toNat + 1) hRoom, UInt64.toNat_ofNatLT, hSpine, ?_⟩
            rw [UInt64.toNat_ofNatLT]
            omega

theorem tally?_zero (t : Tree) : t.tally? 0 = t.number? := by
  apply Option.ext
  intro n
  rw [tally?_eq_some_iff, number?_eq_some_iff, eq_ofNat_iff_length, UInt64.toNat_zero,
    Nat.zero_add]

/-- The coding of numbers is exact as far as 64 bits go. A tree is read as a number exactly if it
is the tree of that number. It is none exactly if a left child on its right spine is not `nil`,
wherever that one stands, or if the spine is too long for 64 bits; the counter of a loop that
ends there is never wrapped. The tree of a number is the list of as many `nil`s. -/
theorem numbers_exact :
    (∀ (t : Tree) (n : UInt64), t.number? = some n ↔ t = ofNat n.toNat) ∧
    (∀ t : Tree, t.number? = none ↔
      (∃ item ∈ t.items, item ≠ nil) ∨ UInt64.size ≤ t.items.length) ∧
    (∀ t : Tree, t.tally? 0 = t.number?) ∧
    ∀ n : Nat, ofNat n = ofList (List.replicate n nil) :=
  ⟨number?_eq_some_iff, number?_eq_none_iff, tally?_zero, fun n => (ofList_replicate_nil n).symm⟩

theorem bool?_eq_some_iff (t : Tree) (b : Bool) : t.bool? = some b ↔ t = ofBool b := by
  unfold bool?
  constructor
  · intro h
    split at h <;> cases h <;> rfl
  · rintro rfl
    cases b <;> rfl

end TreeSchema.Tree

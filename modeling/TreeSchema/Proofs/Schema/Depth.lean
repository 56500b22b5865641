import TreeSchema.Proofs.Schema.Sentences

/-! How deep the schemas are that the reader makes. The limit on nesting bounds the
brackets and items around a place together with the suffixes of the one atom there. It
does not add up the suffixes of atoms that stand inside each other, so no more pairs lie
above each other than there may be levels, but far more lists. -/
namespace TreeSchema

/-- `a.Crosses pairs lists` says that some path from the top of an alternative down to a
leaf crosses that many pairs and that many lists. -/
inductive Alternative.Crosses : Alternative → Nat → Nat → Prop where
  | leaf (a : Atom) : Crosses (.atom a) 0 0
  | empty : Crosses (.schema (.choice [])) 0 0
  | choice {alternatives : List Alternative} {a : Alternative} {pairs lists : Nat}
      (member : a ∈ alternatives) (below : Crosses a pairs lists) :
      Crosses (.schema (.choice alternatives)) pairs lists
  | list {item : Schema} {pairs lists : Nat} (below : Crosses (.schema item) pairs lists) :
      Crosses (.schema (.list item)) pairs (lists + 1)
  | left {left right : Schema} {pairs lists : Nat} (below : Crosses (.schema left) pairs lists) :
      Crosses (.schema (.pair left right)) (pairs + 1) lists
  | right {left right : Schema} {pairs lists : Nat} (below : Crosses (.schema right) pairs lists) :
      Crosses (.schema (.pair left right)) (pairs + 1) lists

namespace Schema

def Crosses (s : Schema) (pairs lists : Nat) : Prop :=
  (Alternative.schema s).Crosses pairs lists

/-- No path crosses more than so many pairs, or more than so many lists. -/
def Bounded (s : Schema) (pairs lists : Nat) : Prop :=
  ∀ p l, s.Crosses p l → p ≤ pairs ∧ l ≤ lists

theorem Bounded.mono {s : Schema} {pairs lists pairs' lists' : Nat} (h : s.Bounded pairs lists)
    (hPairs : pairs ≤ pairs') (hLists : lists ≤ lists') : s.Bounded pairs' lists' := by
  intro p l path
  obtain ⟨hP, hL⟩ := h p l path
  exact ⟨Nat.le_trans hP hPairs, Nat.le_trans hL hLists⟩

theorem bounded_choice {alternatives : List Alternative} {pairs lists : Nat}
    (h : ∀ a ∈ alternatives, ∀ p l, a.Crosses p l → p ≤ pairs ∧ l ≤ lists) :
    (Schema.choice alternatives).Bounded pairs lists := by
  intro p l path
  cases path with
  | empty => exact ⟨Nat.zero_le _, Nat.zero_le _⟩
  | choice member below => exact h _ member p l below

theorem bounded_atom (a : Atom) (pairs lists : Nat) :
    (Schema.choice [.atom a]).Bounded pairs lists := by
  apply bounded_choice
  intro b hMember p l path
  rw [List.mem_singleton.mp hMember] at path
  cases path
  exact ⟨Nat.zero_le _, Nat.zero_le _⟩

theorem Bounded.pair {left right : Schema} {pairs lists : Nat} (hLeft : left.Bounded pairs lists)
    (hRight : right.Bounded pairs lists) : (Schema.pair left right).Bounded (pairs + 1) lists := by
  intro p l path
  cases path with
  | left below =>
      obtain ⟨hP, hL⟩ := hLeft _ _ below
      exact ⟨Nat.succ_le_succ hP, hL⟩
  | right below =>
      obtain ⟨hP, hL⟩ := hRight _ _ below
      exact ⟨Nat.succ_le_succ hP, hL⟩

theorem Bounded.repeat_list {s : Schema} {pairs lists : Nat} (h : s.Bounded pairs lists)
    (k : Nat) : (Nat.repeat Schema.list k s).Bounded pairs (lists + k) := by
  induction k with
  | zero => exact h
  | succ k ih =>
      intro p l path
      cases path with
      | list below =>
          obtain ⟨hP, hL⟩ := ih _ _ below
          exact ⟨hP, Nat.succ_le_succ hL⟩

theorem bounded_union {parts : List Schema} {pairs lists : Nat}
    (h : ∀ s ∈ parts, s.Bounded pairs lists) : (Schema.union parts).Bounded pairs lists := by
  unfold union
  split
  · next only => exact h only List.mem_cons_self
  · apply bounded_choice
    intro a hMember p l path
    obtain ⟨s, hPart, hOffered⟩ := List.mem_flatMap.mp hMember
    cases s with
    | choice alternatives => exact h _ hPart p l (.choice hOffered path)
    | list item =>
        rw [List.mem_singleton.mp hOffered] at path
        exact h _ hPart p l path
    | pair left right =>
        rw [List.mem_singleton.mp hOffered] at path
        exact h _ hPart p l path

end Schema

namespace Description

/-- How many lists can come to lie above each other where `n` more levels may be opened:
on each level a run of suffixes as long as the limit allows there. -/
def mostLists : Nat → Nat
  | 0 => 0
  | n + 1 => mostLists n + (n + 1)

theorem mostLists_le_succ (n : Nat) : mostLists n ≤ mostLists (n + 1) :=
  Nat.le_add_right _ _

theorem mostLists_mono {m n : Nat} (h : m ≤ n) : mostLists m ≤ mostLists n := by
  induction h with
  | refl => exact Nat.le_refl _
  | step _ ih => exact Nat.le_trans ih (mostLists_le_succ _)

/-- A run of suffixes on a core that is itself one level deeper. -/
theorem mostLists_add {n k : Nat} (h : k ≤ n) : mostLists (n - 1) + k ≤ mostLists n := by
  cases n with
  | zero =>
      obtain rfl := Nat.le_zero.mp h
      exact Nat.le_refl _
  | succ n => exact Nat.add_le_add_left h _

/-- How deep the schemas of a part of a description can be that stands `d` levels deep. -/
def Phrase.Bounded (limit d : Nat) : Phrase → Prop
  | core s => s.Bounded (limit - d) (mostLists (limit - d - 1))
  | atom s | choice s => s.Bounded (limit - d) (mostLists (limit - d))
  | atoms parts => ∀ s ∈ parts, s.Bounded (limit - d) (mostLists (limit - d))
  | items parts => EachItem (fun d s => s.Bounded (limit - d) (mostLists (limit - d))) d parts

/-- Each item of a fixed list is one level below the item before it, and one pair. -/
theorem Phrase.bounded_items {limit d : Nat} {parts : List Schema} {tail : Schema}
    (hParts : (items parts).Bounded limit (d + 1)) (hTail : tail.Bounded 0 0)
    (hLength : d + parts.length ≤ limit) : (core (.items parts tail)).Bounded limit d := by
  induction parts generalizing d with
  | nil => exact hTail.mono (Nat.zero_le _) (Nat.zero_le _)
  | cons first others ih =>
      rw [List.length_cons] at hLength
      obtain ⟨hFirst, hOthers⟩ := hParts
      have hRest := ih hOthers (by omega)
      have hPair := hFirst.pair (hRest.mono (Nat.le_refl _) (mostLists_mono (Nat.sub_le _ _)))
      exact hPair.mono (by omega) (Nat.le_refl _)

theorem Derives.bounded {limit d : Nat} {ls : List Lexeme} {phrase : Phrase}
    (h : Derives limit d ls phrase) : phrase.Bounded limit d := by
  -- Nothing is asked of `d`: beyond the limit only names and numbers can stand.
  induction h with
  | name name => exact Schema.bounded_atom _ _ _
  | number n => exact Schema.bounded_atom _ _ _
  | group _ _ ih => exact ih.mono (by omega) (Nat.le_refl _)
  | pair fits _ _ ihFirst ihSecond => exact (ihFirst.pair ihSecond).mono (by omega) (Nat.le_refl _)
  | none _ => exact Schema.bounded_atom _ _ _
  | anything _ => exact Schema.bounded_atom _ _ _
  | closed fits _ ih => exact Phrase.bounded_items ih (Schema.bounded_atom _ _ _) (by omega)
  | opened fits _ ih => exact Phrase.bounded_items ih (Schema.bounded_atom _ _ _) (by omega)
  | suffixed k fits _ ih =>
      exact (ih.repeat_list k).mono (Nat.le_refl _) (mostLists_add (by omega))
  | oneAtom _ ih => exact List.forall_mem_singleton.mpr ih
  | nextAtom _ _ ihBefore ihNext =>
      exact List.forall_mem_append.mpr ⟨ihBefore, List.forall_mem_singleton.mpr ihNext⟩
  | choice _ ih => exact Schema.bounded_union ih
  | oneItem _ ih => exact ⟨ih, trivial⟩
  | nextItem _ _ ihBefore ihNext => exact EachItem.concat ihBefore ihNext

theorem mostLists_eq (n : Nat) : mostLists n = n * (n + 1) / 2 := by
  induction n with
  | zero => rfl
  | succ n ih =>
      have hDouble : (n + 1) * (n + 1 + 1) = n * (n + 1) + 2 * (n + 1) := by
        rw [← Nat.add_mul, Nat.mul_comm]
      rw [mostLists, ih, hDouble, Nat.add_mul_div_left _ _ (by decide)]

/-- On a path through a schema that was read there are at most as many pairs as there may
be levels of nesting, but the lists may come to a run of suffixes on each level. -/
theorem crosses_le_of_read {ts : List Token} {s : Schema} {pairs lists : Nat}
    (h : read ts = .ok s) (path : s.Crosses pairs lists) :
    pairs ≤ maxNesting ∧ lists ≤ maxNesting * (maxNesting + 1) / 2 := by
  have hBounded : s.Bounded maxNesting (mostLists maxNesting) := by
    cases ts with
    | nil =>
        cases h
        exact Schema.bounded_atom _ _ _
    | cons t ts => exact (derives_of_read h).bounded
  rw [mostLists_eq] at hBounded
  exact hBounded pairs lists path

/-- The most deeply nested text: pairs inside each other, each with as many suffixes as
the limit leaves. -/
def deepestLexemes : Nat → List Lexeme
  | 0 => [.identifier "int"]
  | n + 1 => .symbol .treeOpen :: (deepestLexemes n ++
      .symbol .dot :: ([.identifier "int"] ++ [.symbol .treeClose])) ++ suffixLexemes (n + 1)

def deepest : Nat → Schema
  | 0 => .named "int"
  | n + 1 => Nat.repeat .list (n + 1) (.pair (deepest n) (.named "int"))

theorem derives_deepest {limit : Nat} (n : Nat) (h : n ≤ limit) :
    Derives limit (limit - n) (deepestLexemes n) (.choice (deepest n)) := by
  have hInt (d : Nat) : Derives limit d [.identifier "int"] (.choice (.named "int")) :=
    .only 0 (.inl rfl) (.name "int")
  induction n with
  | zero => exact hInt _
  | succ n ih =>
      have hInside := ih (Nat.le_of_succ_le h)
      rw [show limit - n = limit - (n + 1) + 1 by omega] at hInside
      exact .only (n + 1) (.inr (by omega)) (.pair (by omega) hInside (hInt _))

theorem crosses_repeat_list {s : Schema} {pairs lists : Nat} (k : Nat)
    (h : s.Crosses pairs lists) : (Nat.repeat Schema.list k s).Crosses pairs (lists + k) := by
  induction k with
  | zero => exact h
  | succ k ih => exact .list ih

theorem crosses_deepest (n : Nat) : (deepest n).Crosses n (mostLists n) := by
  induction n with
  | zero => exact .choice List.mem_cons_self (.leaf _)
  | succ n ih => exact crosses_repeat_list (n + 1) (.left ih)

/-- Both bounds are met at once. -/
theorem crosses_le_of_read_deepest :
    read (placed 0 (deepestLexemes 256)) = .ok (deepest 256) ∧
      (deepest 256).Crosses 256 32896 ∧
      ∀ pairs lists, (deepest 256).Crosses pairs lists → pairs ≤ 256 ∧ lists ≤ 32896 := by
  have hRead : read (placed 0 (deepestLexemes 256)) = .ok (deepest 256) := by
    apply Derives.read_eq_ok
    rw [map_lexeme_placed]
    exact derives_deepest 256 (Nat.le_refl _)
  have hMost : mostLists 256 = 32896 := mostLists_eq 256
  refine ⟨hRead, ?_, fun pairs lists path => crosses_le_of_read hRead path⟩
  rw [← hMost]
  exact crosses_deepest 256

/-- The levels of nesting do not bound the lists on a path: `(int[]…[])[][]` with 255
suffixes inside the parentheses is accepted. -/
theorem read_regrouped_crosses :
    read (placed 0 (regrouped [.identifier "int"] 255 2)) =
        .ok (Nat.repeat .list 257 (.named "int")) ∧
      (Nat.repeat .list 257 (.named "int") : Schema).Crosses 0 257 ∧ maxNesting < 0 + 257 := by
  refine ⟨?_, ?_, by decide⟩
  · apply Derives.read_eq_ok
    rw [map_lexeme_placed]
    exact .regrouped (by decide) (.inr (by decide)) (.inr (by decide)) (.name "int")
  · have hInt : (Schema.named "int").Crosses 0 0 := .choice List.mem_cons_self (.leaf _)
    have hLists := crosses_repeat_list 257 hInt
    exact hLists

end Description

end TreeSchema

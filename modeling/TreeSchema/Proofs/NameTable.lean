import Mathlib.Data.List.Basic
import TreeSchema.NameTable

/-! Tables that are made from pairs. Where no name comes twice the order of the pairs makes
no difference: the table has them as its entries, in the one order that it can. Of several
pairs with one name the last counts. -/
namespace TreeSchema.NameTable

variable {α : Type}

/-- No name comes twice in a table. -/
theorem names_nodup (table : NameTable α) : table.names.Nodup := by
  apply List.pairwise_map.mpr
  apply table.increasing.imp
  intro first second hLess hSame
  rw [hSame] at hLess
  exact String.lt_irrefl _ hLess

theorem insertInto_perm {name : String} {value : α} {entries : List (String × α)}
    (h : name ∉ entries.map Prod.fst) :
    (insertInto name value entries).Perm ((name, value) :: entries) := by
  induction entries with
  | nil => exact .refl _
  | cons first rest ih =>
      rw [List.map_cons, List.mem_cons, not_or] at h
      obtain ⟨hOther, hRest⟩ := h
      unfold insertInto
      split
      · exact .refl _
      · next hNotBefore =>
          split
          · exact ((ih hRest).cons first).trans (.swap _ _ _)
          · next hNotAfter =>
              have hSame : name = first.1 :=
                String.le_antisymm (String.not_lt.mp hNotAfter) (String.not_lt.mp hNotBefore)
              exact absurd hSame hOther

/-- Entries with new names come to those of the table. -/
theorem entries_insertAll_perm {table : NameTable α} {pairs : List (String × α)}
    (h : ((table.entries ++ pairs).map Prod.fst).Nodup) :
    (table.insertAll pairs).entries.Perm (table.entries ++ pairs) := by
  induction pairs generalizing table with
  | nil =>
      rw [List.append_nil]
      exact .refl _
  | cons pair rest ih =>
      obtain ⟨name, value⟩ := pair
      have hMoved : (table.entries ++ (name, value) :: rest).Perm
          ((name, value) :: (table.entries ++ rest)) := List.perm_middle
      have hDistinct := (hMoved.map Prod.fst).nodup_iff.mp h
      rw [List.map_cons, List.nodup_cons, List.map_append, List.mem_append, not_or] at hDistinct
      have hInserted : (table.insert name value).entries.Perm ((name, value) :: table.entries) :=
        insertInto_perm hDistinct.1.1
      have hAll := (hInserted.append_right rest).trans hMoved.symm
      exact (ih ((hAll.map Prod.fst).nodup_iff.mpr h)).trans hAll

theorem entries_ofPairs_perm {pairs : List (String × α)} (h : (pairs.map Prod.fst).Nodup) :
    (ofPairs pairs).entries.Perm pairs :=
  entries_insertAll_perm h

/-- Tables whose entries are the same up to their order are the same. -/
theorem eq_of_entries_perm {table other : NameTable α} (h : table.entries.Perm other.entries) :
    table = other := by
  have hSame : table.entries = other.entries :=
    h.eq_of_pairwise (fun _ _ _ _ hLess hMore => absurd (String.lt_trans hLess hMore)
      (String.lt_irrefl _)) table.increasing other.increasing
  cases table
  cases other
  cases hSame
  rfl

theorem ofPairs_eq_of_perm {pairs pairs' : List (String × α)} (hPerm : pairs.Perm pairs')
    (h : (pairs.map Prod.fst).Nodup) : ofPairs pairs = ofPairs pairs' := by
  have h' : (pairs'.map Prod.fst).Nodup := (hPerm.map Prod.fst).nodup_iff.mp h
  exact eq_of_entries_perm
    ((entries_ofPairs_perm h).trans (hPerm.trans (entries_ofPairs_perm h').symm))

/-! What stands under a name. -/

theorem lookup_cons (first : String × α) (rest : List (String × α)) (name : String) :
    (first :: rest).lookup name = if name = first.1 then some first.2 else rest.lookup name := by
  rw [List.lookup_cons]
  by_cases hSame : name = first.1
  · simp [hSame]
  · rw [beq_eq_false_iff_ne.mpr hSame, if_neg hSame]

theorem lookup_insertInto (name : String) (value : α) (entries : List (String × α))
    (other : String) :
    (insertInto name value entries).lookup other =
      if other = name then some value else entries.lookup other := by
  induction entries with
  | nil => exact lookup_cons (name, value) [] other
  | cons first rest ih =>
      unfold insertInto
      split
      · rw [lookup_cons]
      · next hNotBefore =>
          split
          · next hAfter =>
              rw [lookup_cons, lookup_cons, ih]
              by_cases hFirst : other = first.1
              · have hOther : other ≠ name := by
                  rintro rfl
                  exact String.lt_irrefl _ (hFirst ▸ hAfter)
                rw [if_pos hFirst, if_pos hFirst, if_neg hOther]
              · rw [if_neg hFirst, if_neg hFirst]
          · next hNotAfter =>
              have hSame : name = first.1 :=
                String.le_antisymm (String.not_lt.mp hNotAfter) (String.not_lt.mp hNotBefore)
              rw [lookup_cons, lookup_cons, ← hSame]
              split <;> rfl

/-- Changing each value on its own changes what stands under each name. -/
theorem get?_map {β : Type} (f : α → β) (table : NameTable α) (name : String) :
    (table.map f).get? name = (table.get? name).map f := by
  change (table.entries.map fun entry => (entry.1, f entry.2)).lookup name =
    (table.entries.lookup name).map f
  induction table.entries with
  | nil => rfl
  | cons first rest ih =>
      rw [List.map_cons, lookup_cons, lookup_cons, ih]
      split <;> rfl

theorem get?_insert (table : NameTable α) (name : String) (value : α) (other : String) :
    (table.insert name value).get? other = if other = name then some value else table.get? other :=
  lookup_insertInto name value table.entries other

/-- Of several pairs with one name the last counts, and each counts more than the table. -/
theorem get?_insertAll (table : NameTable α) (pairs : List (String × α)) (name : String) :
    (table.insertAll pairs).get? name = (pairs.reverse.lookup name).or (table.get? name) := by
  induction pairs generalizing table with
  | nil => rfl
  | cons pair rest ih =>
      change ((table.insert pair.1 pair.2).insertAll rest).get? name = _
      rw [ih, get?_insert, List.reverse_cons, List.lookup_append, Option.or_assoc, lookup_cons]
      split <;> rfl

theorem mem_of_lookup {pairs : List (String × α)} {name : String} {value : α}
    (h : pairs.lookup name = some value) : (name, value) ∈ pairs := by
  obtain ⟨before, after, rfl, -⟩ := List.lookup_eq_some_iff.mp h
  exact List.mem_append_right _ List.mem_cons_self

/-- Where no name comes twice, a pair is found under its name. -/
theorem lookup_eq_some_iff_mem {pairs : List (String × α)} (h : (pairs.map Prod.fst).Nodup)
    {name : String} {value : α} : pairs.lookup name = some value ↔ (name, value) ∈ pairs := by
  refine ⟨mem_of_lookup, fun hMember => ?_⟩
  obtain ⟨before, after, rfl⟩ := List.append_of_mem hMember
  refine List.lookup_eq_some_iff.mpr ⟨before, after, rfl, fun pair hBefore => ?_⟩
  rw [List.map_append, List.map_cons, List.nodup_append] at h
  exact bne_iff_ne.mpr
    (h.2.2 pair.1 (List.mem_map_of_mem hBefore) name List.mem_cons_self).symm

theorem mem_entries_iff {table : NameTable α} {name : String} {value : α} :
    (name, value) ∈ table.entries ↔ table.get? name = some value :=
  (lookup_eq_some_iff_mem table.names_nodup).symm

theorem mem_names_iff {table : NameTable α} {name : String} :
    name ∈ table.names ↔ ∃ value, table.get? name = some value := by
  refine ⟨fun hName => ?_, fun ⟨value, hFound⟩ => mem_names_of_get? hFound⟩
  obtain ⟨entry, hEntry, rfl⟩ := List.mem_map.mp hName
  exact ⟨entry.2, mem_entries_iff.mp hEntry⟩

theorem get?_filter (p : String → Bool) (table : NameTable α) (name : String) :
    (table.filter p).get? name = if p name then table.get? name else none := by
  ext value
  rw [← mem_entries_iff]
  change (name, value) ∈ table.entries.filter (fun entry => p entry.1) ↔ _
  rw [List.mem_filter, mem_entries_iff]
  split <;> simp [*]

/-- Where each value is made from its name, it makes no difference how often a name comes. -/
theorem mem_entries_ofPairs_map {names : List String} {make : String → α} {name : String}
    {value : α} :
    (name, value) ∈ (ofPairs (names.map fun name => (name, make name))).entries ↔
      name ∈ names ∧ value = make name := by
  rw [mem_entries_iff, ofPairs, get?_insertAll, ← List.map_reverse]
  change Option.or _ none = some value ↔ _
  rw [Option.or_none]
  constructor
  · intro hFound
    obtain ⟨name, hName, hSame⟩ := List.mem_map.mp (mem_of_lookup hFound)
    cases hSame
    exact ⟨List.mem_reverse.mp hName, rfl⟩
  · rintro ⟨hName, rfl⟩
    exact List.lookup_graph make (List.mem_reverse.mpr hName)

/-- The entries of another table count more than those of the table. -/
theorem get?_insertAll_entries (table other : NameTable α) (name : String) :
    (table.insertAll other.entries).get? name = (other.get? name).or (table.get? name) := by
  have hReversed : (other.entries.reverse.map Prod.fst).Nodup := by
    rw [List.map_reverse]
    exact List.pairwise_reverse.mpr (other.names_nodup.imp Ne.symm)
  have hLookup : other.entries.reverse.lookup name = other.get? name := by
    ext value
    rw [lookup_eq_some_iff_mem hReversed, List.mem_reverse, mem_entries_iff]
  rw [get?_insertAll, hLookup]

theorem entries_nodup (table : NameTable α) : table.entries.Nodup :=
  List.Pairwise.of_map Prod.fst (fun _ _ hNames hSame => hNames (congrArg Prod.fst hSame))
    table.names_nodup

/-- A table is what stands under its names. -/
theorem ext_get? {table other : NameTable α} (h : ∀ name, table.get? name = other.get? name) :
    table = other := by
  apply eq_of_entries_perm
  apply (List.perm_ext_iff_of_nodup table.entries_nodup other.entries_nodup).mpr
  rintro ⟨name, value⟩
  rw [mem_entries_iff, mem_entries_iff, h]

/-- Adding some entries of a table to some others. -/
theorem insertAll_filter (table : NameTable α) (p q : String → Bool) :
    (table.filter p).insertAll (table.filter q).entries =
      table.filter fun name => p name || q name := by
  refine ext_get? fun name => ?_
  rw [get?_insertAll_entries, get?_filter, get?_filter, get?_filter]
  cases p name <;> cases q name <;> simp

end TreeSchema.NameTable

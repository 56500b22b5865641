/-! Tables by name. The entries are kept in the order of their names, so two
tables with the same entries are the same table. -/
namespace TreeSchema

/-- Values by name, in strictly increasing order of the names. -/
structure NameTable (α : Type) where
  entries : List (String × α)
  increasing : entries.Pairwise fun a b => a.1 < b.1
  deriving DecidableEq

namespace NameTable

variable {α β : Type}

def empty : NameTable α :=
  ⟨[], .nil⟩

instance : Inhabited (NameTable α) := ⟨empty⟩

/-- Put an entry in its place, over one of the same name. -/
def insertInto (name : String) (value : α) : List (String × α) → List (String × α)
  | [] => [(name, value)]
  | entry :: rest =>
      if name < entry.1 then (name, value) :: entry :: rest
      else if entry.1 < name then entry :: insertInto name value rest
      else (name, value) :: rest

theorem mem_insertInto {name : String} {value : α} {entries : List (String × α)}
    {entry : String × α} (h : entry ∈ insertInto name value entries) :
    entry = (name, value) ∨ entry ∈ entries := by
  induction entries with
  | nil => simpa [insertInto] using h
  | cons first rest ih =>
      unfold insertInto at h
      split at h
      · simpa using h
      · split at h
        · rcases List.mem_cons.mp h with rfl | h
          · simp
          · rcases ih h with rfl | h <;> simp [*]
        · rcases List.mem_cons.mp h with rfl | h <;> simp [*]

theorem insertInto_increasing (name : String) (value : α) {entries : List (String × α)}
    (h : entries.Pairwise fun a b => a.1 < b.1) :
    (insertInto name value entries).Pairwise fun a b => a.1 < b.1 := by
  induction entries with
  | nil => simp [insertInto]
  | cons first rest ih =>
      obtain ⟨below, rest_increasing⟩ := List.pairwise_cons.mp h
      unfold insertInto
      split
      · next before =>
          refine .cons (fun entry member => ?_) h
          rcases List.mem_cons.mp member with rfl | member
          · exact before
          · exact String.lt_trans before (below entry member)
      · next notBefore =>
          split
          · next after =>
              refine .cons (fun entry member => ?_) (ih rest_increasing)
              rcases mem_insertInto member with rfl | member
              · exact after
              · exact below entry member
          · next notAfter =>
              have same : name = first.1 :=
                String.le_antisymm (String.not_lt.mp notAfter) (String.not_lt.mp notBefore)
              exact .cons (fun entry member => same ▸ below entry member) rest_increasing

/-- Add an entry; a later one of the same name replaces an earlier one. -/
def insert (table : NameTable α) (name : String) (value : α) : NameTable α :=
  ⟨insertInto name value table.entries, insertInto_increasing name value table.increasing⟩

def insertAll (table : NameTable α) (pairs : List (String × α)) : NameTable α :=
  pairs.foldl (fun table (name, value) => table.insert name value) table

def ofPairs (pairs : List (String × α)) : NameTable α :=
  empty.insertAll pairs

def get? (table : NameTable α) (name : String) : Option α :=
  table.entries.lookup name

def names (table : NameTable α) : List String :=
  table.entries.map (·.1)

def filter (p : String → Bool) (table : NameTable α) : NameTable α where
  entries := table.entries.filter fun entry => p entry.1
  increasing := table.increasing.filter _

def map (f : α → β) (table : NameTable α) : NameTable β where
  entries := table.entries.map fun (name, value) => (name, f value)
  increasing := List.pairwise_map.mpr table.increasing

theorem mem_names_of_get? {table : NameTable α} {name : String} {value : α}
    (h : table.get? name = some value) : name ∈ table.names := by
  obtain ⟨before, after, split, -⟩ := List.lookup_eq_some_iff.mp h
  simp [names, split]

end NameTable

end TreeSchema

import Mathlib.Data.List.Nodup
import TreeSchema.FileTree

/-! The files of a tree of directories: a path of names leads to each of them, and in a
proper tree it leads to no other. -/
namespace TreeSchema.Entry

/-- Whether an entry is a file, and stands at the end of a path of names from another entry. -/
inductive StandsAt (file : Entry) : Entry → List String → Prop where
  | here (isFile : file.isFile = true) : StandsAt file file []
  | inside {entries : List (String × Entry)} {name : String} {next : Entry} {path : List String}
      (member : (name, next) ∈ entries) (rest : StandsAt file next path) :
      StandsAt file (.directory entries) (name :: path)

/-- Whether the names in each directory of a tree differ, and have no backslashes. -/
inductive Proper : Entry → Prop where
  | file (content : ByteArray) : Proper (.file content)
  | unreadable (fault : FileFault) : Proper (.unreadable fault)
  | directory {entries : List (String × Entry)} (distinct : (entries.map Prod.fst).Nodup)
      (names : ∀ e ∈ entries, '\\' ∉ e.1.toList) (below : ∀ e ∈ entries, Proper e.2) :
      Proper (.directory entries)

mutual

theorem mem_files {path : List String} {file : Entry} : (entry : Entry) →
    ((path, file) ∈ entry.files ↔ file.StandsAt entry path)
  | .directory entries => by
      rw [files, mem_filesIn entries]
      constructor
      · rintro ⟨name, below, rest, hMember, rfl, hRest⟩
        exact .inside hMember hRest
      · rintro (⟨hFile⟩ | ⟨hMember, hRest⟩)
        · cases hFile
        · exact ⟨_, _, _, hMember, rfl, hRest⟩
  | .file content => by
      rw [files, List.mem_singleton]
      constructor
      · rintro ⟨⟩
        exact .here rfl
      · rintro ⟨⟩
        rfl
  | .unreadable fault => by
      rw [files, List.mem_singleton]
      constructor
      · rintro ⟨⟩
        exact .here rfl
      · rintro ⟨⟩
        rfl

theorem mem_filesIn {path : List String} {file : Entry} : (entries : List (String × Entry)) →
    ((path, file) ∈ filesIn entries ↔
      ∃ name below rest, (name, below) ∈ entries ∧ path = name :: rest ∧ file.StandsAt below rest)
  | [] => by simp [filesIn]
  | (name, entry) :: others => by
      rw [filesIn, List.mem_append, mem_filesIn others]
      constructor
      · rintro (hFirst | ⟨name, below, rest, hMember, rfl, hRest⟩)
        · obtain ⟨⟨rest, found⟩, hFound, hSame⟩ := List.mem_map.mp hFirst
          cases hSame
          exact ⟨name, entry, rest, List.mem_cons_self, rfl, (mem_files entry).mp hFound⟩
        · exact ⟨name, below, rest, List.mem_cons_of_mem _ hMember, rfl, hRest⟩
      · rintro ⟨name', below, rest, hMember, rfl, hRest⟩
        rcases List.mem_cons.mp hMember with hSame | hMember
        · cases hSame
          exact .inl (List.mem_map.mpr ⟨(rest, file), (mem_files entry).mpr hRest, rfl⟩)
        · exact .inr ⟨name', below, rest, hMember, rfl, hRest⟩

end

theorem paths_filesIn (entries : List (String × Entry)) :
    (filesIn entries).map Prod.fst =
      entries.flatMap fun e => (e.2.files.map Prod.fst).map (e.1 :: ·) := by
  induction entries with
  | nil => rfl
  | cons first others ih =>
      rw [filesIn, List.map_append, ih, List.flatMap_cons, List.map_map, List.map_map]
      rfl

/-- In a proper tree, no path leads to two files. -/
theorem Proper.paths_nodup {root : Entry} (h : root.Proper) :
    (root.files.map Prod.fst).Nodup := by
  induction h with
  | file content => exact List.nodup_singleton _
  | unreadable fault => exact List.nodup_singleton _
  | directory distinct names below ih =>
      rw [files, paths_filesIn, List.nodup_flatMap]
      refine ⟨fun e hMember => (ih e hMember).map List.cons_injective, ?_⟩
      rw [List.Nodup, List.pairwise_map] at distinct
      refine distinct.imp fun hNames path hPath hPath' => hNames ?_
      obtain ⟨rest, -, rfl⟩ := List.mem_map.mp hPath
      obtain ⟨rest', -, hSame⟩ := List.mem_map.mp hPath'
      exact (List.cons.inj hSame).1.symm

/-- No name on a path to a file has a backslash. -/
theorem Proper.names {root file : Entry} {path : List String} (h : root.Proper)
    (hPath : file.StandsAt root path) : ∀ name ∈ path, '\\' ∉ name.toList := by
  induction hPath with
  | here isFile => exact fun _ hMember => absurd hMember List.not_mem_nil
  | inside member rest ih =>
      cases h with
      | directory distinct names below =>
          exact List.forall_mem_cons.mpr ⟨names _ member, ih (below _ member)⟩

end TreeSchema.Entry

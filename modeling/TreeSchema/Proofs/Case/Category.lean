import Mathlib.Data.List.Flatten
import TreeSchema.Case.Suite
import TreeSchema.Proofs.FileTree
import TreeSchema.Proofs.NameTable
import TreeSchema.Proofs.Text.Trim

/-! The categories of the cases in a directory. The walk through the directory finds each case
file once, in the category of the directory where it stands, and going through the requests
selects the categories that they are for. -/
namespace TreeSchema

namespace CaseFile

variable {root : Entry} {file : CaseFile}

/-- Whether a file is a case file of a directory, at any depth. -/
structure IsIn (root : Entry) (file : CaseFile) : Prop where
  stands : file.entry.StandsAt root file.path
  named : ∃ name, file.path.getLast? = some name ∧ ".test.toml".toList <:+ name.toList

/-- The path of the directory where a file stands, with slashes between its names. -/
def directory (file : CaseFile) : String :=
  String.intercalate "/" file.path.dropLast

theorem backslash_notMem {names : List String} (h : ∀ name ∈ names, '\\' ∉ name.toList) :
    '\\' ∉ (String.intercalate "/" names).toList := by
  induction names with
  | nil => exact List.not_mem_nil
  | cons name others ih =>
      obtain ⟨hName, hOthers⟩ := List.forall_mem_cons.mp h
      cases others with
      | nil => rwa [String.intercalate_singleton]
      | cons next others =>
          rw [String.intercalate_cons_cons, String.toList_append, String.toList_append,
            List.mem_append, List.mem_append]
          rintro ((hMember | hMember) | hMember)
          · exact hName hMember
          · exact absurd hMember (by decide)
          · exact ih hOthers hMember

/-- Without backslashes in names, a category is a path. -/
theorem category_of_proper (hProper : root.Proper) (hIn : file.IsIn root) :
    file.category = file.directory := by
  have hNone : '\\' ∉ file.directory.toList :=
    backslash_notMem fun name hName =>
      hProper.names hIn.stands name (List.dropLast_subset _ hName)
  have hSame : ∀ c ∈ file.directory.toList, (if c = '\\' then '/' else c) = id c := by
    intro c hMember
    rw [if_neg (ne_of_mem_of_not_mem hMember hNone)]
    rfl
  rw [category, ← directory, List.map_congr_left hSame, List.map_id, String.ofList_toList]

end CaseFile

namespace Suite

/-- All files of a suite. -/
def files (suite : Suite) : List CaseFile :=
  suite.entries.flatMap Prod.snd

/-! The case files of a directory. -/

/-- The case files among some files, with paths that go on from `path`. -/
def caseFilesFrom (path : List String) (found : List (List String × Entry)) : List CaseFile :=
  (found.filter fun e => (path ++ e.1).getLast?.any isCaseName).map fun e => ⟨path ++ e.1, e.2⟩

def caseFiles (root : Entry) : List CaseFile :=
  caseFilesFrom [] root.files

theorem foldl_caseFilesFrom_singleton (path rest : List String) (entry : Entry) (suite : Suite) :
    (caseFilesFrom path [(rest, entry)]).foldl add suite = suite.addNamed (path ++ rest) entry := by
  rw [caseFilesFrom, addNamed, List.filter_cons]
  split <;> rfl

theorem caseFilesFrom_inside (path : List String) (name : String)
    (found : List (List String × Entry)) :
    caseFilesFrom path (found.map fun (rest, entry) => (name :: rest, entry)) =
      caseFilesFrom (path ++ [name]) found := by
  simp only [caseFilesFrom, List.filter_map, List.map_map, Function.comp_def, List.append_assoc,
    List.singleton_append]

mutual

/-- Going through a directory is going through its case files. -/
theorem collect_eq (path : List String) : (entry : Entry) → (suite : Suite) →
    collect path entry suite = (caseFilesFrom path entry.files).foldl add suite
  | .directory entries, suite => by
      rw [collect, Entry.files]
      exact collectIn_eq path entries suite
  | .file content, suite => by
      rw [collect, Entry.files, foldl_caseFilesFrom_singleton, List.append_nil]
  | .unreadable fault, suite => by
      rw [collect, Entry.files, foldl_caseFilesFrom_singleton, List.append_nil]

theorem collectIn_eq (path : List String) : (entries : List (String × Entry)) →
    (suite : Suite) →
    collectIn path entries suite = (caseFilesFrom path (Entry.filesIn entries)).foldl add suite
  | [], suite => rfl
  | (name, entry) :: others, suite => by
      have hAppend (first second : List (List String × Entry)) :
          caseFilesFrom path (first ++ second) =
            caseFilesFrom path first ++ caseFilesFrom path second := by
        rw [caseFilesFrom, List.filter_append, List.map_append]
        rfl
      rw [collectIn, collectIn_eq path others, collect_eq (path ++ [name]) entry, Entry.filesIn,
        hAppend, List.foldl_append, caseFilesFrom_inside]

end

theorem mem_caseFiles {root : Entry} {file : CaseFile} :
    file ∈ caseFiles root ↔ file.IsIn root := by
  rw [caseFiles, caseFilesFrom, List.mem_map]
  constructor
  · rintro ⟨⟨path, entry⟩, hFound, rfl⟩
    obtain ⟨hFile, hNamed⟩ := List.mem_filter.mp hFound
    obtain ⟨name, hLast, hName⟩ := (Option.any_eq_true _ _).mp hNamed
    exact ⟨(Entry.mem_files root).mp hFile, name, hLast, List.isSuffixOf_iff_suffix.mp hName⟩
  · rintro ⟨hStands, name, hLast, hName⟩
    refine ⟨(file.path, file.entry), List.mem_filter.mpr ⟨?_, ?_⟩, rfl⟩
    · exact (Entry.mem_files root).mpr hStands
    · exact (Option.any_eq_true _ _).mpr ⟨name, hLast, List.isSuffixOf_iff_suffix.mpr hName⟩

theorem paths_caseFiles_nodup {root : Entry} (h : root.Proper) :
    ((caseFiles root).map CaseFile.path).Nodup := by
  rw [caseFiles, caseFilesFrom, List.map_map]
  exact h.paths_nodup.sublist (List.filter_sublist.map _)

/-! Categories. -/

/-- Case files by category, as they are to be found. -/
def grouped (files : List CaseFile) : Suite :=
  .ofPairs (files.map fun file => (file.category, files.filter (·.category = file.category)))

theorem mem_grouped {files group : List CaseFile} {category : String} :
    (category, group) ∈ (grouped files).entries ↔
      group = files.filter (·.category = category) ∧ group ≠ [] := by
  have hPairs : grouped files = .ofPairs ((files.map CaseFile.category).map
      fun category => (category, files.filter (·.category = category))) := by
    rw [grouped, List.map_map]
    rfl
  rw [hPairs, NameTable.mem_entries_ofPairs_map, and_comm]
  refine and_congr_right ?_
  rintro rfl
  constructor
  · intro hCategory
    obtain ⟨file, hFile, rfl⟩ := List.mem_map.mp hCategory
    exact List.ne_nil_of_mem (List.mem_filter.mpr ⟨hFile, decide_eq_true rfl⟩)
  · intro hSome
    obtain ⟨file, hMember⟩ := List.exists_mem_of_ne_nil _ hSome
    obtain ⟨hFile, hCategory⟩ := List.mem_filter.mp hMember
    exact List.mem_map.mpr ⟨file, hFile, of_decide_eq_true hCategory⟩

theorem get?_grouped (files : List CaseFile) (category : String) :
    (grouped files).get? category =
      let group := files.filter (·.category = category)
      if group = [] then none else some group := by
  ext group
  rw [← NameTable.mem_entries_iff, mem_grouped]
  dsimp only
  split
  · next hNone =>
      rw [hNone]
      exact ⟨fun ⟨hGroup, hSome⟩ => absurd hGroup hSome, fun hGroup => by cases hGroup⟩
  · next hSome =>
      rw [Option.some_inj, eq_comm]
      exact ⟨And.left, fun hGroup => ⟨hGroup, hGroup ▸ hSome⟩⟩

/-- Adding files one after the other groups them. -/
theorem foldl_add (files : List CaseFile) : files.foldl add .empty = grouped files := by
  induction files using List.reverseRecOn with
  | nil => rfl
  | append_singleton files file ih =>
      rw [List.foldl_append, List.foldl_cons, List.foldl_nil, ih]
      refine NameTable.ext_get? fun category => ?_
      rw [add, NameTable.get?_insert, get?_grouped, get?_grouped, get?_grouped]
      by_cases hSame : category = file.category
      · subst hSame
        rw [if_pos rfl]
        by_cases hNone : files.filter (·.category = file.category) = []
        · simp [List.filter_append, hNone]
        · simp [List.filter_append, hNone]
      · simp [List.filter_append, hSame, Ne.symm hSame]

/-- The case files of a category, in the order of their paths. -/
def filesOf (root : Entry) (category : String) : List CaseFile :=
  ((caseFiles root).filter (·.category = category)).mergeSort fun a b => pathLe a.path b.path

/-- The walk through a directory finds its case files by category. -/
theorem discover_eq (root : Entry) :
    discover root = (grouped (caseFiles root)).map
      fun files => files.mergeSort fun a b => pathLe a.path b.path := by
  rw [discover, collect_eq, ← foldl_add]
  rfl

theorem mem_discover {root : Entry} {category : String} {files : List CaseFile} :
    (category, files) ∈ (discover root).entries ↔ files = filesOf root category ∧ files ≠ [] := by
  have hNone (group : List CaseFile) :
      group.mergeSort (fun a b => pathLe a.path b.path) = [] ↔ group = [] := by
    rw [← List.length_eq_zero_iff, List.length_mergeSort, List.length_eq_zero_iff]
  rw [NameTable.mem_entries_iff, discover_eq, NameTable.get?_map, Option.map_eq_some_iff]
  simp only [← NameTable.mem_entries_iff, mem_grouped]
  constructor
  · rintro ⟨group, ⟨rfl, hSome⟩, rfl⟩
    exact ⟨rfl, (hNone _).not.mpr hSome⟩
  · rintro ⟨rfl, hSome⟩
    exact ⟨_, ⟨rfl, (hNone _).not.mp hSome⟩, rfl⟩

theorem mem_of_mem_discover {root : Entry} {category : String} {files : List CaseFile}
    (h : (category, files) ∈ (discover root).entries) {file : CaseFile} :
    file ∈ files ↔ file.IsIn root ∧ file.category = category := by
  rw [(mem_discover.mp h).1, filesOf, (List.mergeSort_perm _ _).mem_iff, List.mem_filter,
    mem_caseFiles, decide_eq_true_iff]

theorem exists_mem_discover {root : Entry} {file : CaseFile} (h : file.IsIn root) :
    ∃ files, (file.category, files) ∈ (discover root).entries ∧ file ∈ files := by
  have hMember : file ∈ filesOf root file.category :=
    (List.mergeSort_perm _ _).mem_iff.mpr
      (List.mem_filter.mpr ⟨mem_caseFiles.mpr h, decide_eq_true rfl⟩)
  exact ⟨_, mem_discover.mpr ⟨rfl, List.ne_nil_of_mem hMember⟩, hMember⟩

/-- No file is in two categories, or twice in one. -/
theorem paths_files_discover_nodup {root : Entry} (h : root.Proper) :
    ((discover root).files.map CaseFile.path).Nodup := by
  rw [files, List.map_flatMap, List.nodup_flatMap]
  constructor
  · rintro ⟨category, files⟩ hMember
    rw [(mem_discover.mp hMember).1, filesOf, ((List.mergeSort_perm _ _).map _).nodup_iff]
    exact (paths_caseFiles_nodup h).sublist (List.filter_sublist.map _)
  · have hNames := (discover root).names_nodup
    rw [NameTable.names, List.Nodup, List.pairwise_map] at hNames
    refine hNames.imp_of_mem fun hMember hMember' hDifferent path hPath hPath' => hDifferent ?_
    obtain ⟨file, hFile, rfl⟩ := List.mem_map.mp hPath
    obtain ⟨file', hFile', hSame⟩ := List.mem_map.mp hPath'
    rw [← ((mem_of_mem_discover hMember).mp hFile).2,
      ← ((mem_of_mem_discover hMember').mp hFile').2, CaseFile.category, CaseFile.category, hSame]

/-! Requests. -/

/-- Whether a text is a request without the slashes around it. -/
def IsStripped (core request : String) : Prop :=
  Text.Bare (· = '/') core.toList ∧ Text.Wraps (· = '/') core.toList request.toList

/-- Whether a category is requested, by its own name or by that of a category above it. -/
def Requested (requests : List String) (category : String) : Prop :=
  requests = [] ∨ ∃ request ∈ requests, ∃ core, IsStripped core request ∧
    (category = core ∨ core.toList ++ ['/'] <+: category.toList)

theorem trimRequest_eq_iff {request core : String} :
    trimRequest request = core ↔ IsStripped core request := by
  rw [trimRequest, IsStripped, ← Text.trimBy_eq_iff]
  constructor
  · rintro rfl
    rw [String.toList_ofList]
  · intro hCore
    rw [hCore, String.ofList_toList]

theorem isFor_iff {request category : String} :
    isFor request category = true ↔
      category = request ∨ request.toList ++ ['/'] <+: category.toList := by
  rw [isFor, Bool.or_eq_true, decide_eq_true_iff, List.isPrefixOf_iff_prefix, String.toList_append]
  rfl

/-- What some requests select, and those that select nothing. -/
def matching (suite : Suite) (requests : List String) : Selection where
  suite :=
    if requests.isEmpty then suite
    else suite.filter fun category => requests.any fun request => isFor request category
  unmatched := requests.filter fun request => !suite.names.any (isFor request)

/-- Going through categories takes up those that the request is for. -/
theorem foldl_takeFor (request : String) (categories : List (String × List CaseFile))
    (taken : Suite × Bool) :
    categories.foldl (takeFor request) taken =
      (taken.1.insertAll (categories.filter fun e => isFor request e.1),
        taken.2 || categories.any fun e => isFor request e.1) := by
  induction categories generalizing taken with
  | nil => exact Prod.ext rfl (Bool.or_false _).symm
  | cons first others ih =>
      rw [List.foldl_cons, ih, takeFor]
      cases hFor : isFor request first.1 with
      | true => simp [hFor, NameTable.insertAll]
      | false => simp [hFor]

/-- One request adds the categories that it is for to those that others are for. -/
theorem add_filter (suite : Suite) (p : String → Bool) (unmatched : List String)
    (request : String) :
    Selection.add suite ⟨suite.filter p, unmatched⟩ request =
      { suite := suite.filter fun category => p category || isFor (trimRequest request) category
        unmatched := unmatched ++
          [trimRequest request].filter fun request => !suite.names.any (isFor request) } := by
  have hSuite : (suite.filter p).insertAll
        (suite.entries.filter fun e => isFor (trimRequest request) e.1) =
      suite.filter fun category => p category || isFor (trimRequest request) category :=
    suite.insertAll_filter p (isFor (trimRequest request))
  have hFound : suite.entries.any (fun e => isFor (trimRequest request) e.1) =
      suite.names.any (isFor (trimRequest request)) := by
    rw [NameTable.names, List.any_map]
    rfl
  simp only [Selection.add, foldl_takeFor, hSuite, hFound, Bool.false_or]
  cases hNamed : suite.names.any (isFor (trimRequest request)) <;> simp [hNamed]

/-- Going through the requests selects what they match. -/
theorem select_eq (suite : Suite) (requests : List String) :
    suite.select requests = suite.matching (requests.map trimRequest) := by
  have hFold : requests.foldl (Selection.add suite) {} =
      { suite := suite.filter fun category => (requests.map trimRequest).any (isFor · category)
        unmatched := (requests.map trimRequest).filter fun request =>
          !suite.names.any (isFor request) } := by
    induction requests using List.reverseRecOn with
    | nil =>
        have hEmpty : suite.filter (fun _ => false) = .empty :=
          NameTable.ext_get? fun category => NameTable.get?_filter ..
        exact congrArg (Selection.mk · []) hEmpty.symm
    | append_singleton requests request ih =>
        rw [List.foldl_append, List.foldl_cons, List.foldl_nil, ih, add_filter, List.map_append,
          List.filter_append]
        simp only [List.any_append, List.map_cons, List.map_nil, List.any_cons, List.any_nil,
          Bool.or_false]
  cases requests with
  | nil => rfl
  | cons first others => exact hFold

theorem mem_select {suite : Suite} {requests : List String} {category : String}
    {files : List CaseFile} :
    (category, files) ∈ (suite.select requests).suite.entries ↔
      (category, files) ∈ suite.entries ∧ Requested requests category := by
  rw [select_eq]
  cases requests with
  | nil => exact ⟨fun hMember => ⟨hMember, .inl rfl⟩, And.left⟩
  | cons first others =>
      change _ ∈ suite.entries.filter _ ↔ _
      rw [List.mem_filter]
      refine and_congr_right fun _ => ?_
      change (List.map trimRequest (first :: others)).any (isFor · category) = true ↔ _
      rw [List.any_map, List.any_eq_true, Requested]
      simp only [Function.comp_apply, isFor_iff, ← trimRequest_eq_iff, exists_eq_left',
        List.cons_ne_nil, false_or]

/-- Neither the order of the requests nor how often one is made makes a difference to what is
selected. -/
theorem select_congr (suite : Suite) {requests requests' : List String}
    (h : ∀ request, request ∈ requests ↔ request ∈ requests') :
    (suite.select requests).suite = (suite.select requests').suite := by
  have hRequested (category : String) :
      Requested requests category ↔ Requested requests' category := by
    have hEmpty : requests = [] ↔ requests' = [] := by
      simp only [List.eq_nil_iff_forall_not_mem, h]
    simp only [Requested, hEmpty, h]
  refine NameTable.ext_get? fun category => Option.ext fun files => ?_
  rw [← NameTable.mem_entries_iff, ← NameTable.mem_entries_iff, mem_select, mem_select,
    hRequested]

theorem select_sublist (suite : Suite) (requests : List String) :
    (suite.select requests).suite.entries.Sublist suite.entries := by
  rw [select_eq, matching]
  dsimp only
  split
  · exact .refl _
  · exact List.filter_sublist

/-- What is selected are the case files in the categories that are requested. -/
theorem mem_files_select {root : Entry} (h : root.Proper) {requests : List String}
    {file : CaseFile} :
    file ∈ ((discover root).select requests).suite.files ↔
      file.IsIn root ∧ Requested requests file.directory := by
  rw [files, List.mem_flatMap]
  constructor
  · rintro ⟨⟨category, files⟩, hSelected, hFile⟩
    obtain ⟨hMember, hRequested⟩ := mem_select.mp hSelected
    obtain ⟨hIn, rfl⟩ := (mem_of_mem_discover hMember).mp hFile
    rw [CaseFile.category_of_proper h hIn] at hRequested
    exact ⟨hIn, hRequested⟩
  · rintro ⟨hIn, hRequested⟩
    obtain ⟨files, hMember, hFile⟩ := exists_mem_discover hIn
    rw [← CaseFile.category_of_proper h hIn] at hRequested
    exact ⟨_, mem_select.mpr ⟨hMember, hRequested⟩, hFile⟩

theorem paths_files_select_nodup {root : Entry} (h : root.Proper) (requests : List String) :
    (((discover root).select requests).suite.files.map CaseFile.path).Nodup :=
  (paths_files_discover_nodup h).sublist
    ((((discover root).select_sublist requests).flatMap _).map _)

end Suite

end TreeSchema

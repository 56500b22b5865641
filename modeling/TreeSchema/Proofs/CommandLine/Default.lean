import TreeSchema.CommandLine.Invocation

/-! Invocations that name no command. What is given to `check` can be given in any order, and
`check` itself may be left out. It is put in front of the arguments, unless the first of them
that does not look like an option is the value of one and reads like a command. -/
namespace TreeSchema.CommandLine

namespace OptionSpec

/-- The ways in which an option is written. -/
def spellings (o : OptionSpec) : List String :=
  ("--" ++ o.long) :: o.short.toList.map fun c => "-" ++ c.toString

def isSwitch (o : OptionSpec) : Bool :=
  o.kind = .switch

def takesValue (o : OptionSpec) : Bool :=
  match o.kind with
  | .value _ => true
  | _ => false

end OptionSpec

/-- How the switches of `check` are written. -/
def switchNames : List String :=
  (checkSpec.options.filter OptionSpec.isSwitch).flatMap OptionSpec.spellings

/-- How the options of `check` that take a value are written. -/
def optionNames : List String :=
  (checkSpec.options.filter OptionSpec.takesValue).flatMap OptionSpec.spellings

theorem switchNames_eq : switchNames = ["--schema", "--quiet", "-q", "--no-color"] := rfl

theorem optionNames_eq : optionNames = ["--atoms", "--atom"] := rfl

/-- One of the things that are given to a command, with each value in an argument of its own. -/
inductive Part where
  | switch (name : String)
  | option (name value : String)
  | positional (text : String)
  deriving DecidableEq, Repr

namespace Part

def arguments : Part → List String
  | switch name => [name]
  | option name value => [name, value]
  | positional text => [text]

def positional? : Part → Option String
  | positional text => some text
  | _ => none

/-- Whether `check` takes what is given. No value and no positional argument starts with a
hyphen. -/
def Taken : Part → Prop
  | switch name => name ∈ switchNames
  | option name value => name ∈ optionNames ∧ isHyphenated value = false
  | positional text => isHyphenated text = false

instance : (part : Part) → Decidable part.Taken
  | switch name => inferInstanceAs (Decidable (name ∈ switchNames))
  | option name value =>
      inferInstanceAs (Decidable (name ∈ optionNames ∧ isHyphenated value = false))
  | positional text => inferInstanceAs (Decidable (isHyphenated text = false))

end Part

/-- The value that is given before all positional arguments, the first if there are several. -/
def leadingValue? : List Part → Option String
  | .switch _ :: parts => leadingValue? parts
  | .option _ value :: _ => some value
  | _ => none

/-- An invocation of `check` on a tree, with or without a type, that leaves `check` out. -/
structure Bare (parts : List Part) (tree : String) (type? : Option String) : Prop where
  taken : ∀ part ∈ parts, part.Taken
  positionals : parts.filterMap Part.positional? = tree :: type?.toList
  notCommand : tree ∉ commandNames

theorem isHyphenated_of_mem_spellings {options : List OptionSpec} {name : String}
    (h : name ∈ options.flatMap OptionSpec.spellings) : isHyphenated name = true := by
  obtain ⟨o, -, hSpelled⟩ := List.mem_flatMap.mp h
  rcases List.mem_cons.mp hSpelled with rfl | hShort
  · simp [isHyphenated]
  · obtain ⟨c, -, rfl⟩ := List.mem_map.mp hShort
    simp [isHyphenated]

/-- The first argument that does not look like an option is the leading value or, if there is
none, the first positional argument. -/
theorem find?_arguments {parts : List Part} (hTaken : ∀ part ∈ parts, part.Taken) :
    (parts.flatMap Part.arguments).find? (fun argument => !isHyphenated argument) =
      (leadingValue? parts).or (parts.filterMap Part.positional?).head? := by
  induction parts with
  | nil => rfl
  | cons part parts ih =>
      obtain ⟨hPart, hOthers⟩ := List.forall_mem_cons.mp hTaken
      rw [List.flatMap_cons]
      cases part with
      | switch name =>
          have hName : isHyphenated name = true := isHyphenated_of_mem_spellings hPart
          rw [Part.arguments, List.singleton_append, List.find?_cons_of_neg (by simp [hName]),
            ih hOthers]
          rfl
      | option name value =>
          have hName : isHyphenated name = true := isHyphenated_of_mem_spellings hPart.1
          rw [Part.arguments, List.cons_append, List.singleton_append,
            List.find?_cons_of_neg (by simp [hName]), List.find?_cons_of_pos (by simp [hPart.2])]
          rfl
      | positional text =>
          have hText : isHyphenated text = false := hPart
          rw [Part.arguments, List.singleton_append, List.find?_cons_of_pos (by simp [hText])]
          rfl

/-- The one switch of `check` that can also stand in front of a command, but only once. -/
theorem takeArguments_noColor (given : Arguments) (rest : List String) :
    takeArguments programSpec false ⟨given, none⟩ ("--no-color" :: rest) =
      if given.has Options.noColor.long then .error (.usage (.repeated "--no-color"))
      else takeArguments programSpec false
        ⟨{ given with switches := given.switches ++ [Options.noColor.long] }, none⟩ rest := by
  change (Progress.takeOption ⟨given, none⟩ Options.noColor none >>=
    fun p => takeArguments programSpec false p rest) = _
  have hTake : Progress.takeOption ⟨given, none⟩ Options.noColor none =
      if given.has Options.noColor.long then .error (.usage (.repeated "--no-color"))
      else .ok ⟨{ given with switches := given.switches ++ [Options.noColor.long] }, none⟩ := rfl
  rw [hTake]
  split <;> rfl

/-- In front of a command, an option that takes a value is refused at the latest. -/
theorem takeArguments_of_leadingValue {parts : List Part} {value : String}
    (hTaken : ∀ part ∈ parts, part.Taken) (hValue : leadingValue? parts = some value)
    (given : Arguments) :
    ∃ error, takeArguments programSpec false ⟨given, none⟩ (parts.flatMap Part.arguments) =
      .error (.usage error) := by
  induction parts generalizing given with
  | nil => cases hValue
  | cons part parts ih =>
      obtain ⟨hPart, hOthers⟩ := List.forall_mem_cons.mp hTaken
      rw [List.flatMap_cons]
      cases part with
      | switch name =>
          simp only [Part.Taken, switchNames_eq, List.mem_cons, List.not_mem_nil, or_false]
            at hPart
          -- all but `--no-color` are unknown in front of a command
          rcases hPart with rfl | rfl | rfl | rfl
          · exact ⟨_, rfl⟩
          · exact ⟨_, rfl⟩
          · exact ⟨_, rfl⟩
          · rw [Part.arguments, List.singleton_append, takeArguments_noColor]
            split
            · exact ⟨_, rfl⟩
            · exact ih hOthers hValue _
      | option name value =>
          simp only [Part.Taken, optionNames_eq, List.mem_cons, List.not_mem_nil, or_false]
            at hPart
          rcases hPart.1 with rfl | rfl
          · exact ⟨_, rfl⟩
          · exact ⟨_, rfl⟩
      | positional text => cases hValue

namespace Bare

variable {parts : List Part} {tree : String} {type? : Option String}

theorem find?_eq (h : Bare parts tree type?) :
    (parts.flatMap Part.arguments).find? (fun argument => !isHyphenated argument) =
      (leadingValue? parts).or (some tree) := by
  rw [find?_arguments h.taken, h.positionals, List.head?_cons]

theorem insertDefault_eq_check (h : Bare parts tree type?)
    (hPlain : ∀ value ∈ leadingValue? parts, value ∉ commandNames) :
    insertDefault (parts.flatMap Part.arguments) = "check" :: parts.flatMap Part.arguments := by
  rw [insertDefault, h.find?_eq]
  cases hValue : leadingValue? parts with
  | none => simp [h.notCommand]
  | some value => simp [hPlain value hValue]

theorem insertDefault_eq_self (h : Bare parts tree type?)
    (hCommand : ∃ value ∈ leadingValue? parts, value ∈ commandNames) :
    insertDefault (parts.flatMap Part.arguments) = parts.flatMap Part.arguments := by
  obtain ⟨value, hValue, hCommand⟩ := hCommand
  rw [insertDefault, h.find?_eq, hValue]
  simp [hCommand]

/-- What is given to `check` is read as it would be after `check` or, where that is not put in
front, it is refused. -/
theorem read_eq (h : Bare parts tree type?) :
    let arguments := parts.flatMap Part.arguments
    ((∀ value ∈ leadingValue? parts, value ∉ commandNames) →
      read arguments = read ("check" :: arguments)) ∧
    ((∃ value ∈ leadingValue? parts, value ∈ commandNames) →
      ∃ error, read arguments = .error error) := by
  intro arguments
  refine ⟨fun hPlain => ?_, fun hCommand => ?_⟩
  · have hAgain : insertDefault ("check" :: arguments) = "check" :: arguments := rfl
    rw [read, read, h.insertDefault_eq_check hPlain, hAgain]
  · have hKept : insertDefault arguments = arguments := h.insertDefault_eq_self hCommand
    obtain ⟨value, hValue, -⟩ := hCommand
    obtain ⟨error, hError⟩ := takeArguments_of_leadingValue h.taken hValue {}
    exact ⟨error, by rw [read, hKept, hError]⟩

end Bare

/-- Whatever is given to `check`, in whatever order, `check` is put in front of it, unless the
value of an option comes first and is itself the name of a command. In that case nothing is put
in front. -/
theorem insertDefault_bare {parts : List Part} {tree : String} {type? : Option String}
    (h : Bare parts tree type?) :
    let arguments := parts.flatMap Part.arguments
    ((∀ value ∈ leadingValue? parts, value ∉ commandNames) →
      insertDefault arguments = "check" :: arguments) ∧
    ((∃ value ∈ leadingValue? parts, value ∈ commandNames) →
      insertDefault arguments = arguments) :=
  ⟨h.insertDefault_eq_check, h.insertDefault_eq_self⟩

/-- A file of definitions that is given before the tree may be called `defs`, but not `check`.
After the tree any value may stand. -/
theorem insertDefault_bare_file :
    (Bare [.switch "--no-color", .option "--atoms" "defs", .positional "nil",
        .option "--atom" "check", .switch "-q", .positional "b"] "nil" (some "b") ∧
      insertDefault ["--no-color", "--atoms", "defs", "nil", "--atom", "check", "-q", "b"] =
        ["check", "--no-color", "--atoms", "defs", "nil", "--atom", "check", "-q", "b"]) ∧
    Bare [.switch "--no-color", .option "--atoms" "check", .positional "nil"] "nil" none ∧
      insertDefault ["--no-color", "--atoms", "check", "nil"] =
        ["--no-color", "--atoms", "check", "nil"] := by
  have hBare : Bare [.switch "--no-color", .option "--atoms" "defs", .positional "nil",
      .option "--atom" "check", .switch "-q", .positional "b"] "nil" (some "b") :=
    ⟨by decide, rfl, by decide⟩
  have hOther : Bare [.switch "--no-color", .option "--atoms" "check", .positional "nil"] "nil"
      none := ⟨by decide, rfl, by decide⟩
  exact ⟨⟨hBare, (insertDefault_bare hBare).1 (by decide)⟩, hOther,
    (insertDefault_bare hOther).2 ⟨"check", rfl, by decide⟩⟩

/-- The file of definitions is called `test`, so `check` is not put in front. -/
theorem insertDefault_file_named_test :
    Bare [.option "--atoms" "test", .positional "nil", .positional "b"] "nil" (some "b") ∧
      insertDefault ["--atoms", "test", "nil", "b"] ≠
        ["check", "--atoms", "test", "nil", "b"] :=
  ⟨⟨by decide, rfl, by decide⟩, by decide⟩

end TreeSchema.CommandLine

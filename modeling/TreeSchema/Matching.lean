import TreeSchema.NameTable
import TreeSchema.Reading.Basic

/-! Reading a tree by a schema. A tree that does not fit is read all the same;
the nodes that do not fit carry a mismatch, and the outcome says that there are
some. Names may stand for schemas that mention them again, so a name that comes
back before anything of the tree was taken apart is refused: nothing could be
gained from following it. -/
namespace TreeSchema

/-- The schemas that names stand for. -/
abbrev Definitions := NameTable Schema

/-- A reading, and whether anything in it did not fit. -/
structure Outcome where
  reading : Reading
  failed : Bool

namespace Outcome

def fits (reading : Reading) : Outcome :=
  ⟨reading, false⟩

def fails (reading : Reading) (m : Mismatch) : Outcome :=
  ⟨reading.withMismatch m, true⟩

/-- The tree as it stands, refused. -/
def refuse (t : Tree) (m : Mismatch) : Outcome :=
  fails (.ofTree t) m

def viaName (o : Outcome) (name : String) : Outcome :=
  { o with reading := o.reading.viaName name }

def ofPair (left right : Outcome) : Outcome :=
  ⟨.ofPair left.reading right.reading, left.failed || right.failed⟩

def ofItems (items : List Outcome) : Outcome :=
  ⟨.ofItems (items.map reading), items.any failed⟩

end Outcome

/-- Read a tree as a number, or as the number that is wanted. -/
def matchNumber (wanted : Option UInt64) (t : Tree) : Outcome :=
  match t.number?, wanted with
  | none, _ => .refuse t .notNumber
  | some n, some want =>
      if n = want then .fits (.ofValue (.number n))
      else .fails (.ofValue (.number n)) (.otherThan want)
  | some n, none => .fits (.ofValue (.number n))

/-- Read a tree as a boolean, or as the boolean that is wanted. -/
def matchBoolean (wanted : Option Bool) (t : Tree) : Outcome :=
  match t.bool?, wanted with
  | some b, none => .fits (.ofValue (.boolean b))
  | some b, some want =>
      if b = want then .fits (.ofValue (.boolean b)) else .refuse t (.notThe want)
  | none, some want => .refuse t (.notThe want)
  | none, none => .refuse t .notBoolean

inductive BuiltIn where
  | nil
  | any
  | int
  | true
  | false
  | bool
  deriving DecidableEq, Repr

namespace BuiltIn

/-- The names that need no definition. -/
def names : List String :=
  ["nil", "any", "int", "true", "false", "bool", "boolean"]

/-- The built-in type of a name. Booleans have two names. -/
def ofName? : String → Option BuiltIn
  | "nil" => some nil
  | "any" => some any
  | "int" => some int
  | "true" => some true
  | "false" => some false
  | "bool" | "boolean" => some bool
  | _ => none

def decode (t : Tree) : BuiltIn → Outcome
  | nil => if t = .nil then .fits (.ofValue .nil) else .refuse t .notNil
  | any => .fits (.ofTree t)
  | int => matchNumber none t
  | true => matchBoolean (some Bool.true) t
  | false => matchBoolean (some Bool.false) t
  | bool => matchBoolean none t

end BuiltIn

/-- How many defined names are not being expanded. -/
def Definitions.unexpanded (definitions : Definitions) (expanding : List String) : Nat :=
  definitions.names.countP (· ∉ expanding)

theorem Definitions.unexpanded_cons_lt {definitions : Definitions} {expanding : List String}
    {name : String} (defined : name ∈ definitions.names) (fresh : name ∉ expanding) :
    definitions.unexpanded (name :: expanding) < definitions.unexpanded expanding := by
  unfold unexpanded
  generalize definitions.names = names at defined
  induction names with
  | nil => simp at defined
  | cons first rest ih =>
      have le : rest.countP (· ∉ name :: expanding) ≤ rest.countP (· ∉ expanding) :=
        List.countP_mono_left fun other _ h => by simp_all
      by_cases same : first = name
      · subst same
        simp only [List.countP_cons, List.mem_cons, true_or, not_true_eq_false, decide_false,
          Bool.false_eq_true, if_false, fresh, not_false_eq_true, decide_true, if_true]
        simp only [List.mem_cons] at le
        omega
      · have := ih (List.mem_of_ne_of_mem (Ne.symm same) defined)
        simp only [List.countP_cons, List.mem_cons, same, false_or]
        simp only [List.mem_cons] at this
        omega

mutual

/-- Read a tree by a schema. The names in `expanding` have been entered at this
very node; below the node, none have. -/
def Schema.decode (definitions : Definitions) (expanding : List String) :
    Schema → Tree → Outcome
  | .choice [only], t => only.decode definitions expanding t
  | .choice alternatives, t =>
      (Alternative.firstFit definitions expanding alternatives t).getD
        (.refuse t (.noneOf alternatives))
  | .list item, t =>
      .ofItems (t.items.attach.map fun ⟨t', member⟩ =>
        have := Tree.sizeOf_lt_of_mem_items member
        item.decode definitions [] t')
  | .pair _ _, .nil => .fails (.ofValue .nil) .notPair
  | .pair left right, .node l r =>
      .ofPair (left.decode definitions [] l) (right.decode definitions [] r)
  termination_by s t => (sizeOf t, definitions.unexpanded expanding, sizeOf s)

/-- Read a tree by an alternative. Built-in types come before definitions. -/
def Alternative.decode (definitions : Definitions) (expanding : List String) :
    Alternative → Tree → Outcome
  | .schema s, t => s.decode definitions expanding t
  | .atom (.number n), t => matchNumber (some n) t
  | .atom (.named name), t =>
      match BuiltIn.ofName? name with
      | some builtIn => builtIn.decode t
      | none =>
          match found : definitions.get? name with
          | none => .refuse t (.unknown name)
          | some s =>
              if fresh : name ∈ expanding then .refuse t (.circular name)
              else
                have := Definitions.unexpanded_cons_lt (NameTable.mem_names_of_get? found) fresh
                (s.decode definitions (name :: expanding) t).viaName name
  termination_by a t => (sizeOf t, definitions.unexpanded expanding, sizeOf a)

def Alternative.firstFit (definitions : Definitions) (expanding : List String) :
    List Alternative → Tree → Option Outcome
  | [], _ => none
  | first :: others, t =>
      let outcome := first.decode definitions expanding t
      if outcome.failed then Alternative.firstFit definitions expanding others t else some outcome
  termination_by as t => (sizeOf t, definitions.unexpanded expanding, sizeOf as)

end

def Schema.read (definitions : Definitions) (s : Schema) (t : Tree) : Outcome :=
  s.decode definitions [] t

end TreeSchema

import TreeSchema.Toml.Value

/-! Putting a document together from its lines. A table may be mentioned before it
is defined, but it is defined only once, and what has been given as a value is
not extended later. -/
namespace TreeSchema.Toml

/-- How a table came to be. -/
inductive Origin where
  /-- By a header of its own. -/
  | header
  /-- By the header of a table below it. -/
  | mention
  /-- By a dotted key. -/
  | dotted
  deriving DecidableEq, Repr

/-- What stands under a name while a document is being put together. -/
inductive Item where
  | value (v : Value)
  | table (origin : Origin) (entries : List (String × Item))
  /-- The tables of an array, last first. -/
  | tables (elements : List (List (String × Item)))
  deriving Inhabited

abbrev Items := List (String × Item)

namespace Items

/-- Replace what stands under a name, or is missing there. -/
def change (name : String) (f : Option Item → Option Item) : Items → Option Items
  | [] => (f none).map fun item => [(name, item)]
  | (name', item) :: others =>
      if name' = name then (f (some item)).map fun item => (name, item) :: others
      else (change name f others).map ((name', item) :: ·)

/-- Put a value under a new name, where `mayHold` says whether it may be put into
the table that is reached. Dotted keys create tables, and add to those created so. -/
def put (name : String) (v : Value) : (path : List String) → (mayHold : Bool) → Items → Option Items
  | [], mayHold, items =>
      items.change name fun
        | none => if mayHold then some (.value v) else none
        | some _ => none
  | first :: path, _, items =>
      items.change first fun
        | none => (put name v path true []).map (.table .dotted)
        | some (.table .dotted entries) => (put name v path true entries).map (.table .dotted)
        | some (.table .mention entries) => (put name v path false entries).map (.table .mention)
        | some (.tables (last :: earlier)) =>
            (put name v path false last).map fun last => .tables (last :: earlier)
        | _ => none

/-- Change the items of the table at a path. A path through an array of tables
leads on through its last table. -/
def within (f : Items → Option Items) : List String → Items → Option Items
  | [], items => f items
  | first :: path, items =>
      items.change first fun
        | none => (within f path []).map (.table .mention)
        | some (.table origin entries) => (within f path entries).map (.table origin)
        | some (.tables (last :: earlier)) =>
            (within f path last).map fun last => .tables (last :: earlier)
        | _ => none

def define (name : String) (items : Items) : Option Items :=
  items.change name fun
    | none => some (.table .header [])
    | some (.table .mention entries) => some (.table .header entries)
    | _ => none

def append (name : String) (items : Items) : Option Items :=
  items.change name fun
    | none => some (.tables [[]])
    | some (.tables elements) => some (.tables ([] :: elements))
    | _ => none

end Items

mutual

/-- The value that an item is in the finished document. -/
def Item.toValue : Item → Value
  | .value v => v
  | .table _ entries => .table (Items.toTable entries)
  | .tables elements => .array (Items.toValues elements).reverse

/-- The finished form of the items of a table. -/
def Items.toTable : List (String × Item) → Table
  | [] => []
  | (name, item) :: others => (name, item.toValue) :: Items.toTable others

/-- The finished forms of some tables. -/
def Items.toValues : List (List (String × Item)) → List Value
  | [] => []
  | first :: others => .table (Items.toTable first) :: Items.toValues others

end

end TreeSchema.Toml

import TreeSchema.Text.Split

/-! White space in the sense of the Unicode property `White_Space`, and the
trimming of texts by it. -/
namespace TreeSchema.Text

/-- The code points with the property `White_Space`, as inclusive ranges in
ascending order. There are 25 of them. -/
def blankRanges : List (Nat × Nat) :=
  [(0x9, 0xD), (0x20, 0x20), (0x85, 0x85), (0xA0, 0xA0), (0x1680, 0x1680), (0x2000, 0x200A),
    (0x2028, 0x2029), (0x202F, 0x202F), (0x205F, 0x205F), (0x3000, 0x3000)]

/-- Whether a character separates tokens without being part of one. -/
def isBlank (c : Char) : Bool :=
  blankRanges.any fun (low, high) => low ≤ c.toNat && c.toNat ≤ high

/-- A text without the blanks at its two ends. -/
def trim (cs : List Char) : List Char :=
  trimBy isBlank cs

def trimmed (s : String) : String :=
  String.ofList (trim s.toList)

end TreeSchema.Text

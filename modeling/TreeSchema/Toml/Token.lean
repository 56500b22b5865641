import TreeSchema.Toml.Quotation

/-! The tokens of a TOML document. Comments leave no token. -/
namespace TreeSchema.Toml

inductive Bracket where
  | square
  | curly
  deriving DecidableEq, Repr

inductive Token where
  /-- Spaces and tabs. -/
  | blank (written : List Char)
  | lineEnd
  /-- Letters, digits, underscores and hyphens. -/
  | word (written : List Char)
  /-- One of `. = , + :`. -/
  | mark (c : Char)
  | opening (b : Bracket)
  | closing (b : Bracket)
  | quoted (content : String) (tripled : Bool)
  deriving DecidableEq, Repr

namespace Token

/-- Whether a character may stand in a key without quotes. -/
def isWordChar (c : Char) : Bool :=
  c.isAlphanum || c = '_' || c = '-'

/-- The token that a character is by itself. -/
def ofChar? : Char → Option Token
  | '\n' => some lineEnd
  | '[' => some (opening .square)
  | ']' => some (closing .square)
  | '{' => some (opening .curly)
  | '}' => some (closing .curly)
  | c => if c ∈ ['.', '=', ',', '+', ':'] then some (mark c) else none

/-- The token, if any, that is written at the start of `c :: cs`, and the rest. -/
def first? (c : Char) (cs : List Char) : Option (Option Token × List Char) :=
  match ofChar? c with
  | some token => some (some token, cs)
  | none =>
      if c = '#' then
        let comment := cs.takeWhile (· ≠ '\n')
        if comment.all isPlain then some (none, cs.dropWhile (· ≠ '\n')) else none
      else if Quotation.isSpace c then
        some (blank (c :: cs.takeWhile Quotation.isSpace), cs.dropWhile Quotation.isSpace)
      else if isWordChar c then
        some (word (c :: cs.takeWhile isWordChar), cs.dropWhile isWordChar)
      else if c = '"' || c = '\x27' then
        (Quotation.read c cs).map fun q =>
          (some (quoted (String.ofList q.content) q.tripled), q.rest)
      else none

theorem first?_length {c : Char} {cs rest : List Char} {token : Option Token}
    (h : first? c cs = some (token, rest)) : rest.length < cs.length + 1 := by
  have shorter (p : Char → Bool) : (cs.dropWhile p).length < cs.length + 1 :=
    Nat.lt_succ_of_le (List.dropWhile_sublist p).length_le
  unfold first? at h
  split at h
  · simp_all
  · split at h
    · dsimp only at h
      split at h
      · cases h; exact shorter _
      · cases h
    · split at h
      · cases h; exact shorter _
      · split at h
        · cases h; exact shorter _
        · split at h
          · simp only [Option.map_eq_some_iff, Prod.mk.injEq] at h
            obtain ⟨q, found, -, rfl⟩ := h
            exact Nat.lt_succ_of_lt (Quotation.read_length found)
          · cases h

def all? : List Char → Option (List Token)
  | [] => some []
  | c :: cs =>
      match found : first? c cs with
      | none => none
      | some (token, rest) =>
          have := first?_length found
          (all? rest).map (token.toList ++ ·)
  termination_by cs => cs.length
  decreasing_by
    simp only [List.length_cons] at *
    omega

end Token

/-- A text with line feeds alone as line ends; no other carriage returns may be in it. -/
def lineFeeds : List Char → Option (List Char)
  | [] => some []
  | '\r' :: '\n' :: rest => (lineFeeds rest).map ('\n' :: ·)
  | '\r' :: _ => none
  | c :: rest => (lineFeeds rest).map (c :: ·)

end TreeSchema.Toml

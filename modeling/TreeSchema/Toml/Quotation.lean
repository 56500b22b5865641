import TreeSchema.Text.Digits

/-! Quoted texts: in single or double quotes, on one line or, between tripled
quotes, on several. Only double quotes allow escapes. Line ends are line feeds. -/
namespace TreeSchema.Toml

/-- Whether a character may stand in a line as it is. -/
def isPlain (c : Char) : Bool :=
  c = '\t' || (' ' ≤ c && c ≠ '\x7f')

/-- A quoted text read from the start of a text. -/
structure Quotation where
  content : List Char
  /-- Whether the quotes were tripled. -/
  tripled : Bool
  rest : List Char

namespace Quotation

/-- Whether a character keeps the one after it from being looked at. -/
def shields (quote c : Char) : Bool :=
  quote = '"' && c = '\\'

/-- What stands before the closing quote, and what follows it. -/
def untilQuote (quote : Char) : List Char → Option (List Char × List Char)
  | [] => none
  | c :: rest =>
      if c = quote then some ([], rest)
      else if shields quote c then
        match rest with
        | [] => none
        | shielded :: rest =>
            (untilQuote quote rest).map fun (inside, rest) => (c :: shielded :: inside, rest)
      else (untilQuote quote rest).map fun (inside, rest) => (c :: inside, rest)

/-- What stands before three closing quotes, and what follows them. Up to two
quotes right after the three are moved inside. -/
def untilTripled (quote : Char) : List Char → Option (List Char × List Char)
  | [] => none
  | c :: rest =>
      if c = quote && rest.take 2 = [quote, quote] then
        let extra := ((rest.drop 2).take 2).takeWhile (· = quote)
        some (extra, (rest.drop 2).drop extra.length)
      else if shields quote c then
        match rest with
        | [] => none
        | shielded :: rest =>
            (untilTripled quote rest).map fun (inside, rest) => (c :: shielded :: inside, rest)
      else (untilTripled quote rest).map fun (inside, rest) => (c :: inside, rest)

/-- The character with a number that is written in hexadecimal digits. -/
def charOf? (digits : List Char) : Option Char :=
  let n := Text.ofDigits 16 digits
  if digits.all (Text.isDigitOf 16) && n.isValidChar then some (Char.ofNat n) else none

/-- The character that a backslash and a letter stand for. -/
def escaped? : Char → Option Char
  | 'b' => some '\x08'
  | 't' => some '\t'
  | 'n' => some '\n'
  | 'f' => some '\x0c'
  | 'r' => some '\r'
  | '"' => some '"'
  | '\\' => some '\\'
  | _ => none

def isSpace (c : Char) : Bool :=
  c = ' ' || c = '\t'

/-- What follows a backslash at the end of a line, without the blanks and line
ends that the backslash takes away. -/
def skipLines (cs : List Char) : List Char :=
  cs.dropWhile fun c => isSpace c || c = '\n'

theorem skipLines_length (cs : List Char) : (skipLines cs).length ≤ cs.length :=
  (List.dropWhile_sublist _).length_le

/-- Replace the escapes in the inside of double quotes. On several lines, a
backslash at the end of a line joins it with the next line that is not blank. -/
def unescape (tripled : Bool) : List Char → Option (List Char)
  | [] => some []
  | '\\' :: 'u' :: a :: b :: c :: d :: rest => do
      return (← charOf? [a, b, c, d]) :: (← unescape tripled rest)
  | '\\' :: 'U' :: a :: b :: c :: d :: e :: f :: g :: h :: rest => do
      return (← charOf? [a, b, c, d, e, f, g, h]) :: (← unescape tripled rest)
  | '\\' :: c :: rest =>
      match escaped? c with
      | some c => (unescape tripled rest).map (c :: ·)
      | none =>
          if tripled && ((c :: rest).dropWhile isSpace).head? = some '\n' then
            have := skipLines_length (c :: rest)
            unescape tripled (skipLines (c :: rest))
          else none
  | c :: rest =>
      if c ≠ '\\' && (isPlain c || (tripled && c = '\n')) then
        (unescape tripled rest).map (c :: ·)
      else none
  termination_by cs => cs.length
  decreasing_by
    all_goals
      simp only [List.length_cons] at *
      omega

/-- The text that the inside of quotes stands for. A line end right after
tripled quotes does not count. -/
def contentOf (quote : Char) (tripled : Bool) (inside : List Char) : Option (List Char) :=
  let inside := if tripled && inside.head? = some '\n' then inside.tail else inside
  if quote = '"' then unescape tripled inside
  else if inside.all fun c => isPlain c || (tripled && c = '\n') then some inside
  else none

/-- The inside of a quoted text, and what follows the quotes. -/
def inside? (quote : Char) (tripled : Bool) (cs : List Char) : Option (List Char × List Char) :=
  if tripled then untilTripled quote (cs.drop 2) else untilQuote quote cs

/-- Read a quoted text that starts with `quote`, after which `cs` follows. -/
def read (quote : Char) (cs : List Char) : Option Quotation :=
  let tripled := decide (cs.take 2 = [quote, quote])
  (inside? quote tripled cs).bind fun (inside, rest) =>
    (contentOf quote tripled inside).map fun content => ⟨content, tripled, rest⟩

theorem untilQuote_length {quote : Char} {cs inside rest : List Char}
    (h : untilQuote quote cs = some (inside, rest)) : rest.length < cs.length := by
  fun_induction untilQuote quote cs generalizing inside with
  | case1 => simp at h
  | case2 => simp_all
  | case3 => simp at h
  | case4 _ _ _ _ _ ih =>
      simp only [Option.map_eq_some_iff, Prod.mk.injEq, Prod.exists] at h
      obtain ⟨_, _, found, -, rfl⟩ := h
      have := ih found
      simp only [List.length_cons] at this ⊢
      omega
  | case5 _ _ _ _ ih =>
      simp only [Option.map_eq_some_iff, Prod.mk.injEq, Prod.exists] at h
      obtain ⟨_, _, found, -, rfl⟩ := h
      have := ih found
      simp only [List.length_cons] at this ⊢
      omega

theorem untilTripled_length {quote : Char} {cs inside rest : List Char}
    (h : untilTripled quote cs = some (inside, rest)) : rest.length < cs.length := by
  fun_induction untilTripled quote cs generalizing inside with
  | case1 => simp at h
  | case2 =>
      simp only [Option.some.injEq, Prod.mk.injEq] at h
      obtain ⟨-, rfl⟩ := h
      simp only [List.length_cons, List.length_drop]
      omega
  | case3 => simp at h
  | case4 _ _ _ _ _ ih =>
      simp only [Option.map_eq_some_iff, Prod.mk.injEq, Prod.exists] at h
      obtain ⟨_, _, found, -, rfl⟩ := h
      have := ih found
      simp only [List.length_cons] at this ⊢
      omega
  | case5 _ _ _ _ ih =>
      simp only [Option.map_eq_some_iff, Prod.mk.injEq, Prod.exists] at h
      obtain ⟨_, _, found, -, rfl⟩ := h
      have := ih found
      simp only [List.length_cons] at this ⊢
      omega

/-- At least the closing quote is taken away. -/
theorem read_length {quote : Char} {cs : List Char} {q : Quotation} (h : read quote cs = some q) :
    q.rest.length < cs.length := by
  simp only [read, Option.bind_eq_some_iff, Option.map_eq_some_iff, Prod.exists] at h
  obtain ⟨inside, rest, found, content, -, rfl⟩ := h
  unfold inside? at found
  split at found
  · have := untilTripled_length found
    simp only [List.length_drop] at this ⊢
    omega
  · exact untilQuote_length found

end Quotation

end TreeSchema.Toml

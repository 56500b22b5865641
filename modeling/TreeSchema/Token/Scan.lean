import TreeSchema.SyntaxError
import TreeSchema.Text.Blank
import TreeSchema.Token.Basic

/-! The tokens of a text. Blanks separate tokens and are otherwise ignored; each
token is the longest that starts at its place. -/
namespace TreeSchema

/-- Names consist of ASCII letters, digits and `_`. -/
def isNameChar (c : Char) : Bool :=
  c.isAlphanum || c == '_'

/-- The symbol at the start of a text, the longest one, and the rest. -/
def Symbol.first? : List Char → Option (Symbol × List Char)
  | '.' :: '.' :: '.' :: rest => some (.dots, rest)
  | '.' :: rest => some (.dot, rest)
  | '<' :: rest => some (.treeOpen, rest)
  | '>' :: rest => some (.treeClose, rest)
  | '[' :: rest => some (.listOpen, rest)
  | ']' :: rest => some (.listClose, rest)
  | '(' :: rest => some (.groupOpen, rest)
  | ')' :: rest => some (.groupClose, rest)
  | '|' :: rest => some (.bar, rest)
  | ',' :: rest => some (.comma, rest)
  | ':' :: rest => some (.colon, rest)
  | _ => none

/-- A lexeme cut from the start of a text, the bytes it takes, and the rest. -/
structure Cut where
  lexeme : Lexeme
  size : Nat
  rest : List Char

/-- The lexeme at the start of a text: a symbol, else a run of digits, else a
name. Without one, the notes say what is wrong beyond the character itself. -/
def Lexeme.first (cs : List Char) : Except (List String) Cut :=
  match Symbol.first? cs with
  | some (s, rest) => .ok ⟨.symbol s, s.text.utf8ByteSize, rest⟩
  | none =>
      match cs.takeWhile Char.isDigit with
      | digits@(_ :: _) =>
          let n := Nat.ofDigitChars 10 digits 0
          if fits : n < UInt64.size then
            .ok ⟨.integer (UInt64.ofNatLT n fits), digits.length, cs.dropWhile Char.isDigit⟩
          else
            .error [s!"integer literal '{String.ofList digits}' does not fit in 64 bits"]
      | [] =>
          match cs.takeWhile isNameChar with
          | name@(_ :: _) =>
              .ok ⟨.identifier (String.ofList name), name.length, cs.dropWhile isNameChar⟩
          | [] => .error []

theorem Symbol.first?_length {cs rest : List Char} {s : Symbol}
    (h : Symbol.first? cs = some (s, rest)) : rest.length < cs.length := by
  unfold Symbol.first? at h
  split at h
  case h_12 => cases h
  all_goals
    cases h
    simp only [List.length_cons]
    omega

/-- What passes a nonempty run is shorter. -/
theorem length_dropWhile_lt {p : Char → Bool} {cs run : List Char} {c : Char}
    (h : cs.takeWhile p = c :: run) : (cs.dropWhile p).length < cs.length := by
  have total := congrArg List.length (List.takeWhile_append_dropWhile (p := p) (l := cs))
  simp only [h, List.length_append, List.length_cons] at total
  omega

/-- Every lexeme takes at least one character. -/
theorem Lexeme.first_length {cs : List Char} {cut : Cut} (h : Lexeme.first cs = .ok cut) :
    cut.rest.length < cs.length := by
  unfold Lexeme.first at h
  split at h
  · next hs => cases h; exact Symbol.first?_length hs
  · split at h
    · next hd =>
        dsimp only at h
        split at h
        · cases h; exact length_dropWhile_lt hd
        · cases h
    · split at h
      · next hn => cases h; exact length_dropWhile_lt hn
      · cases h

/-- The tokens of a text that starts at byte `position`. -/
def tokensFrom (position : Nat) : List Char → Except SyntaxError (List Token)
  | [] => .ok []
  | c :: cs =>
      if Text.isBlank c then tokensFrom (position + c.utf8Size) cs
      else
        match found : Lexeme.first (c :: cs) with
        | .error notes => .error { SyntaxError.ofChar c position with notes }
        | .ok cut =>
            have := Lexeme.first_length found
            let token := ⟨cut.lexeme, .ofSize position cut.size⟩
            (tokensFrom (position + cut.size) cut.rest).map (token :: ·)
  termination_by cs => cs.length
  decreasing_by
    all_goals
      simp only [List.length_cons] at *
      omega

/-- The tokens of a text, or the leftmost character that starts none. -/
def tokens (text : String) : Except SyntaxError (List Token) :=
  tokensFrom 0 text.toList

end TreeSchema

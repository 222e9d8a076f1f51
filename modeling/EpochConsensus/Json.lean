/-! # JSON text

The lexical rules of JSON over a list of characters.  Every reader takes its value off the front
and returns what follows it, or `none` where the text breaks the rules.

`passValue?` accepts any one value without building it.  It keeps a stack of open brackets, so
depth is no limit, and inside it an escape may name any code unit.  `string?` builds the text of a
string, and there a surrogate must be half of a pair.
-/
namespace EpochConsensus.Json

/-- The white space of the format. -/
def isBlank (c : Char) : Bool := c == ' ' || c == '\n' || c == '\t' || c == '\r'

def skipBlank (text : List Char) : List Char := text.dropWhile isBlank

/-- The text after a fixed word. -/
def literal? (word : List Char) (text : List Char) : Option (List Char) :=
  if word.isPrefixOf text then some (text.drop word.length) else none

/-- The text after white space and one character. -/
def token? (c : Char) (text : List Char) : Option (List Char) := literal? [c] (skipBlank text)

/-! ### Numbers -/

/-- The number that decimal digits spell. -/
def ofDigits (digits : List Char) : Nat := digits.foldl (fun n d => 10 * n + (d.toNat - 48)) 0

/-- The digits of an integer: a zero alone, or digits that do not start with one. -/
def integer? : List Char → Option (List Char × List Char)
  | '0' :: rest => some (['0'], rest)
  | text =>
    match text.takeWhile Char.isDigit with
    | [] => none
    | digits => some (digits, text.dropWhile Char.isDigit)

/-- At least one digit. -/
def passDigits? (text : List Char) : Option (List Char) :=
  match text with
  | c :: rest => if c.isDigit then some (rest.dropWhile Char.isDigit) else none
  | [] => none

/-- The text after a fraction, if there is one. -/
def passFraction? : List Char → Option (List Char)
  | '.' :: rest => passDigits? rest
  | text => some text

/-- The text after an exponent, if there is one. -/
def passExponent? : List Char → Option (List Char)
  | c :: rest =>
    if c == 'e' || c == 'E' then
      match rest with
      | '+' :: digits | '-' :: digits => passDigits? digits
      | digits => passDigits? digits
    else some (c :: rest)
  | [] => some []

/-- The text after a number without its sign.  A zero is followed by no further digit. -/
def passNumber? (text : List Char) : Option (List Char) := do
  let (digits, rest) ← integer? text
  if digits = ['0'] && (rest.head?.any Char.isDigit) then none
  passExponent? (← passFraction? rest)

/-! ### Strings -/

def hexDigit? (c : Char) : Option Nat :=
  if c.isDigit then some (c.toNat - 48)
  else if 'a' ≤ c && c ≤ 'f' then some (c.toNat - 87)
  else if 'A' ≤ c && c ≤ 'F' then some (c.toNat - 55)
  else none

/-- The code unit that four hexadecimal digits spell. -/
def unit? (a b c d : Char) : Option Nat := do
  return ((← hexDigit? a) * 4096 + (← hexDigit? b) * 256 + (← hexDigit? c) * 16 + (← hexDigit? d))

/-- The character that a letter stands for after a backslash. -/
def escape? : Char → Option Char
  | '"' => some '"'
  | '\\' => some '\\'
  | '/' => some '/'
  | 'b' => some '\x08'
  | 'f' => some '\x0c'
  | 'n' => some '\n'
  | 'r' => some '\r'
  | 't' => some '\t'
  | _ => none

/-- Control characters may not stand in a string. -/
def isPlain (c : Char) : Bool := 32 ≤ c.toNat

/-- Whether a code unit is the first half of a pair. -/
def isHigh (u : Nat) : Bool := 0xD800 ≤ u && u < 0xDC00

/-- Whether a code unit is the second half of a pair. -/
def isLow (u : Nat) : Bool := 0xDC00 ≤ u && u < 0xE000

/-- The character that a pair of surrogates stands for. -/
def pair (high low : Nat) : Char := Char.ofNat (0x10000 + (high - 0xD800) * 0x400 + (low - 0xDC00))

/-- A part of a string: a character, or a code unit given by its number. -/
inductive Piece where
  | char (c : Char)
  | unit (u : Nat)

/-- The parts of a string after its opening quote, and the text after its closing one. -/
def pieces? : List Char → Option (List Piece × List Char)
  | '"' :: rest => some ([], rest)
  | '\\' :: 'u' :: a :: b :: c :: d :: rest => do
    let u ← unit? a b c d
    let (ps, rest) ← pieces? rest
    return (.unit u :: ps, rest)
  | '\\' :: c :: rest => do
    let e ← escape? c
    let (ps, rest) ← pieces? rest
    return (.char e :: ps, rest)
  | c :: rest =>
    if isPlain c then do
      let (ps, rest) ← pieces? rest
      return (.char c :: ps, rest)
    else none
  | [] => none

/-- The characters that the parts spell.  A pair of surrogates is one character; half a pair is
none. -/
def spell? : List Piece → Option (List Char)
  | [] => some []
  | .char c :: ps => (c :: ·) <$> spell? ps
  | .unit u :: .unit v :: ps =>
    if isHigh u then
      if isLow v then (pair u v :: ·) <$> spell? ps else none
    else if isLow u then none
    else (Char.ofNat u :: ·) <$> spell? (.unit v :: ps)
  | .unit u :: ps => if isHigh u || isLow u then none else (Char.ofNat u :: ·) <$> spell? ps

/-- The characters of a string after its opening quote, and the text after its closing one. -/
def string? (text : List Char) : Option (List Char × List Char) := do
  let (ps, rest) ← pieces? text
  return (← spell? ps, rest)

/-- The text after a string whose opening quote is passed. -/
def passString? (text : List Char) : Option (List Char) := (·.2) <$> pieces? text

/-! ### Values -/

/-- An open bracket. -/
inductive Bracket where
  | list
  | object

/-- What may come next inside a value. -/
inductive Expect where
  | value
  /-- A value, or the end of a list that has none. -/
  | item
  /-- A key, or the end of an object that has none. -/
  | member
  | key
  /-- A comma or the closing bracket. -/
  | next

/-- The text after a value other than a list or an object. -/
def passScalar? : List Char → Option (List Char)
  | '"' :: rest => passString? rest
  | '-' :: rest => passNumber? rest
  | 'n' :: rest => literal? ['u', 'l', 'l'] rest
  | 't' :: rest => literal? ['r', 'u', 'e'] rest
  | 'f' :: rest => literal? ['a', 'l', 's', 'e'] rest
  | text => passNumber? text

/-- The text after a key and its colon. -/
def passKey? (text : List Char) : Option (List Char) := do token? ':' (← passString? text)

/-- Goes on through an unfinished value.  Every round passes at least one character, so as many
rounds as there are characters suffice. -/
def passOpen? : (rounds : Nat) → Expect → List Bracket → List Char → Option (List Char)
  | _, .next, [], text => some text
  | 0, _, _, _ => none
  | rounds + 1, expect, stack, text =>
    match expect, stack, skipBlank text with
    | .next, _, ',' :: rest =>
      match stack with
      | .object :: _ => passOpen? rounds .key stack rest
      | _ => passOpen? rounds .value stack rest
    | .next, .list :: outer, ']' :: rest => passOpen? rounds .next outer rest
    | .next, .object :: outer, '}' :: rest => passOpen? rounds .next outer rest
    | .next, _, _ => none
    | .item, .list :: outer, ']' :: rest => passOpen? rounds .next outer rest
    | .member, .object :: outer, '}' :: rest => passOpen? rounds .next outer rest
    | .member, _, '"' :: rest | .key, _, '"' :: rest => do
      passOpen? rounds .value stack (← passKey? rest)
    | .member, _, _ | .key, _, _ => none
    | .value, _, '[' :: rest | .item, _, '[' :: rest => passOpen? rounds .item (.list :: stack) rest
    | .value, _, '\x7b' :: rest | .item, _, '\x7b' :: rest =>
      passOpen? rounds .member (.object :: stack) rest
    | .value, _, text | .item, _, text => do passOpen? rounds .next stack (← passScalar? text)

/-- The text after one value of any kind and depth, given a bound on the length of the text. -/
def passValue? (rounds : Nat) (text : List Char) : Option (List Char) :=
  passOpen? rounds .value [] text

/-! ### Lists -/

/-- The rest of a list after an item, whatever stands between its items.  Every item takes at
least its comma, so as many rounds as there are characters suffice. -/
def moreItems? {α : Type} (item? : List Char → Option (α × List Char)) :
    (rounds : Nat) → List Char → Option (List α × List Char)
  | 0, _ => none
  | rounds + 1, text =>
    match skipBlank text with
    | ']' :: rest => some ([], rest)
    | ',' :: rest => do
      let (a, rest) ← item? (skipBlank rest)
      let (as, rest) ← moreItems? item? rounds rest
      return (a :: as, rest)
    | _ => none

/-- The items of a list after its opening bracket. -/
def items? {α : Type} (item? : List Char → Option (α × List Char)) (text : List Char) :
    Option (List α × List Char) :=
  match skipBlank text with
  | ']' :: rest => some ([], rest)
  | text => do
    let (a, rest) ← item? text
    let (as, rest) ← moreItems? item? rest.length rest
    return (a :: as, rest)

end EpochConsensus.Json

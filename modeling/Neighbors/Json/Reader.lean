import Neighbors.Json.Number

/-!
# Reading JSON

`Json.read?` reads a text that is one JSON value, with blanks around it and nothing else. Members
of objects keep their order and their repetitions. A string whose escapes name half of a surrogate
pair is no text, but it is a value that can be passed over.
-/

namespace Neighbors

inductive Json where
  | null
  | bool (value : Bool)
  | number (literal : Json.Number)
  /-- A string; no text if it holds a lone surrogate. -/
  | string (text : Option String)
  | array (items : List Json)
  | object (members : List (Option String × Json))

namespace Json

def isBlank (c : Char) : Bool := c == ' ' || c == '\n' || c == '\t' || c == '\r'

def skipBlanks (cs : List Char) : List Char := cs.dropWhile isBlank

/-- The decimal digits at the front, and the rest. -/
def digits (cs : List Char) : List Nat × List Char :=
  ((cs.takeWhile Char.isDigit).map fun c => c.toNat - '0'.toNat, cs.dropWhile Char.isDigit)

def fraction? : List Char → Option (List Nat × List Char)
  | '.' :: cs =>
    let (ds, rest) := digits cs
    if ds.isEmpty then none else some (ds, rest)
  | cs => some ([], cs)

def exponentDigits? (negative : Bool) (cs : List Char) :
    Option (Option (Bool × List Nat) × List Char) :=
  let (ds, rest) := digits cs
  if ds.isEmpty then none else some (some (negative, ds), rest)

def exponent? : List Char → Option (Option (Bool × List Nat) × List Char)
  | c :: cs =>
    if c == 'e' || c == 'E' then
      match cs with
      | '-' :: cs => exponentDigits? true cs
      | '+' :: cs => exponentDigits? false cs
      | cs => exponentDigits? false cs
    else some (none, c :: cs)
  | [] => some (none, [])

/-- A number without its sign. A leading zero stands alone. -/
def unsigned? (negative : Bool) (cs : List Char) : Option (Number × List Char) := do
  let (whole, cs) := digits cs
  if whole.isEmpty || (whole.head? == some 0 && 1 < whole.length) then none
  let (fraction, cs) ← fraction? cs
  let (exponent, cs) ← exponent? cs
  return (⟨negative, whole, fraction, exponent⟩, cs)

def number? : List Char → Option (Number × List Char)
  | '-' :: cs => unsigned? true cs
  | cs => unsigned? false cs

def hexDigit? (c : Char) : Option Nat :=
  if '0' ≤ c ∧ c ≤ '9' then some (c.toNat - '0'.toNat)
  else if 'a' ≤ c ∧ c ≤ 'f' then some (c.toNat - 'a'.toNat + 10)
  else if 'A' ≤ c ∧ c ≤ 'F' then some (c.toNat - 'A'.toNat + 10)
  else none

def hexUnit? (a b c d : Char) : Option Nat := do
  return (((← hexDigit? a) * 16 + (← hexDigit? b)) * 16 + (← hexDigit? c)) * 16 + (← hexDigit? d)

/-- The character of a one-letter escape. -/
def escape? : Char → Option Char
  | '"' => some '"'
  | '\\' => some '\\'
  | '/' => some '/'
  | 'b' => some '\x08'
  | 'f' => some '\x0c'
  | 'n' => some '\n'
  | 'r' => some '\r'
  | 't' => some '\t'
  | _ => none

/-- A string as far as it is read: the characters in reverse, a first half of a surrogate pair
that waits for the second, and whether all is well so far. -/
structure Unescaped where
  reversed : List Char := []
  high : Option Nat := none
  wellFormed : Bool := true

namespace Unescaped

def push (p : Unescaped) (c : Char) : Unescaped :=
  { p with reversed := c :: p.reversed, high := none, wellFormed := p.wellFormed && p.high.isNone }

/-- Adds a 16-bit unit given as an escape. -/
def pushUnit (p : Unescaped) (u : Nat) : Unescaped :=
  if 0xdc00 ≤ u ∧ u ≤ 0xdfff then
    match p.high with
    | some h =>
      let c := Char.ofNat (0x10000 + (h - 0xd800) * 0x400 + (u - 0xdc00))
      { p with reversed := c :: p.reversed, high := none }
    | none => { p with wellFormed := false }
  else if 0xd800 ≤ u ∧ u ≤ 0xdbff then
    { p with high := some u, wellFormed := p.wellFormed && p.high.isNone }
  else p.push (Char.ofNat u)

def text (p : Unescaped) : Option String :=
  if p.wellFormed && p.high.isNone then some (String.ofList p.reversed.reverse) else none

end Unescaped

/-- The rest of a string after its opening quote. -/
def string? : Unescaped → List Char → Option (Option String × List Char)
  | p, '"' :: cs => some (p.text, cs)
  | p, '\\' :: 'u' :: a :: b :: c :: d :: cs =>
    match hexUnit? a b c d with
    | some u => string? (p.pushUnit u) cs
    | none => none
  | p, '\\' :: c :: cs =>
    match escape? c with
    | some c => string? (p.push c) cs
    | none => none
  | p, c :: cs => if c < ' ' || c == '\\' then none else string? (p.push c) cs
  | _, [] => none

mutual

/-- A value, with blanks before it. -/
def value? : (fuel : Nat) → List Char → Option (Json × List Char)
  | 0, _ => none
  | fuel + 1, cs =>
    match skipBlanks cs with
    | 'n' :: 'u' :: 'l' :: 'l' :: cs => some (.null, cs)
    | 't' :: 'r' :: 'u' :: 'e' :: cs => some (.bool true, cs)
    | 'f' :: 'a' :: 'l' :: 's' :: 'e' :: cs => some (.bool false, cs)
    | '"' :: cs => (string? {} cs).map fun (text, cs) => (.string text, cs)
    | '[' :: cs =>
      match skipBlanks cs with
      | ']' :: cs => some (.array [], cs)
      | cs => (items? fuel cs).map fun (items, cs) => (.array items, cs)
    | '{' :: cs =>
      match skipBlanks cs with
      | '}' :: cs => some (.object [], cs)
      | cs => (members? fuel cs).map fun (members, cs) => (.object members, cs)
    | cs => (number? cs).map fun (literal, cs) => (.number literal, cs)

/-- One or more items and the closing bracket. -/
def items? : (fuel : Nat) → List Char → Option (List Json × List Char)
  | 0, _ => none
  | fuel + 1, cs => do
    let (item, cs) ← value? fuel cs
    match skipBlanks cs with
    | ']' :: cs => some ([item], cs)
    | ',' :: cs =>
      let (items, cs) ← items? fuel cs
      some (item :: items, cs)
    | _ => none

/-- One or more members and the closing brace. -/
def members? : (fuel : Nat) → List Char → Option (List (Option String × Json) × List Char)
  | 0, _ => none
  | fuel + 1, cs =>
    match skipBlanks cs with
    | '"' :: cs => do
      let (key, cs) ← string? {} cs
      match skipBlanks cs with
      | ':' :: cs =>
        let (value, cs) ← value? fuel cs
        match skipBlanks cs with
        | '}' :: cs => some ([(key, value)], cs)
        | ',' :: cs =>
          let (members, cs) ← members? fuel cs
          some ((key, value) :: members, cs)
        | _ => none
      | _ => none
    | _ => none

end

def read? (text : String) : Option Json :=
  let cs := text.toList
  match value? (2 * cs.length + 2) cs with
  | some (json, rest) => if (skipBlanks rest).isEmpty then some json else none
  | none => none

end Json

end Neighbors

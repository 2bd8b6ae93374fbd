import PointerAnalysis.Json.Basic
import PointerAnalysis.Json.Literal

/-!
Reading JSON. Every function takes the characters that are left and returns a value together with
those that follow it, or nothing if no value stands there.
-/

namespace PointerAnalysis.Json

/-- The characters that may stand between tokens. -/
def isBlank (c : Char) : Bool := c == ' ' || c == '\n' || c == '\t' || c == '\r'

/-- Drops the blanks in front. -/
def skipBlanks (cs : List Char) : List Char := cs.dropWhile isBlank

/-- The number that decimal digits denote. -/
def digitsValue (ds : List Char) : Nat := ds.foldl (fun n d => 10 * n + (d.toNat - 48)) 0

/-- One digit or more, and what follows them. -/
def digits (cs : List Char) : Option (List Char × List Char) :=
  match cs.takeWhile Char.isDigit with
  | [] => none
  | ds => some (ds, cs.dropWhile Char.isDigit)

/-- The whole part of a number: digits without a leading zero, unless zero is all. -/
def wholePart (cs : List Char) : Option (List Char × List Char) := do
  let (ds, rest) ← digits cs
  guard (ds = ['0'] ∨ ds.head? ≠ some '0')
  return (ds, rest)

/-- The fraction of a number, if there is one. -/
def fraction : List Char → Option (List Char × List Char)
  | '.' :: cs => do
    let (ds, rest) ← digits cs
    return ('.' :: ds, rest)
  | cs => some ([], cs)

/-- The sign of an exponent, if there is one. -/
def exponentSign : List Char → List Char × List Char
  | '+' :: cs => (['+'], cs)
  | '-' :: cs => (['-'], cs)
  | cs => ([], cs)

/-- The exponent of a number, if there is one. -/
def exponent : List Char → Option (List Char × List Char)
  | [] => some ([], [])
  | c :: cs =>
    if c = 'e' ∨ c = 'E' then do
      let (sign, rest) := exponentSign cs
      let (ds, rest) ← digits rest
      return (c :: sign ++ ds, rest)
    else some ([], c :: cs)

/-- A number. -/
def numberLiteral (cs : List Char) : Option (Json × List Char) := do
  let (sign, rest) :=
    match cs with
    | '-' :: rest => (['-'], rest)
    | rest => ([], rest)
  let (whole, rest) ← wholePart rest
  let (frac, rest) ← fraction rest
  let (exp, rest) ← exponent rest
  if sign.isEmpty && frac.isEmpty && exp.isEmpty then
    return (.natural (digitsValue whole), rest)
  else return (.number (String.ofList (sign ++ whole ++ frac ++ exp)), rest)

mutual

/-- A value that starts with the first character. `fuel` bounds the nesting and the number of items;
twice the number of characters is always enough, since every step reads one. -/
def value : (fuel : Nat) → List Char → Option (Json × List Char)
  | 0, _ => none
  | _ + 1, 'n' :: 'u' :: 'l' :: 'l' :: rest => some (.null, rest)
  | _ + 1, 't' :: 'r' :: 'u' :: 'e' :: rest => some (.bool true, rest)
  | _ + 1, 'f' :: 'a' :: 'l' :: 's' :: 'e' :: rest => some (.bool false, rest)
  | _ + 1, '"' :: rest => do
    let (s, rest) ← unquote rest
    return (.string s, rest)
  | fuel + 1, '[' :: rest =>
    match skipBlanks rest with
    | ']' :: rest => some (.array [], rest)
    | rest => do
      let (items, rest) ← items fuel rest
      return (.array items, rest)
  | fuel + 1, '{' :: rest =>
    match skipBlanks rest with
    | '}' :: rest => some (.object [], rest)
    | rest => do
      let (members, rest) ← members fuel rest
      return (.object members, rest)
  | _ + 1, rest => numberLiteral rest

/-- The items of an array that is not empty, up to its closing bracket. -/
def items : (fuel : Nat) → List Char → Option (List Json × List Char)
  | 0, _ => none
  | fuel + 1, cs => do
    let (v, rest) ← value fuel cs
    match skipBlanks rest with
    | ']' :: rest => return ([v], rest)
    | ',' :: rest => do
      let (vs, rest) ← items fuel (skipBlanks rest)
      return (v :: vs, rest)
    | _ => none

/-- The members of an object that is not empty, up to its closing brace. -/
def members : (fuel : Nat) → List Char → Option (List (Option String × Json) × List Char)
  | fuel + 1, '"' :: cs => do
    let (k, rest) ← unquote cs
    match skipBlanks rest with
    | ':' :: rest => do
      let (v, rest) ← value fuel (skipBlanks rest)
      match skipBlanks rest with
      | '}' :: rest => return ([(k, v)], rest)
      | ',' :: rest => do
        let (ms, rest) ← members fuel (skipBlanks rest)
        return ((k, v) :: ms, rest)
      | _ => none
    | _ => none
  | _, _ => none

end

/-- The value that a text denotes; blanks around it are allowed, nothing else is. -/
def parse (s : String) : Option Json := do
  let (j, rest) ← value (2 * s.length + 1) (skipBlanks s.toList)
  guard (skipBlanks rest = [])
  return j

end PointerAnalysis.Json

/-!
String literals of JSON: how text is escaped when it is written, and what the escapes of a literal
stand for when it is read.
-/

namespace PointerAnalysis.Json

/-! ## Writing -/

/-- The hexadecimal digit, in lower case, of a number below sixteen. -/
def hexDigit (n : Nat) : Char := if n < 10 then Char.ofNat (48 + n) else Char.ofNat (87 + n)

/-- A character inside a literal: quotes, backslashes and control characters are escaped. -/
def escape (c : Char) : List Char :=
  if c = '"' then ['\\', '"']
  else if c = '\\' then ['\\', '\\']
  else if c = '\x08' then ['\\', 'b']
  else if c = '\t' then ['\\', 't']
  else if c = '\n' then ['\\', 'n']
  else if c = '\x0c' then ['\\', 'f']
  else if c = '\r' then ['\\', 'r']
  else if c.toNat < 32 then ['\\', 'u', '0', '0', hexDigit (c.toNat / 16), hexDigit (c.toNat % 16)]
  else [c]

/-- A text as a literal, quotes included. -/
def quote (cs : List Char) : List Char := '"' :: cs.flatMap escape ++ ['"']

/-! ## Reading -/

/-- The value of a hexadecimal digit of either case. -/
def hexValue (c : Char) : Option Nat :=
  if '0' ≤ c ∧ c ≤ '9' then some (c.toNat - 48)
  else if 'a' ≤ c ∧ c ≤ 'f' then some (c.toNat - 87)
  else if 'A' ≤ c ∧ c ≤ 'F' then some (c.toNat - 55)
  else none

/-- The 16-bit unit that four hexadecimal digits give. -/
def unitOfDigits (a b c d : Char) : Option Nat := do
  return ((← hexValue a) * 16 + (← hexValue b)) * 256 + (← hexValue c) * 16 + (← hexValue d)

/-- What a backslash and a letter stand for. -/
def unescape (c : Char) : Option Char :=
  if c = '"' ∨ c = '\\' ∨ c = '/' then some c
  else if c = 'b' then some '\x08'
  else if c = 'f' then some '\x0c'
  else if c = 'n' then some '\n'
  else if c = 'r' then some '\r'
  else if c = 't' then some '\t'
  else none

/-- A part of a literal: a character, or a 16-bit unit given by its digits. -/
inductive Piece where
  | char (c : Char)
  | unit (u : Nat)

/-- The pieces of a literal up to its closing quote, and what follows it. -/
def pieces : List Char → Option (List Piece × List Char)
  | [] => none
  | '"' :: rest => some ([], rest)
  | '\\' :: 'u' :: a :: b :: c :: d :: rest => do
    let u ← unitOfDigits a b c d
    let (ps, rest) ← pieces rest
    return (.unit u :: ps, rest)
  | '\\' :: e :: rest => do
    let c ← unescape e
    let (ps, rest) ← pieces rest
    return (.char c :: ps, rest)
  | c :: rest => do
    guard (32 ≤ c.toNat)
    let (ps, rest) ← pieces rest
    return (.char c :: ps, rest)

/-- Whether a unit is the first half of a surrogate pair. -/
def isHigh (u : Nat) : Bool := 0xD800 ≤ u && u < 0xDC00

/-- Whether a unit is the second half of a surrogate pair. -/
def isLow (u : Nat) : Bool := 0xDC00 ≤ u && u < 0xE000

/-- The text that pieces make up; none if a surrogate lacks its partner. -/
def assemble : List Piece → Option (List Char)
  | [] => some []
  | .char c :: ps => return c :: (← assemble ps)
  | .unit u :: .unit v :: ps =>
    if isHigh u && isLow v then
      return Char.ofNat (0x10000 + (u - 0xD800) * 0x400 + (v - 0xDC00)) :: (← assemble ps)
    else if isHigh u || isLow u then none
    else return Char.ofNat u :: (← assemble (.unit v :: ps))
  | .unit u :: ps =>
    if isHigh u || isLow u then none
    else return Char.ofNat u :: (← assemble ps)

/-- The text of a literal whose opening quote has been read, and what follows the literal. -/
def unquote (cs : List Char) : Option (Option String × List Char) := do
  let (ps, rest) ← pieces cs
  return ((assemble ps).map String.ofList, rest)

end PointerAnalysis.Json

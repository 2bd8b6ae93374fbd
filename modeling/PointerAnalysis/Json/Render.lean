import PointerAnalysis.Json.Basic
import PointerAnalysis.Json.Literal

/-!
Writing JSON. The written form is compact: no blank stands between tokens, and characters outside
the escaped ones stand for themselves.
-/

namespace PointerAnalysis.Json

/-- A string as a literal; one without a text is written as a lone surrogate. -/
def stringChars : Option String → List Char
  | some s => quote s.toList
  | none => ['"', '\\', 'u', 'd', '8', '0', '0', '"']

mutual

/-- The written form of a value. -/
def chars : Json → List Char
  | .null => ['n', 'u', 'l', 'l']
  | .bool true => ['t', 'r', 'u', 'e']
  | .bool false => ['f', 'a', 'l', 's', 'e']
  | .natural n => (Nat.repr n).toList
  | .number literal => literal.toList
  | .string s => stringChars s
  | .array items => '[' :: itemChars items
  | .object members => '{' :: memberChars members

/-- The items of an array, separated by commas, and its closing bracket. -/
def itemChars : List Json → List Char
  | [] => [']']
  | [v] => chars v ++ [']']
  | v :: vs => chars v ++ ',' :: itemChars vs

/-- The members of an object, separated by commas, and its closing brace. -/
def memberChars : List (Option String × Json) → List Char
  | [] => ['}']
  | [(k, v)] => stringChars k ++ ':' :: chars v ++ ['}']
  | (k, v) :: ms => stringChars k ++ ':' :: chars v ++ ',' :: memberChars ms

end

/-- The written form of a value as text. -/
def render (j : Json) : String := String.ofList (chars j)

end PointerAnalysis.Json

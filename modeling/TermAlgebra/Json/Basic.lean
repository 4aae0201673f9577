/-!
JSON values and their compact text. Objects keep their fields in the order in which they are
written. Integers are exact; a number with a fraction or an exponent, and negative zero, is kept as
it was written, since it stands for no integer here.
-/
namespace TermAlgebra

inductive Json where
  | null
  | bool (b : Bool)
  | integer (n : Int)
  | decimal (literal : String)
  | string (s : String)
  | array (items : List Json)
  | object (fields : List (String × Json))
deriving Inhabited

namespace Json

def natural (n : Nat) : Json := integer n

/-- The value of the field with the given name; only objects have fields. -/
def field? (j : Json) (name : String) : Option Json :=
  match j with
  | object fields => fields.lookup name
  | _ => none

/-- A digit of base sixteen, with small letters. -/
def hexDigit (n : Nat) : Char := Nat.digitChar n

/-- How a character stands in a quoted string: quotes, backslashes and control characters are
escaped, everything else stands for itself. -/
def escape (c : Char) : List Char :=
  if c = '"' then ['\\', '"']
  else if c = '\\' then ['\\', '\\']
  else if c = '\x08' then ['\\', 'b']
  else if c = '\x0c' then ['\\', 'f']
  else if c = '\n' then ['\\', 'n']
  else if c = '\r' then ['\\', 'r']
  else if c = '\t' then ['\\', 't']
  else if c.toNat < 0x20 then
    ['\\', 'u', '0', '0', hexDigit (c.toNat / 16), hexDigit (c.toNat % 16)]
  else [c]

/-- The characters of a quoted string. -/
def quoted (s : String) : List Char := '"' :: s.toList.flatMap escape ++ ['"']

mutual

/-- The characters of the compact text of a value: no blanks, fields in their order. -/
def chars : Json → List Char
  | null => "null".toList
  | bool b => (if b then "true" else "false").toList
  | integer n => n.repr.toList
  | decimal literal => literal.toList
  | string s => quoted s
  | array items => '[' :: charsOfItems items ++ [']']
  | object fields => '{' :: charsOfFields fields ++ ['}']

def charsOfItems : List Json → List Char
  | [] => []
  | [j] => chars j
  | j :: rest => chars j ++ ',' :: charsOfItems rest

def charsOfFields : List (String × Json) → List Char
  | [] => []
  | [(k, j)] => quoted k ++ ':' :: chars j
  | (k, j) :: rest => quoted k ++ ':' :: chars j ++ ',' :: charsOfFields rest

end

def text (j : Json) : String := String.ofList j.chars

end Json

end TermAlgebra

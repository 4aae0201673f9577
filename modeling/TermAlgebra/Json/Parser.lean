import TermAlgebra.Json.Basic
/-!
Reading JSON text. Each reader takes the characters ahead and gives what it read together with the
characters after it, or nothing if the text is malformed. A value cannot be longer than the text it
is read from, so the length of the text bounds how deep the readers can go.

That bound is no limit of the format: arrays and objects may be nested to any depth, where a reader
that guards its stack would refuse a text with, say, more than 127 brackets open at once. Of several
fields of one name the last one counts.
-/
namespace TermAlgebra.Json

/-- The blanks that may stand between tokens. -/
def isBlank (c : Char) : Bool := c == ' ' || c == '\t' || c == '\n' || c == '\r'

/-- The text without the blanks at its head. -/
def skipBlanks (cs : List Char) : List Char := cs.dropWhile isBlank

/-- The text after a word that must stand at its head. -/
def after? (word : String) (cs : List Char) : Option (List Char) := word.toList.isPrefixOf? cs

/-- The number written by decimal digits. -/
def digitsValue (ds : List Char) : Nat := ds.foldl (fun n d => 10 * n + (d.toNat - '0'.toNat)) 0

def isNumeral : List Char → Bool
  | [] => false
  | d :: ds => d.isDigit && ds.all Char.isDigit && (d != '0' || ds.isEmpty)

/-- Whether the characters are an exponent with its letter and optional sign, or nothing. -/
def isExponent : List Char → Bool
  | [] => true
  | e :: rest =>
    let digits := if rest.head? == some '+' || rest.head? == some '-' then rest.drop 1 else rest
    (e == 'e' || e == 'E') && !digits.isEmpty && digits.all Char.isDigit

/-- Whether the characters are a number with an optional fraction and an optional exponent. -/
def isDecimal (cs : List Char) : Bool :=
  let unsigned := if cs.head? == some '-' then cs.drop 1 else cs
  let (whole, rest) := unsigned.span Char.isDigit
  isNumeral whole &&
    match rest with
    | '.' :: rest =>
      let (fraction, rest) := rest.span Char.isDigit
      !fraction.isEmpty && isExponent rest
    | rest => isExponent rest

/-- The number that a literal stands for. -/
def number? (literal : List Char) : Option Json :=
  if isNumeral literal then some (.integer (digitsValue literal))
  else if literal.head? == some '-' && isNumeral (literal.drop 1) && literal != ['-', '0'] then
    some (.integer (-(digitsValue (literal.drop 1) : Int)))
  else if isDecimal literal then some (.decimal (String.ofList literal))
  else none

/-- The characters that occur in numbers. -/
def isNumberChar (c : Char) : Bool :=
  c.isDigit || c == '-' || c == '+' || c == '.' || c == 'e' || c == 'E'

def parseNumber (cs : List Char) : Option (Json × List Char) :=
  let (literal, rest) := cs.span isNumberChar
  (number? literal).map (·, rest)

/-- The value of a digit of base sixteen. -/
def hexValue? (c : Char) : Option Nat :=
  if '0' ≤ c ∧ c ≤ '9' then some (c.toNat - '0'.toNat)
  else if 'a' ≤ c ∧ c ≤ 'f' then some (c.toNat - 'a'.toNat + 10)
  else if 'A' ≤ c ∧ c ≤ 'F' then some (c.toNat - 'A'.toNat + 10)
  else none

/-- Reads four digits of base sixteen. -/
def parseHex4 : List Char → Option (Nat × List Char)
  | a :: b :: c :: d :: rest => do
    let a ← hexValue? a
    let b ← hexValue? b
    let c ← hexValue? c
    let d ← hexValue? d
    pure (((a * 16 + b) * 16 + c) * 16 + d, rest)
  | _ => none

/-- Reads the character that a numbered escape stands for, after its `u`. A number in the upper
half of a surrogate pair must be followed by another escape with the lower half. -/
def parseCodePoint (cs : List Char) : Option (Char × List Char) := do
  let (n, rest) ← parseHex4 cs
  if 0xD800 ≤ n ∧ n < 0xDC00 then
    let (m, rest) ← after? "\\u" rest >>= parseHex4
    if 0xDC00 ≤ m ∧ m < 0xE000 then
      pure (Char.ofNat (0x10000 + (n - 0xD800) * 0x400 + (m - 0xDC00)), rest)
    else none
  else if 0xDC00 ≤ n ∧ n < 0xE000 then none
  else pure (Char.ofNat n, rest)

def parseEscape : List Char → Option (Char × List Char)
  | '"' :: rest => some ('"', rest)
  | '\\' :: rest => some ('\\', rest)
  | '/' :: rest => some ('/', rest)
  | 'b' :: rest => some ('\x08', rest)
  | 'f' :: rest => some ('\x0c', rest)
  | 'n' :: rest => some ('\n', rest)
  | 'r' :: rest => some ('\r', rest)
  | 't' :: rest => some ('\t', rest)
  | 'u' :: rest => parseCodePoint rest
  | _ => none

/-- Reads the characters of a string after its opening quote, at most `fuel` of them. -/
def parseString (fuel : Nat) (cs : List Char) : Option (List Char × List Char) :=
  match fuel, cs with
  | _, '"' :: rest => some ([], rest)
  | fuel + 1, '\\' :: rest => do
    let (c, rest) ← parseEscape rest
    let (s, rest) ← parseString fuel rest
    pure (c :: s, rest)
  | fuel + 1, c :: rest =>
    if c.toNat < 0x20 then none
    else do
      let (s, rest) ← parseString fuel rest
      pure (c :: s, rest)
  | _, _ => none

/-- The fields of an object, of which a later one replaces an earlier one of the same name. -/
def lastFields : List (String × Json) → List (String × Json)
  | [] => []
  | (k, j) :: rest => if rest.any (·.1 == k) then lastFields rest else (k, j) :: lastFields rest

/-- Reads the name of a field and the colon after it. -/
def parseName (cs : List Char) : Option (String × List Char) :=
  match skipBlanks cs with
  | '"' :: rest => do
    let (s, rest) ← parseString rest.length rest
    let rest ← after? ":" (skipBlanks rest)
    pure (String.ofList s, rest)
  | _ => none

mutual

/-- Reads a value that is nested at most `fuel` deep, counting the places in arrays and objects. -/
def parseValue : Nat → List Char → Option (Json × List Char)
  | 0, _ => none
  | fuel + 1, cs =>
    match skipBlanks cs with
    | 'n' :: rest => (after? "ull" rest).map (.null, ·)
    | 't' :: rest => (after? "rue" rest).map (.bool true, ·)
    | 'f' :: rest => (after? "alse" rest).map (.bool false, ·)
    | '"' :: rest =>
      (parseString rest.length rest).map fun (s, rest) => (.string (String.ofList s), rest)
    | '[' :: rest =>
      match skipBlanks rest with
      | ']' :: rest => some (.array [], rest)
      | rest => (parseItems fuel rest).map fun (items, rest) => (.array items, rest)
    | '{' :: rest =>
      match skipBlanks rest with
      | '}' :: rest => some (.object [], rest)
      | rest =>
        (parseFields fuel rest).map fun (fields, rest) => (.object (lastFields fields), rest)
    | rest => parseNumber rest

/-- Reads the items of an array up to its closing bracket. -/
def parseItems : Nat → List Char → Option (List Json × List Char)
  | 0, _ => none
  | fuel + 1, cs => do
    let (j, rest) ← parseValue fuel cs
    match skipBlanks rest with
    | ']' :: rest => pure ([j], rest)
    | ',' :: rest =>
      let (items, rest) ← parseItems fuel rest
      pure (j :: items, rest)
    | _ => none

/-- Reads the fields of an object up to its closing brace. -/
def parseFields : Nat → List Char → Option (List (String × Json) × List Char)
  | 0, _ => none
  | fuel + 1, cs => do
    let (k, rest) ← parseName cs
    let (j, rest) ← parseValue fuel rest
    match skipBlanks rest with
    | '}' :: rest => pure ([(k, j)], rest)
    | ',' :: rest =>
      let (fields, rest) ← parseFields fuel rest
      pure ((k, j) :: fields, rest)
    | _ => none

end

/-- The value that a text stands for, if it is well-formed and nothing but blanks follows. -/
def parse? (s : String) : Option Json :=
  let cs := s.toList
  match parseValue (cs.length + 1) cs with
  | some (j, rest) => if (skipBlanks rest).isEmpty then some j else none
  | none => none

end TermAlgebra.Json

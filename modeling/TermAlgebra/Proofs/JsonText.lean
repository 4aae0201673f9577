import Mathlib.Data.List.TakeDrop
import TermAlgebra.Json.Parser
/-!
Reading the compact text of a JSON value. Each reader, given what was written followed by anything
that cannot belong to it, takes just what was written: an escaped character, a quoted string, a
number, and by induction a whole value (`ReadsBack`). Two kinds of values are not read back as they
are: a decimal, whose literal may be anything, and an object with two fields of one name, of which
only the last is kept. All others are `Plain`.
-/
namespace TermAlgebra.Json

theorem hexValue?_hexDigit {n : Nat} (digit : n < 16) : hexValue? (hexDigit n) = some n := by
  have all : ∀ d : Fin 16, hexValue? (hexDigit d.val) = some d.val := by decide
  exact all ⟨n, digit⟩

theorem parseCodePoint_hexDigits {c : Char} (control : c.toNat < 0x20) (rest : List Char) :
    parseCodePoint ('0' :: '0' :: hexDigit (c.toNat / 16) :: hexDigit (c.toNat % 16) :: rest) =
      some (c, rest) := by
  have zero : hexValue? '0' = some 0 := by decide
  have high : hexValue? (hexDigit (c.toNat / 16)) = some (c.toNat / 16) :=
    hexValue?_hexDigit (by omega)
  have low : hexValue? (hexDigit (c.toNat % 16)) = some (c.toNat % 16) :=
    hexValue?_hexDigit (Nat.mod_lt _ (by decide))
  have value : ((0 * 16 + 0) * 16 + c.toNat / 16) * 16 + c.toNat % 16 = c.toNat := by omega
  have digits : parseHex4
      ('0' :: '0' :: hexDigit (c.toNat / 16) :: hexDigit (c.toNat % 16) :: rest) =
      some (c.toNat, rest) := by
    simp only [parseHex4, zero, high, low, Option.bind_eq_bind, Option.bind_some, value]
    rfl
  have single : ¬ (0xD800 ≤ c.toNat ∧ c.toNat < 0xDC00) := by omega
  have notLow : ¬ (0xDC00 ≤ c.toNat ∧ c.toNat < 0xE000) := by omega
  rw [parseCodePoint, digits, Option.bind_eq_bind, Option.bind_some]
  simp only [if_neg single, if_neg notLow, Char.ofNat_toNat]
  rfl

/-- A character is written as itself or as an escape that is read as this character. -/
theorem escape_spec (c : Char) :
    (escape c = [c] ∧ c ≠ '"' ∧ c ≠ '\\' ∧ ¬ c.toNat < 0x20) ∨
    ∃ code, escape c = '\\' :: code ∧ ∀ rest, parseEscape (code ++ rest) = some (c, rest) := by
  have short {special letter : Char} (same : c = special)
      (reads : ∀ rest, parseEscape (letter :: rest) = some (special, rest)) :
      ∃ code, ['\\', letter] = '\\' :: code ∧ ∀ rest, parseEscape (code ++ rest) = some (c, rest) :=
    ⟨[letter], rfl, fun rest => same ▸ reads rest⟩
  rw [escape]
  split
  · exact .inr (short ‹c = '"'› fun _ => rfl)
  split
  · exact .inr (short ‹c = '\\'› fun _ => rfl)
  split
  · exact .inr (short ‹c = '\x08'› fun _ => rfl)
  split
  · exact .inr (short ‹c = '\x0c'› fun _ => rfl)
  split
  · exact .inr (short ‹c = '\n'› fun _ => rfl)
  split
  · exact .inr (short ‹c = '\r'› fun _ => rfl)
  split
  · exact .inr (short ‹c = '\t'› fun _ => rfl)
  split
  · rename_i control
    exact .inr ⟨_, rfl, fun rest => parseCodePoint_hexDigits control rest⟩
  · rename_i notQuote notBackslash _ _ _ _ _ notControl
    exact .inl ⟨rfl, notQuote, notBackslash, notControl⟩

theorem length_le_flatMap_escape (s : List Char) : s.length ≤ (s.flatMap escape).length := by
  induction s with
  | nil => exact Nat.le_refl 0
  | cons c s ih =>
    have written : 1 ≤ (escape c).length := by
      rcases escape_spec c with ⟨itself, -⟩ | ⟨code, escaped, -⟩
      · rw [itself]
        exact Nat.le_refl 1
      · rw [escaped, List.length_cons]
        omega
    rw [List.flatMap_cons, List.length_append, List.length_cons]
    omega

theorem parseString_quote (fuel : Nat) (rest : List Char) :
    parseString fuel ('"' :: rest) = some ([], rest) := by
  cases fuel <;> rfl

theorem parseString_escapes {s : List Char} {fuel : Nat} (enough : s.length ≤ fuel)
    (rest : List Char) : parseString fuel (s.flatMap escape ++ '"' :: rest) = some (s, rest) := by
  induction s generalizing fuel with
  | nil => exact parseString_quote fuel rest
  | cons c s ih =>
    obtain ⟨fuel, rfl⟩ : ∃ f, fuel = f + 1 := ⟨fuel - 1, by rw [List.length_cons] at enough; omega⟩
    have later := ih (Nat.le_of_succ_le_succ enough)
    rw [List.flatMap_cons, List.append_assoc]
    rcases escape_spec c with ⟨itself, notQuote, notBackslash, notControl⟩ | ⟨code, escaped, reads⟩
    · rw [itself, List.singleton_append, parseString, if_neg notControl, later]
      · rfl
      · exact notQuote
      · exact notBackslash
    · rw [escaped, List.cons_append, parseString, reads, Option.bind_eq_bind, Option.bind_some]
      simp only [later]
      rfl

/-- A quoted string is read to its closing quote, however far the text goes on. -/
theorem parseString_quoted (s : String) (rest : List Char) :
    ∃ body, quoted s ++ rest = '"' :: body ∧
      parseString body.length body = some (s.toList, rest) := by
  refine ⟨s.toList.flatMap escape ++ '"' :: rest, ?_, parseString_escapes ?_ rest⟩
  · rw [quoted, List.append_assoc, List.cons_append, List.singleton_append]
  · have written := length_le_flatMap_escape s.toList
    rw [List.length_append]
    omega

theorem digitsValue_toDigits (n : Nat) : digitsValue (Nat.toDigits 10 n) = n :=
  Nat.ofDigitChars_ten_toDigits

theorem isDigit_of_mem {n : Nat} {c : Char} (member : c ∈ Nat.toDigits 10 n) : c.isDigit = true :=
  Nat.isDigit_of_mem_toDigits (by decide) (by decide) member

/-- Only zero is written with a zero in front. -/
theorem head?_toDigits {n : Nat} (positive : 0 < n) :
    ∃ d ds, Nat.toDigits 10 n = d :: ds ∧ d ≠ '0' := by
  induction n using Nat.strongRecOn with
  | ind n ih =>
    by_cases small : n < 10
    · rw [Nat.toDigits_of_lt_base small]
      exact ⟨_, _, rfl, fun zero => Nat.ne_of_gt positive (Nat.digitChar_eq_zero.1 zero)⟩
    · obtain ⟨d, ds, front, notZero⟩ := ih (n / 10) (by omega) (by omega)
      rw [Nat.toDigits_of_base_le (by decide) (by omega), front]
      exact ⟨d, _, rfl, notZero⟩

theorem isNumeral_toDigits (n : Nat) : isNumeral (Nat.toDigits 10 n) = true := by
  have all : ∀ c ∈ Nat.toDigits 10 n, c.isDigit = true := fun c => isDigit_of_mem
  by_cases zero : n = 0
  · subst zero
    decide
  · obtain ⟨d, ds, written, notZero⟩ := head?_toDigits (Nat.pos_of_ne_zero zero)
    rw [written] at all ⊢
    have digit := all d List.mem_cons_self
    have digits := List.all_eq_true.2 fun c member => all c (List.mem_cons_of_mem d member)
    rw [isNumeral, digit, digits, bne_iff_ne.2 notZero]
    rfl

theorem number?_repr (n : Int) : number? n.repr.toList = some (.integer n) := by
  cases n with
  | ofNat n =>
    have literal : (Int.ofNat n).repr.toList = Nat.toDigits 10 n := Nat.toList_repr
    rw [literal, number?, if_pos (isNumeral_toDigits n), digitsValue_toDigits]
    rfl
  | negSucc n =>
    have literal : (Int.negSucc n).repr.toList = '-' :: Nat.toDigits 10 (n + 1) := by
      rw [← Nat.toList_repr]
      exact String.toList_append
    obtain ⟨d, ds, written, notZero⟩ := head?_toDigits (Nat.succ_pos n)
    have notMinusZero : ('-' :: Nat.toDigits 10 (n + 1) != ['-', '0']) = true := by
      rw [bne_iff_ne, written]
      exact fun same => notZero (List.cons.inj (List.cons.inj same).2).1
    have negative : (('-' :: Nat.toDigits 10 (n + 1)).head? == some '-' &&
        isNumeral (('-' :: Nat.toDigits 10 (n + 1)).drop 1) &&
        '-' :: Nat.toDigits 10 (n + 1) != ['-', '0']) = true := by
      rw [notMinusZero, List.drop_one, List.tail_cons, isNumeral_toDigits]
      rfl
    have signed : isNumeral ('-' :: Nat.toDigits 10 (n + 1)) = false := rfl
    rw [literal, number?, if_neg (Bool.eq_false_iff.1 signed), if_pos negative, List.drop_one,
      List.tail_cons, digitsValue_toDigits]
    rfl

theorem isNumberChar_of_mem_repr {n : Int} {c : Char} (member : c ∈ n.repr.toList) :
    isNumberChar c = true := by
  have digit {m : Nat} (member : c ∈ m.repr.toList) : isNumberChar c = true := by
    rw [Nat.toList_repr] at member
    rw [isNumberChar, isDigit_of_mem member]
    rfl
  rw [Int.repr_eq_if] at member
  split at member
  · exact digit member
  · rw [String.toList_append, List.mem_append] at member
    rcases member with sign | member
    · obtain rfl : c = '-' := by simpa using sign
      rfl
    · exact digit member

/-- Whether a number that ends before the text ends there also for a reader. -/
def EndsNumber (rest : List Char) : Prop := ∀ c ∈ rest.head?, isNumberChar c = false

theorem span_append {p : Char → Bool} {literal rest : List Char}
    (inside : ∀ c ∈ literal, p c = true) (outside : ∀ c ∈ rest.head?, p c = false) :
    (literal ++ rest).span p = (literal, rest) := by
  rw [List.span_eq_takeWhile_dropWhile, List.takeWhile_append_of_pos inside,
    List.dropWhile_append_of_pos inside]
  cases rest with
  | nil => rw [List.takeWhile_nil, List.append_nil, List.dropWhile_nil]
  | cons c rest =>
    have stops := Bool.eq_false_iff.1 (outside c rfl)
    rw [List.takeWhile_cons_of_neg stops, List.append_nil, List.dropWhile_cons_of_neg stops]

theorem parseNumber_repr (n : Int) {rest : List Char} (ends : EndsNumber rest) :
    parseNumber (n.repr.toList ++ rest) = some (.integer n, rest) := by
  rw [parseNumber, span_append (fun c => isNumberChar_of_mem_repr) ends]
  simp only [number?_repr, Option.map_some]

/-! ## Values -/

/-- No decimals, and no two fields of one object with the same name. -/
inductive Plain : Json → Prop where
  | null : Plain .null
  | bool (b : Bool) : Plain (.bool b)
  | integer (n : Int) : Plain (.integer n)
  | string (s : String) : Plain (.string s)
  | array {items : List Json} (each : ∀ j ∈ items, Plain j) : Plain (.array items)
  | object {fields : List (String × Json)} (each : ∀ e ∈ fields, Plain e.2)
      (distinct : fields.Pairwise fun a b => a.1 ≠ b.1) : Plain (.object fields)

/-- The text of a value is read as this value, whatever comes after it. -/
def ReadsBack (j : Json) : Prop :=
  ∀ fuel rest, j.chars.length ≤ fuel → EndsNumber rest →
    parseValue (fuel + 1) (j.chars ++ rest) = some (j, rest)

theorem skipBlanks_cons {c : Char} (visible : isBlank c = false) (rest : List Char) :
    skipBlanks (c :: rest) = c :: rest :=
  List.dropWhile_cons_of_neg (Bool.eq_false_iff.1 visible)

theorem lastFields_eq_self {fields : List (String × Json)}
    (distinct : fields.Pairwise fun a b => a.1 ≠ b.1) : lastFields fields = fields := by
  induction fields with
  | nil => rfl
  | cons field rest ih =>
    obtain ⟨apart, distinct⟩ := List.pairwise_cons.1 distinct
    have last : ¬ rest.any (·.1 == field.1) = true := by
      rw [List.any_eq_true]
      rintro ⟨e, later, same⟩
      exact apart e later (beq_iff_eq.1 same).symm
    rw [lastFields, if_neg last, ih distinct]

theorem isBlank_of_isNumberChar {c : Char} (inNumber : isNumberChar c = true) :
    isBlank c = false := by
  rw [Bool.eq_false_iff, isBlank]
  intro blank
  simp only [Bool.or_eq_true, beq_iff_eq] at blank
  rcases blank with ((rfl | rfl) | rfl) | rfl <;> exact absurd inNumber (by decide)

/-- A number begins like no other value. -/
theorem parseValue_number {c : Char} (inNumber : isNumberChar c = true) (fuel : Nat)
    (rest : List Char) : parseValue (fuel + 1) (c :: rest) = parseNumber (c :: rest) := by
  rw [parseValue, skipBlanks_cons (isBlank_of_isNumberChar inNumber)]
  split
  case h_7 => rfl
  all_goals
    rename_i same
    rw [(List.cons.inj same).1] at inNumber
    exact absurd inNumber (by decide)

theorem exists_chars_integer (n : Int) :
    ∃ c cs, (integer n).chars = c :: cs ∧ isNumberChar c = true := by
  cases written : n.repr.toList with
  | nil =>
    have notEmpty := number?_repr n
    rw [written] at notEmpty
    cases notEmpty
  | cons c cs =>
    refine ⟨c, cs, written, isNumberChar_of_mem_repr (n := n) ?_⟩
    rw [written]
    exact List.mem_cons_self

theorem exists_chars_eq_cons {j : Json} (plain : j.Plain) :
    ∃ c cs, j.chars = c :: cs ∧ isBlank c = false ∧ c ≠ ']' := by
  cases plain with
  | null => exact ⟨'n', _, rfl, rfl, by decide⟩
  | bool b =>
    cases b with
    | false => exact ⟨'f', _, rfl, rfl, by decide⟩
    | true => exact ⟨'t', _, rfl, rfl, by decide⟩
  | integer n =>
    obtain ⟨c, cs, written, inNumber⟩ := exists_chars_integer n
    refine ⟨c, cs, written, isBlank_of_isNumberChar inNumber, ?_⟩
    rintro rfl
    exact absurd inNumber (by decide)
  | string s => exact ⟨'"', _, rfl, rfl, by decide⟩
  | array each => exact ⟨'[', _, rfl, rfl, by decide⟩
  | object each distinct => exact ⟨'{', _, rfl, rfl, by decide⟩

/-- The items of an array begin as its first item does. -/
theorem exists_charsOfItems_eq_cons {j : Json} (items : List Json) (plain : j.Plain) :
    ∃ c cs, charsOfItems (j :: items) = c :: cs ∧ isBlank c = false ∧ c ≠ ']' := by
  obtain ⟨c, cs, written, visible, notBracket⟩ := exists_chars_eq_cons plain
  cases items with
  | nil => exact ⟨c, cs, written, visible, notBracket⟩
  | cons k items =>
    refine ⟨c, cs ++ ',' :: charsOfItems (k :: items), ?_, visible, notBracket⟩
    rw [charsOfItems, written, List.cons_append]
    exact List.cons_ne_nil k items

theorem exists_charsOfFields_eq_cons (field : String × Json) (fields : List (String × Json)) :
    ∃ cs, charsOfFields (field :: fields) = '"' :: cs := by
  cases fields <;> exact ⟨_, rfl⟩

theorem parseValue_bracket {c : Char} (visible : isBlank c = false) (notBracket : c ≠ ']')
    (fuel : Nat) (rest : List Char) :
    parseValue (fuel + 1) ('[' :: c :: rest) =
      (parseItems fuel (c :: rest)).map fun (items, rest) => (.array items, rest) := by
  rw [parseValue, skipBlanks_cons rfl]
  simp only [skipBlanks_cons visible]
  split
  · rename_i closed
    exact absurd (List.cons.inj closed).1 notBracket
  · rfl

theorem parseValue_brace (fuel : Nat) (rest : List Char) :
    parseValue (fuel + 1) ('{' :: '"' :: rest) =
      (parseFields fuel ('"' :: rest)).map fun (fields, rest) =>
        (.object (lastFields fields), rest) := by
  rw [parseValue, skipBlanks_cons rfl]
  simp only [skipBlanks_cons (c := '"') rfl]
  rfl

theorem parseName_quoted (k : String) (rest : List Char) :
    parseName (quoted k ++ ':' :: rest) = some (k, rest) := by
  obtain ⟨body, opened, reads⟩ := parseString_quoted k (':' :: rest)
  rw [opened, parseName, skipBlanks_cons rfl]
  simp only [reads, Option.bind_eq_bind, Option.bind_some, skipBlanks_cons (c := ':') rfl,
    String.ofList_toList]
  rfl

/-- The items of an array are read up to the closing bracket, given that each is read back. -/
theorem parseItems_chars {items : List Json} (each : ∀ j ∈ items, ReadsBack j) (some : items ≠ [])
    {fuel : Nat} (enough : (charsOfItems items).length ≤ fuel) (rest : List Char) :
    parseItems (fuel + 2) (charsOfItems items ++ ']' :: rest) = .some (items, rest) := by
  induction items generalizing fuel with
  | nil => exact absurd rfl some
  | cons j items ih =>
    have reads : ReadsBack j := each j List.mem_cons_self
    cases items with
    | nil =>
      rw [charsOfItems] at enough
      have here := reads fuel (']' :: rest) enough (fun c head => by cases head; rfl)
      rw [charsOfItems, parseItems, here, Option.bind_eq_bind, Option.bind_some]
      simp only [skipBlanks_cons (c := ']') rfl]
      rfl
    | cons k items =>
      have length : (charsOfItems (j :: k :: items)).length =
          j.chars.length + (charsOfItems (k :: items)).length + 1 := by
        rw [charsOfItems, List.length_append, List.length_cons]
        · omega
        · exact List.cons_ne_nil k items
      obtain ⟨fuel, rfl⟩ := Nat.exists_eq_add_of_le' (show 1 ≤ fuel by omega)
      have here := reads (fuel + 1) (',' :: (charsOfItems (k :: items) ++ ']' :: rest)) (by omega)
        (fun c head => by cases head; rfl)
      have later := ih (fun l member => each l (List.mem_cons_of_mem j member))
        (List.cons_ne_nil k items) (show _ ≤ fuel by omega)
      rw [charsOfItems, List.append_assoc, List.cons_append, parseItems, here, Option.bind_eq_bind,
        Option.bind_some]
      · simp only [skipBlanks_cons (c := ',') rfl, later]
        rfl
      · exact List.cons_ne_nil k items

/-- The fields of an object are read up to the closing brace, given that each value is read back. -/
theorem parseFields_chars {fields : List (String × Json)} (each : ∀ e ∈ fields, ReadsBack e.2)
    (some : fields ≠ []) {fuel : Nat} (enough : (charsOfFields fields).length ≤ fuel)
    (rest : List Char) :
    parseFields (fuel + 2) (charsOfFields fields ++ '}' :: rest) = .some (fields, rest) := by
  induction fields generalizing fuel with
  | nil => exact absurd rfl some
  | cons field fields ih =>
    obtain ⟨k, j⟩ := field
    have reads : ReadsBack j := each (k, j) List.mem_cons_self
    cases fields with
    | nil =>
      rw [charsOfFields, List.length_append, List.length_cons] at enough
      have here := reads fuel ('}' :: rest) (by omega) (fun c head => by cases head; rfl)
      rw [charsOfFields, List.append_assoc, List.cons_append, parseFields, parseName_quoted,
        Option.bind_eq_bind, Option.bind_some]
      simp only [here, Option.bind_eq_bind, Option.bind_some, skipBlanks_cons (c := '}') rfl]
      rfl
    | cons next fields =>
      have length : (charsOfFields ((k, j) :: next :: fields)).length =
          (quoted k).length + j.chars.length + (charsOfFields (next :: fields)).length + 2 := by
        rw [charsOfFields, List.length_append, List.length_cons, List.length_append,
          List.length_cons]
        · omega
        · exact List.cons_ne_nil next fields
      obtain ⟨fuel, rfl⟩ := Nat.exists_eq_add_of_le' (show 1 ≤ fuel by omega)
      have here := reads (fuel + 1) (',' :: (charsOfFields (next :: fields) ++ '}' :: rest))
        (by omega) (fun c head => by cases head; rfl)
      have later := ih (fun e member => each e (List.mem_cons_of_mem (k, j) member))
        (List.cons_ne_nil next fields) (show _ ≤ fuel by omega)
      rw [charsOfFields, List.append_assoc, List.cons_append, List.append_assoc, List.cons_append,
        parseFields, parseName_quoted, Option.bind_eq_bind, Option.bind_some]
      · simp only [here, Option.bind_eq_bind, Option.bind_some, skipBlanks_cons (c := ',') rfl,
          later]
        rfl
      · exact List.cons_ne_nil next fields

theorem readsBack_array {items : List Json} (each : ∀ j ∈ items, Plain j)
    (ih : ∀ j ∈ items, ReadsBack j) : ReadsBack (.array items) := by
  intro fuel rest enough _
  rw [chars, List.length_append, List.length_cons, List.length_singleton] at enough
  obtain ⟨fuel, rfl⟩ := Nat.exists_eq_add_of_le' (show 2 ≤ fuel by omega)
  rw [chars, List.append_assoc, List.cons_append, List.singleton_append]
  cases items with
  | nil => rfl
  | cons j items =>
    have reads := parseItems_chars ih (List.cons_ne_nil j items) (show _ ≤ fuel by omega) rest
    obtain ⟨c, cs, front, visible, notBracket⟩ := exists_charsOfItems_eq_cons items
      (each j List.mem_cons_self)
    rw [front, List.cons_append] at reads ⊢
    rw [parseValue_bracket visible notBracket, reads, Option.map_some]

theorem readsBack_object {fields : List (String × Json)}
    (distinct : fields.Pairwise fun a b => a.1 ≠ b.1) (ih : ∀ e ∈ fields, ReadsBack e.2) :
    ReadsBack (.object fields) := by
  intro fuel rest enough _
  rw [chars, List.length_append, List.length_cons, List.length_singleton] at enough
  obtain ⟨fuel, rfl⟩ := Nat.exists_eq_add_of_le' (show 2 ≤ fuel by omega)
  rw [chars, List.append_assoc, List.cons_append, List.singleton_append]
  cases fields with
  | nil => rfl
  | cons field fields =>
    have reads := parseFields_chars ih (List.cons_ne_nil field fields)
      (show _ ≤ fuel by omega) rest
    obtain ⟨cs, front⟩ := exists_charsOfFields_eq_cons field fields
    rw [front, List.cons_append] at reads ⊢
    rw [parseValue_brace, reads]
    simp only [Option.map_some, lastFields_eq_self distinct]

theorem Plain.readsBack {j : Json} (plain : j.Plain) : ReadsBack j := by
  induction plain with
  | null =>
    intro fuel rest _ _
    rfl
  | bool b =>
    intro fuel rest _ _
    cases b <;> rfl
  | integer n =>
    intro fuel rest _ ends
    obtain ⟨c, cs, written, inNumber⟩ := exists_chars_integer n
    rw [written, List.cons_append, parseValue_number inNumber, ← List.cons_append, ← written]
    exact parseNumber_repr n ends
  | string s =>
    intro fuel rest _ _
    obtain ⟨body, opened, reads⟩ := parseString_quoted s rest
    rw [chars, opened, parseValue, skipBlanks_cons rfl]
    simp only [reads, Option.map_some, String.ofList_toList]
  | array each ih => exact readsBack_array each ih
  | object each distinct ih => exact readsBack_object distinct ih

/-- The compact text of a plain value is read as that value. -/
theorem parse?_text {j : Json} (plain : j.Plain) : parse? j.text = some j := by
  have reads := plain.readsBack j.chars.length [] (Nat.le_refl _) (fun c head => by cases head)
  rw [List.append_nil] at reads
  rw [parse?, text, String.toList_ofList]
  simp only [reads]
  rfl

end TermAlgebra.Json

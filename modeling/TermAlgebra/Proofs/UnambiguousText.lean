import Mathlib.Data.List.Forall2
import TermAlgebra.Proofs.JsonText
import TermAlgebra.Proofs.LabelEquality
import TermAlgebra.Proofs.WellFormed
/-!
Texts that tell values apart. Where names have only letters, digits and underscores, the text of a
term can be read in one way only: in a longer text it ends where a comma, a blank or a closing
bracket follows (`Separates`), since nothing in between closes more than was opened. So a list in
brackets determines its items, an application its arguments and with them the arity that is not
written, also where names are empty.
-/
namespace TermAlgebra

/-- A letter, a digit or an underscore. -/
def isNameChar (c : Char) : Bool := c.isAlphanum || c == '_'

/-- There are no other characters in the name, which may be empty. -/
def IsPlainName (name : String) : Prop := ∀ c ∈ name.toList, isNameChar c = true

/-- All constants, function symbols and variables in a term have plain names. -/
inductive Term.PlainlyNamed : Term Label → Prop where
  | const {c : Constant} (plain : IsPlainName c.name) : PlainlyNamed (.const c)
  | var {l : Label} (plain : IsPlainName l.name) : PlainlyNamed (.var l)
  | app {f : FunctionSymbol} {args : List (Term Label)} (plain : IsPlainName f.name)
      (each : ∀ t ∈ args, PlainlyNamed t) : PlainlyNamed (.app f args)

/-- The variables that are bound and the terms that are bound to them are plainly named. -/
def Substitution.PlainlyNamed (s : Substitution Label) : Prop :=
  ∀ b ∈ s.toList, IsPlainName b.1.name ∧ b.2.PlainlyNamed

/-- A text that can follow a term, a key or an index: it goes on with a separator or a closing
bracket, or it is at its end. -/
def Delimited (rest : List Char) : Prop := ∀ c ∈ rest.head?, c ∈ [',', ' ', ')', '}', ']']

theorem delimited_cons {c : Char} {rest : List Char} :
    Delimited (c :: rest) ↔ c ∈ [',', ' ', ')', '}', ']'] := by
  simp [Delimited]

/-- Where longer texts agree that begin with the texts of the two values and go on delimited, the
values are the same and so is the rest. -/
def Separates {α : Type} (write : α → String) (a b : α) : Prop :=
  ∀ r s, Delimited r → Delimited s → (write a).toList ++ r = (write b).toList ++ s → a = b ∧ r = s

theorem Separates.eq {α : Type} {write : α → String} {a b : α} (separates : Separates write a b)
    (same : write a = write b) : a = b := by
  have ends : Delimited [] := by simp [Delimited]
  exact (separates [] [] ends ends (by rw [same])).1

/-- Characters of one kind end where one of another kind follows. -/
theorem eq_of_append_eq {p : Char → Bool} {n m r s : List Char} (inside : ∀ c ∈ n, p c = true)
    (inside' : ∀ c ∈ m, p c = true) (outside : ∀ c ∈ r.head?, p c = false)
    (outside' : ∀ c ∈ s.head?, p c = false) (same : n ++ r = m ++ s) : n = m ∧ r = s := by
  have read := Json.span_append inside outside
  rw [same, Json.span_append inside' outside'] at read
  exact ⟨(Prod.mk.inj read).1.symm, (Prod.mk.inj read).2.symm⟩

theorem name_eq_of_append_eq {n m : String} {r s : List Char} (plain : IsPlainName n)
    (plain' : IsPlainName m) (outside : ∀ c ∈ r.head?, isNameChar c = false)
    (outside' : ∀ c ∈ s.head?, isNameChar c = false) (same : n.toList ++ r = m.toList ++ s) :
    n = m ∧ r = s :=
  (eq_of_append_eq plain plain' outside outside' same).imp_left String.toList_inj.1

theorem Delimited.outside {rest : List Char} (ends : Delimited rest) :
    ∀ c ∈ rest.head?, isNameChar c = false ∧ c.isDigit = false := by
  intro c member
  have separator := ends c member
  simp only [List.mem_cons, List.not_mem_nil, or_false] at separator
  rcases separator with rfl | rfl | rfl | rfl | rfl <;> exact ⟨rfl, rfl⟩

theorem separates_repr (i j : Nat) : Separates Nat.repr i j := by
  intro r s ends ends' same
  have digits (n : Nat) : ∀ c ∈ n.repr.toList, c.isDigit = true := by
    intro c member
    rw [Nat.toList_repr] at member
    exact Json.isDigit_of_mem member
  obtain ⟨number, rest⟩ := eq_of_append_eq (digits i) (digits j)
    (fun c member => (ends.outside c member).2) (fun c member => (ends'.outside c member).2) same
  rw [Nat.toList_repr, Nat.toList_repr] at number
  have value := congrArg Json.digitsValue number
  rw [Json.digitsValue_toDigits, Json.digitsValue_toDigits] at value
  exact ⟨value, rest⟩

/-- An index as it is written after a name. -/
def indexText : Option UInt64 → String
  | none => ""
  | some i => "#" ++ i.toNat.repr

theorem Label.text_eq (l : Label) : l.text = "?" ++ (l.name ++ indexText l.index) := by
  obtain ⟨name, index⟩ := l
  cases index with
  | none => simp [text, indexText]
  | some i => simp [text, indexText, String.append_assoc]

theorem outside_indexText (index : Option UInt64) {rest : List Char} (ends : Delimited rest) :
    ∀ c ∈ ((indexText index).toList ++ rest).head?, isNameChar c = false := by
  cases index with
  | none => simpa [indexText] using fun c member => (ends.outside c member).1
  | some i => simp [indexText, isNameChar]

theorem separates_indexText (i j : Option UInt64) : Separates indexText i j := by
  intro r s ends ends' same
  cases i with
  | none =>
    cases j with
    | none => simpa [indexText] using same
    | some j =>
      obtain rfl : r = '#' :: (j.toNat.repr.toList ++ s) := by simpa [indexText] using same
      simp [delimited_cons] at ends
  | some i =>
    cases j with
    | none =>
      obtain rfl : '#' :: (i.toNat.repr.toList ++ r) = s := by simpa [indexText] using same
      simp [delimited_cons] at ends'
    | some j =>
      have digits : i.toNat.repr.toList ++ r = j.toNat.repr.toList ++ s := by
        simpa [indexText] using same
      obtain ⟨value, rest⟩ := separates_repr _ _ r s ends ends' digits
      exact ⟨congrArg some (UInt64.toNat_inj.1 value), rest⟩

theorem separates_label {l m : Label} (plain : IsPlainName l.name) (plain' : IsPlainName m.name) :
    Separates Label.text l m := by
  intro r s ends ends' same
  simp only [Label.text_eq, String.toList_append, List.append_assoc] at same
  obtain ⟨name, same⟩ := name_eq_of_append_eq plain plain' (outside_indexText _ ends)
    (outside_indexText _ ends') (List.append_cancel_left same)
  obtain ⟨index, rest⟩ := separates_indexText _ _ r s ends ends' same
  obtain ⟨n, i⟩ := l
  obtain ⟨n', i'⟩ := m
  obtain rfl : n = n' := name
  obtain rfl : i = i' := index
  exact ⟨rfl, rest⟩

/-! ## Lists in brackets -/

section
variable {α : Type} {write : α → String} {as bs : List α} {close : Char} {r s : List Char}

/-- The items after the first one, each after a comma. -/
def furtherItems (write : α → String) (as : List α) : List Char :=
  as.flatMap fun a => ',' :: ' ' :: (write a).toList

theorem toList_intercalate_cons (a : α) (as : List α) :
    (String.intercalate ", " ((a :: as).map write)).toList =
      (write a).toList ++ furtherItems write as := by
  induction as generalizing a with
  | nil => simp [furtherItems]
  | cons b as ih =>
    rw [List.map_cons, String.intercalate_cons_of_ne_nil (by simp), String.toList_append,
      String.toList_append, ih]
    simp [furtherItems]

theorem delimited_furtherItems (closes : close ∈ [')', '}', ']']) (as : List α)
    (rest : List Char) : Delimited (furtherItems write as ++ close :: rest) := by
  cases as with
  | nil => exact delimited_cons.2 (List.mem_cons_of_mem _ (List.mem_cons_of_mem _ closes))
  | cons a as => exact delimited_cons.2 List.mem_cons_self

theorem furtherItems_eq (each : ∀ a ∈ as, ∀ b ∈ bs, Separates write a b)
    (closes : close ∈ [')', '}', ']'])
    (same : furtherItems write as ++ close :: r = furtherItems write bs ++ close :: s) :
    as = bs ∧ r = s := by
  have notComma : close ≠ ',' := by
    rintro rfl
    simp at closes
  -- A comma and the closing bracket differ, so both lists go on or both end.
  induction as generalizing bs with
  | nil =>
    cases bs with
    | nil => exact ⟨rfl, (List.cons.inj same).2⟩
    | cons b bs => exact absurd (List.cons.inj same).1 notComma
  | cons a as ih =>
    cases bs with
    | nil => exact absurd (List.cons.inj same).1.symm notComma
    | cons b bs =>
      simp only [furtherItems, List.flatMap_cons, List.cons_append, List.append_assoc,
        List.cons.injEq, true_and] at same
      obtain ⟨rfl, later⟩ := each a List.mem_cons_self b List.mem_cons_self _ _
        (delimited_furtherItems closes as r) (delimited_furtherItems closes bs s) same
      obtain ⟨rfl, rest⟩ := ih (fun a member b member' => each a (List.mem_cons_of_mem _ member) b
        (List.mem_cons_of_mem _ member')) later
      exact ⟨rfl, rest⟩

/-- Items with commas between them, up to a closing bracket. That there are none must be known in
both texts or in neither, since an item may be written as nothing at all. -/
theorem items_eq (each : ∀ a ∈ as, ∀ b ∈ bs, Separates write a b) (alike : as = [] ↔ bs = [])
    (closes : close ∈ [')', '}', ']'])
    (same : (String.intercalate ", " (as.map write)).toList ++ close :: r =
      (String.intercalate ", " (bs.map write)).toList ++ close :: s) : as = bs ∧ r = s := by
  cases as with
  | nil =>
    obtain rfl := alike.1 rfl
    exact ⟨rfl, by simpa using same⟩
  | cons a as =>
    cases bs with
    | nil => exact absurd (alike.2 rfl) (List.cons_ne_nil a as)
    | cons b bs =>
      -- With a comma put in front, all items come after a comma.
      rw [toList_intercalate_cons, toList_intercalate_cons] at same
      exact furtherItems_eq each closes (congrArg (',' :: ' ' :: ·) same)

/-- If no item is written as nothing, it shows in the text whether there are any. -/
theorem items_eq_of_written (each : ∀ a ∈ as, ∀ b ∈ bs, Separates write a b)
    (written : ∀ a, ∃ c ∈ (write a).toList.head?, c ≠ close) (closes : close ∈ [')', '}', ']'])
    (same : (String.intercalate ", " (as.map write)).toList ++ close :: r =
      (String.intercalate ", " (bs.map write)).toList ++ close :: s) : as = bs ∧ r = s := by
  have notClosed (a : α) (as : List α) (rest rest' : List Char) :
      close :: rest ≠ (String.intercalate ", " ((a :: as).map write)).toList ++ rest' := by
    intro closed
    obtain ⟨c, first, other⟩ := written a
    obtain ⟨later, text⟩ := List.head?_eq_some_iff.1 first
    rw [toList_intercalate_cons, text] at closed
    exact other (List.cons.inj closed).1.symm
  refine items_eq each ?_ closes same
  cases as with
  | nil =>
    cases bs with
    | nil => exact Iff.rfl
    | cons b bs => exact absurd same (notClosed b bs r _)
  | cons a as =>
    cases bs with
    | nil => exact absurd same.symm (notClosed a as s _)
    | cons b bs => exact iff_of_false (List.cons_ne_nil a as) (List.cons_ne_nil b bs)

end

namespace Term

theorem texts_eq_map (ts : List (Term Label)) : texts ts = ts.map text := by
  induction ts with
  | nil => rfl
  | cons t ts ih => rw [texts, ih, List.map_cons]

/-- The name with which the text of a term begins; before a variable's question mark there is
none. -/
def leading : Term Label → String
  | const c => c.name
  | var _ => ""
  | app f _ => f.name

/-- The text of a term after the name with which it begins. -/
def following : Term Label → List Char
  | const _ => []
  | var l => l.text.toList
  | app _ args => '(' :: ((String.intercalate ", " (args.map text)).toList ++ [')'])

theorem toList_text (t : Term Label) : t.text.toList = t.leading.toList ++ t.following := by
  cases t with
  | const c => simp [text, Constant.text, leading, following]
  | var l => simp [text, leading, following]
  | app f args => simp [text, texts_eq_map, leading, following]

theorem PlainlyNamed.leading {t : Term Label} (plain : t.PlainlyNamed) :
    IsPlainName t.leading := by
  cases plain with
  | const plain => exact plain
  | var plain => simp [IsPlainName, Term.leading]
  | app plain each => exact plain

theorem outside_following (t : Term Label) {rest : List Char} (ends : Delimited rest) :
    ∀ c ∈ (t.following ++ rest).head?, isNameChar c = false := by
  cases t with
  | const c => exact fun c member => (ends.outside c member).1
  | var l => simp [following, Label.text_eq, isNameChar]
  | app f args => simp [following, isNameChar]

/-- Texts that go on delimited begin with the same name. -/
theorem leading_eq {t u : Term Label} {r s : List Char} (plain : t.PlainlyNamed)
    (plain' : u.PlainlyNamed) (ends : Delimited r) (ends' : Delimited s)
    (same : t.text.toList ++ r = u.text.toList ++ s) :
    t.leading = u.leading ∧ t.following ++ r = u.following ++ s := by
  rw [toList_text, toList_text, List.append_assoc, List.append_assoc] at same
  exact name_eq_of_append_eq plain.leading plain'.leading (outside_following t ends)
    (outside_following u ends') same

/-- Function symbols of one name that are applied to as many arguments are the same. -/
theorem symbol_eq {f g : FunctionSymbol} {args : List (Term Label)}
    (wellFormed : (app f args).WellFormed) (wellFormed' : (app g args).WellFormed)
    (name : f.name = g.name) : f = g := by
  have arity := (wellFormed_app.1 wellFormed).1.symm.trans (wellFormed_app.1 wellFormed').1
  obtain ⟨n, k, positive⟩ := f
  obtain ⟨n', k', positive'⟩ := g
  obtain rfl : n = n' := name
  obtain rfl : k = k' := UInt64.toNat_inj.1 arity
  rfl

/-- The text of a term determines the term and where it ends. What follows the first name tells
constants, variables and applications apart: something that delimits, a question mark, or an opening
bracket. -/
theorem separates_text {t u : Term Label} (wellFormed : t.WellFormed) (wellFormed' : u.WellFormed)
    (plain : t.PlainlyNamed) (plain' : u.PlainlyNamed) : Separates text t u := by
  induction t generalizing u with
  | const c =>
    intro r s ends ends' same
    obtain ⟨name, same⟩ := leading_eq plain plain' ends ends' same
    cases u with
    | const d => exact ⟨congrArg (fun name => const ⟨name⟩) name, same⟩
    -- A name after which a term of another kind goes on is not delimited.
    | var m =>
      obtain rfl : r = _ := same
      simp [following, Label.text_eq, delimited_cons] at ends
    | app g args' =>
      obtain rfl : r = _ := same
      simp [following, delimited_cons] at ends
  | var l =>
    intro r s ends ends' same
    obtain ⟨-, same⟩ := leading_eq plain plain' ends ends' same
    cases u with
    | const d =>
      obtain rfl : _ = s := same
      simp [following, Label.text_eq, delimited_cons] at ends'
    | var m =>
      cases plain with | var plain =>
      cases plain' with | var plain' =>
      exact (separates_label plain plain' r s ends ends' same).imp_left (congrArg var)
    | app g args' => simp [following, Label.text_eq] at same
  | app f args ih =>
    intro r s ends ends' same
    obtain ⟨name, same⟩ := leading_eq plain plain' ends ends' same
    cases u with
    | const d =>
      obtain rfl : _ = s := same
      simp [following, delimited_cons] at ends'
    | var m => simp [following, Label.text_eq] at same
    | app g args' =>
      cases plain with | app plain each =>
      cases plain' with | app plain' each' =>
      have items := (wellFormed_app.1 wellFormed).2
      have items' := (wellFormed_app.1 wellFormed').2
      have alike : args = [] ↔ args' = [] :=
        iff_of_false (args_ne_nil wellFormed) (args_ne_nil wellFormed')
      simp only [following, List.cons_append, List.append_assoc, List.cons.injEq, true_and,
        List.nil_append] at same
      obtain ⟨rfl, rest⟩ := items_eq (fun a member b member' => ih a member (items a member)
        (items' b member') (each a member) (each' b member')) alike List.mem_cons_self same
      exact ⟨congrArg (app · args) (symbol_eq wellFormed wellFormed' name), rest⟩

end Term

/-- A binding as it is written in a substitution. -/
def bindingText (b : Label × Term Label) : String := b.1.text ++ " -> " ++ b.2.text

theorem separates_bindingText {a b : Label × Term Label} (wellFormed : a.2.WellFormed)
    (wellFormed' : b.2.WellFormed) (plain : IsPlainName a.1.name ∧ a.2.PlainlyNamed)
    (plain' : IsPlainName b.1.name ∧ b.2.PlainlyNamed) : Separates bindingText a b := by
  intro r s ends ends' same
  simp only [bindingText, String.toList_append, List.append_assoc] at same
  have arrow (rest : List Char) : Delimited (" -> ".toList ++ rest) := by simp [delimited_cons]
  obtain ⟨key, later⟩ := separates_label plain.1 plain'.1 _ _ (arrow _) (arrow _) same
  obtain ⟨term, rest⟩ := Term.separates_text wellFormed wellFormed' plain.2 plain'.2 r s ends ends'
    (List.append_cancel_left later)
  exact ⟨Prod.ext key term, rest⟩

theorem Substitution.toList_text (s : Substitution Label) :
    s.text.toList =
      '{' :: ((String.intercalate ", " (s.toList.map bindingText)).toList ++ ['}']) := by
  rw [text, String.toList_append, String.toList_append]
  rfl

theorem Substitution.text_eq_iff {s r : Substitution Label} (wellFormed : s.WellFormed)
    (wellFormed' : r.WellFormed) (plain : s.PlainlyNamed) (plain' : r.PlainlyNamed) :
    s.text = r.text ↔ s.toList = r.toList := by
  constructor
  · intro same
    rw [← String.toList_inj, toList_text, toList_text, List.cons.injEq] at same
    have each : ∀ a ∈ s.toList, ∀ b ∈ r.toList, Separates bindingText a b :=
      fun a member b member' => separates_bindingText (wellFormed a member)
        (wellFormed' b member') (plain a member) (plain' b member')
    have written : ∀ a, ∃ c ∈ (bindingText a).toList.head?, c ≠ '}' :=
      fun a => ⟨'?', by simp [bindingText, Label.text_eq], by decide⟩
    exact (items_eq_of_written each written (by simp) same.2).1
  · intro same
    rw [text, text, same]

theorem Position.toList_text (p : Position) :
    p.text.toList = '[' :: ((String.intercalate ", " (p.map Nat.repr)).toList ++ [']']) := by
  rw [text, String.toList_append, String.toList_append]
  rfl

theorem Position.text_eq_iff {p q : Position} : p.text = q.text ↔ p = q := by
  constructor
  · intro same
    rw [← String.toList_inj, toList_text, toList_text, List.cons.injEq] at same
    have written : ∀ i, ∃ c ∈ (Nat.repr i).toList.head?, c ≠ ']' := by
      intro i
      obtain ⟨d, ds, digits⟩ := List.exists_cons_of_ne_nil (@Nat.toDigits_ne_nil i 10)
      have digit : d.isDigit = true := Json.isDigit_of_mem (digits ▸ List.mem_cons_self)
      refine ⟨d, by rw [Nat.toList_repr, digits]; rfl, ?_⟩
      rintro rfl
      exact absurd digit (by decide)
    exact (items_eq_of_written (fun i _ j _ => separates_repr i j) written (by simp) same.2).1
  · intro same
    rw [same]

/-! ## Messages -/

def BeginsWith (text beginning : String) : Prop := ∃ rest, text = beginning ++ rest

theorem BeginsWith.append {text beginning : String} (begins : BeginsWith text beginning)
    (more : String) : BeginsWith (text ++ more) beginning := by
  obtain ⟨rest, rfl⟩ := begins
  exact ⟨rest ++ more, String.append_assoc⟩

/-- Texts differ when their beginnings do. -/
theorem BeginsWith.ne {text text' a b : String} (begins : BeginsWith text a)
    (begins' : BeginsWith text' b) (n : Nat) (long : n ≤ a.toList.length)
    (long' : n ≤ b.toList.length) (apart : a.toList.take n ≠ b.toList.take n) : text ≠ text' := by
  obtain ⟨x, rfl⟩ := begins
  obtain ⟨y, rfl⟩ := begins'
  intro same
  have beginnings := congrArg (fun text : String => text.toList.take n) same
  simp only [String.toList_append, List.take_append_of_le_length long,
    List.take_append_of_le_length long'] at beginnings
  exact apart beginnings

/-- Only the message about a position that is not there begins as it does, and it names the
position. -/
theorem TermError.message_eq_iff {e : TermError} {p : Position} :
    e.message = (invalidPosition p).message ↔ e = .invalidPosition p := by
  have asked : BeginsWith (invalidPosition p).message "Invalid position: " := ⟨p.text, rfl⟩
  constructor
  · intro same
    cases e with
    | invalidPosition q =>
      change "Invalid position: " ++ q.text = "Invalid position: " ++ p.text at same
      rw [String.append_right_inj, Position.text_eq_iff] at same
      rw [same]
    | invalidArity name =>
      have other : BeginsWith (invalidArity name).message "Invalid arity for function symbol " :=
        .append ⟨name, rfl⟩ _
      exact absurd same (other.ne asked 9 (by decide) (by decide) (by decide))
    | arityMismatch symbol found =>
      have other : BeginsWith (arityMismatch symbol found).message
          "Incorrect number of child terms for " :=
        .append (.append (.append (.append ⟨symbol.text, rfl⟩ _) _) _) _
      exact absurd same (other.ne asked 3 (by decide) (by decide) (by decide))
    | unsupportedOperand operation operand =>
      have other : BeginsWith (unsupportedOperand operation operand).message
          "Value does not support " :=
        .append (.append ⟨operation.text, rfl⟩ _) _
      exact absurd same (other.ne asked 1 (by decide) (by decide) (by decide))
    | notPoolBound value =>
      have other : BeginsWith (notPoolBound value).message
          "Value is not associated with a variable pool: " := ⟨value, rfl⟩
      exact absurd same (other.ne asked 1 (by decide) (by decide) (by decide))
    | indexExhausted name =>
      have other : BeginsWith (indexExhausted name).message
          "No fresh index left for variable " := ⟨name, rfl⟩
      exact absurd same (other.ne asked 1 (by decide) (by decide) (by decide))
  · rintro rfl
    rfl

/-! ## No two values with one text -/

theorem Term.text_eq_iff {t u : Term Label} (wellFormed : t.WellFormed)
    (wellFormed' : u.WellFormed) (plain : t.PlainlyNamed) (plain' : u.PlainlyNamed) :
    t.text = u.text ↔ t = u :=
  ⟨fun same => (separates_text wellFormed wellFormed' plain plain').eq same,
    fun same => congrArg text same⟩

theorem Substitution.labels_toList_eq_iff {s r : Substitution Variable} :
    s.labels.toList = r.labels.toList ↔
      List.Forall₂ (fun a b => (a.1 == b.1) = true ∧ (a.2 == b.2) = true) s.toList r.toList := by
  simp only [Variable.beq_iff, Term.beq_iff]
  rw [toList_labels, toList_labels, ← List.forall₂_eq_eq_eq, List.forall₂_map_left_iff,
    List.forall₂_map_right_iff]
  simp only [Prod.mk.injEq]

/-- Terms with plain names have one text only if they are equal, and so have substitutions of such
terms, whose bindings are then equal in turn. A position has a text of its own, and a message of its
own when it is not there. -/
theorem texts_unambiguous :
    (∀ t u : Term Variable, t.WellFormed → u.WellFormed → t.labels.PlainlyNamed →
      u.labels.PlainlyNamed → (t.labels.text = u.labels.text ↔ (t == u) = true)) ∧
    (∀ s r : Substitution Variable, s.WellFormed → r.WellFormed → s.labels.PlainlyNamed →
      r.labels.PlainlyNamed → (s.labels.text = r.labels.text ↔
        List.Forall₂ (fun a b => (a.1 == b.1) = true ∧ (a.2 == b.2) = true) s.toList r.toList)) ∧
    (∀ p q : Position, p.text = q.text ↔ p = q) ∧
    ∀ (e : TermError) (p : Position),
      e.message = (TermError.invalidPosition p).message ↔ e = .invalidPosition p := by
  refine ⟨fun t u wellFormed wellFormed' plain plain' => ?_,
    fun s r wellFormed wellFormed' plain plain' => ?_,
    fun p q => Position.text_eq_iff, fun e p => TermError.message_eq_iff⟩
  · rw [Term.beq_iff]
    exact Term.text_eq_iff (Term.wellFormed_labels.2 wellFormed)
      (Term.wellFormed_labels.2 wellFormed') plain plain'
  · rw [← Substitution.labels_toList_eq_iff]
    exact Substitution.text_eq_iff (Substitution.wellFormed_labels wellFormed)
      (Substitution.wellFormed_labels wellFormed') plain plain'

/-- Where all names are empty, and the variables are of two pools. -/
theorem texts_unambiguous_empty_names :
    let x (pool : PoolId) : Variable := ⟨⟨"", some 1⟩, .issued pool 0⟩
    let t (pool : PoolId) : Term Variable :=
      .app ⟨"", 2, by decide⟩ [.const ⟨""⟩, .app ⟨"", 1, by decide⟩ [.var (x pool)]]
    let s (pool : PoolId) : Substitution Variable := .single (x pool) (t pool)
    (∀ pool, (t pool).WellFormed ∧ (t pool).labels.PlainlyNamed ∧ (s pool).WellFormed ∧
      (s pool).labels.PlainlyNamed) ∧
    (t 0).labels.text = "(, (?#1))" ∧ (t 0 == t 1) = true ∧
    (s 0).labels.text = "{?#1 -> (, (?#1))}" ∧
    List.Forall₂ (fun a b => (a.1 == b.1) = true ∧ (a.2 == b.2) = true) (s 0).toList
      (s 1).toList := by
  intro x t s
  have empty : IsPlainName "" := by simp [IsPlainName]
  have wellFormed : ∀ pool, (t pool).WellFormed := fun pool =>
    ⟨rfl, trivial, ⟨rfl, trivial, trivial⟩, trivial⟩
  have plain : ∀ pool, (t pool).labels.PlainlyNamed := fun pool =>
    .app empty (List.forall_mem_cons.2 ⟨.const empty, List.forall_mem_singleton.2
      (.app empty (List.forall_mem_singleton.2 (.var empty)))⟩)
  have bound : ∀ pool, (s pool).WellFormed := fun pool =>
    List.forall_mem_singleton.2 (wellFormed pool)
  have plainlyBound : ∀ pool, (s pool).labels.PlainlyNamed := fun pool =>
    List.forall_mem_singleton.2 ⟨empty, plain pool⟩
  obtain ⟨terms, substitutions, -⟩ := texts_unambiguous
  refine ⟨fun pool => ⟨wellFormed pool, plain pool, bound pool, plainlyBound pool⟩, by decide,
    (terms (t 0) (t 1) (wellFormed 0) (wellFormed 1) (plain 0) (plain 1)).1 rfl, by decide, ?_⟩
  exact (substitutions (s 0) (s 1) (bound 0) (bound 1) (plainlyBound 0) (plainlyBound 1)).1 rfl

end TermAlgebra

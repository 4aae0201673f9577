/-!
Texts are compared character by character. Their bytes in UTF-8 are in the same order
(`Utf8.compare_bytes`), and so are their code points (`Utf8.compare_codePoints`). Of two characters
the one with the greater code has the later encoding, whatever follows it: this is so of encodings
in one byte, it stays so when each of them gets a trailing byte (`Utf8.Rising.trailing`), and when
longer encodings are added whose leading bytes are greater than all those before
(`Utf8.Rising.widen`).
-/
namespace TermAlgebra

/-- Lists are compared as they are ordered, if their items are. -/
theorem compare_list_eq_lt_iff {α : Type} [Ord α] [Std.LawfulEqOrd α] [LT α]
    (items : ∀ a b : α, compare a b = .lt ↔ a < b) {xs ys : List α} :
    compare xs ys = .lt ↔ xs < ys := by
  induction xs generalizing ys with
  | nil => cases ys <;> simp
  | cons x xs ih =>
    cases ys with
    | nil => simp
    | cons y ys =>
      rw [List.compare_cons_cons, Ordering.then_eq_lt, List.cons_lt_cons_iff, items, ih,
        Std.LawfulEqOrd.compare_eq_iff_eq]

/-- A map that keeps the order keeps every outcome of a comparison. -/
theorem compare_map_eq {α β : Type} [Ord α] [Ord β] [Std.LawfulEqOrd α] [Std.OrientedOrd α]
    [Std.OrientedOrd β] {f : α → β}
    (keeps : ∀ a b, compare a b = .lt → compare (f a) (f b) = .lt) (a b : α) :
    compare (f a) (f b) = compare a b := by
  cases outcome : compare a b with
  | lt => exact keeps a b outcome
  | eq => rw [Std.LawfulEqOrd.eq_of_compare outcome, Std.ReflOrd.compare_self]
  | gt => exact Std.OrientedCmp.gt_of_lt (keeps b a (Std.OrientedCmp.lt_of_gt outcome))

namespace Utf8

theorem byte_lt {a b : Nat} (less : a < b) (inRange : b < 256) : UInt8.ofNat a < UInt8.ofNat b := by
  have value : (UInt8.ofNat a).toNat = a := Nat.mod_eq_of_lt (Nat.lt_trans less inRange)
  have value' : (UInt8.ofNat b).toNat = b := Nat.mod_eq_of_lt inRange
  rwa [UInt8.lt_iff_toNat_lt, value, value']

/-- Of two numbers below the limit the greater one has the later encoding, whatever follows the
encodings. The leading bytes of all encodings are in a range. -/
structure Rising (limit lowest past : Nat) (encode : Nat → List UInt8) : Prop where
  later : ∀ v w, v < w → w < limit → ∀ xs ys, encode v ++ xs < encode w ++ ys
  leads : ∀ n, ∃ lead rest, encode n = UInt8.ofNat lead :: rest ∧ lowest ≤ lead ∧ lead < past

/-- An encoding in one byte, for numbers below the limit. -/
def leading (limit base n : Nat) : List UInt8 := [UInt8.ofNat (n % limit + base)]

/-- An encoding with one byte more, which holds the last six bits. -/
def trailing (encode : Nat → List UInt8) (n : Nat) : List UInt8 :=
  encode (n / 64) ++ [UInt8.ofNat (n % 64 + 128)]

/-- Numbers below the limit in the one encoding, others in the other. -/
def widen (limit : Nat) (short long : Nat → List UInt8) (n : Nat) : List UInt8 :=
  if n < limit then short n else long n

namespace Rising

variable {limit limit' lowest lowest' past past' : Nat} {encode short long : Nat → List UInt8}

theorem leading {base : Nat} (some : 0 < limit) (fits : base + limit ≤ 256) :
    Rising limit base (base + limit) (leading limit base) where
  later v w less inRange xs ys := by
    rw [Utf8.leading, Utf8.leading, Nat.mod_eq_of_lt inRange,
      Nat.mod_eq_of_lt (Nat.lt_trans less inRange)]
    exact List.cons_lt_cons_iff.2 (.inl (byte_lt (by omega) (by omega)))
  leads n := by
    have remainder := Nat.mod_lt n some
    exact ⟨_, [], rfl, by omega, by omega⟩

/-- What is encoded before the last six bits decides; if it is the same, these bits do. -/
theorem trailing (rising : Rising limit lowest past encode) :
    Rising (64 * limit) lowest past (trailing encode) where
  later v w less inRange xs ys := by
    rw [Utf8.trailing, Utf8.trailing, List.append_assoc, List.append_assoc]
    have digits : v / 64 < w / 64 ∨ v / 64 = w / 64 ∧ v % 64 < w % 64 := by omega
    rcases digits with high | ⟨same, low⟩
    · exact rising.later _ _ high (by omega) _ _
    · rw [same]
      exact List.append_left_lt (List.cons_lt_cons_iff.2 (.inl (byte_lt (by omega) (by omega))))
  leads n := by
    obtain ⟨lead, rest, encoded, low, high⟩ := rising.leads (n / 64)
    exact ⟨lead, rest ++ [_], by rw [Utf8.trailing, encoded, List.cons_append], low, high⟩

theorem widen (first : Rising limit lowest past short) (second : Rising limit' lowest' past' long)
    (apart : past ≤ lowest') (fits : past' ≤ 256) :
    Rising limit' lowest past' (widen limit short long) where
  later v w less inRange xs ys := by
    obtain ⟨lead, rest, encoded, -, high⟩ := first.leads v
    obtain ⟨lead', rest', encoded', low, high'⟩ := second.leads w
    unfold Utf8.widen
    by_cases small : v < limit
    · by_cases small' : w < limit
      · rw [if_pos small, if_pos small']
        exact first.later v w less small' xs ys
      · rw [if_pos small, if_neg small', encoded, encoded']
        exact List.cons_lt_cons_iff.2 (.inl (byte_lt (by omega) (by omega)))
    · rw [if_neg small, if_neg (by omega)]
      exact second.later v w less inRange xs ys
  leads n := by
    obtain ⟨lead, rest, encoded, low, high⟩ := first.leads n
    obtain ⟨lead', rest', encoded', low', high'⟩ := second.leads n
    unfold Utf8.widen
    split
    · exact ⟨lead, rest, encoded, low, by omega⟩
    · exact ⟨lead', rest', encoded', by omega, high'⟩

end Rising

/-- The encoding of a character by its code: one byte, or one more for every six bits more. -/
def encodeCode : Nat → List UInt8 :=
  widen 128 (leading 128 0)
    (widen 2048 (trailing (leading 32 192))
      (widen 65536 (trailing (trailing (leading 16 224)))
        (trailing (trailing (trailing (leading 8 240))))))

theorem rising_encodeCode : Rising 2097152 0 248 encodeCode := by
  have one : Rising 128 0 128 (leading 128 0) := .leading (by decide) (by decide)
  have two : Rising 32 192 224 (leading 32 192) := .leading (by decide) (by decide)
  have three : Rising 16 224 240 (leading 16 224) := .leading (by decide) (by decide)
  have four : Rising 8 240 248 (leading 8 240) := .leading (by decide) (by decide)
  have threeOrMore : Rising _ 224 248 (widen 65536 _ _) :=
    three.trailing.trailing.widen four.trailing.trailing.trailing (by decide) (by decide)
  have twoOrMore : Rising _ 192 248 (widen 2048 _ _) :=
    two.trailing.widen threeOrMore (by decide) (by decide)
  exact one.widen twoOrMore (by decide) (by decide)

theorem utf8EncodeChar_eq (c : Char) : String.utf8EncodeChar c = encodeCode c.toNat := by
  show _ = encodeCode c.val.toNat
  simp only [String.utf8EncodeChar, encodeCode, widen, trailing, leading, Nat.div_div_eq_div_mul,
    Nat.lt_succ_iff]
  by_cases single : c.val.toNat ≤ 127
  · rw [if_pos single, if_pos single, Nat.mod_eq_of_lt (Nat.lt_succ_of_le single), Nat.add_zero]
  · rw [if_neg single, if_neg single]
    rfl

theorem utf8EncodeChar_lt {c d : Char} (less : c < d) (xs ys : List UInt8) :
    String.utf8EncodeChar c ++ xs < String.utf8EncodeChar d ++ ys := by
  have inRange : d.toNat < 2097152 := by
    have range : d.toNat < 55296 ∨ 57343 < d.toNat ∧ d.toNat < 1114112 := d.valid
    omega
  rw [utf8EncodeChar_eq, utf8EncodeChar_eq]
  exact rising_encodeCode.later c.toNat d.toNat less inRange xs ys

/-- The bytes of a text in UTF-8. -/
def bytes (s : String) : List UInt8 := s.toByteArray.data.toList

def codePoints (s : String) : List Nat := s.toList.map Char.toNat

theorem bytes_eq_flatMap (s : String) : bytes s = s.toList.flatMap String.utf8EncodeChar := by
  have encoded : s.toByteArray = s.toList.utf8Encode := by
    rw [← String.toByteArray_ofList, String.ofList_toList]
  rw [bytes, encoded, List.utf8Encode, List.toList_data_toByteArray]

/-- At the first character in which two texts differ their bytes differ in the same sense. -/
theorem flatMap_utf8EncodeChar_lt {cs ds : List Char} (less : cs < ds) :
    cs.flatMap String.utf8EncodeChar < ds.flatMap String.utf8EncodeChar := by
  induction cs generalizing ds with
  | nil =>
    cases ds with
    | nil => exact absurd less (List.not_lt_nil [])
    | cons d ds =>
      obtain ⟨lead, rest, encoded⟩ :=
        List.exists_cons_of_ne_nil (String.utf8EncodeChar_ne_nil : String.utf8EncodeChar d ≠ [])
      rw [List.flatMap_nil, List.flatMap_cons, encoded]
      exact List.nil_lt_cons lead _
  | cons c cs ih =>
    cases ds with
    | nil => exact absurd less (List.not_lt_nil _)
    | cons d ds =>
      rw [List.flatMap_cons, List.flatMap_cons]
      rcases List.cons_lt_cons_iff.1 less with smaller | ⟨rfl, rest⟩
      · exact utf8EncodeChar_lt smaller _ _
      · exact List.append_left_lt (ih rest)

/-- Texts are in the order of their bytes. -/
theorem compare_bytes (s t : String) : compare (bytes s) (bytes t) = compare s t := by
  refine compare_map_eq (fun a b before => ?_) s t
  rw [compare_list_eq_lt_iff fun x y => Std.compare_eq_lt, bytes_eq_flatMap, bytes_eq_flatMap]
  exact flatMap_utf8EncodeChar_lt (String.lt_iff.1 (compareOfLessAndEq_eq_lt.1 before))

/-- In units of sixteen bits the second text would be smaller: it begins with a surrogate. -/
example : compare (bytes "\uffff") (bytes "😀") = .lt := by decide

/-- Texts are in the order of their code points. -/
theorem compare_codePoints (s t : String) :
    compare (codePoints s) (codePoints t) = compare s t := by
  refine compare_map_eq (fun a b before => ?_) s t
  rw [compare_list_eq_lt_iff fun x y => Nat.compare_eq_lt]
  exact List.map_lt (fun c d less => less) (String.lt_iff.1 (compareOfLessAndEq_eq_lt.1 before))

end Utf8

end TermAlgebra

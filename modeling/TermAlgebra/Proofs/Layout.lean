import Mathlib.Logic.Relation
import TermAlgebra.Proofs.ReadTerms
import TermAlgebra.Proofs.RoundTrip
/-!
A record can be laid out in many ways, and so can each record in it. Which of them was chosen does
not tell in what is read (`reading_ignores_layout`). One change of the layout is `Relaid`, anywhere
in a value; changes made one after another, in either direction, are its closure. Readers that fail
may fail on different parts in different layouts, so only what is read is compared: a record is read
exactly when both its parts are and nothing else is there (`toOption_record`), in whichever order.
-/
namespace TermAlgebra

/-- The kinds of values that have a form of their own in the exchange form. -/
inductive Kind where
  | constant
  | functionSymbol
  | label
  | term
  | application
  | children
  | binding
  | substitution

namespace Kind

/-- What is read of a value of the kind. -/
abbrev Value : Kind → Type
  | constant => Constant
  | functionSymbol => FunctionSymbol
  | label => Label
  | term | application => Term Label
  | children => List (Term Label)
  | binding => Label × Term Label
  | substitution => Substitution Label

def read : (k : Kind) → Json → Read k.Value
  | constant => Read.constant
  | functionSymbol => Read.functionSymbol
  | label => Read.label
  | term => Read.term
  | application => Read.application
  | children => Read.children
  | binding => Read.binding
  | substitution => Read.substitution

def toJson : (k : Kind) → k.Value → Json
  | constant => Constant.toJson
  | functionSymbol => FunctionSymbol.toJson
  | label => Label.toJson
  | term => Term.toJson
  | application => Term.bodyToJson
  | children => fun ts => .array (Term.toJsonAll ts)
  | binding => fun b => .array [b.1.toJson, b.2.toJson]
  | substitution => Substitution.toJson

/-- The records, with the names of their fields in the order of their arrays. -/
inductive IsRecord : Kind → List String → Prop where
  | constant : IsRecord constant ["name"]
  | functionSymbol : IsRecord functionSymbol ["name", "arity"]
  | label : IsRecord label ["name", "index"]
  | application : IsRecord application ["root", "children"]

/-- What kind of value an object has in the field with the given name. -/
inductive HasField : Kind → String → Kind → Prop where
  | constant : HasField term "Constant" constant
  | label : HasField term "Variable" label
  | application : HasField term "Application" application
  | root : HasField application "root" functionSymbol
  | children : HasField application "children" children

/-- What kind of value an array has in the given place. -/
inductive HasItem : Kind → Nat → Kind → Prop where
  | root : HasItem application 0 functionSymbol
  | children : HasItem application 1 children
  | child (i : Nat) : HasItem children i term
  | bound : HasItem binding 0 label
  | image : HasItem binding 1 term
  | binding (i : Nat) : HasItem substitution i binding

end Kind

/-- One change of the layout of a value of the given kind. That an array may end in a null for the
index, or without it, follows: it can be switched to an object and back. -/
inductive Relaid : Kind → Json → Json → Prop where
  /-- A record as an object, and as the array of its fields, as far as they are there. -/
  | switch {k : Kind} {names : List String} {fields : List (String × Json)} {items : List Json}
      (record : k.IsRecord names) (fits : items.length ≤ names.length)
      (same : ∀ i : Fin names.length, fields.lookup names[i] = items[i.val]?) :
      Relaid k (.object fields) (.array items)
  /-- A field that the record does not know. -/
  | unknown {k : Kind} {names : List String} {name : String} {j : Json}
      {before after : List (String × Json)} (record : k.IsRecord names)
      (new : name ∉ names) :
      Relaid k (.object (before ++ after)) (.object (before ++ (name, j) :: after))
  /-- A null for the index of a label that has none. -/
  | nullIndex {before after : List (String × Json)}
      (absent : (before ++ after).lookup "index" = none) :
      Relaid .label (.object (before ++ after)) (.object (before ++ ("index", .null) :: after))
  | inField {k inner : Kind} {name : String} {j j' : Json} {before after : List (String × Json)}
      (holds : k.HasField name inner) (relaid : Relaid inner j j') :
      Relaid k (.object (before ++ (name, j) :: after)) (.object (before ++ (name, j') :: after))
  | inItem {k inner : Kind} {j j' : Json} {before after : List Json}
      (holds : k.HasItem before.length inner) (relaid : Relaid inner j j') :
      Relaid k (.array (before ++ j :: after)) (.array (before ++ j' :: after))

section Fields
variable {name key : String} {before after : List (String × Json)}

theorem lookup_insert_of_ne (j : Json) (other : key ≠ name) :
    (before ++ (name, j) :: after).lookup key = (before ++ after).lookup key := by
  simp [List.lookup_append, List.lookup_cons, beq_false_of_ne other]

theorem lookup_insert_self (j : Json) :
    (before ++ (name, j) :: after).lookup name = (before.lookup name).or (some j) := by
  simp [List.lookup_append]

end Fields

namespace Read

/-! ## What is read, if anything is -/

@[simp]
theorem toOption_bind {α β : Type} (x : Read α) (f : α → Read β) :
    (x >>= f).toOption = x.toOption.bind fun a => (f a).toOption := by
  cases x <;> rfl

@[simp]
theorem toOption_map {α β : Type} (x : Read α) (f : α → β) :
    (x.map f).toOption = x.toOption.map f := by
  cases x <;> rfl

theorem toOption_eq_some {α : Type} {x : Read α} {a : α} : x.toOption = some a ↔ x = .ok a := by
  cases x <;> simp [Except.toOption]

/-- What is read of a part that may be absent. -/
def partRead? {α : Type} (read : Json → Read α) (part : Option Json) : Option (Option α) :=
  (optional (part.map read)).toOption

@[simp]
theorem partRead?_none {α : Type} (read : Json → Read α) : partRead? read none = some none := rfl

@[simp]
theorem partRead?_some {α : Type} (read : Json → Read α) (j : Json) :
    partRead? read (some j) = (read j).toOption.map some := by
  cases h : read j <;> simp [partRead?, optional, h, Except.toOption]

/-- What readers of records of two fields have in common. -/
def record {α β γ : Type} (first second : String) (readFirst : Json → Read α)
    (readSecond : Json → Read β) (make : Option α × Option β → Read γ) (j : Json) : Read γ := do
  let p ← parts first second j
  let both ← p.collect (p.first.map readFirst) (p.second.map readSecond)
  make both

section Records
variable {α β γ : Type} {first second : String} {readFirst : Json → Read α}
  {readSecond : Json → Read β} {make : Option α × Option β → Read γ}

theorem toOption_collect (p : Parts) (a : Option (Read α)) (b : Option (Read β)) :
    (p.collect a b).toOption = bif p.surplus then none else (optional a).toOption.bind fun a =>
      (optional b).toOption.map fun b => (a, b) := by
  obtain ⟨first, second, secondFirst, surplus⟩ := p
  rw [Parts.collect]
  cases optional a <;> cases optional b <;> cases secondFirst <;> cases surplus <;> rfl

/-- Nothing of a record is read unless both its parts are, whichever is visited first. -/
theorem toOption_record {j : Json} {p : Parts} (parted : parts first second j = .ok p) :
    (record first second readFirst readSecond make j).toOption =
      bif p.surplus then none
      else (partRead? readFirst p.first).bind fun a =>
        (partRead? readSecond p.second).bind fun b => (make (a, b)).toOption := by
  rw [record, toOption_bind, toOption_eq_some.2 parted]
  simp only [toOption_bind, toOption_collect, Option.bind_some]
  cases p.surplus with
  | true => rfl
  | false =>
    simp only [cond_false, Option.bind_assoc, Option.bind_map]
    rfl

theorem record_switch {fields : List (String × Json)} {items : List Json}
    (fits : items.length ≤ 2) (sameFirst : fields.lookup first = items[0]?)
    (sameSecond : fields.lookup second = items[1]?) :
    (record first second readFirst readSecond make (.array items)).toOption =
      (record first second readFirst readSecond make (.object fields)).toOption := by
  rw [toOption_record rfl, toOption_record rfl]
  simp [Parts.ofItems, Parts.ofFields, sameFirst, sameSecond, Nat.not_lt.2 fits]

theorem record_unknown {name : String} {before after : List (String × Json)} (j : Json)
    (notFirst : first ≠ name) (notSecond : second ≠ name) :
    record first second readFirst readSecond make (.object (before ++ (name, j) :: after)) =
      record first second readFirst readSecond make (.object (before ++ after)) := by
  simp only [record, parts, Parts.ofFields, lookup_insert_of_ne j notFirst,
    lookup_insert_of_ne j notSecond]

theorem partRead?_lookup {read : Json → Read α} {key name : String} {j j' : Json}
    {before after : List (String × Json)}
    (same : key = name → (read j').toOption = (read j).toOption) :
    partRead? read ((before ++ (name, j') :: after).lookup key) =
      partRead? read ((before ++ (name, j) :: after).lookup key) := by
  by_cases named : key = name
  · rw [named, lookup_insert_self, lookup_insert_self]
    cases before.lookup name <;> simp [same named]
  · rw [lookup_insert_of_ne j' named, lookup_insert_of_ne j named]

theorem record_inField {name : String} {j j' : Json} {before after : List (String × Json)}
    (sameFirst : first = name → (readFirst j').toOption = (readFirst j).toOption)
    (sameSecond : second = name → (readSecond j').toOption = (readSecond j).toOption) :
    (record first second readFirst readSecond make
      (.object (before ++ (name, j') :: after))).toOption =
    (record first second readFirst readSecond make
      (.object (before ++ (name, j) :: after))).toOption := by
  rw [toOption_record rfl, toOption_record rfl]
  simp only [Parts.ofFields, partRead?_lookup sameFirst, partRead?_lookup sameSecond]

theorem partRead?_getElem? {read : Json → Read α} {i : Nat} {j j' : Json}
    {before after : List Json}
    (same : before.length = i → (read j').toOption = (read j).toOption) :
    partRead? read (before ++ j' :: after)[i]? = partRead? read (before ++ j :: after)[i]? := by
  rcases Nat.lt_trichotomy i before.length with ahead | there | behind
  · rw [List.getElem?_append_left ahead, List.getElem?_append_left ahead]
  · simp [there, same there.symm]
  · obtain ⟨n, rfl⟩ := Nat.exists_eq_add_of_lt behind
    simp [List.getElem?_append_right, Nat.add_assoc]

theorem record_inItem {j j' : Json} {before after : List Json}
    (sameFirst : before.length = 0 → (readFirst j').toOption = (readFirst j).toOption)
    (sameSecond : before.length = 1 → (readSecond j').toOption = (readSecond j).toOption) :
    (record first second readFirst readSecond make (.array (before ++ j' :: after))).toOption =
    (record first second readFirst readSecond make (.array (before ++ j :: after))).toOption := by
  rw [toOption_record rfl, toOption_record rfl]
  simp only [Parts.ofItems, partRead?_getElem? sameFirst, partRead?_getElem? sameSecond,
    List.length_append, List.length_cons]

end Records

theorem functionSymbol_eq_record :
    functionSymbol = record "name" "arity" string word (fun both => do
      let name ← required both.1
      let arity ← required both.2
      build (FunctionSymbol.declare name arity)) := rfl

theorem label_eq_record : label = record "name" "index" string word? (fun both => do
    let name ← required both.1
    .ok ⟨name, both.2.join⟩) := rfl

theorem application_eq_record :
    application = record "root" "children" functionSymbol children (fun both => do
      let f ← required both.1
      let args ← required both.2
      build (f.apply args)) :=
  funext application_eq

theorem binding_array (items : List Json) : binding (.array items) =
    record "variable" "term" label term (fun both => do
      let l ← required both.1
      let t ← required both.2
      .ok (l, t)) (.array items) := rfl

theorem constant_switch {fields : List (String × Json)} {items : List Json}
    (fits : items.length ≤ 1) (same : fields.lookup "name" = items[0]?) :
    (constant (.array items)).toOption = (constant (.object fields)).toOption := by
  show _ = (required (fields.lookup "name") >>= fun name => (string name).map Constant.mk).toOption
  rw [same]
  match items, fits with
  | [], _ => rfl
  | [name], _ => rfl

theorem label_nullIndex {before after : List (String × Json)}
    (absent : (before ++ after).lookup "index" = none) :
    (label (.object (before ++ ("index", .null) :: after))).toOption =
      (label (.object (before ++ after))).toOption := by
  rw [label_eq_record, toOption_record rfl, toOption_record rfl]
  have noIndex : before.lookup "index" = none := by
    rw [List.lookup_append, Option.or_eq_none_iff] at absent
    exact absent.1
  have null : partRead? word? (some .null) = some (some none) := rfl
  simp [Parts.ofFields, lookup_insert_of_ne, lookup_insert_self, absent, noIndex, null]

theorem terms_eq_mapM (items : List Json) : terms items = items.mapM term := by
  induction items with
  | nil => rw [terms]; rfl
  | cons j items ih => rw [terms, List.mapM_cons, ih]; rfl

theorem toOption_mapM {α : Type} {read : Json → Read α} {j j' : Json}
    (same : (read j').toOption = (read j).toOption) (before after : List Json) :
    ((before ++ j' :: after).mapM read).toOption =
      ((before ++ j :: after).mapM read).toOption := by
  induction before with
  | nil => simp [List.mapM_cons, same]
  | cons first before ih =>
    simp only [List.cons_append, List.mapM_cons, toOption_bind, ih]

theorem term_field (kind : String) (body : Json) : term (.object [(kind, body)]) =
    if kind = "Constant" then (constant body).map .const
    else if kind = "Variable" then (label body).map .var
    else if kind = "Application" then application body
    else .error .layout := by
  rw [term]

theorem term_of_not_field {j : Json} (noKind : ∀ kind body, j ≠ .object [(kind, body)]) :
    term j = .error .layout := by
  rw [term]
  exact noKind

/-- A term is an object with one field only. -/
theorem term_inField {kind : String} {j j' : Json} {before after : List (String × Json)}
    (same : (term (.object [(kind, j')])).toOption = (term (.object [(kind, j)])).toOption) :
    (term (.object (before ++ (kind, j') :: after))).toOption =
      (term (.object (before ++ (kind, j) :: after))).toOption := by
  by_cases alone : before = [] ∧ after = []
  · obtain ⟨rfl, rfl⟩ := alone
    exact same
  · have noKind (j : Json) (name : String) (body : Json) :
        Json.object (before ++ (kind, j) :: after) ≠ .object [(name, body)] := by
      intro one
      simp only [Json.object.injEq, List.append_eq_singleton_iff, List.cons_ne_nil, and_false,
        or_false, List.cons.injEq] at one
      exact alone ⟨one.1, one.2.2⟩
    rw [term_of_not_field (noKind j'), term_of_not_field (noKind j)]

/-! ## Changes of the layout -/

/-- One change of the layout does not change what is read. -/
theorem toOption_of_relaid {k : Kind} {j j' : Json} (relaid : Relaid k j j') :
    (k.read j').toOption = (k.read j).toOption := by
  induction relaid with
  | switch record fits same =>
    cases record with
    | constant => exact constant_switch fits (same 0)
    | functionSymbol => exact record_switch fits (same 0) (same 1)
    | label => exact record_switch fits (same 0) (same 1)
    | application =>
      simp only [Kind.read, application_eq_record]
      exact record_switch fits (same 0) (same 1)
  | @unknown _ _ _ j _ _ record new =>
    have apart (key : String) (known : key ∈ _) := ne_of_mem_of_not_mem known new
    cases record with
    | constant => simp [Kind.read, constant, lookup_insert_of_ne j (apart "name" (by simp))]
    | functionSymbol | label | application =>
      simp only [Kind.read, functionSymbol_eq_record, label_eq_record, application_eq_record]
      rw [record_unknown j (apart _ (by simp)) (apart _ (by simp))]
  | nullIndex absent => exact label_nullIndex absent
  | inField holds _ ih =>
    cases holds with
    | constant | label | application => exact term_inField (by simp_all [Kind.read, term_field])
    | root | children =>
      simp only [Kind.read, application_eq_record]
      exact record_inField (by simp_all [Kind.read]) (by simp_all [Kind.read])
  | @inItem _ _ _ _ before after holds _ ih =>
    -- The place is a length, and the cases are told by its value.
    generalize place : before.length = i at holds
    cases holds with
    | root | children =>
      simp only [Kind.read, application_eq_record]
      exact record_inItem (by simp_all [Kind.read]) (by simp_all [Kind.read])
    | bound | image =>
      simp only [Kind.read, binding_array]
      exact record_inItem (by simp_all [Kind.read]) (by simp_all [Kind.read])
    | child =>
      simp only [Kind.read, children, terms_eq_mapM]
      exact toOption_mapM ih before after
    | binding =>
      simp only [Kind.read, substitution, toOption_map]
      exact congrArg _ (toOption_mapM ih before after)

/-- Nor do any number of changes, made or taken back. -/
theorem toOption_of_eqvGen {k : Kind} {j j' : Json} (changed : Relation.EqvGen (Relaid k) j j') :
    (k.read j').toOption = (k.read j).toOption := by
  induction changed with
  | rel j j' relaid => exact toOption_of_relaid relaid
  | refl j => rfl
  | symm j j' _ ih => exact ih.symm
  | trans i j k _ _ ih ih' => exact ih'.trans ih

end Read

namespace Kind

theorem plain_toJson (k : Kind) (v : k.Value) : (k.toJson v).Plain := by
  cases k with
  | constant => exact Constant.plain_toJson v
  | functionSymbol => exact FunctionSymbol.plain_toJson v
  | label => exact Label.plain_toJson v
  | term => exact Term.plain_toJson v
  | application => exact Term.plain_bodyToJson v
  | children =>
    simp only [toJson, Term.toJsonAll_eq_map]
    exact .array (List.forall_mem_map.2 fun t _ => t.plain_toJson)
  | binding => exact .array (by simp [Label.plain_toJson, Term.plain_toJson])
  | substitution => exact Substitution.plain_toJson v

/-- What was read is well-formed, so that its own form can be read. -/
theorem read_toJson {k : Kind} {j : Json} {v : k.Value} (done : k.read j = .ok v) :
    k.read (k.toJson v) = .ok v := by
  cases k with
  | constant => exact Read.constant_toJson v
  | functionSymbol => exact Read.functionSymbol_toJson v
  | label => exact Read.label_toJson v
  | term => exact Read.term_toJson (Read.wellFormed_of_read.1 j v done)
  | application =>
    obtain ⟨f, args, -, applied⟩ := Read.laidOut_of_application done
    obtain ⟨-, rfl⟩ := FunctionSymbol.apply_eq_ok_iff.1 applied
    exact Read.application_bodyToJson (Read.wellFormed_of_read.2.1 j _ done)
  | children =>
    have each := Read.wellFormed_of_read.2.2.1 j v done
    simp only [read, toJson, Term.toJsonAll_eq_map, Read.children]
    exact Read.terms_toJson fun t member => Read.term_toJson (each t member)
  | binding => exact Read.binding_toJson (Read.wellFormed_of_binding done)
  | substitution => exact Read.substitution_toJson (Read.wellFormed_of_substitution done)

end Kind

/-- Reading goes by what is there and not by its layout: of two values that differ in their layout
only, wherever in them and in however many places, both are read or neither is, and the same is
read. What was read is written in one way, from which it is read again. -/
theorem reading_ignores_layout :
    (∀ (k : Kind) (j j' : Json), Relation.EqvGen (Relaid k) j j' →
      ∀ v, k.read j' = .ok v ↔ k.read j = .ok v) ∧
    ∀ (k : Kind) (j : Json) (v : k.Value), k.read j = .ok v →
      ∃ w, Read.ofText k.read (k.toJson v).text = .ok w ∧ w = v ∧
        (k.toJson w).text = (k.toJson v).text := by
  refine ⟨fun k j j' changed v => ?_, fun k j v done => ⟨v, ?_, rfl, rfl⟩⟩
  · rw [← Read.toOption_eq_some, ← Read.toOption_eq_some, Read.toOption_of_eqvGen changed]
  · rw [Read.ofText_text _ (k.plain_toJson v), Kind.read_toJson done]

/-- An application given as an array, its symbol with a field more, and in it a variable given as an
array that ends in a null. -/
theorem reading_ignores_layout_mixed :
    let t : Term Label := .app ⟨"g", 1, by decide⟩ [.var ⟨"x", none⟩]
    let mixed : Json := .object [("Application", .array
      [.object [("note", .bool true), ("name", .string "g"), ("arity", .natural 1)],
        .array [.object [("Variable", .array [.string "x", .null])]]])]
    Relation.EqvGen (Relaid .term) t.toJson mixed ∧ Kind.read .term t.toJson = .ok t ∧
      Kind.read .term mixed = .ok t ∧
      ∃ w, Read.ofText Read.term t.toJson.text = .ok w ∧ w = t ∧ w.toJson.text = t.toJson.text := by
  intro t mixed
  let g : Json := .object [("name", .string "g"), ("arity", .natural 1)]
  let noted : Json := .object [("note", .bool true), ("name", .string "g"), ("arity", .natural 1)]
  let args (x : Json) : Json := .array [.object [("Variable", x)]]
  let form (f x : Json) : Json :=
    .object [("Application", .object [("root", f), ("children", args x)])]
  have inArgs (x x' : Json) (relaid : Relaid .label x x') : Relaid .term (form g x) (form g x') :=
    @Relaid.inField _ _ _ _ _ [] [] .application <|
    @Relaid.inField _ _ _ _ _ [("root", g)] [] .children <|
    @Relaid.inItem _ _ _ _ [] [] (.child 0) <|
    @Relaid.inField _ _ _ _ _ [] [] .label relaid
  have inRoot (f f' x : Json) (relaid : Relaid .functionSymbol f f') :
      Relaid .term (form f x) (form f' x) :=
    @Relaid.inField _ _ _ _ _ [] [] .application <|
    @Relaid.inField _ _ _ _ _ [] [("children", args x)] .root relaid
  have nulled := inArgs _ _ (@Relaid.nullIndex [("name", .string "x")] [] rfl)
  have listed := inArgs (.object [("name", .string "x"), ("index", .null)])
    (.array [.string "x", .null]) (.switch .label le_rfl (Fin.forall_fin_two.2 ⟨rfl, rfl⟩))
  have withNote := inRoot g noted (.array [.string "x", .null])
    (@Relaid.unknown _ _ "note" _ [] _ .functionSymbol (by decide))
  have switched : Relaid .term (form noted (.array [.string "x", .null])) mixed :=
    @Relaid.inField _ _ _ _ _ [] [] .application
      (.switch .application le_rfl (Fin.forall_fin_two.2 ⟨rfl, rfl⟩))
  have changed : Relation.EqvGen (Relaid .term) t.toJson mixed :=
    .trans _ _ _ (.rel _ _ nulled) <| .trans _ _ _ (.rel _ _ listed) <|
    .trans _ _ _ (.rel _ _ withNote) (.rel _ _ switched)
  have readable : Kind.read .term t.toJson = .ok t := Read.term_toJson ⟨rfl, trivial, trivial⟩
  obtain ⟨relaid, restored⟩ := reading_ignores_layout
  exact ⟨changed, readable, (relaid .term _ _ changed t).2 readable, restored .term _ t readable⟩

end TermAlgebra

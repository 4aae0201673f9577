import TermAlgebra.Proofs.ReadVisits
/-!
Which failure a reader reports. A value can be at fault in many places at once. Each reader fails as
the first part does that fails, or else by the value's own fault (`Form.failsInTurn`); so what is
reported is the first fault on the reader's whole way (`Form.failure?_eq_findSome?`), whatever else
is wrong further on.
-/
namespace TermAlgebra

section First

variable {α β ε : Type}

theorem findSome?_cons_eq_or (f : α → Option ε) (a : α) (as : List α) :
    (a :: as).findSome? f = (f a).or (as.findSome? f) := by
  rw [List.findSome?_cons]
  cases f a <;> rfl

theorem findSome?_flatMap (as : List α) (g : α → List β) (f : β → Option ε) :
    (as.flatMap g).findSome? f = as.findSome? fun a => (g a).findSome? f := by
  induction as with
  | nil => rfl
  | cons a as ih => rw [List.flatMap_cons, List.findSome?_append, ih, findSome?_cons_eq_or]

theorem findSome?_congr {as : List α} {f g : α → Option ε}
    (same : ∀ a ∈ as, f a = g a) : as.findSome? f = as.findSome? g := by
  induction as with
  | nil => rfl
  | cons a as ih =>
    rw [findSome?_cons_eq_or, findSome?_cons_eq_or, same a List.mem_cons_self,
      ih fun b member => same b (List.mem_cons_of_mem a member)]

end First

namespace Read

variable {α β : Type}

/-- The failure that a reading reports. -/
def failure? : Read α → Option ReadError
  | .ok _ => none
  | .error e => some e

theorem failure?_eq_some_iff {x : Read α} {e : ReadError} : failure? x = some e ↔ x = .error e := by
  cases x <;> simp [failure?]

theorem failure?_eq_none_iff {x : Read α} : failure? x = none ↔ ∃ a, x = .ok a := by
  cases x <;> simp [failure?]

@[simp]
theorem failure?_map (x : Read α) (f : α → β) : failure? (x.map f) = failure? x := by
  cases x <;> rfl

/-- A part that does not fail is read, if it is there. -/
theorem exists_of_silent {read : Json → Read α} {part : Option Json}
    (silent : (part.bind fun j => failure? (read j)) = none) :
    ∃ a : Option α, part.map read = a.map .ok := by
  cases part with
  | none => exact ⟨none, rfl⟩
  | some j =>
    obtain ⟨a, done⟩ := failure?_eq_none_iff.1 silent
    exact ⟨some a, congrArg some done⟩

theorem failure?_mapM (read : Json → Read α) (items : List Json) :
    failure? (items.mapM read) = items.findSome? fun j => failure? (read j) := by
  induction items with
  | nil => rfl
  | cons j items ih =>
    rw [List.mapM_cons, List.findSome?_cons, ← ih]
    cases read j <;> cases items.mapM read <;> rfl

/-- Two fields fail as the one that is visited first does, or else the other, or else by what is
there besides them. -/
theorem failure?_collect (p : Parts) (a : Option (Read α)) (b : Option (Read β)) :
    failure? (p.collect a b) =
      (if p.secondFirst then (b.bind failure?).or (a.bind failure?)
        else (a.bind failure?).or (b.bind failure?)).or
      (if p.surplus then some .layout else none) := by
  obtain ⟨first, second, secondFirst, surplus⟩ := p
  rw [Parts.collect]
  rcases a with _ | a | a <;> rcases b with _ | b | b <;> cases secondFirst <;> cases surplus <;>
    rfl

end Read

/-! ## Records of two fields -/

section Records

variable {form : Form} {a b : Field} {j : Json} {p : Read.Parts}

theorem Json.inFields_of_parts (parted : Read.parts a.name b.name j = .ok p) :
    j.inFields [a, b] =
      if p.secondFirst then
        (p.second.map fun part => (b.form, part)).toList ++
          (p.first.map fun part => (a.form, part)).toList
      else
        (p.first.map fun part => (a.form, part)).toList ++
          (p.second.map fun part => (b.form, part)).toList := by
  cases j with
  | array items =>
    obtain rfl := Except.ok.inj parted
    rcases items with _ | ⟨x, _ | ⟨y, rest⟩⟩ <;> rfl
  | object given =>
    obtain rfl := Except.ok.inj parted
    have sorted : a.name ≤ b.name ↔ ¬ b.name < a.name := String.not_lt.symm
    by_cases before : b.name < a.name <;> cases there : given.lookup a.name <;>
      cases there' : given.lookup b.name <;>
      simp [inFields, Read.Parts.ofFields, sorted, before, there, there']
  | _ => cases parted

theorem Json.mem_inFields_iff (parted : Read.parts a.name b.name j = .ok p) {n : Form × Json} :
    n ∈ j.inFields [a, b] ↔ (∃ part, p.first = some part ∧ (a.form, part) = n) ∨
      ∃ part, p.second = some part ∧ (b.form, part) = n := by
  rw [inFields_of_parts parted]
  cases p.secondFirst <;> simp [or_comm]

/-- The one that is visited first decides, or else the other. -/
theorem Json.findSome?_inFields {ε : Type} (parted : Read.parts a.name b.name j = .ok p)
    (failing : Form × Json → Option ε) :
    (j.inFields [a, b]).findSome? failing =
      if p.secondFirst then
        (p.second.bind fun part => failing (b.form, part)).or
          (p.first.bind fun part => failing (a.form, part))
      else
        (p.first.bind fun part => failing (a.form, part)).or
          (p.second.bind fun part => failing (b.form, part)) := by
  rw [inFields_of_parts parted]
  cases p.secondFirst <;> cases p.first <;> cases p.second <;>
    simp [findSome?_cons_eq_or]

theorem Json.fits_of_parts (parted : Read.parts a.name b.name j = .ok p) :
    j.fits [a, b] = (!p.surplus && (!a.needed || p.first.isSome) &&
      (!b.needed || p.second.isSome)) := by
  cases j with
  | array items =>
    obtain rfl := Except.ok.inj parted
    rcases items with _ | ⟨x, _ | ⟨y, rest⟩⟩ <;>
      simp [fits, Read.Parts.ofItems, List.length_pos_iff]
  | object given =>
    obtain rfl := Except.ok.inj parted
    simp [fits, Read.Parts.ofFields]
  | _ => cases parted

/-- The value is read, in the given form, as a record of two fields. -/
structure Form.IsPair (form : Form) (a b : Field) (j : Json) : Prop where
  fields : form.fields = [a, b]
  apart : a.name ≠ b.name
  parts : form.parts j = j.inFields [a, b]
  accepts : form.accepts j = j.fits [a, b]

theorem Form.IsPair.field? (pair : form.IsPair a b j)
    (parted : Read.parts a.name b.name j = .ok p) :
    form.field? j a.name = p.first ∧ form.field? j b.name = p.second := by
  cases j with
  | array items =>
    obtain rfl := Except.ok.inj parted
    simp [Form.field?, pair.fields, Read.Parts.ofItems, List.findIdx_cons,
      beq_false_of_ne pair.apart]
  | object given =>
    obtain rfl := Except.ok.inj parted
    exact ⟨rfl, rfl⟩
  | _ => cases parted

/-- A record of two fields fails as its parts do, in the order in which they are visited, or else
on its own account: since there is too much, or by what is made of the parts. -/
theorem Read.failure?_record {γ : Type} {make : Option a.form.Value × Option b.form.Value → Read γ}
    {own : Option ReadError} (parted : parts a.name b.name j = .ok p)
    (fault : ∀ x y, p.first.map a.form.read = x.map .ok → p.second.map b.form.read = y.map .ok →
      own = if p.surplus then some .layout else failure? (make (x, y))) :
    failure? (record a.name b.name a.form.read b.form.read make j) =
      ((j.inFields [a, b]).findSome? fun n => failure? (n.1.read n.2)).or own := by
  have collected := failure?_collect p (p.first.map a.form.read) (p.second.map b.form.read)
  simp only [Option.bind_map, Function.comp_def] at collected
  rw [record, parted, Json.findSome?_inFields parted]
  show failure? (p.collect _ _ >>= make) = _
  -- A part that fails ends the reading. If none does, both are known, and only what is made of them
  -- is left, unless there is too much.
  cases met : (if p.secondFirst then _ else _ : Option ReadError) with
  | some e =>
    rw [met] at collected
    rw [failure?_eq_some_iff.1 collected]
    rfl
  | none =>
    rw [met, Option.none_or] at collected
    have silent : (p.first.bind fun part => failure? (a.form.read part)) = none ∧
        (p.second.bind fun part => failure? (b.form.read part)) = none := by
      split at met
      · exact (Option.or_eq_none_iff.1 met).symm
      · exact Option.or_eq_none_iff.1 met
    obtain ⟨x, first⟩ := exists_of_silent silent.1
    obtain ⟨y, second⟩ := exists_of_silent silent.2
    rw [Option.none_or, fault x y first second]
    cases fits : p.surplus with
    | false =>
      rw [first, second, collect_map_ok fits]
      rfl
    | true =>
      rw [fits] at collected
      rw [failure?_eq_some_iff.1 collected]
      rfl

/-- What is at fault with a record itself is its layout, or else what the parts make together. -/
theorem Form.IsPair.failure? (pair : form.IsPair a b j) {γ : Type}
    {make : Option a.form.Value × Option b.form.Value → Read γ}
    (missing : ∀ x y, (a.needed = true ∧ x = none) ∨ (b.needed = true ∧ y = none) →
      make (x, y) = .error .layout)
    (check : ∀ x y, (form.field? j a.name).map a.form.read = x.map .ok →
      (form.field? j b.name).map b.form.read = y.map .ok →
      (a.needed = true → x ≠ none) → (b.needed = true → y ≠ none) →
      form.arityFault? j = Read.failure? (make (x, y))) :
    Read.failure? (Read.record a.name b.name a.form.read b.form.read make j) =
      ((form.parts j).findSome? fun n => Read.failure? (n.1.read n.2)).or (form.fault? j) := by
  rw [pair.parts, fault?, pair.accepts]
  cases parted : Read.parts a.name b.name j with
  | error e =>
    -- Neither an array nor an object: there is nothing to visit.
    rw [Read.record, parted]
    cases j with
    | array _ | object _ => cases parted
    | _ => exact congrArg some (Except.error.inj parted).symm
  | ok p =>
    refine Read.failure?_record parted fun x y first second => ?_
    obtain ⟨held, held'⟩ := pair.field? parted
    have there : p.first.isSome = x.isSome := by simpa using congrArg Option.isSome first
    have there' : p.second.isSome = y.isSome := by simpa using congrArg Option.isSome second
    rw [Json.fits_of_parts parted, there, there']
    by_cases surplus : p.surplus = true
    · simp [surplus]
    by_cases absent : (a.needed = true ∧ x = none) ∨ (b.needed = true ∧ y = none)
    · rw [missing x y absent]
      rcases absent with ⟨needed, rfl⟩ | ⟨needed, rfl⟩ <;> simp [needed, surplus, Read.failure?]
    · obtain ⟨complete, complete'⟩ := not_or.1 absent
      have present : (!a.needed || x.isSome) = true := by cases x <;> simp_all
      have present' : (!b.needed || y.isSome) = true := by cases y <;> simp_all
      rw [check x y (held ▸ first) (held' ▸ second) (not_and.1 complete) (not_and.1 complete')]
      simp [surplus, present, present']

/-- The same of a record that needs both its fields. -/
theorem Form.IsPair.failure?_of_needed (pair : form.IsPair a b j) {γ : Type}
    {make : a.form.Value → b.form.Value → Read γ} (needed : a.needed = true)
    (needed' : b.needed = true)
    (check : ∀ x y, (form.field? j a.name).map a.form.read = some (.ok x) →
      (form.field? j b.name).map b.form.read = some (.ok y) →
      form.arityFault? j = Read.failure? (make x y)) :
    Read.failure? (Read.record a.name b.name a.form.read b.form.read (fun both => do
        let x ← Read.required both.1
        let y ← Read.required both.2
        make x y) j) =
      ((form.parts j).findSome? fun n => Read.failure? (n.1.read n.2)).or (form.fault? j) := by
  refine pair.failure? ?missing ?check
  case missing =>
    rintro (_ | x) (_ | y) absent
    · rfl
    · rfl
    · rfl
    · simp at absent
  case check =>
    rintro (_ | x) (_ | y) first second there there'
    · exact absurd rfl (there needed)
    · exact absurd rfl (there needed)
    · exact absurd rfl (there' needed')
    · exact check x y first second

/-- If such a record is accepted, and everything in it is read, then both fields are. -/
theorem Form.IsPair.readInParts_iff (pair : form.IsPair a b j) (needed : a.needed = true)
    (needed' : b.needed = true) :
    form.ReadInParts j ↔ form.accepts j = true ∧ ∃ x y,
      (form.field? j a.name).map a.form.read = some (.ok x) ∧
      (form.field? j b.name).map b.form.read = some (.ok y) := by
  rw [ReadInParts, pair.parts, pair.accepts]
  refine and_congr_right fun fits => ?_
  cases parted : Read.parts a.name b.name j with
  | error e =>
    cases j with
    | array _ | object _ => cases parted
    | _ => cases fits
  | ok p =>
    obtain ⟨held, held'⟩ := pair.field? parted
    rw [Json.fits_of_parts parted] at fits
    rw [held, held']
    simp only [needed, needed', Bool.not_true, Bool.false_or, Bool.and_eq_true,
      Option.isSome_iff_exists] at fits
    obtain ⟨⟨-, part, first⟩, part', second⟩ := fits
    simp only [Json.mem_inFields_iff parted, first, second, Option.map_some, Option.some.injEq]
    constructor
    · intro all
      obtain ⟨x, read⟩ := all _ (.inl ⟨part, rfl, rfl⟩)
      obtain ⟨y, read'⟩ := all _ (.inr ⟨part', rfl, rfl⟩)
      exact ⟨x, y, read, read'⟩
    · rintro ⟨x, y, read, read'⟩ n (⟨_, rfl, rfl⟩ | ⟨_, rfl, rfl⟩)
      · exact ⟨x, read⟩
      · exact ⟨y, read'⟩

end Records

namespace Read

theorem failure?_word (j : Json) : failure? (word j) = if j.isWord then none else some .layout := by
  cases j with
  | integer n =>
    cases n with
    | ofNat n => by_cases small : n < UInt64.size <;> simp [word, Json.isWord, failure?, small]
    | negSucc n => rfl
  | _ => rfl

end Read

namespace Form

open Read

/-- What is said of a value of a form when it is said that it fails as its first part that fails,
or else by its own fault. -/
def FailsInTurn (form : Form) (j : Json) : Prop :=
  failure? (form.read j) =
    ((form.parts j).findSome? fun n => failure? (n.1.read n.2)).or (form.fault? j)

theorem constant_failsInTurn (j : Json) : (kind .constant).FailsInTurn j := by
  cases j with
  | array items =>
    match items with
    | [] => rfl
    | [name] => cases name <;> rfl
    | name :: second :: rest => cases name <;> rfl
  | object given =>
    have met : (kind .constant).parts (.object given) =
        ((given.lookup "name").map fun name => (string, name)).toList := by
      cases there : given.lookup "name" <;> simp [parts, fields, Json.inFields, there]
    have found : (kind .constant).fault? (.object given) =
        if (given.lookup "name").isSome then none else some .layout := by
      cases there : given.lookup "name" <;>
        simp [fault?, accepts, fields, Json.fits, arityFault?, there]
    rw [FailsInTurn, met, found]
    show failure? (Read.required (given.lookup "name") >>= fun name =>
      (Read.string name).map Constant.mk) = _
    cases given.lookup "name" with
    | none => rfl
    | some name => cases name <;> rfl
  | _ => rfl

theorem functionSymbol_isPair (j : Json) :
    (kind .functionSymbol).IsPair ⟨"name", string, true⟩ ⟨"arity", word, true⟩ j :=
  ⟨rfl, by decide, rfl, rfl⟩

theorem functionSymbol_arityFault? {j : Json} {name : String} {arity : UInt64}
    (named : ((kind .functionSymbol).field? j "name").map Read.string = some (.ok name))
    (counted : ((kind .functionSymbol).field? j "arity").map Read.word = some (.ok arity)) :
    (kind .functionSymbol).arityFault? j =
      if arity = 0 then some (.rejected (.invalidArity name)) else none := by
  simp only [arityFault?, named, counted]

theorem functionSymbol_failsInTurn (j : Json) : (kind .functionSymbol).FailsInTurn j := by
  refine (functionSymbol_isPair j).failure?_of_needed rfl rfl fun name arity first second => ?_
  rw [functionSymbol_arityFault? first second, FunctionSymbol.declare, FunctionSymbol.ofArity?]
  by_cases zero : arity = 0 <;> simp [zero, build, failure?, Except.mapError]

theorem label_failsInTurn (j : Json) : (kind .label).FailsInTurn j := by
  have pair : (kind .label).IsPair ⟨"name", string, true⟩ ⟨"index", index, false⟩ j :=
    ⟨rfl, by decide, rfl, rfl⟩
  refine pair.failure? ?missing ?check
  case missing =>
    rintro x y (⟨-, rfl⟩ | ⟨needed, -⟩)
    · rfl
    · cases needed
  case check =>
    intro x y first second there there'
    cases x with
    | none => exact absurd rfl (there rfl)
    | some name => rfl

theorem application_isPair (j : Json) :
    (kind .application).IsPair ⟨"root", kind .functionSymbol, true⟩
      ⟨"children", kind .children, true⟩ j :=
  ⟨rfl, by decide, rfl, rfl⟩

theorem application_arityFault? {j : Json} {f : FunctionSymbol} {args : List (Term Label)}
    (root : ((kind .application).field? j "root").map Read.functionSymbol = some (.ok f))
    (arguments : ((kind .application).field? j "children").map Read.children = some (.ok args)) :
    (kind .application).arityFault? j =
      if args.length = f.arity.toNat then none
      else some (.rejected (.arityMismatch f args.length)) := by
  simp only [arityFault?, root, arguments]

theorem application_failsInTurn (j : Json) : (kind .application).FailsInTurn j := by
  show failure? (Read.application j) = _
  rw [application_eq_record]
  refine (application_isPair j).failure?_of_needed rfl rfl fun f args first second => ?_
  rw [application_arityFault? first second, FunctionSymbol.apply]
  by_cases same : args.length = f.arity.toNat <;> simp [same, build, failure?, Except.mapError]

theorem term_failsInTurn (j : Json) : (kind .term).FailsInTurn j := by
  by_cases single : ∃ name body, j = .object [(name, body)]
  · obtain ⟨name, body, rfl⟩ := single
    have found : (kind .term).fault? (.object [(name, body)]) =
        if (ofTermKind? name).isSome then none else some .layout := rfl
    rw [FailsInTurn, found]
    show failure? (Read.term _) = ((ofTermKind? name).toList.map (·, body) |>.findSome? _).or _
    rw [term_field, ofTermKind?]
    split
    · simp [read, Kind.read]
    split
    · simp [read, Kind.read]
    split
    · simp [read, Kind.read]
    · simp [failure?]
  · have noKind : ∀ name body, j ≠ .object [(name, body)] := by simpa using single
    have found : (kind .term).fault? j = some .layout := by
      unfold fault? accepts
      split <;> simp_all
    rw [FailsInTurn, parts_of_not_field noKind, found]
    exact congrArg failure? (term_of_not_field noKind)

theorem children_failsInTurn (j : Json) : (kind .children).FailsInTurn j := by
  show failure? (Read.children j) = _
  rw [Read.children.eq_def]
  cases j with
  | array items =>
    show failure? (Read.terms items) = ((items.map (kind .term, ·)).findSome? _).or none
    rw [terms_eq_mapM, failure?_mapM, List.findSome?_map, Option.or_none]
    rfl
  | _ => rfl

theorem binding_failsInTurn (j : Json) : (kind .binding).FailsInTurn j := by
  cases j with
  | array items =>
    show failure? (Read.binding (.array items)) = _
    rw [binding_array]
    have pair : (kind .binding).IsPair ⟨"variable", kind .label, true⟩ ⟨"term", kind .term, true⟩
        (.array items) := ⟨rfl, by decide, rfl, rfl⟩
    exact pair.failure?_of_needed rfl rfl fun _ _ _ _ => rfl
  | _ => rfl

theorem substitution_failsInTurn (j : Json) : (kind .substitution).FailsInTurn j := by
  cases j with
  | array items =>
    show failure? ((items.mapM Read.binding).map Substitution.ofList) =
      ((items.map (kind .binding, ·)).findSome? _).or none
    rw [failure?_map, failure?_mapM, List.findSome?_map, Option.or_none]
    rfl
  | _ => rfl

/-- A value fails as the first of its parts that fails, or else by its own fault. -/
theorem failsInTurn (form : Form) (j : Json) : form.FailsInTurn j := by
  cases form with
  | string => cases j <;> rfl
  | word => exact failure?_word j
  | index =>
    cases j with
    | integer n => exact (failure?_map _ _).trans (failure?_word _)
    | _ => rfl
  | kind k =>
    cases k with
    | constant => exact constant_failsInTurn j
    | functionSymbol => exact functionSymbol_failsInTurn j
    | label => exact label_failsInTurn j
    | term => exact term_failsInTurn j
    | application => exact application_failsInTurn j
    | children => exact children_failsInTurn j
    | binding => exact binding_failsInTurn j
    | substitution => exact substitution_failsInTurn j

/-! ## The first fault -/

/-- A reader reports the first fault that is met. -/
theorem failure?_eq_findSome? (form : Form) (j : Json) :
    failure? (form.read j) = (form.visited j).findSome? fun n => n.1.fault? n.2 := by
  induction form, j using visited.induct with
  | case1 form j ih =>
    -- `ih` says it of each part; the first part that fails is the one with the first fault.
    rw [visited_eq, List.findSome?_append, findSome?_flatMap, List.findSome?_singleton,
      failsInTurn form j]
    exact congrArg (Option.or · _) (findSome?_congr fun n member => ih n member)

end Form

namespace Form

open Read

/-- Once everything is read, only the check of arities is left. -/
theorem failure?_of_readInParts {form : Form} {j : Json} (done : form.ReadInParts j) :
    failure? (form.read j) = form.arityFault? j := by
  have silent : ((form.parts j).findSome? fun n => failure? (n.1.read n.2)) = none :=
    List.findSome?_eq_none_iff.2 fun n member => failure?_eq_none_iff.2 (done.2 n member)
  rw [failsInTurn form j, silent, fault?, if_pos done.1, Option.none_or]

theorem functionSymbol_readInParts_iff {j : Json} : (kind .functionSymbol).ReadInParts j ↔
    (kind .functionSymbol).accepts j = true ∧ ∃ name arity,
      ((kind .functionSymbol).field? j "name").map Read.string = some (.ok name) ∧
      ((kind .functionSymbol).field? j "arity").map Read.word = some (.ok arity) :=
  (functionSymbol_isPair j).readInParts_iff rfl rfl

theorem application_readInParts_iff {j : Json} : (kind .application).ReadInParts j ↔
    (kind .application).accepts j = true ∧ ∃ f args,
      ((kind .application).field? j "root").map Read.functionSymbol = some (.ok f) ∧
      ((kind .application).field? j "children").map Read.children = some (.ok args) :=
  (application_isPair j).readInParts_iff rfl rfl

/-- An arity is at fault only where the fields have been read. -/
theorem fault?_rejected {form : Form} {j : Json} {error : TermError}
    (found : form.fault? j = some (.rejected error)) : form.ReadInParts j := by
  unfold fault? at found
  split at found
  · rename_i accepted
    unfold arityFault? at found
    split at found
    · split at found
      · rename_i name arity named counted
        exact functionSymbol_readInParts_iff.2 ⟨accepted, name, arity, named, counted⟩
      · cases found
    · split at found
      · rename_i f args root arguments
        exact application_readInParts_iff.2 ⟨accepted, f, args, root, arguments⟩
      · cases found
    · cases found
  · cases found

theorem fault?_eq_layout_iff {form : Form} {j : Json} :
    form.fault? j = some .layout ↔ form.accepts j = false := by
  unfold fault?
  split
  · rename_i accepted
    unfold arityFault?
    split <;> try split <;> try split
    all_goals simp [accepted]
  · rename_i refused
    simp [refused]

end Form

/-- Which failure is reported of a value, and when arities are checked. All of it holds of every
part of the value as well, since that is a value in some form. -/
structure FirstFailure (form : Form) (j : Json) : Prop where
  /-- Of all that is visited, what is at fault first decides. -/
  reported : ∀ e, form.read j = .error e ↔ ∃ before n after,
    form.visited j = before ++ n :: after ∧ n.1.fault? n.2 = some e ∧
    ∀ earlier ∈ before, earlier.1.fault? earlier.2 = none
  succeeds : (∃ v, form.read j = .ok v) ↔ ∀ n ∈ form.visited j, n.1.fault? n.2 = none
  layout : form.fault? j = some .layout ↔ form.accepts j = false
  arityLast : ∀ error, form.fault? j = some (.rejected error) → form.ReadInParts j
  functionSymbol : form = .kind .functionSymbol → form.ReadInParts j → ∃ name arity,
    (form.field? j "name").map Read.string = some (.ok name) ∧
    (form.field? j "arity").map Read.word = some (.ok arity) ∧
    ∀ e, Read.functionSymbol j = .error e ↔ arity = 0 ∧ e = .rejected (.invalidArity name)
  application : form = .kind .application → form.ReadInParts j → ∃ f args,
    (form.field? j "root").map Read.functionSymbol = some (.ok f) ∧
    (form.field? j "children").map Read.children = some (.ok args) ∧
    (∀ e, Read.application j = .error e ↔
      args.length ≠ f.arity.toNat ∧ e = .rejected (.arityMismatch f args.length)) ∧
    (ReadError.rejected (.arityMismatch f args.length)).message =
      "Incorrect number of child terms for " ++ f.text ++ ": expected " ++ f.arity.toNat.repr ++
        ", found " ++ args.length.repr

/-- Whatever value is read, in whichever form, and however many faults it has. -/
theorem first_failure_reported (form : Form) (j : Json) : FirstFailure form j := by
  have first := form.failure?_eq_findSome? j
  constructor
  case reported =>
    intro e
    rw [← Read.failure?_eq_some_iff, first, List.findSome?_eq_some_iff]
  case succeeds => rw [← Read.failure?_eq_none_iff, first, List.findSome?_eq_none_iff]
  case layout => exact Form.fault?_eq_layout_iff
  case arityLast => exact fun error found => Form.fault?_rejected found
  case functionSymbol =>
    rintro rfl done
    obtain ⟨-, name, arity, named, counted⟩ := Form.functionSymbol_readInParts_iff.1 done
    refine ⟨name, arity, named, counted, fun e => ?_⟩
    have failure : Read.failure? (Read.functionSymbol j) = _ := Form.failure?_of_readInParts done
    rw [← Read.failure?_eq_some_iff, failure, Form.functionSymbol_arityFault? named counted]
    by_cases zero : arity = 0 <;> simp [zero, eq_comm]
  case application =>
    rintro rfl done
    obtain ⟨-, f, args, root, arguments⟩ := Form.application_readInParts_iff.1 done
    refine ⟨f, args, root, arguments, fun e => ?_, rfl⟩
    have failure : Read.failure? (Read.application j) = _ := Form.failure?_of_readInParts done
    rw [← Read.failure?_eq_some_iff, failure, Form.application_arityFault? root arguments]
    by_cases same : args.length = f.arity.toNat <;> simp [same, eq_comm]

/-- A symbol of arity zero and no list of arguments: which of the two faults is reported depends on
the layout. -/
theorem first_failure_reported_two_faults :
    let f : Json := .object [("name", .string "f"), ("arity", .integer 0)]
    Read.application (.object [("root", f), ("children", .null)]) = .error .layout ∧
      Read.application (.array [f, .null]) = .error (.rejected (.invalidArity "f")) := by
  intro f
  have symbol : (Form.kind .functionSymbol).visited f =
      [(.word, .integer 0), (.string, .string "f"), (.kind .functionSymbol, f)] := by
    rw [Form.visited_eq]
    show Form.visited .word _ ++ (Form.visited .string _ ++ []) ++ _ = _
    rw [Form.visited_eq, Form.visited_eq]
    rfl
  have list : (Form.kind .children).visited .null = [(.kind .children, .null)] := by
    rw [Form.visited_eq]
    rfl
  constructor
  · refine ((first_failure_reported (.kind .application) _).reported _).2
      ⟨[], (.kind .children, .null), ?after, ?met, rfl, by simp⟩
    case met =>
      rw [Form.visited_eq]
      show (Form.kind .children).visited .null ++ _ ++ _ = _
      rw [list]
      rfl
  · refine ((first_failure_reported (.kind .application) _).reported _).2
      ⟨[(.word, .integer 0), (.string, .string "f")], (.kind .functionSymbol, f), ?later, ?met, rfl,
        ?sound⟩
    case met =>
      rw [Form.visited_eq]
      show (Form.kind .functionSymbol).visited f ++ _ ++ _ = _
      rw [symbol]
      rfl
    case sound => exact List.forall_mem_cons.2 ⟨rfl, List.forall_mem_cons.2 ⟨rfl, by simp⟩⟩

end TermAlgebra

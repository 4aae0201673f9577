import TermAlgebra.Proofs.Reading
/-!
What a successful reading tells. Whatever is read as a record was laid out as one, both its fields
were read, and nothing else was there (`collect_eq_ok`); so an application that was read had a root
and children, and these passed the check (`laidOut_of_application`). By the recursion of the readers
every term they give is well-formed.
-/
namespace TermAlgebra.Read

theorem eq_ok_of_bind {α β : Type} {x : Read α} {f : α → Read β} {b : β} (done : x >>= f = .ok b) :
    ∃ a, x = .ok a ∧ f a = .ok b := by
  cases x with
  | error e => cases done
  | ok a => exact ⟨a, rfl, done⟩

theorem eq_ok_of_map {α β : Type} {x : Read α} {f : α → β} {b : β} (done : x.map f = .ok b) :
    ∃ a, x = .ok a ∧ f a = b := by
  cases x with
  | error e => cases done
  | ok a => exact ⟨a, rfl, Except.ok.inj done⟩

theorem eq_ok_of_build {α : Type} {r : Except TermError α} {a : α} (done : build r = .ok a) :
    r = .ok a := by
  cases r with
  | error e => cases done
  | ok b => exact congrArg Except.ok (Except.ok.inj done)

theorem optional_eq_ok {α : Type} {r : Option (Read α)} {a : Option α}
    (done : optional r = .ok a) : r = a.map .ok := by
  match r, done with
  | none, done =>
    obtain rfl := Except.ok.inj done
    rfl
  | some (.ok a), done =>
    obtain rfl := Except.ok.inj done
    rfl

private theorem fits_of_collected {α : Type} {surplus : Bool} {pair both : α}
    (done : (if surplus = true then .error ReadError.layout else .ok pair : Read α) = .ok both) :
    surplus = false ∧ pair = both := by
  cases surplus with
  | false => exact ⟨rfl, Except.ok.inj done⟩
  | true => cases done

/-- Both fields were read, as far as they are there, and nothing else is there. -/
theorem collect_eq_ok {α β : Type} {p : Parts} {first : Option (Read α)} {second : Option (Read β)}
    {both : Option α × Option β} (done : p.collect first second = .ok both) :
    p.surplus = false ∧ first = both.1.map .ok ∧ second = both.2.map .ok := by
  rw [Parts.collect] at done
  split at done
  · obtain ⟨b, gotSecond, done⟩ := eq_ok_of_bind done
    obtain ⟨a, gotFirst, done⟩ := eq_ok_of_bind done
    obtain ⟨fit, rfl⟩ := fits_of_collected done
    exact ⟨fit, optional_eq_ok gotFirst, optional_eq_ok gotSecond⟩
  · obtain ⟨a, gotFirst, done⟩ := eq_ok_of_bind done
    obtain ⟨b, gotSecond, done⟩ := eq_ok_of_bind done
    obtain ⟨fit, rfl⟩ := fits_of_collected done
    exact ⟨fit, optional_eq_ok gotFirst, optional_eq_ok gotSecond⟩

theorem required_eq_ok {α : Type} {r : Option α} {a : α} (done : required r = .ok a) :
    r = some a := by
  cases r with
  | none => cases done
  | some b => exact congrArg some (Except.ok.inj done)

/-- The value is laid out as an application: a record with a function symbol for its root and a list
of terms for its children. -/
def LaidOut (j : Json) (f : FunctionSymbol) (args : List (Term Label)) : Prop :=
  ∃ p, parts "root" "children" j = .ok p ∧ p.surplus = false ∧
    p.first.map functionSymbol = some (.ok f) ∧ p.second.map children = some (.ok args)

/-- Once its parts are read, an application is built as any other. -/
theorem application_of_laidOut {j : Json} {f : FunctionSymbol} {args : List (Term Label)}
    (laidOut : LaidOut j f args) : application j = build (f.apply args) := by
  obtain ⟨p, parted, fits, root, arguments⟩ := laidOut
  rw [application_eq,
    record_of_parts (a := some f) (b := some args) parted fits root arguments]
  rfl

theorem laidOut_of_application {j : Json} {t : Term Label} (done : application j = .ok t) :
    ∃ f args, LaidOut j f args ∧ f.apply args = .ok t := by
  rw [application_eq] at done
  obtain ⟨p, parted, done⟩ := eq_ok_of_bind done
  obtain ⟨⟨root, arguments⟩, collected, done⟩ := eq_ok_of_bind done
  obtain ⟨f, gotRoot, done⟩ := eq_ok_of_bind done
  obtain ⟨args, gotArguments, done⟩ := eq_ok_of_bind done
  obtain rfl := required_eq_ok gotRoot
  obtain rfl := required_eq_ok gotArguments
  obtain ⟨fits, first, second⟩ := collect_eq_ok collected
  exact ⟨f, args, ⟨p, parted, fits, first, second⟩, eq_ok_of_build done⟩

/-- Whatever is read as terms is well-formed, as the readers call one another. -/
theorem wellFormed_of_read :
    (∀ j t, term j = .ok t → t.WellFormed) ∧ (∀ j t, application j = .ok t → t.WellFormed) ∧
    (∀ j ts, children j = .ok ts → ∀ t ∈ ts, t.WellFormed) ∧
    ∀ items ts, terms items = .ok ts → ∀ t ∈ ts, t.WellFormed := by
  apply Read.term.mutual_induct
  case case1 =>
    intro body t done
    rw [term, if_pos rfl] at done
    obtain ⟨c, -, rfl⟩ := eq_ok_of_map done
    exact trivial
  case case2 =>
    intro body other t done
    rw [term, if_neg other, if_pos rfl] at done
    obtain ⟨l, -, rfl⟩ := eq_ok_of_map done
    exact trivial
  case case3 =>
    intro body other other' ih t done
    rw [term, if_neg other, if_neg other', if_pos rfl] at done
    exact ih t done
  case case4 =>
    intro kind body noConstant noVariable noApplication t done
    rw [term, if_neg noConstant, if_neg noVariable, if_neg noApplication] at done
    cases done
  case case5 =>
    intro j noKind t done
    rw [term] at done
    · cases done
    · exact noKind
  case case6 =>
    intro j e notParted t done
    rw [application_eq, notParted] at done
    cases done
  case case7 =>
    intro j p parted ih t done
    obtain ⟨f, args, ⟨p', parted', -, -, arguments⟩, applied⟩ := laidOut_of_application done
    obtain rfl := Except.ok.inj (parted.symm.trans parted')
    obtain ⟨part, there, read⟩ := Option.map_eq_some_iff.1 arguments
    exact FunctionSymbol.wellFormed_apply (ih part there args read) applied
  case case8 =>
    intro items ih ts done
    rw [children] at done
    exact ih ts done
  case case9 =>
    intro j noArray ts done
    rw [children] at done
    · cases done
    · exact noArray
  case case10 =>
    intro ts done
    rw [terms] at done
    obtain rfl := Except.ok.inj done
    exact fun t member => absurd member List.not_mem_nil
  case case11 =>
    intro j rest ihTerm ihRest ts done
    rw [terms] at done
    obtain ⟨t, first, done⟩ := eq_ok_of_bind done
    obtain ⟨us, others, done⟩ := eq_ok_of_bind done
    obtain rfl := Except.ok.inj done
    exact List.forall_mem_cons.2 ⟨ihTerm t first, ihRest us others⟩

theorem wellFormed_of_binding {j : Json} {b : Label × Term Label} (done : binding j = .ok b) :
    b.2.WellFormed := by
  match j, done with
  | .array items, done =>
    obtain ⟨⟨l, t⟩, collected, done⟩ := eq_ok_of_bind done
    obtain ⟨l', -, done⟩ := eq_ok_of_bind done
    obtain ⟨t', gotTerm, done⟩ := eq_ok_of_bind done
    obtain rfl := Except.ok.inj done
    obtain rfl := required_eq_ok gotTerm
    obtain ⟨-, -, second⟩ := collect_eq_ok collected
    obtain ⟨part, -, read⟩ := Option.map_eq_some_iff.1 second
    exact wellFormed_of_read.1 part t' read

theorem wellFormed_of_bindings {items : List Json} {bs : List (Label × Term Label)}
    (done : items.mapM binding = .ok bs) : ∀ b ∈ bs, b.2.WellFormed := by
  induction items generalizing bs with
  | nil =>
    obtain rfl := Except.ok.inj done
    exact fun b member => absurd member List.not_mem_nil
  | cons j items ih =>
    rw [List.mapM_cons] at done
    obtain ⟨b, first, done⟩ := eq_ok_of_bind done
    obtain ⟨cs, others, done⟩ := eq_ok_of_bind done
    obtain rfl := Except.ok.inj done
    exact List.forall_mem_cons.2 ⟨wellFormed_of_binding first, ih others⟩

theorem wellFormed_of_substitution {j : Json} {s : Substitution Label}
    (done : substitution j = .ok s) : s.WellFormed := by
  match j, done with
  | .array items, done =>
    obtain ⟨bs, read, rfl⟩ := eq_ok_of_map done
    exact Substitution.wellFormed_ofList (wellFormed_of_bindings read)

end TermAlgebra.Read

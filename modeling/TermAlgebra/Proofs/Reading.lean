import TermAlgebra.Exchange.Read
import TermAlgebra.Exchange.Write
import TermAlgebra.Proofs.WellFormed
/-!
Reading values of the exchange form, as far as their layout goes: each reader gives back what was
written. Which of two fields a reader visits first does not matter when both can be read
(`record_of_parts`). Arities are checked after everything else, and a well-formed term passes.
-/
namespace TermAlgebra

theorem Term.toJsonAll_eq_map (ts : List (Term Label)) :
    Term.toJsonAll ts = ts.map Term.toJson := by
  induction ts with
  | nil => rfl
  | cons t ts ih => rw [Term.toJsonAll, ih, List.map_cons]

namespace Read

theorem optional_map_ok {α : Type} (a : Option α) : optional (a.map .ok) = .ok a := by
  cases a <;> rfl

theorem collect_map_ok {α β : Type} {p : Parts} (fits : p.surplus = false) (a : Option α)
    (b : Option β) : p.collect (a.map .ok) (b.map .ok) = .ok (a, b) := by
  rw [Parts.collect, optional_map_ok, optional_map_ok, fits]
  cases p.secondFirst <;> rfl

/-- Of a record whose parts can be read, as far as they are there, both are collected. -/
theorem record_of_parts {α β γ : Type} {first second : String} {j : Json} {p : Parts}
    {readFirst : Json → Read α} {readSecond : Json → Read β} {a : Option α} {b : Option β}
    (parted : parts first second j = .ok p) (fits : p.surplus = false)
    (gotFirst : p.first.map readFirst = a.map .ok) (gotSecond : p.second.map readSecond = b.map .ok)
    (make : Option α × Option β → Read γ) :
    (do
      let p ← parts first second j
      let both ← p.collect (p.first.map readFirst) (p.second.map readSecond)
      make both) = make (a, b) := by
  rw [parted]
  show (p.collect (p.first.map readFirst) (p.second.map readSecond) >>= make) = make (a, b)
  rw [gotFirst, gotSecond, collect_map_ok fits]
  rfl

theorem word_natural {n : Nat} (small : n < UInt64.size) : word (.natural n) = .ok (.ofNat n) :=
  if_pos small

theorem word_toNat (i : UInt64) : word (.natural i.toNat) = .ok i := by
  rw [word_natural i.toNat_lt, UInt64.ofNat_toNat]

theorem constant_toJson (c : Constant) : constant c.toJson = .ok c := rfl

theorem functionSymbol_toJson (f : FunctionSymbol) : functionSymbol f.toJson = .ok f := by
  have arity : (some (Json.natural f.arity.toNat)).map word = (some f.arity).map .ok :=
    congrArg some (word_toNat f.arity)
  have declared : FunctionSymbol.declare f.name f.arity = .ok f := by
    rw [FunctionSymbol.declare, FunctionSymbol.ofArity?, dif_neg f.arity_ne_zero]
  rw [functionSymbol, record_of_parts (a := some f.name)
    (p := .ofFields "name" "arity"
      [("name", .string f.name), ("arity", .natural f.arity.toNat)]) rfl rfl rfl arity]
  show build (FunctionSymbol.declare f.name f.arity) = .ok f
  rw [declared]
  rfl

theorem label_toJson (l : Label) : label l.toJson = .ok l := by
  obtain ⟨name, index⟩ := l
  cases index with
  | none => rfl
  | some i =>
    have index : (some (Json.natural i.toNat)).map word? = (some (some i)).map .ok := by
      show some ((word (.natural i.toNat)).map some) = _
      rw [word_toNat]
      rfl
    rw [label, record_of_parts (a := some name)
      (p := .ofFields "name" "index"
        [("name", .string name), ("index", .natural i.toNat)]) rfl rfl rfl index]
    rfl

theorem poolConfig_toJson (c : Pool.Config) : poolConfig c.toJson = .ok c := by
  have index : (some (Json.natural c.firstIndex.toNat)).map word = (some c.firstIndex).map .ok :=
    congrArg some (word_toNat c.firstIndex)
  rw [poolConfig, record_of_parts (b := some c.anonymousName)
    (p := .ofFields "first_index" "anonymous_name"
      [("first_index", .natural c.firstIndex.toNat),
        ("anonymous_name", .string c.anonymousName)]) rfl rfl index rfl]
  rfl

/-- Reading an application is reading a record; that its parts are parts of the value matters only
to the recursion. -/
theorem application_eq (j : Json) : application j = (do
    let p ← parts "root" "children" j
    let (f, args) ← p.collect (p.first.map functionSymbol) (p.second.map children)
    let f ← required f
    let args ← required args
    build (f.apply args)) := by
  rw [application]
  split
  · rename_i e parted
    rw [parted]
    rfl
  · rename_i p parted
    rw [parted]
    show (p.collect _ _ >>= _) = (p.collect _ _ >>= _)
    congr 1
    congr 1
    split <;> rename_i there <;> rw [there] <;> rfl

theorem terms_toJson {ts : List (Term Label)} (each : ∀ t ∈ ts, term t.toJson = .ok t) :
    terms (ts.map Term.toJson) = .ok ts := by
  induction ts with
  | nil => rw [List.map_nil, terms]
  | cons t ts ih =>
    have later := ih fun u member => each u (List.mem_cons_of_mem t member)
    rw [List.map_cons, terms, each t List.mem_cons_self, later]
    rfl

theorem application_toJson {f : FunctionSymbol} {args : List (Term Label)}
    (count : args.length = f.arity.toNat) (each : ∀ t ∈ args, term t.toJson = .ok t) :
    application (Json.application f (args.map Term.toJson)) = .ok (.app f args) := by
  have root : (some f.toJson).map functionSymbol = (some f).map .ok :=
    congrArg some (functionSymbol_toJson f)
  have arguments :
      (some (Json.array (args.map Term.toJson))).map children = (some args).map .ok := by
    rw [Option.map_some, children, terms_toJson each]
    rfl
  rw [application_eq, record_of_parts
    (p := .ofFields "root" "children"
      [("root", f.toJson), ("children", .array (args.map Term.toJson))]) rfl rfl root arguments]
  show build (f.apply args) = _
  rw [FunctionSymbol.apply, if_pos count]
  rfl

theorem term_toJson {t : Term Label} (wellFormed : t.WellFormed) : term t.toJson = .ok t := by
  induction t with
  | const c =>
    rw [Term.toJson, term, if_pos rfl, constant_toJson]
    rfl
  | var l =>
    rw [Term.toJson, term, if_neg (by decide), if_pos rfl, label_toJson]
    rfl
  | app f args ih =>
    obtain ⟨count, inner⟩ := Term.wellFormed_app.1 wellFormed
    rw [Term.toJson, term, if_neg (by decide), if_neg (by decide), if_pos rfl,
      Term.toJsonAll_eq_map]
    exact application_toJson count fun t member => ih t member (inner t member)

theorem application_bodyToJson {f : FunctionSymbol} {args : List (Term Label)}
    (wellFormed : (Term.app f args).WellFormed) :
    application (Term.bodyToJson (.app f args)) = .ok (.app f args) := by
  obtain ⟨count, inner⟩ := Term.wellFormed_app.1 wellFormed
  rw [Term.bodyToJson, Term.toJsonAll_eq_map]
  exact application_toJson count fun t member => term_toJson (inner t member)

theorem mapM_map_ok {α β ε : Type} {read : β → Except ε α} {write : α → β} {as : List α}
    (each : ∀ a ∈ as, read (write a) = .ok a) : (as.map write).mapM read = .ok as := by
  induction as with
  | nil => rfl
  | cons a as ih =>
    have later := ih fun b member => each b (List.mem_cons_of_mem a member)
    rw [List.map_cons, List.mapM_cons, each a List.mem_cons_self, later]
    rfl

theorem position_toJson {p : Position} (small : ∀ i ∈ p, i < UInt64.size) :
    position p.toJson = .ok p := by
  refine mapM_map_ok fun i member => ?_
  rw [word_natural (small i member)]
  show Except.ok (UInt64.ofNat i).toNat = _
  rw [UInt64.toNat_ofNat_of_lt' (small i member)]

theorem binding_toJson {b : Label × Term Label} (wellFormed : b.2.WellFormed) :
    binding (.array [b.1.toJson, b.2.toJson]) = .ok b := by
  have both := collect_map_ok (p := .ofItems [b.1.toJson, b.2.toJson]) rfl (some b.1) (some b.2)
  show ((Parts.ofItems [b.1.toJson, b.2.toJson]).collect (some (label b.1.toJson))
    (some (term b.2.toJson)) >>= _) = _
  rw [label_toJson, term_toJson wellFormed]
  rfl

end Read

/-- Pairs as they are written, each an array of a variable and a term. -/
def Json.ofPairs (pairs : List (Label × Term Label)) : Json :=
  .array (pairs.map fun b => .array [b.1.toJson, b.2.toJson])

/-- Pairs that are read are collected. -/
theorem Read.substitution_ofPairs {pairs : List (Label × Term Label)}
    (wellFormed : ∀ b ∈ pairs, b.2.WellFormed) :
    substitution (.ofPairs pairs) = .ok (.ofList pairs) := by
  have bindings : (pairs.map fun b => Json.array [b.1.toJson, b.2.toJson]).mapM binding =
      .ok pairs := mapM_map_ok fun b member => binding_toJson (wellFormed b member)
  exact congrArg (Except.map Substitution.ofList) bindings

/-- The bindings of a substitution are collected into that substitution again. -/
theorem Substitution.ofList_toList {ν : Type} [BEq ν] (s : Substitution ν) : ofList s.toList = s :=
  Substitution.ext (Table.ofList_entries s.bindings)

/-- The bindings of a substitution have distinct variables, so collecting them keeps them all, in
their order. -/
theorem Read.substitution_toJson {s : Substitution Label}
    (wellFormed : ∀ b ∈ s.toList, b.2.WellFormed) : substitution s.toJson = .ok s :=
  (substitution_ofPairs wellFormed).trans (congrArg Except.ok s.ofList_toList)

end TermAlgebra

import TermAlgebra.Exchange.Text
import TermAlgebra.Proofs.ReadTerms
import TermAlgebra.Proofs.RoundTrip
import TermAlgebra.Proofs.SubtermEnumeration
/-!
What a client can make. `Makes` says once what each operation makes of things already in hand:
symbols and applications, parts of terms, replacements, substitutions and what they are applied to,
and whatever can be read. No operation makes an ill-formed term of well-formed ones (`makes_sound`),
so no sequence of operations does, although the number of arguments is checked only where a symbol
is applied and where an application is read.
-/
namespace TermAlgebra

/-- What a client can have in hand. -/
inductive Item where
  | func (f : FunctionSymbol)
  | symbol (x : Symbol Variable)
  | term (t : Term Variable)
  | application (a : Application Variable)
  | substitution (s : Substitution Variable)

/-- What one operation that succeeds makes of the things in hand. Constants and variables can be had
at any time, the latter with any origin. -/
inductive Makes (held : List Item) : Item → Prop where
  | declare {name : String} {arity : UInt64} {f : FunctionSymbol}
      (declared : FunctionSymbol.declare name arity = .ok f) : Makes held (.func f)
  | const (c : Constant) : Makes held (.term (.const c))
  | var (v : Variable) : Makes held (.term (.var v))
  | apply {f : FunctionSymbol} {args : List (Term Variable)} {t : Term Variable}
      (symbol : .func f ∈ held) (arguments : ∀ u ∈ args, .term u ∈ held)
      (applied : f.apply args = .ok t) : Makes held (.term t)
  -- Symbols
  | symbolOfConst (c : Constant) : Makes held (.symbol (.const c))
  | symbolOfVar (v : Variable) : Makes held (.symbol (.var v))
  | symbolOfFunc {f : FunctionSymbol} (symbol : .func f ∈ held) : Makes held (.symbol (.func f))
  | ofSymbol {x : Symbol Variable} {t : Term Variable} (symbol : .symbol x ∈ held)
      (converted : x.toTerm = .ok t) : Makes held (.term t)
  -- Parts
  | root {t : Term Variable} {f : FunctionSymbol} (whole : .term t ∈ held)
      (atRoot : t.root? = some f) : Makes held (.func f)
  | child {t u : Term Variable} (whole : .term t ∈ held) (part : u ∈ t.children) :
      Makes held (.term u)
  | application {t : Term Variable} {a : Application Variable} (whole : .term t ∈ held)
      (inside : t.asApplication? = some a) : Makes held (.application a)
  | ofApplication {a : Application Variable} (whole : .application a ∈ held) :
      Makes held (.term a.toTerm)
  | argument {a : Application Variable} {u : Term Variable} (whole : .application a ∈ held)
      (part : u ∈ a.args) : Makes held (.term u)
  | subtermAt {t u : Term Variable} {p : Position} (whole : .term t ∈ held)
      (found : t.subtermAt p = .ok u) : Makes held (.term u)
  | subterm {t u : Term Variable} {p : Position} (whole : .term t ∈ held)
      (listed : (p, u) ∈ t.subterms) : Makes held (.term u)
  | replaceAt {t r t' : Term Variable} {p : Position} (whole : .term t ∈ held)
      (replacement : .term r ∈ held) (done : t.replaceAt p r = .ok t') : Makes held (.term t')
  -- Substitutions
  | collect {pairs : List (Variable × Term Variable)} (terms : ∀ b ∈ pairs, .term b.2 ∈ held) :
      Makes held (.substitution (.ofList pairs))
  | ofTable {bindings : Table Variable (Term Variable)}
      (terms : ∀ b ∈ bindings.entries, .term b.2 ∈ held) : Makes held (.substitution ⟨bindings⟩)
  | compose {outer inner : Substitution Variable} (first : .substitution outer ∈ held)
      (second : .substitution inner ∈ held) : Makes held (.substitution (outer.compose inner))
  | bound {s : Substitution Variable} {b : Variable × Term Variable}
      (whole : .substitution s ∈ held) (binding : b ∈ s.toList) : Makes held (.term b.2)
  | applyTerm {s : Substitution Variable} {t : Term Variable} (acting : .substitution s ∈ held)
      (operand : .term t ∈ held) : Makes held (.term (s.apply t))
  | applyVar {s : Substitution Variable} (acting : .substitution s ∈ held) (v : Variable) :
      Makes held (.term (s.image v))
  | applyArgs {s : Substitution Variable} {a : Application Variable}
      (acting : .substitution s ∈ held) (operand : .application a ∈ held) :
      Makes held (.application (s.applyToArgs a))
  | applySymbol {s : Substitution Variable} {x : Symbol Variable} {t : Term Variable}
      (acting : .substitution s ∈ held) (operand : .symbol x ∈ held)
      (applied : s.applySymbol x = .ok t) : Makes held (.term t)
  -- Reading
  | readFunc {j : Json} {f : FunctionSymbol} (read : Read.functionSymbol j = .ok f) :
      Makes held (.func f)
  | readTerm {j : Json} {t : Term Label} (read : Read.term j = .ok t) (serial : Nat) :
      Makes held (.term (t.instances serial).1)
  | readApplication {j : Json} {t : Term Label} {a : Application Variable} {serial : Nat}
      (read : Read.application j = .ok t) (new : a.toTerm = (t.instances serial).1) :
      Makes held (.application a)
  | readSubstitution {j : Json} {s : Substitution Label} (read : Read.substitution j = .ok s)
      (serial : Nat) : Makes held (.substitution (.ofList (Substitution.instances serial s.toList)))

/-- What a client can come to have in hand by operations one after another, the latest first. -/
inductive Made : List Item → Prop where
  | nothing : Made []
  | more {held : List Item} {item : Item} (before : Made held) (made : Makes held item) :
      Made (item :: held)

/-- All the terms in it are well-formed. -/
def Item.Sound : Item → Prop
  | func _ | symbol _ => True
  | term t => t.WellFormed
  | application a => a.toTerm.WellFormed
  | substitution s => s.WellFormed

/-- Giving instances to labels leaves the number of arguments as it is. -/
theorem Term.wellFormed_instances {t : Term Label} (wellFormed : t.WellFormed) (serial : Nat) :
    (t.instances serial).1.WellFormed := by
  rw [← wellFormed_map Variable.label]
  show (t.instances serial).1.labels.WellFormed
  rw [labels_instances]
  exact wellFormed

theorem Substitution.wellFormed_instances {pairs : List (Label × Term Label)}
    (each : ∀ b ∈ pairs, b.2.WellFormed) (serial : Nat) :
    ∀ b ∈ instances serial pairs, b.2.WellFormed := by
  induction pairs generalizing serial with
  | nil => exact fun b member => absurd member List.not_mem_nil
  | cons b pairs ih =>
    obtain ⟨first, others⟩ := List.forall_mem_cons.1 each
    rw [instances, List.forall_mem_cons]
    exact ⟨Term.wellFormed_instances first (serial + 1), ih others _⟩

theorem Symbol.wellFormed_toTerm {ν : Type} {x : Symbol ν} {t : Term ν}
    (converted : x.toTerm = .ok t) : t.WellFormed := by
  cases x with
  | const c =>
    obtain rfl := Except.ok.inj converted
    exact trivial
  | func f => cases converted
  | var v =>
    obtain rfl := Except.ok.inj converted
    exact trivial

theorem Substitution.applySymbol_eq_ok {s : Substitution Variable} {x : Symbol Variable}
    {t : Term Variable} (applied : s.applySymbol x = .ok t) :
    ∃ u, x.toTerm = .ok u ∧ t = s.apply u := by
  rw [applySymbol] at applied
  cases converted : x.toTerm with
  | error e =>
    rw [converted] at applied
    cases applied
  | ok u =>
    rw [converted] at applied
    exact ⟨u, rfl, (Except.ok.inj applied).symm⟩

theorem makes_sound {held : List Item} {item : Item} (sound : ∀ i ∈ held, i.Sound)
    (made : Makes held item) : item.Sound := by
  cases made with
  | declare declared => exact trivial
  | const c => exact trivial
  | var v => exact trivial
  | apply symbol arguments applied =>
    exact FunctionSymbol.wellFormed_apply (fun u member => sound _ (arguments u member)) applied
  | symbolOfConst c => exact trivial
  | symbolOfVar v => exact trivial
  | symbolOfFunc symbol => exact trivial
  | ofSymbol symbol converted => exact Symbol.wellFormed_toTerm converted
  | root whole atRoot => exact trivial
  | child whole part => exact Term.wellFormed_of_mem_children (sound _ whole) part
  | @application t a whole inside =>
    cases t with
    | const c => cases inside
    | var v => cases inside
    | app f args =>
      obtain rfl := Option.some.inj inside
      exact sound (.term (.app f args)) whole
  | @ofApplication a whole => exact sound (.application a) whole
  | argument whole part => exact Term.wellFormed_of_mem_children (sound _ whole) part
  | subtermAt whole found =>
    exact Term.wellFormed_subterm? (sound _ whole) (Term.subtermAt_eq_ok_iff.1 found)
  | subterm whole listed =>
    exact Term.wellFormed_subterm? (sound _ whole) (Term.mem_subterms.1 listed)
  | replaceAt whole replacement done =>
    exact Term.wellFormed_replace? (sound _ whole) (sound _ replacement)
      (Term.replaceAt_eq_ok_iff.1 done)
  | collect terms => exact Substitution.wellFormed_ofList fun b member => sound _ (terms b member)
  | ofTable terms => exact fun b member => sound _ (terms b member)
  | compose first second => exact Substitution.wellFormed_compose (sound _ first) (sound _ second)
  | bound whole binding => exact sound _ whole _ binding
  | applyTerm acting operand =>
    exact Substitution.wellFormed_apply (sound _ acting) (sound _ operand)
  | applyVar acting v => exact Substitution.wellFormed_image (sound _ acting) v
  | applyArgs acting operand =>
    show (Substitution.applyToArgs _ _).toTerm.WellFormed
    rw [Substitution.toTerm_applyToArgs]
    exact Substitution.wellFormed_apply (sound _ acting) (sound _ operand)
  | applySymbol acting operand applied =>
    obtain ⟨u, converted, rfl⟩ := Substitution.applySymbol_eq_ok applied
    exact Substitution.wellFormed_apply (sound _ acting) (Symbol.wellFormed_toTerm converted)
  | readFunc read => exact trivial
  | readTerm read serial =>
    exact Term.wellFormed_instances (Read.wellFormed_of_read.1 _ _ read) serial
  | readApplication read new =>
    show Term.WellFormed _
    rw [new]
    exact Term.wellFormed_instances (Read.wellFormed_of_read.2.1 _ _ read) _
  | readSubstitution read serial =>
    exact Substitution.wellFormed_ofList
      (Substitution.wellFormed_instances (Read.wellFormed_of_substitution read) serial)

theorem made_sound {held : List Item} (made : Made held) : ∀ i ∈ held, i.Sound := by
  induction made with
  | nothing => exact fun i member => absurd member List.not_mem_nil
  | more before step ih => exact List.forall_mem_cons.2 ⟨makes_sound ih step, ih⟩

theorem Term.arguments_of_wellFormed {ν : Type} {t : Term ν} {p : Position} {f : FunctionSymbol}
    {args : List (Term ν)} (wellFormed : t.WellFormed) (found : t.subtermAt p = .ok (.app f args)) :
    1 ≤ f.arity.toNat ∧ args.length = f.arity.toNat := by
  have count := (wellFormed_app.1 (wellFormed_subterm? wellFormed (subtermAt_eq_ok_iff.1 found))).1
  have notZero : f.arity.toNat ≠ 0 := fun zero => f.arity_ne_zero (UInt64.toNat_inj.1 zero)
  exact ⟨Nat.one_le_iff_ne_zero.2 notZero, count⟩

/-- Wherever an application stands in a term that any operations have made, its symbol takes
arguments, and it has as many as the symbol takes. Applying a symbol and reading an application
succeed exactly for the right number of arguments, and otherwise report the same error. -/
theorem arguments_match_arity :
    (∀ held, Made held → ∀ t, .term t ∈ held → ∀ p f args, t.subtermAt p = .ok (.app f args) →
      1 ≤ f.arity.toNat ∧ args.length = f.arity.toNat) ∧
    (∀ (f : FunctionSymbol) (args : List (Term Variable)),
      (f.apply args = .ok (.app f args) ↔ args.length = f.arity.toNat) ∧
      (args.length ≠ f.arity.toNat → f.apply args = .error (.arityMismatch f args.length))) ∧
    (∀ j f args, Read.LaidOut j f args →
      (Read.application j = .ok (.app f args) ↔ args.length = f.arity.toNat) ∧
      (args.length ≠ f.arity.toNat →
        Read.application j = .error (.rejected (.arityMismatch f args.length)))) ∧
    ∀ f found, (ReadError.rejected (.arityMismatch f found)).message =
        (TermError.arityMismatch f found).message ∧
      (TermError.arityMismatch f found).message =
        "Incorrect number of child terms for " ++ f.text ++ ": expected " ++ f.arity.toNat.repr ++
          ", found " ++ found.repr := by
  refine ⟨?made, ?apply, ?read, fun f found => ⟨rfl, rfl⟩⟩
  case made =>
    intro held made t member p f args found
    exact Term.arguments_of_wellFormed (made_sound made _ member) found
  case apply =>
    intro f args
    rw [FunctionSymbol.apply_eq_ok_iff]
    exact ⟨and_iff_left rfl, FunctionSymbol.apply_of_mismatch⟩
  case read =>
    intro j f args laidOut
    rw [Read.application_of_laidOut laidOut]
    constructor
    · constructor
      · exact fun built => (FunctionSymbol.apply_eq_ok_iff.1 (Read.eq_ok_of_build built)).1
      · intro count
        rw [FunctionSymbol.apply_eq_ok_iff.2 ⟨count, rfl⟩]
        rfl
    · intro mismatch
      rw [FunctionSymbol.apply_of_mismatch mismatch]
      rfl

/-- A term made by a substitution and one that is not read because its symbol lacks an argument. -/
theorem arguments_match_arity_nested :
    let g : FunctionSymbol := ⟨"g", 1, by decide⟩
    let c : Term Variable := .const ⟨"c"⟩
    let x : Variable := ⟨⟨"x", none⟩, .free 0⟩
    let s : Substitution Variable := .ofList [(x, .app g [c])]
    let bare : Json := .object [("root", g.toJson), ("children", .array [])]
    Made [.term (s.apply (.app g [.var x])), .term (.app g [.var x]), .term (.var x),
      .substitution s, .term (.app g [c]), .term c, .func g] ∧
    (s.apply (.app g [.var x])).subtermAt [0] = .ok (.app g [c]) ∧ [c].length = g.arity.toNat ∧
    Read.LaidOut bare g [] ∧ ([] : List (Term Label)).length ≠ g.arity.toNat ∧
    Read.application bare = .error (.rejected (.arityMismatch g 0)) := by
  intro g c x s bare
  have declared : FunctionSymbol.declare "g" 1 = .ok g := rfl
  have one (t : Term Variable) : g.apply [t] = .ok (.app g [t]) := rfl
  have first : Made [.term (.app g [c]), .term c, .func g] :=
    .more (.more (.more .nothing (.declare declared)) (.const _))
      (.apply (f := g) (by simp) (by simp) (one c))
  have bound : Made [.substitution s, .term (.app g [c]), .term c, .func g] :=
    .more first (.collect (by simp))
  have applied : Made [.term (.app g [.var x]), .term (.var x), .substitution s,
      .term (.app g [c]), .term c, .func g] :=
    .more (.more bound (.var x)) (.apply (f := g) (by simp) (by simp) (one (.var x)))
  have made := Made.more applied (.applyTerm (s := s) (t := .app g [.var x]) (by simp) (by simp))
  have found : (s.apply (.app g [.var x])).subtermAt [0] = .ok (.app g [c]) := rfl
  have noChildren : Read.children (.array []) = .ok [] := by rw [Read.children, Read.terms]
  have laidOut : Read.LaidOut bare g [] :=
    ⟨.ofFields "root" "children" [("root", g.toJson), ("children", .array [])], rfl, rfl,
      congrArg some (Read.functionSymbol_toJson g), congrArg some noChildren⟩
  have mismatch : ([] : List (Term Label)).length ≠ g.arity.toNat := by decide
  obtain ⟨terms, -, readings, -⟩ := arguments_match_arity
  exact ⟨made, found, (terms _ made _ (by simp) _ _ _ found).2, laidOut, mismatch,
    (readings bare g [] laidOut).2 mismatch⟩

end TermAlgebra
